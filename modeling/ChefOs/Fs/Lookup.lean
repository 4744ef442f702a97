import ChefOs.Fs.Tree

/-!
# Path lookup

`vfs_lookup` cuts a path at slashes, and a component longer than 127 bytes into pieces of 127 as
well.  It resolves the pieces one at a time, so a long component is found where its pieces name a
chain of nodes, although no node has a name that long.
-/

namespace ChefOs

open Kit

/-- The name of a node. -/
def nodeName (s : Fs) (n : ℕ) : Option (List UInt8) := (s.nodes[n]?).map fun e => cstr e.name

/-- `m` is the first child of `n` whose whole name is `c`. -/
def FirstChild (s : Fs) (n : ℕ) (c : List UInt8) (m : ℕ) : Prop :=
  ∃ e before after, s.nodes[n]? = some e ∧ e.children = before ++ m :: after ∧
    nodeName s m = some c ∧ ∀ k ∈ before, nodeName s k ≠ some c

/-- Resolving components one at a time from `n` leads to `m`. -/
inductive Reaches (s : Fs) : ℕ → List (List UInt8) → ℕ → Prop
  | here (n : ℕ) : Reaches s n [] n
  | child {n k m : ℕ} {c : List UInt8} {cs : List (List UInt8)} (first : FirstChild s n c k)
      (rest : Reaches s k cs m) : Reaches s n (c :: cs) m

/-- A path component: neither empty nor cut by a slash or a terminator. -/
structure Component (c : List UInt8) : Prop where
  nonempty : c ≠ []
  noSlash : slash ∉ c
  noNul : 0 ∉ c

/-- The pieces a component is cut into. -/
def pieces (c : List UInt8) : List (List UInt8) :=
  if c.length ≤ 127 then [c] else c.take 127 :: pieces (c.drop 127)
termination_by c.length
decreasing_by
  rw [List.length_drop]
  omega

theorem pieces_of_short {c : List UInt8} (h : c.length ≤ 127) : pieces c = [c] := by
  rw [pieces, if_pos h]

theorem pieces_of_long {c : List UInt8} (h : ¬ c.length ≤ 127) :
    pieces c = c.take 127 :: pieces (c.drop 127) := by
  rw [pieces, if_neg h]

theorem flatMap_pieces {comps : List (List UInt8)} (short : ∀ c ∈ comps, c.length ≤ 127) :
    comps.flatMap pieces = comps := by
  induction comps with
  | nil => rfl
  | cons c comps ih =>
    rw [List.flatMap_cons, pieces_of_short (short c List.mem_cons_self),
      ih fun d hd => short d (List.mem_cons_of_mem _ hd)]
    rfl

/-! ## One component -/

theorem FirstChild.unique {s : Fs} {n k m : ℕ} {c : List UInt8} (hk : FirstChild s n c k)
    (hm : FirstChild s n c m) : k = m := by
  obtain ⟨e, before, after, he, hsplit, hname, hfirst⟩ := hk
  obtain ⟨e', before', after', he', hsplit', hname', hfirst'⟩ := hm
  obtain rfl := Option.some.inj (he.symm.trans he')
  rw [hsplit] at hsplit'
  rcases List.append_eq_append_iff.mp hsplit' with ⟨l, rfl, hl⟩ | ⟨l, rfl, hl⟩
  · cases l with
    | nil => exact (List.cons.inj hl).1
    | cons x l =>
      obtain ⟨rfl, -⟩ := List.cons.inj hl
      exact absurd hname (hfirst' k (by simp))
  · cases l with
    | nil => exact (List.cons.inj hl).1.symm
    | cons x l =>
      obtain ⟨rfl, -⟩ := List.cons.inj hl
      exact absurd hname' (hfirst m (by simp))

/-- The inner loop takes a component that fits up to the slash or terminator behind it. -/
theorem copyComponent_short {c rest : List UInt8} {b : UInt8} {room : ℕ} (noSlash : slash ∉ c)
    (noNul : 0 ∉ c) (fits : c.length ≤ room) (stop : b = 0 ∨ b = slash) :
    copyComponent room (c ++ b :: rest) = some (c, b :: rest) := by
  induction c generalizing room with
  | nil =>
    cases room with
    | zero => rfl
    | succ room => rw [List.nil_append, copyComponent, if_neg (by tauto)]
  | cons x c ih =>
    obtain ⟨room, rfl⟩ : ∃ k, room = k + 1 := ⟨room - 1, by simp at fits; omega⟩
    simp only [List.mem_cons, not_or] at noSlash noNul
    rw [List.cons_append, copyComponent,
      if_pos ⟨fun h => noNul.1 h.symm, fun h => noSlash.1 h.symm⟩,
      ih noSlash.2 noNul.2 (by simpa using fits)]
    rfl

/-- The inner loop stops inside a component that does not fit. -/
theorem copyComponent_long {c rest : List UInt8} {room : ℕ} (noSlash : slash ∉ c)
    (noNul : 0 ∉ c) (long : room < c.length) :
    copyComponent room (c ++ rest) = some (c.take room, c.drop room ++ rest) := by
  induction c generalizing room with
  | nil => simp at long
  | cons x c ih =>
    cases room with
    | zero => rfl
    | succ room =>
      simp only [List.mem_cons, not_or] at noSlash noNul
      rw [List.cons_append, copyComponent,
        if_pos ⟨fun h => noNul.1 h.symm, fun h => noSlash.1 h.symm⟩,
        ih noSlash.2 noNul.2 (by simpa using long)]
      rfl

/-- The loop of `ramfs_finddir` finds the first child of that name. -/
theorem finddirLoop_spec {s : Fs} (named : Named s) {name : List UInt8} (terminated : 0 ∈ name)
    {children : List ℕ} (closed : ∀ k ∈ children, k < s.nodes.length) :
    ∃ r, finddirLoop s.nodes name children = some r ∧ ∀ m, r = some m ↔
      ∃ before after, children = before ++ m :: after ∧ nodeName s m = some (cstr name) ∧
        ∀ k ∈ before, nodeName s k ≠ some (cstr name) := by
  induction children with
  | nil => exact ⟨none, rfl, fun m => by simp⟩
  | cons child children ih =>
    obtain ⟨r, call, hr⟩ := ih fun k hk => closed k (List.mem_cons_of_mem _ hk)
    have hlt := closed child List.mem_cons_self
    have hentry := List.getElem?_eq_getElem hlt
    obtain ⟨d, cmp, hd⟩ := strcmp_spec (named _ _ hentry).terminated terminated
    have hname : nodeName s child = some (cstr s.nodes[child].name) := by
      rw [nodeName, hentry]
      rfl
    simp only [finddirLoop, hentry, cmp, Option.bind_eq_bind, Option.bind_some]
    split_ifs with found
    · refine ⟨some child, rfl, fun m => ⟨fun h => ?_, fun h => ?_⟩⟩
      · obtain rfl := Option.some.inj h
        exact ⟨[], children, rfl, by rw [hname, hd.mp found], by simp⟩
      · obtain ⟨before, after, split, -, first⟩ := h
        cases before with
        | nil => rw [(List.cons.inj split).1]
        | cons k before =>
          obtain ⟨rfl, -⟩ := List.cons.inj split
          exact absurd (by rw [hname, hd.mp found]) (first child List.mem_cons_self)
    · have other : nodeName s child ≠ some (cstr name) := fun h =>
        found (hd.mpr (Option.some.inj (hname.symm.trans h)))
      refine ⟨r, call, fun m => (hr m).trans ⟨?_, ?_⟩⟩
      · rintro ⟨before, after, rfl, hm, first⟩
        refine ⟨child :: before, after, rfl, hm, fun k hk => ?_⟩
        rcases List.mem_cons.mp hk with rfl | hk
        · exact other
        · exact first k hk
      · rintro ⟨before, after, split, hm, first⟩
        cases before with
        | nil =>
          obtain ⟨rfl, -⟩ := List.cons.inj split
          exact absurd hm other
        | cons k before =>
          exact ⟨before, after, (List.cons.inj split).2, hm, fun j hj =>
            first j (List.mem_cons_of_mem _ hj)⟩

/-- `ramfs_finddir` answers the first child of that name. -/
theorem ramfsFinddir_spec {s : Fs} (named : Named s) {n : ℕ} (hn : n < s.nodes.length)
    {name : List UInt8} (terminated : 0 ∈ name) :
    ∃ r, ramfsFinddir n name s = some r ∧ ∀ m, r = some m ↔ FirstChild s n (cstr name) m := by
  have hentry := List.getElem?_eq_getElem hn
  obtain ⟨r, call, hr⟩ := finddirLoop_spec named terminated (named _ _ hentry).closed
  refine ⟨r, by rw [ramfsFinddir, hentry]; exact call, fun m => (hr m).trans ⟨?_, ?_⟩⟩
  · rintro ⟨before, after, split, hm, first⟩
    exact ⟨_, before, after, hentry, split, hm, first⟩
  · rintro ⟨e, before, after, he, split, hm, first⟩
    obtain rfl := Option.some.inj (hentry.symm.trans he)
    exact ⟨before, after, split, hm, first⟩

/-! ## Whole paths -/

/-- The answer is the node that the components lead to, if there is one. -/
def Answers (s : Fs) (n : ℕ) (comps : List (List UInt8)) (r : Option ℕ) : Prop :=
  ∀ m, r = some m ↔ Reaches s n comps m

theorem FirstChild.lt {s : Fs} {n k : ℕ} {c : List UInt8} (first : FirstChild s n c k) :
    k < s.nodes.length := by
  obtain ⟨-, -, -, -, -, name, -⟩ := first
  rw [nodeName, Option.map_eq_some_iff] at name
  obtain ⟨e, he, -⟩ := name
  exact (List.getElem?_eq_some_iff.mp he).1

/-- One round of the outer loop resolves one piece. -/
theorem lookupLoop_step {s : Fs} (inv : TreeInv s) {n fuel : ℕ} (hn : n < s.nodes.length)
    {b : UInt8} {path path' piece : List UInt8} {ps : List (List UInt8)} (more : b ≠ 0)
    (copy : copyComponent 127 (b :: path) = some (piece, path')) (noNul : 0 ∉ piece)
    (rest : ∀ m < s.nodes.length, ∃ r, lookupLoop s fuel m (skipSlash path') = some r ∧
      Answers s m ps r) :
    ∃ r, lookupLoop s (fuel + 1) n (b :: path) = some r ∧ Answers s n (piece :: ps) r := by
  have hentry := List.getElem?_eq_getElem hn
  simp only [lookupLoop, List.head?_cons, Option.bind_eq_bind, Option.bind_some, if_neg more, copy,
    hentry]
  rcases (inv.entry _ _ hentry).kind with ⟨-, dir, -⟩ | ⟨-, file, -, -, childless⟩
  · obtain ⟨r, call, hr⟩ := ramfsFinddir_spec inv.named hn (by simp : 0 ∈ piece ++ [0])
    rw [cstr_append_zero noNul] at hr
    simp only [dir, call, Option.bind_some]
    cases r with
    | none =>
      refine ⟨none, rfl, fun m => iff_of_false (by simp) ?_⟩
      rintro (_ | ⟨first, -⟩)
      exact absurd ((hr _).mpr first) (by simp)
    | some k =>
      have first := (hr k).mp rfl
      obtain ⟨r', call', hr'⟩ := rest k first.lt
      refine ⟨r', call', fun m => (hr' m).trans ⟨fun h => .child first h, ?_⟩⟩
      rintro (_ | ⟨first', h⟩)
      rwa [first.unique first']
  · simp only [file]
    refine ⟨none, rfl, fun m => iff_of_false (by simp) ?_⟩
    rintro (_ | ⟨⟨e, before, after, he, split, -⟩, -⟩)
    obtain rfl := Option.some.inj (hentry.symm.trans he)
    rw [childless] at split
    simp at split

theorem length_skipSlash_le (path : List UInt8) : (skipSlash path).length ≤ path.length := by
  cases path with
  | nil => exact le_rfl
  | cons b path =>
    rw [skipSlash]
    split_ifs
    · simp
    · exact le_rfl

/-- The rounds over one component resolve its pieces. -/
theorem lookupLoop_component {s : Fs} (inv : TreeInv s) {c rest : List UInt8} {b : UInt8}
    {ps : List (List UInt8)} (hc : Component c) (stop : b = 0 ∨ b = slash)
    (tail : ∀ fuel m, (skipSlash (b :: rest)).length ≤ fuel → m < s.nodes.length →
      ∃ r, lookupLoop s fuel m (skipSlash (b :: rest)) = some r ∧ Answers s m ps r)
    {fuel n : ℕ} (enough : (c ++ b :: rest).length ≤ fuel) (hn : n < s.nodes.length) :
    ∃ r, lookupLoop s fuel n (c ++ b :: rest) = some r ∧ Answers s n (pieces c ++ ps) r := by
  induction c using pieces.induct generalizing fuel n with
  | case1 c short =>
    obtain ⟨x, c', rfl⟩ := List.exists_cons_of_ne_nil hc.nonempty
    obtain ⟨fuel, rfl⟩ : ∃ k, fuel = k + 1 := ⟨fuel - 1, by simp at enough; omega⟩
    have copy : copyComponent 127 (x :: c' ++ b :: rest) = some (x :: c', b :: rest) :=
      copyComponent_short hc.noSlash hc.noNul short stop
    have skip := length_skipSlash_le (b :: rest)
    rw [pieces_of_short short]
    refine lookupLoop_step inv hn (fun h => hc.noNul (by simp [h])) copy hc.noNul fun m hm =>
      tail fuel m ?_ hm
    simp at enough skip ⊢
    omega
  | case2 c long ih =>
    obtain ⟨x, c', rfl⟩ := List.exists_cons_of_ne_nil hc.nonempty
    obtain ⟨fuel, rfl⟩ : ∃ k, fuel = k + 1 := ⟨fuel - 1, by simp at enough; omega⟩
    have copy : copyComponent 127 (x :: c' ++ b :: rest) =
        some ((x :: c').take 127, (x :: c').drop 127 ++ b :: rest) :=
      copyComponent_long hc.noSlash hc.noNul (by omega)
    have later : Component ((x :: c').drop 127) :=
      ⟨fun h => by simp [List.drop_eq_nil_iff] at h long; omega,
        fun h => hc.noSlash (List.mem_of_mem_drop h), fun h => hc.noNul (List.mem_of_mem_drop h)⟩
    -- the next piece does not start with a slash
    have skip : skipSlash ((x :: c').drop 127 ++ b :: rest) = (x :: c').drop 127 ++ b :: rest := by
      obtain ⟨y, d, hd⟩ := List.exists_cons_of_ne_nil later.nonempty
      have : y ≠ slash := fun h => later.noSlash (by simp [hd, h])
      rw [hd, List.cons_append, skipSlash, if_neg this]
    rw [pieces_of_long long, List.cons_append]
    refine lookupLoop_step inv hn (fun h => hc.noNul (by simp [h])) copy
      (fun h => hc.noNul (List.mem_of_mem_take h)) fun m hm => ?_
    rw [skip]
    refine ih later ?_ hm
    simp at enough ⊢
    omega

/-- A path from its first component on. -/
def encodePath (trail : List UInt8) : List (List UInt8) → List UInt8
  | [] => [0]
  | [c] => c ++ trail ++ [0]
  | c :: d :: cs => c ++ slash :: encodePath trail (d :: cs)

theorem encodePath_eq {trail : List UInt8} {comps : List (List UInt8)} (nonempty : comps ≠ []) :
    encodePath trail comps = [slash].intercalate comps ++ trail ++ [0] := by
  induction comps with
  | nil => exact absurd rfl nonempty
  | cons c comps ih =>
    cases comps with
    | nil => rw [encodePath, List.intercalate_singleton]
    | cons d comps =>
      rw [encodePath, ih (List.cons_ne_nil _ _), List.intercalate_cons_cons]
      simp

/-- Behind a component comes a slash or the terminator, and then the rest of the path. -/
theorem encodePath_cons {trail : List UInt8} (ht : trail = [] ∨ trail = [slash]) (c : List UInt8)
    (cs : List (List UInt8)) :
    ∃ b rest, (b = 0 ∨ b = slash) ∧ encodePath trail (c :: cs) = c ++ b :: rest ∧
      skipSlash (b :: rest) = encodePath trail cs := by
  cases cs with
  | nil =>
    rcases ht with rfl | rfl
    · exact ⟨0, [], Or.inl rfl, by simp [encodePath], rfl⟩
    · exact ⟨slash, [0], Or.inr rfl, by simp [encodePath], rfl⟩
  | cons d cs =>
    exact ⟨slash, encodePath trail (d :: cs), Or.inr rfl, rfl, by rw [skipSlash, if_pos rfl]⟩

theorem lookupLoop_path {s : Fs} (inv : TreeInv s) {trail : List UInt8}
    (ht : trail = [] ∨ trail = [slash]) {comps : List (List UInt8)}
    (valid : ∀ c ∈ comps, Component c) {fuel n : ℕ}
    (enough : (encodePath trail comps).length ≤ fuel) (hn : n < s.nodes.length) :
    ∃ r, lookupLoop s fuel n (encodePath trail comps) = some r ∧
      Answers s n (comps.flatMap pieces) r := by
  induction comps generalizing fuel n with
  | nil =>
    obtain ⟨fuel, rfl⟩ : ∃ k, fuel = k + 1 := ⟨fuel - 1, by simp [encodePath] at enough; omega⟩
    refine ⟨some n, rfl, fun m => ⟨fun h => ?_, ?_⟩⟩
    · rw [Option.some.inj h]
      exact .here m
    · rintro ⟨⟩
      rfl
  | cons c comps ih =>
    obtain ⟨b, rest, stop, split, skip⟩ := encodePath_cons ht c comps
    rw [split] at enough ⊢
    refine lookupLoop_component inv (valid c List.mem_cons_self) stop (fun fuel m h hm => ?_)
      enough hn
    rw [skip] at h ⊢
    exact ih (fun d hd => valid d (List.mem_cons_of_mem _ hd)) h hm

/-- A path with a component is not the path of the root. -/
theorem strcmp_root {lead path : List UInt8} {x : UInt8} (hl : lead = [] ∨ lead = [slash])
    (hx : x ≠ slash) (hx0 : x ≠ 0) (terminated : 0 ∈ path) :
    ∃ d, strcmp (lead ++ x :: path) (cString ['/']) = some d ∧ d ≠ 0 := by
  have hroot : cstr (cString ['/']) = [slash] := by decide
  obtain ⟨d, cmp, hd⟩ := strcmp_spec (by simp [terminated] : 0 ∈ lead ++ x :: path)
    (by decide : 0 ∈ cString ['/'])
  refine ⟨d, cmp, fun h => ?_⟩
  have same := hd.mp h
  rw [hroot] at same
  rcases hl with rfl | rfl
  · simp [cstr, hx0, hx] at same
  · simp [cstr, hx0, slash] at same

/-- `vfs_lookup` resolves the pieces of the components. -/
theorem vfsLookup_answers {s : Fs} (inv : TreeInv s) {comps : List (List UInt8)}
    (nonempty : comps ≠ []) (valid : ∀ c ∈ comps, Component c) {lead trail : List UInt8}
    (hl : lead = [] ∨ lead = [slash]) (ht : trail = [] ∨ trail = [slash]) :
    ∃ r, vfsLookup (some (lead ++ [slash].intercalate comps ++ trail ++ [0])) s = some r ∧
      Answers s 0 (comps.flatMap pieces) r := by
  have enough : (encodePath trail comps).length ≤ (lead ++ encodePath trail comps).length := by
    simp
  obtain ⟨r, call, hr⟩ := lookupLoop_path inv ht valid enough inv.rooted
  refine ⟨r, ?_, hr⟩
  rw [List.append_assoc, List.append_assoc, ← List.append_assoc ([slash].intercalate _),
    ← encodePath_eq nonempty]
  -- the first component starts with neither a slash nor a terminator
  obtain ⟨c, cs, rfl⟩ := List.exists_cons_of_ne_nil nonempty
  have hc := valid c List.mem_cons_self
  obtain ⟨x, c', rfl⟩ := List.exists_cons_of_ne_nil hc.nonempty
  have hx : x ≠ slash := fun h => hc.noSlash (by simp [h])
  have hx0 : x ≠ 0 := fun h => hc.noNul (by simp [h])
  obtain ⟨path, split, terminated⟩ : ∃ path, encodePath trail ((x :: c') :: cs) = x :: path ∧
      0 ∈ path := by
    have h : encodePath trail ((x :: c') :: cs) = _ := encodePath_eq nonempty
    obtain ⟨b, rest, -, split, -⟩ := encodePath_cons ht (x :: c') cs
    refine ⟨c' ++ b :: rest, split, ?_⟩
    have : (0 : UInt8) ∈ encodePath trail ((x :: c') :: cs) := by simp [h]
    rw [split, List.cons_append] at this
    exact (List.mem_cons.mp this).resolve_left fun h => hx0 h.symm
  have skip : skipSlash (lead ++ x :: path) = x :: path := by
    rcases hl with rfl | rfl
    · rw [List.nil_append, skipSlash, if_neg hx]
    · rw [List.singleton_append, skipSlash, if_pos rfl]
  obtain ⟨d, cmp, hd⟩ := strcmp_root hl hx hx0 terminated
  rw [split] at call ⊢
  simp only [vfsLookup, inv.root, cmp, Option.bind_eq_bind, Option.bind_some, if_neg hd, skip]
  exact call

/-- A chain of nodes has short names. -/
theorem Reaches.short {s : Fs} (inv : TreeInv s) {n m : ℕ} {comps : List (List UInt8)}
    (reaches : Reaches s n comps m) : ∀ c ∈ comps, c.length ≤ 127 := by
  induction reaches with
  | here n => simp
  | child first _ ih =>
    obtain ⟨-, -, -, -, -, name, -⟩ := first
    rw [nodeName, Option.map_eq_some_iff] at name
    obtain ⟨e, he, rfl⟩ := name
    intro c hc
    rcases List.mem_cons.mp hc with rfl | hc
    · exact (inv.entry _ e he).short
    · exact ih c hc

/-- `vfs_lookup` answers the node that the components name, unless a component is too long and its
pieces name a node. -/
theorem vfsLookup_correct_iff {s : Fs} (built : Built s) {comps : List (List UInt8)}
    (nonempty : comps ≠ []) (valid : ∀ c ∈ comps, Component c) {lead trail : List UInt8}
    (hl : lead = [] ∨ lead = [slash]) (ht : trail = [] ∨ trail = [slash]) :
    (∃ r, vfsLookup (some (lead ++ [slash].intercalate comps ++ trail ++ [0])) s = some r ∧
      Answers s 0 comps r) ↔
    (∀ c ∈ comps, c.length ≤ 127) ∨ ¬ ∃ m, Reaches s 0 (comps.flatMap pieces) m := by
  obtain ⟨r, call, hr⟩ := vfsLookup_answers built.inv nonempty valid hl ht
  constructor
  · rintro ⟨r', call', hr'⟩
    obtain rfl := Option.some.inj (call.symm.trans call')
    by_contra wrong
    obtain ⟨long, m, chain⟩ := not_or.mp wrong |>.imp_right not_not.mp
    exact long (((hr' m).mp ((hr m).mpr chain)).short built.inv)
  · intro h
    refine ⟨r, call, fun m => ?_⟩
    by_cases short : ∀ c ∈ comps, c.length ≤ 127
    · have := hr m
      rwa [flatMap_pieces short] at this
    · have none := h.resolve_left short
      exact iff_of_false (fun hm => none ⟨m, (hr m).mp hm⟩) fun chain =>
        short (chain.short built.inv)

/-- A path that resolves. -/
theorem vfsLookup_correct_example : ∃ s, Built s ∧
    ∃ r, vfsLookup (some (cString ['/', 'e', 't', 'c', '/'])) s = some r ∧
      Answers s 0 [[0x65, 0x74, 0x63]] r := by
  have tree : (bootTree [.createDir 0 [0x65, 0x74, 0x63]]).isSome := by decide +kernel
  obtain ⟨s, hs⟩ := Option.isSome_iff_exists.mp tree
  have built := built_of_bootTree hs
  have path : cString ['/', 'e', 't', 'c', '/'] =
      [slash] ++ [slash].intercalate [[0x65, 0x74, 0x63]] ++ [slash] ++ [0] := by decide
  have valid : ∀ c ∈ [[(0x65 : UInt8), 0x74, 0x63]], Component c := fun c hc => by
    rw [List.mem_singleton.mp hc]
    exact ⟨by decide, by decide, by decide⟩
  rw [path]
  exact ⟨s, built, (vfsLookup_correct_iff built (List.cons_ne_nil _ _) valid (Or.inr rfl)
    (Or.inr rfl)).mpr (Or.inl (by decide))⟩

/-- 127 times `'a'`. -/
def longName : List UInt8 := List.replicate 127 0x61

/-- With a file `b` in a directory of 127 `a`s, the one component of 127 `a`s and a `b` resolves to
that file, although no node has this name. -/
theorem vfsLookup_wrong_node : ∃ s, Built s ∧ Component (longName ++ [0x62]) ∧
    vfsLookup (some ((longName ++ [0x62]) ++ [0])) s = some (some 2) ∧
      ¬ Answers s 0 [longName ++ [0x62]] (some 2) := by
  have found : (bootTree [.createDir 0 longName, .createFile 1 [0x62] none 0]).map
      (vfsLookup (some ((longName ++ [0x62]) ++ [0]))) = some (some (some 2)) := by decide +kernel
  obtain ⟨s, hs, call⟩ := Option.map_eq_some_iff.mp found
  have built := built_of_bootTree hs
  refine ⟨s, built, ⟨by decide, by decide +kernel, by decide +kernel⟩, call, fun correct => ?_⟩
  have short := ((correct 2).mp rfl).short built.inv _ List.mem_cons_self
  simp [longName] at short

end ChefOs
