import ChefOs.Fs.Lookup

/-!
# Every node at its own path

While a tree is built, the path of each new node is recorded: that of its parent and the new name.
If names are valid and differ from those of their siblings, `vfs_lookup` finds each node under its
recorded path for as long as the tree grows, and under no other path.
-/

namespace ChefOs

open Kit

/-- A component that fits the buffer of `vfs_lookup` and the name field. -/
structure ShortComponent (c : List UInt8) : Prop extends Component c where
  short : c.length ≤ 127

/-- The ways to write a path: with or without a leading slash and, below the root, with or without
a trailing one. -/
def Spells (comps : List (List UInt8)) (path : List UInt8) : Prop :=
  ∃ lead trail, (lead = [] ∨ lead = [slash]) ∧ (trail = [] ∨ trail = [slash] ∧ comps ≠ []) ∧
    path = lead ++ [slash].intercalate comps ++ trail ++ [0]

/-- The name a call gives is valid and no child of the parent has it. -/
structure FreshName (s : Fs) (op : TreeOp) : Prop where
  valid : ShortComponent op.name
  fresh : ∀ p, s.nodes[op.parent]? = some p → ∀ k ∈ p.children, nodeName s k ≠ some op.name

/-- A call under a directory of the tree, with the paths of the nodes in the order of their
creation. -/
inductive PathStep : Fs × List (List (List UInt8)) → TreeOp →
    Fs × List (List (List UInt8)) → Prop
  | made {s t : Fs} {paths : List (List (List UInt8))} {op : TreeOp} {path : List (List UInt8)}
      {n : ℕ} (fresh : FreshName s op) (under : paths[op.parent]? = some path)
      (call : op.call s = some (some n, t)) :
      PathStep (s, paths) op (t, paths ++ [path ++ [op.name]])
  | refused {s t : Fs} {paths : List (List (List UInt8))} {op : TreeOp} (fresh : FreshName s op)
      (call : op.call s = some (none, t)) : PathStep (s, paths) op (t, paths)

/-- The recorded paths are those of the tree. -/
structure PathInv (x : Fs × List (List (List UInt8))) : Prop where
  tree : TreeInv x.1
  each : x.2.length = x.1.nodes.length
  root : x.2[0]? = some []
  valid : ∀ path ∈ x.2, ∀ c ∈ path, ShortComponent c
  child : ∀ (n : ℕ) (e : RamfsEntry), x.1.nodes[n]? = some e → ∀ k ∈ e.children,
    ∃ path c, x.2[n]? = some path ∧ nodeName x.1 k = some c ∧ x.2[k]? = some (path ++ [c])
  reaches : ∀ (n : ℕ) (path : List (List UInt8)), x.2[n]? = some path → Reaches x.1 0 path n

/-! ## Lookup of spelled paths -/

/-- `vfs_lookup` of a spelled path answers the node that the components name. -/
theorem vfsLookup_spelled {s : Fs} (inv : TreeInv s) {comps : List (List UInt8)}
    (valid : ∀ c ∈ comps, ShortComponent c) {path : List UInt8} (spells : Spells comps path) :
    ∃ r, vfsLookup (some path) s = some r ∧ Answers s 0 comps r := by
  obtain ⟨lead, trail, hl, ht, rfl⟩ := spells
  by_cases nonempty : comps = []
  · obtain rfl : trail = [] := ht.resolve_right fun h => h.2 nonempty
    subst nonempty
    have answer : Answers s 0 [] (some 0) := fun m => by
      constructor
      · rintro ⟨⟩
        exact .here 0
      · rintro ⟨⟩
        rfl
    refine ⟨some 0, ?_, answer⟩
    rcases hl with rfl | rfl
    · simp only [vfsLookup, inv.root]
      rfl
    · simp only [vfsLookup, inv.root]
      rfl
  · have ht : trail = [] ∨ trail = [slash] := ht.imp_right And.left
    obtain ⟨r, call, hr⟩ := vfsLookup_answers inv nonempty
      (fun c hc => (valid c hc).toComponent) hl ht
    rw [flatMap_pieces fun c hc => (valid c hc).short] at hr
    exact ⟨r, call, hr⟩

/-! ## Growing the tree -/

section Linked

variable {s : Fs} {parent : ℕ} {p : RamfsEntry} (hp : s.nodes[parent]? = some p)
  (entry : RamfsEntry) (k : ℕ)

include hp

theorem nodeName_linked {n : ℕ} (old : n < s.nodes.length) :
    nodeName (s.linked parent p entry k) n = nodeName s n := by
  rw [nodeName, getElem?_linked hp, if_neg (by omega)]
  split_ifs with here
  · rw [nodeName, here, hp]
    rfl
  · rfl

theorem nodeName_linked_new :
    nodeName (s.linked parent p entry k) s.nodes.length = some (cstr entry.name) := by
  rw [nodeName, getElem?_linked hp, if_pos rfl]
  rfl

/-- A new last child is the first child of no other name. -/
theorem FirstChild.linked (named : Named s) {n m : ℕ} {c : List UInt8}
    (first : FirstChild s n c m) : FirstChild (s.linked parent p entry k) n c m := by
  obtain ⟨e, before, after, he, split, name, others⟩ := first
  have closed : ∀ j ∈ e.children, j < s.nodes.length := (named n e he).closed
  have hn : n < s.nodes.length := (List.getElem?_eq_some_iff.mp he).1
  have names : ∀ j ∈ e.children, nodeName (s.linked parent p entry k) j = nodeName s j :=
    fun j hj => nodeName_linked hp entry k (closed j hj)
  have kept : nodeName (s.linked parent p entry k) m = some c ∧
      ∀ j ∈ before, nodeName (s.linked parent p entry k) j ≠ some c := by
    refine ⟨by rw [names m (by simp [split]), name], fun j hj => ?_⟩
    rw [names j (by simp [split, hj])]
    exact others j hj
  by_cases here : n = parent
  · subst here
    obtain rfl := Option.some.inj (hp.symm.trans he)
    refine ⟨{ p with children := p.children ++ [s.nodes.length] }, before,
      after ++ [s.nodes.length], ?_, ?_, kept⟩
    · rw [getElem?_linked hp, if_neg (by omega), if_pos rfl]
    · simp [split]
  · refine ⟨e, before, after, ?_, split, kept⟩
    rw [getElem?_linked hp, if_neg (by omega), if_neg here, he]

/-- A new node is the first child of its name, if no child had that name. -/
theorem firstChild_linked (named : Named s) {c : List UInt8} (name : cstr entry.name = c)
    (fresh : ∀ j ∈ p.children, nodeName s j ≠ some c) :
    FirstChild (s.linked parent p entry k) parent c s.nodes.length := by
  have hlt : parent < s.nodes.length := (List.getElem?_eq_some_iff.mp hp).1
  refine ⟨{ p with children := p.children ++ [s.nodes.length] }, p.children, [], ?_, rfl, ?_,
    fun j hj => ?_⟩
  · rw [getElem?_linked hp, if_neg (by omega), if_pos rfl]
  · rw [nodeName_linked_new hp, name]
  · rw [nodeName_linked hp _ _ ((named _ p hp).closed j hj)]
    exact fresh j hj

theorem Reaches.linked (inv : TreeInv s) {n m : ℕ} {comps : List (List UInt8)}
    (reaches : Reaches s n comps m) : Reaches (s.linked parent p entry k) n comps m := by
  induction reaches with
  | here n => exact .here n
  | child first _ ih => exact .child (first.linked hp entry k inv.named) ih

end Linked

theorem Reaches.snoc {s : Fs} {n k m : ℕ} {comps : List (List UInt8)} {c : List UInt8}
    (reaches : Reaches s n comps k) (first : FirstChild s k c m) :
    Reaches s n (comps ++ [c]) m := by
  induction reaches with
  | here n => exact .child first (.here m)
  | child first' _ ih => exact .child first' (ih first)

/-! ## Recorded paths -/

/-- A name that fits the name field is stored whole. -/
theorem cstr_entry_name {op : TreeOp} (valid : ShortComponent op.name) :
    cstr op.entry.name = op.name := by
  have stored : cstr (nameField op.name) = op.name := by
    rw [cstr_nameField, cstr_append_zero valid.noNul, List.take_of_length_le valid.short]
  cases op with
  | createDir parent name => exact stored
  | createFile parent name content size => exact stored

/-- The new node is the child of that name. -/
theorem firstChild_new {s : Fs} {op : TreeOp} {p : RamfsEntry} (inv : TreeInv s)
    (hp : s.nodes[op.parent]? = some p) (fresh : FreshName s op) (k : ℕ) :
    FirstChild (s.linked op.parent p op.entry k) op.parent op.name s.nodes.length :=
  firstChild_linked hp _ k inv.named (cstr_entry_name fresh.valid) (fresh.fresh p hp)

theorem getElem?_recorded {paths : List (List (List UInt8))} {i : ℕ} {q : List (List UInt8)}
    (h : paths[i]? = some q) (path : List (List UInt8)) : (paths ++ [path])[i]? = some q := by
  rw [List.getElem?_append_left (List.getElem?_eq_some_iff.mp h).1, h]

/-- A child of an old node has the same name and the same path after a link. -/
theorem PathInv.child_linked {s : Fs} {paths : List (List (List UInt8))}
    (inv : PathInv (s, paths)) {parent : ℕ} {p : RamfsEntry} (hp : s.nodes[parent]? = some p)
    (entry : RamfsEntry) (k : ℕ) (path : List (List UInt8)) (n : ℕ) (e : RamfsEntry)
    (he : s.nodes[n]? = some e) (j : ℕ) (hj : j ∈ e.children) :
    ∃ path' c, (paths ++ [path])[n]? = some path' ∧
      nodeName (s.linked parent p entry k) j = some c ∧
        (paths ++ [path])[j]? = some (path' ++ [c]) := by
  obtain ⟨path', c, hn, hname, hpath⟩ := inv.child n e he j hj
  refine ⟨path', c, getElem?_recorded hn path, ?_, getElem?_recorded hpath path⟩
  rw [nodeName_linked hp _ _ ((inv.tree.entry n e he).closed j hj)]
  exact hname

theorem pathStep_inv {x y : Fs × List (List (List UInt8))} {op : TreeOp} (inv : PathInv x)
    (step : PathStep x op y) : PathInv y := by
  cases step with
  | @refused s t paths op fresh call =>
    rcases op.call_cases call with ⟨-, -, -, -, rfl⟩ | ⟨p, k, -, -, made, -⟩
    · exact inv
    · exact absurd made (by simp)
  | @made s t paths op path n fresh under call =>
    have tree := treeStep_inv inv.tree ⟨_, call⟩
    rcases op.call_cases call with ⟨-, -, -, none, -⟩ | ⟨p, k, hp, -, made, rfl⟩
    · exact absurd none (by simp)
    have old := inv.child_linked hp op.entry k (path ++ [op.name])
    obtain ⟨oldTree, each, root, valid, child, reaches⟩ := inv
    dsimp only at oldTree each root valid child reaches
    have newPath : (paths ++ [path ++ [op.name]])[s.nodes.length]? = some (path ++ [op.name]) := by
      rw [← each]
      simp
    refine ⟨tree, by simp [each], getElem?_recorded root _, fun q hq c hc => ?_,
      fun m e he j hj => ?_, fun m q hm => ?_⟩
    · rcases List.mem_append.mp hq with hq | hq
      · exact valid q hq c hc
      · rw [List.mem_singleton.mp hq] at hc
        rcases List.mem_append.mp hc with hc | hc
        · exact valid path (List.mem_of_getElem? under) c hc
        · rw [List.mem_singleton.mp hc]
          exact fresh.valid
    · -- the children of a node: those it had, and the new node under its parent
      rw [getElem?_linked hp] at he
      split_ifs at he with last here
      · obtain rfl := Option.some.inj he
        cases op with
        | createDir parent name => exact absurd hj List.not_mem_nil
        | createFile parent name content size => exact absurd hj List.not_mem_nil
      · obtain rfl := Option.some.inj he
        subst here
        rcases List.mem_append.mp hj with hj | hj
        · exact old _ p hp j hj
        · rw [List.mem_singleton.mp hj]
          refine ⟨path, op.name, getElem?_recorded under _, ?_, newPath⟩
          rw [nodeName_linked_new hp, cstr_entry_name fresh.valid]
      · exact old m e he j hj
    · by_cases before : m < paths.length
      · rw [List.getElem?_append_left before] at hm
        exact (reaches m q hm).linked hp _ _ oldTree
      · rw [List.getElem?_append_right (by omega), List.getElem?_singleton] at hm
        split_ifs at hm with last
        obtain rfl := Option.some.inj hm
        obtain rfl : m = s.nodes.length := by omega
        exact ((reaches _ path under).linked hp _ _ oldTree).snoc
          (firstChild_new oldTree hp fresh k)

/-- Recorded paths stay. -/
theorem pathStep_extends {x y : Fs × List (List (List UInt8))} {op : TreeOp}
    (step : PathStep x op y) : x.2 <+: y.2 := by
  cases step with
  | refused => exact List.prefix_rfl
  | made => exact List.prefix_append _ _

theorem mountRoot_pathInv {boot s : Fs} (empty : boot.nodes = [])
    (call : mountRoot boot = some s) : PathInv (s, [[]]) := by
  obtain ⟨nodes, -⟩ := mountRoot_eq empty call
  refine ⟨mountRoot_inv empty call, by simp [nodes], rfl, by simp, fun n e he k hk => ?_,
    fun n path hn => ?_⟩
  · dsimp only at he
    rw [nodes, List.getElem?_singleton] at he
    split_ifs at he
    obtain rfl := Option.some.inj he
    exact absurd hk List.not_mem_nil
  · dsimp only at hn
    rw [List.getElem?_singleton] at hn
    split_ifs at hn with first
    obtain rfl := Option.some.inj hn
    rw [first]
    exact .here 0

/-- A chain of nodes spells the recorded path of its end. -/
theorem Reaches.recorded {x : Fs × List (List (List UInt8))} (inv : PathInv x) {n m : ℕ}
    {path comps : List (List UInt8)} (reaches : Reaches x.1 n comps m)
    (start : x.2[n]? = some path) : x.2[m]? = some (path ++ comps) := by
  induction reaches generalizing path with
  | here n => rw [start, List.append_nil]
  | @child n k m c cs first _ ih =>
    obtain ⟨e, before, after, he, split, name, -⟩ := first
    obtain ⟨path', c', hn, name', hk⟩ := inv.child n e he k (by simp [split])
    obtain rfl := Option.some.inj (start.symm.trans hn)
    obtain rfl := Option.some.inj (name.symm.trans name')
    rw [ih hk, List.append_assoc, List.singleton_append]

/-- However the tree grows, `vfs_lookup` finds each node at its own path, and only there. -/
theorem vfsLookup_own_path {boot mounted s t : Fs} {paths paths' : List (List (List UInt8))}
    {ops later : List TreeOp} (empty : boot.nodes = []) (mount : mountRoot boot = some mounted)
    (built : Run PathStep (mounted, [[]]) ops (s, paths))
    (grown : Run PathStep (s, paths) later (t, paths')) :
    paths.length = s.nodes.length ∧
      (∀ (n : ℕ) (comps : List (List UInt8)) (path : List UInt8), paths[n]? = some comps →
        Spells comps path → vfsLookup (some path) t = some (some n)) ∧
      ∀ (n : ℕ) (comps comps' : List (List UInt8)) (path path' : List UInt8),
        (∀ c ∈ comps, ShortComponent c) → (∀ c ∈ comps', ShortComponent c) →
        Spells comps path → Spells comps' path' →
        vfsLookup (some path) t = some (some n) → vfsLookup (some path') t = some (some n) →
        comps = comps' := by
  have invS : PathInv (s, paths) := built.invariant (fun _ _ _ inv step => pathStep_inv inv step)
    (mountRoot_pathInv empty mount)
  have invT : PathInv (t, paths') :=
    grown.invariant (fun _ _ _ inv step => pathStep_inv inv step) invS
  have extend : paths <+: paths' := grown.invariant (I := fun x => paths <+: x.2)
    (fun _ _ _ pre step => pre.trans (pathStep_extends step)) List.prefix_rfl
  refine ⟨invS.each, fun n comps path recorded spells => ?_, ?_⟩
  · have recorded' : paths'[n]? = some comps := by
      obtain ⟨more, rfl⟩ := extend
      rw [List.getElem?_append_left (List.getElem?_eq_some_iff.mp recorded).1, recorded]
    obtain ⟨r, call, hr⟩ := vfsLookup_spelled invT.tree
      (invT.valid comps (List.mem_of_getElem? recorded')) spells
    rw [call, (hr n).mpr (invT.reaches n comps recorded')]
  · intro n comps comps' path path' valid valid' spells spells' found found'
    -- both sequences are the recorded path of the node
    have own : ∀ {comps : List (List UInt8)} {path : List UInt8},
        (∀ c ∈ comps, ShortComponent c) → Spells comps path →
        vfsLookup (some path) t = some (some n) → paths'[n]? = some comps := by
      intro comps path valid spells found
      obtain ⟨r, call, hr⟩ := vfsLookup_spelled invT.tree valid spells
      have reaches := (hr n).mp (Option.some.inj (call.symm.trans found))
      have := reaches.recorded invT invT.root
      rwa [List.nil_append] at this
    exact Option.some.inj ((own valid spells found).symm.trans (own valid' spells' found'))

/-- A directory below the root, looked up with both slashes. -/
theorem vfsLookup_own_path_example : ∃ s : Fs,
    vfsLookup (some (cString ['/', 'e', 't', 'c', '/'])) s = some (some 1) := by
  let op : TreeOp := .createDir 0 [0x65, 0x74, 0x63]
  obtain ⟨mounted, mount⟩ := Option.isSome_iff_exists.mp
    (by decide +kernel : (mountRoot bootFs).isSome)
  have made : ((mountRoot bootFs).bind op.call).map Prod.fst = some (some 1) := by decide +kernel
  obtain ⟨⟨r, s⟩, call, hr⟩ := Option.map_eq_some_iff.mp made
  obtain rfl : r = some 1 := hr
  rw [mount, Option.bind_some] at call
  obtain ⟨nodes, -⟩ := mountRoot_eq rfl mount
  have fresh : FreshName mounted op := by
    refine ⟨⟨⟨by decide, by decide, by decide⟩, by decide⟩, fun p hp k hk => ?_⟩
    obtain rfl : dirEntry _ = p := Option.some.inj (by rw [nodes] at hp; exact hp)
    exact absurd hk List.not_mem_nil
  have run : Run PathStep (mounted, [[]]) [op] (s, [[], [op.name]]) :=
    .cons (.made fresh rfl call) (.nil _)
  refine ⟨s, (vfsLookup_own_path rfl mount run (.nil _)).2.1 1 [op.name] _ rfl ?_⟩
  exact ⟨[slash], [slash], Or.inr rfl, Or.inr ⟨rfl, List.cons_ne_nil _ _⟩, by decide⟩

end ChefOs
