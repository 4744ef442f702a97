import ChefOs.Lib.Radix
import ChefOs.Mm.Vmm

/-!
# The page tables as a finite map

The tables form a radix tree of depth three over the frames that were handed out.  An entry of an
inner table always allows writing, and allows user access as soon as some page behind it does, so
a walk ends with the permissions of the last mapping of the page.
-/

namespace ChefOs

open Kit

/-- A page-aligned physical address below `2 ^ 52`. -/
def IsFrame (f : BitVec 64) : Prop := f.toNat % 4096 = 0 ∧ f.toNat < 2 ^ 52

instance : DecidablePred IsFrame := fun f =>
  inferInstanceAs (Decidable (f.toNat % 4096 = 0 ∧ f.toNat < 2 ^ 52))

/-- Flags of bits 0 to 11 and 63. -/
def FlagsOk (flags : BitVec 64) : Prop := flags &&& ~~~0x8000000000000FFF#64 = 0#64

instance : DecidablePred FlagsOk := fun flags =>
  inferInstanceAs (Decidable (flags &&& ~~~0x8000000000000FFF#64 = 0#64))

/-- `table_flags` without and with `PTE_USER`. -/
def tableFlags (user : Bool) : BitVec 64 := if user then 7 else 3

/-! ## Bits of entries -/

theorem IsFrame.mask {f : BitVec 64} (frame : IsFrame f) : f &&& frameMask = f := by
  obtain ⟨aligned, small⟩ := frame
  have bits : ∀ i < 64, frameMask.getLsbD i = decide (12 ≤ i ∧ i < 52) := by decide
  apply BitVec.eq_of_getLsbD_eq
  intro i hi
  rw [BitVec.getLsbD_and, bits i hi]
  by_cases inside : 12 ≤ i ∧ i < 52
  · simp [inside]
  · have clear : f.getLsbD i = false := by
      change f.toNat.testBit i = false
      by_cases low : i < 12
      · have := Nat.testBit_mod_two_pow f.toNat 12 i
        rw [show 2 ^ 12 = 4096 by norm_num, aligned] at this
        simpa [low] using this.symm
      · have : 2 ^ 52 ≤ 2 ^ i := Nat.pow_le_pow_right (by norm_num) (by omega)
        exact Nat.testBit_lt_two_pow (small.trans_le this)
    rw [clear, Bool.false_and]

/-- A frame address has no bit outside of the mask. -/
theorem IsFrame.and_eq_zero {f m : BitVec 64} (frame : IsFrame f)
    (outside : frameMask &&& m = 0#64) : f &&& m = 0#64 := by
  rw [← frame.mask, BitVec.and_assoc, outside, BitVec.and_zero]

theorem FlagsOk.and_frameMask {flags : BitVec 64} (ok : FlagsOk flags) :
    flags &&& frameMask = 0#64 := by
  have inside : ~~~0x8000000000000FFF#64 &&& frameMask = frameMask := by decide
  rw [← inside, ← BitVec.and_assoc, ok, BitVec.zero_and]

/-- A test of bits outside of the mask sees the flags only. -/
theorem IsFrame.or_and {f m : BitVec 64} (frame : IsFrame f) (outside : frameMask &&& m = 0#64)
    (t : BitVec 64) : (f ||| t) &&& m = t &&& m := by
  rw [BitVec.and_comm, BitVec.and_or_distrib_left, BitVec.and_comm m f,
    frame.and_eq_zero outside, BitVec.zero_or, BitVec.and_comm]

/-- The entry of a table. -/
structure TableEntry (e g : BitVec 64) (user : Bool) : Prop where
  frame : IsFrame g
  eq : e = g ||| tableFlags user

namespace TableEntry

variable {e g : BitVec 64} {user : Bool} (entry : TableEntry e g user)

include entry

theorem address {m : BitVec 64} (outside : 7#64 &&& m = 0#64)
    (inside : ChefOs.frameMask &&& m = ChefOs.frameMask) : e &&& m = g := by
  have clear : tableFlags user &&& m = 0#64 := by
    have low : tableFlags user = tableFlags user &&& 7#64 := by cases user <;> decide
    rw [low, BitVec.and_assoc, outside, BitVec.and_zero]
  have keep : g &&& m = g := by
    rw [← entry.frame.mask, BitVec.and_assoc, inside]
  rw [entry.eq, BitVec.and_comm, BitVec.and_or_distrib_left, BitVec.and_comm m g, keep,
    BitVec.and_comm m, clear, BitVec.or_zero]

theorem frameMask : e &&& frameMask = g := entry.address (by decide) (by decide)

theorem notLow : e &&& ~~~0xFFF#64 = g := entry.address (by decide) (by decide)

theorem present : e &&& ptePresent ≠ 0 := by
  rw [entry.eq, entry.frame.or_and (by decide)]
  cases user <;> decide

theorem writable : e &&& pteWritable ≠ 0 := by
  rw [entry.eq, entry.frame.or_and (by decide)]
  cases user <;> decide

theorem inner : e &&& ptePageSize = 0 := by
  rw [entry.eq, entry.frame.or_and (by decide)]
  cases user <;> decide

theorem user_iff : e &&& pteUser ≠ 0 ↔ user = true := by
  rw [entry.eq, entry.frame.or_and (by decide)]
  cases user <;> decide

theorem addUser : TableEntry (e ||| pteUser) g true := by
  refine ⟨entry.frame, ?_⟩
  rw [entry.eq, BitVec.or_assoc]
  congr 1
  cases user <;> decide

end TableEntry

/-! ## Addresses of entries -/

theorem idx_eq (v : BitVec 64) (shift : ℕ) :
    (v >>> shift) &&& 0x1FF#64 = (index v shift).setWidth 64 := by
  have bits : ∀ i < 64, (0x1FF#64).getLsbD i = decide (i < 9) := by decide
  apply BitVec.eq_of_getLsbD_eq
  intro i hi
  rw [BitVec.getLsbD_and, bits i hi, index]
  simp [hi, Bool.and_comm]

theorem offset_toNat (i : BitVec 9) : (8#64 * i.setWidth 64).toNat = 8 * i.toNat := by
  have := i.isLt
  simp only [BitVec.toNat_mul, BitVec.toNat_setWidth, BitVec.toNat_ofNat]
  omega

theorem entryAddress_inj {f g h : BitVec 64} (hf : IsFrame f) (hg : IsFrame g) {i j : BitVec 9}
    (same : f + h + 8#64 * i.setWidth 64 = g + h + 8#64 * j.setWidth 64) : f = g ∧ i = j := by
  obtain ⟨fa, fs⟩ := hf
  obtain ⟨ga, gs⟩ := hg
  have hi := i.isLt
  have hj := j.isLt
  have cancelled : f + 8#64 * i.setWidth 64 = g + 8#64 * j.setWidth 64 := by grind
  have := congrArg BitVec.toNat cancelled
  simp only [BitVec.toNat_add, offset_toNat] at this
  constructor
  · apply BitVec.eq_of_toNat_eq
    omega
  · apply BitVec.eq_of_toNat_eq
    omega

theorem entry_store {s : Vmm} {f g : BitVec 64} (hf : IsFrame f) (hg : IsFrame g)
    (i j : BitVec 9) (e : BitVec 64) :
    (s.store (f + s.sHhdm) (i.setWidth 64) e).entry g j =
      if g = f ∧ j = i then e else s.entry g j := by
  change Function.update s.mem (f + s.sHhdm + 8#64 * i.setWidth 64) e
    (g + s.sHhdm + 8#64 * j.setWidth 64) = _
  by_cases here : g = f ∧ j = i
  · rw [if_pos here, here.1, here.2, Function.update_self]
  · rw [if_neg here, Function.update_of_ne fun same => here (entryAddress_inj hg hf same)]
    rfl

theorem entry_clear {s : Vmm} {f g : BitVec 64} (hf : IsFrame f) (hg : IsFrame g) (j : BitVec 9) :
    (s.clear (f + s.sHhdm)).entry g j = if g = f then 0 else s.entry g j := by
  change (if (g + s.sHhdm + 8#64 * j.setWidth 64 - (f + s.sHhdm)).toNat < 4096 then 0
    else s.mem (g + s.sHhdm + 8#64 * j.setWidth 64)) = _
  have cancelled : g + s.sHhdm + 8#64 * j.setWidth 64 - (f + s.sHhdm) =
      g + 8#64 * j.setWidth 64 - f := by grind
  have inside : (g + 8#64 * j.setWidth 64 - f).toNat < 4096 ↔ g = f := by
    obtain ⟨fa, fs⟩ := hf
    obtain ⟨ga, gs⟩ := hg
    have hj := j.isLt
    simp only [BitVec.toNat_sub, BitVec.toNat_add, offset_toNat]
    constructor
    · intro h
      apply BitVec.eq_of_toNat_eq
      omega
    · rintro rfl
      omega
  rw [cancelled]
  simp only [inside]
  rfl

/-! ## The tables of a map -/

/-- The table an entry points to. -/
def childOf (e : BitVec 64) : Option (BitVec 64) :=
  if e &&& ptePresent = 0 then none else some (e &&& frameMask)

theorem TableEntry.childOf {e g : BitVec 64} {user : Bool} (entry : TableEntry e g user) :
    childOf e = some g := by
  rw [ChefOs.childOf, if_neg entry.present, entry.frameMask]

/-- What a page is mapped to: a frame and the flags of the call. -/
abbrev Mapping := BitVec 64 × BitVec 64

/-- The entry of the last level for a page. -/
def leafEntry : Option Mapping → BitVec 64
  | none => 0
  | some (phys, flags) => phys ||| flags ||| ptePresent

/-- The entries on the way to the table at `p` allow user access. -/
def UserPath (s : Vmm) (node : List (BitVec 9) → Option (BitVec 64)) (p : List (BitVec 9)) : Prop :=
  ∀ q i f, q ++ [i] <+: p → node q = some f → s.entry f i &&& pteUser ≠ 0

theorem UserPath.snoc {s : Vmm} {node : List (BitVec 9) → Option (BitVec 64)}
    {p : List (BitVec 9)} {i : BitVec 9} (up : UserPath s node p)
    (entry : ∀ f, node p = some f → s.entry f i &&& pteUser ≠ 0) : UserPath s node (p ++ [i]) := by
  intro q j f hq hf
  obtain last | before := List.prefix_concat_iff.mp hq
  · obtain ⟨rfl, same⟩ := List.append_inj' last rfl
    obtain rfl : j = i := by simpa using same
    exact entry f hf
  · exact up q j f before hf

/-- The tables below `root` hold `map`, whose keys are index paths of length four; apart from
`root`, the tables are results of calls to `pmm_alloc_page` from the call `first` on. -/
structure PageTables (root : BitVec 64) (first : ℕ) (s : Vmm)
    (node : List (BitVec 9) → Option (BitVec 64)) (map : List (BitVec 9) → Option Mapping) :
    Prop where
  tree : Radix childOf 3 s.entry node
  top : node [] = some root
  frame : ∀ p f, node p = some f → IsFrame f
  granted : ∀ p f, node p = some f →
    f = root ∨ ∃ k, first ≤ k ∧ k < s.allocs ∧ s.pmmAllocPage k = f
  table : ∀ p f i g, p.length < 3 → node p = some f → node (p ++ [i]) = some g →
    ∃ user, TableEntry (s.entry f i) g user
  leaf : ∀ p f i, p.length = 3 → node p = some f → s.entry f i = leafEntry (map (p ++ [i]))
  present : ∀ p i, map (p ++ [i]) ≠ none → p.length = 3 ∧ node p ≠ none
  user : ∀ p i x, map (p ++ [i]) = some x → x.2 &&& pteUser ≠ 0 → UserPath s node p
  known : ∀ p x, map p = some x → IsFrame x.1 ∧ FlagsOk x.2

/-- What a step of a call keeps of the tables before it: none is lost, no entry that points to one
loses `PTE_USER`, and the variables of the allocator and of `vmm.c` go on from where they were. -/
structure Extends (s s' : Vmm) (node node' : List (BitVec 9) → Option (BitVec 64)) : Prop where
  tables : ∀ q f, node q = some f → node' q = some f
  grows : ∀ q f j, node q = some f → node (q ++ [j]) ≠ none →
    s.entry f j &&& pteUser ≠ 0 → s'.entry f j &&& pteUser ≠ 0
  sHhdm : s'.sHhdm = s.sHhdm
  pmmAllocPage : s'.pmmAllocPage = s.pmmAllocPage
  allocs : s.allocs ≤ s'.allocs

theorem Extends.trans {s₁ s₂ s₃ : Vmm} {node₁ node₂ node₃ : List (BitVec 9) → Option (BitVec 64)}
    (first : Extends s₁ s₂ node₁ node₂) (second : Extends s₂ s₃ node₂ node₃) :
    Extends s₁ s₃ node₁ node₃ where
  tables q f hq := second.tables q f (first.tables q f hq)
  grows q f j hq next hu := by
    obtain ⟨g, hg⟩ := Option.ne_none_iff_exists'.mp next
    refine second.grows q f j (first.tables q f hq) ?_ (first.grows q f j hq next hu)
    rw [first.tables _ g hg]
    exact Option.some_ne_none g
  sHhdm := second.sHhdm.trans first.sHhdm
  pmmAllocPage := second.pmmAllocPage.trans first.pmmAllocPage
  allocs := first.allocs.trans second.allocs

namespace PageTables

variable {root : BitVec 64} {first : ℕ} {s s' : Vmm}
  {node node' : List (BitVec 9) → Option (BitVec 64)} {map : List (BitVec 9) → Option Mapping}

theorem userPath_extends (inv : PageTables root first s node map)
    (ext : Extends s s' node node') {p : List (BitVec 9)} (hp : node p ≠ none)
    (up : UserPath s node p) : UserPath s' node' p := by
  intro q i f hq hf
  -- a table on the way to an old table is old
  have next : node (q ++ [i]) ≠ none := by
    obtain ⟨r, rfl⟩ := hq
    exact inv.tree.ancestors hp
  obtain ⟨g, hg⟩ := Option.ne_none_iff_exists'.mp (inv.tree.ancestors next)
  obtain rfl : g = f := Option.some.inj ((ext.tables q g hg).symm.trans hf)
  exact ext.grows q g i hg next (up q i g hq hg)

theorem granted_extends (inv : PageTables root first s node map)
    (ext : Extends s s' node node') {p : List (BitVec 9)} {f : BitVec 64} (hp : node p = some f) :
    f = root ∨ ∃ k, first ≤ k ∧ k < s'.allocs ∧ s'.pmmAllocPage k = f := by
  obtain top | ⟨k, hk, lt, eq⟩ := inv.granted p f hp
  · exact .inl top
  · exact .inr ⟨k, hk, lt.trans_le ext.allocs, by rw [ext.pmmAllocPage, eq]⟩

/-- A table entry may change if it keeps its table and `PTE_USER`. -/
theorem retag (inv : PageTables root first s node map) {p : List (BitVec 9)} {f g e : BitVec 64}
    {i : BitVec 9} {user : Bool} (short : p.length < 3) (hf : node p = some f)
    (hg : node (p ++ [i]) = some g) (entry : TableEntry e g user)
    (set : EntrySet s.entry s'.entry node f i e) (ext : Extends s s' node node) :
    PageTables root first s' node map where
  tree := inv.tree.retag hf
    (fun short => by rw [entry.childOf, inv.tree.linked p f i short hf, hg]) set
  top := inv.top
  frame := inv.frame
  granted q h hq := inv.granted_extends ext hq
  table q h j g' hq hh hg' := by
    by_cases here : h = f ∧ j = i
    · obtain ⟨rfl, rfl⟩ := here
      obtain rfl := inv.tree.distinct p q h hf hh
      obtain rfl := Option.some.inj (hg.symm.trans hg')
      exact ⟨user, by rwa [set.1 p hf]⟩
    · rw [set.2 q h j hh here]
      exact inv.table q h j g' hq hh hg'
  leaf q h j hq hh := by
    rw [set.2 q h j hh (inv.tree.elsewhere hf hh (by omega)), inv.leaf q h j hq hh]
  present := inv.present
  user q j x hx hu :=
    inv.userPath_extends ext (inv.present q j (by simp [hx])).2 (inv.user q j x hx hu)
  known := inv.known

/-- A vacant entry may get a fresh table. -/
theorem link (inv : PageTables root first s node map) {p : List (BitVec 9)} {f g e : BitVec 64}
    {i : BitVec 9} {user : Bool} (short : p.length < 3) (hf : node p = some f)
    (vacant : node (p ++ [i]) = none) (entry : TableEntry e g user)
    (fresh : ∀ q, node q ≠ some g) (from' : ∃ k, first ≤ k ∧ k < s'.allocs ∧ s'.pmmAllocPage k = g)
    (empty : ∀ j, s'.entry g j = 0) (set : EntrySet s.entry s'.entry node f i e)
    (ext : Extends s s' node (Function.update node (p ++ [i]) (some g))) :
    PageTables root first s' (Function.update node (p ++ [i]) (some g)) map where
  tree := inv.tree.link hf vacant fresh entry.childOf
    (fun j => by rw [empty j]; rfl) set
  top := ext.tables _ _ inv.top
  frame q h hq := by
    by_cases new : q = p ++ [i]
    · rw [new, Function.update_self] at hq
      rw [← Option.some.inj hq]
      exact entry.frame
    · rw [Function.update_of_ne new] at hq
      exact inv.frame q h hq
  granted q h hq := by
    by_cases new : q = p ++ [i]
    · rw [new, Function.update_self] at hq
      rw [← Option.some.inj hq]
      exact .inr from'
    · rw [Function.update_of_ne new] at hq
      exact inv.granted_extends ext hq
  table q h j g' hq hh hg' := by
    by_cases new : q = p ++ [i]
    · -- the new table points to nothing
      subst new
      rw [Function.update_of_ne (by simp), inv.tree.closed _ j vacant] at hg'
      exact absurd hg' (by simp)
    · rw [Function.update_of_ne new] at hh
      by_cases here : h = f ∧ j = i
      · obtain ⟨rfl, rfl⟩ := here
        obtain rfl := inv.tree.distinct p q h hf hh
        rw [Function.update_self] at hg'
        obtain rfl := Option.some.inj hg'
        exact ⟨user, by rwa [set.1 p hf]⟩
      · rw [Function.update_of_ne (path_ne hf hh here)] at hg'
        rw [set.2 q h j hh here]
        exact inv.table q h j g' hq hh hg'
  leaf q h j hq hh := by
    by_cases new : q = p ++ [i]
    · -- no page behind the new table is mapped
      subst new
      rw [Function.update_self] at hh
      rw [← Option.some.inj hh, empty j]
      have unmapped : map (p ++ [i] ++ [j]) = none := by
        by_contra mapped
        exact (inv.present _ j mapped).2 vacant
      rw [unmapped]
      rfl
    · rw [Function.update_of_ne new] at hh
      rw [set.2 q h j hh (inv.tree.elsewhere hf hh (by omega)), inv.leaf q h j hq hh]
  present q j hx := by
    obtain ⟨len, hq⟩ := inv.present q j hx
    obtain ⟨h, hh⟩ := Option.ne_none_iff_exists'.mp hq
    exact ⟨len, by simp [ext.tables q h hh]⟩
  user q j x hx hu :=
    inv.userPath_extends ext (inv.present q j (by simp [hx])).2 (inv.user q j x hx hu)
  known := inv.known

/-- The entry of a page may change: this maps the page anew. -/
theorem setLeaf (inv : PageTables root first s node map) {p : List (BitVec 9)} {f e : BitVec 64}
    {i : BitVec 9} {x : Mapping} (len : p.length = 3) (hf : node p = some f)
    (value : e = leafEntry (some x)) (known : IsFrame x.1 ∧ FlagsOk x.2)
    (allowed : x.2 &&& pteUser ≠ 0 → UserPath s node p)
    (set : EntrySet s.entry s'.entry node f i e)
    (same : s'.pmmAllocPage = s.pmmAllocPage ∧ s'.allocs = s.allocs) :
    PageTables root first s' node (Function.update map (p ++ [i]) (some x)) := by
  have above : ∀ q h j, node q = some h → q.length < 3 → s'.entry h j = s.entry h j :=
    fun q h j hq short => set.2 q h j hq (inv.tree.elsewhere hf hq (by omega))
  have allows : ∀ q, q.length = 3 → UserPath s node q → UserPath s' node q := by
    intro q hq up r j h hr hh
    have short : r.length < 3 := by
      have := hr.length_le
      simp at this
      omega
    rw [above r h j hh short]
    exact up r j h hr hh
  refine { tree := inv.tree.retag hf (fun short => by omega) set, top := inv.top,
           frame := inv.frame, granted := ?granted, table := ?table, leaf := ?leaf,
           present := ?present, user := ?user, known := ?known }
  case granted =>
    rw [same.1, same.2]
    exact inv.granted
  case table =>
    intro q h j g hq hh hg
    rw [above q h j hh hq]
    exact inv.table q h j g hq hh hg
  case leaf =>
    intro q h j hq hh
    by_cases here : h = f ∧ j = i
    · obtain ⟨rfl, rfl⟩ := here
      obtain rfl := inv.tree.distinct p q h hf hh
      rw [set.1 p hf, value, Function.update_self]
    · rw [set.2 q h j hh here, Function.update_of_ne (path_ne hf hh here), inv.leaf q h j hq hh]
  case present =>
    intro q j mapped
    by_cases here : q ++ [j] = p ++ [i]
    · obtain ⟨rfl, -⟩ := List.append_inj' here rfl
      exact ⟨len, by simp [hf]⟩
    · rw [Function.update_of_ne here] at mapped
      exact inv.present q j mapped
  case user =>
    intro q j y hy hu
    by_cases here : q ++ [j] = p ++ [i]
    · rw [here, Function.update_self] at hy
      obtain ⟨rfl, -⟩ := List.append_inj' here rfl
      exact allows q len (allowed (by rwa [Option.some.inj hy]))
    · rw [Function.update_of_ne here] at hy
      exact allows q (inv.present q j (by simp [hy])).1 (inv.user q j y hy hu)
  case known =>
    intro q y hy
    by_cases here : q = p ++ [i]
    · rw [here, Function.update_self] at hy
      rwa [← Option.some.inj hy]
    · rw [Function.update_of_ne here] at hy
      exact inv.known q y hy

end PageTables

end ChefOs
