import ChefOs.Mm.VmmRefinement

/-!
# `vmm_map_page` without memory

`pmm_alloc_page` returns `NULL` when no page is free, and `vmm_map_page` takes the answer for a
table.  The entry it sets for the missing table is then present and points to physical page 0, and
nothing that follows in the call takes the entry back.
-/

namespace ChefOs

open Kit

/-! ## Entries -/

/-- The entry is present and its frame is physical page 0. -/
def PointsToNull (e : BitVec 64) : Prop := e &&& ptePresent ≠ 0 ∧ e &&& frameMask = 0

instance : DecidablePred PointsToNull := fun e =>
  inferInstanceAs (Decidable (e &&& ptePresent ≠ 0 ∧ e &&& frameMask = 0))

theorem tableFlags_pointsToNull (user : Bool) : PointsToNull (tableFlags user) := by
  cases user <;> decide

/-- A mask without the low bits leaves the address of a page. -/
theorem and_aligned {mask : BitVec 64} (outside : mask &&& 0xFFF#64 = 0#64) (e : BitVec 64) :
    (e &&& mask).toNat % 4096 = 0 := by
  have low : (e &&& mask) &&& 0xFFF#64 = 0#64 := by
    rw [BitVec.and_assoc, outside, BitVec.and_zero]
  have := congrArg BitVec.toNat low
  rw [BitVec.toNat_and, show (0xFFF#64).toNat = 2 ^ 12 - 1 by decide,
    Nat.and_two_pow_sub_one_eq_mod] at this
  exact this

theorem isFrame_mask (e : BitVec 64) : IsFrame (e &&& frameMask) := by
  have le : (e &&& frameMask).toNat ≤ frameMask.toNat := by
    rw [BitVec.toNat_and]
    exact Nat.and_le_right
  have small : frameMask.toNat < 2 ^ 52 := by decide
  exact ⟨and_aligned (by decide) e, le.trans_lt small⟩

/-- A test of bits other than `PTE_USER` does not see whether it is set. -/
theorem or_pteUser_and {m : BitVec 64} (outside : pteUser &&& m = 0#64) (e : BitVec 64) :
    (e ||| pteUser) &&& m = e &&& m := by
  rw [BitVec.and_comm, BitVec.and_or_distrib_left, BitVec.and_comm m e, BitVec.and_comm m pteUser,
    outside, BitVec.or_zero]

theorem tagged_and {m : BitVec 64} (outside : pteUser &&& m = 0#64) (e flags : BitVec 64) :
    tagged e flags &&& m = e &&& m := by
  rw [tagged]
  split_ifs
  · exact or_pteUser_and outside e
  · rfl

theorem tagged_tableFlags {flags : BitVec 64} {user : Bool}
    (asked : flags &&& pteUser ≠ 0 ↔ user = true) :
    tagged (tableFlags user) flags = tableFlags user := by
  rw [tagged]
  split_ifs with h
  · rw [asked.mp h]
    decide
  · rfl

/-! ## The tables on the way to a page -/

/-- The number of tables that are missing from the table at `f` on along the indexes. -/
def missingTables (s : Vmm) : BitVec 64 → List (BitVec 9) → ℕ
  | _, [] => 0
  | f, i :: is =>
    if s.entry f i &&& ptePresent = 0 then is.length + 1
    else missingTables s (s.entry f i &&& frameMask) is

/-- The tables below `root`, whatever the entries of the last level: physical page 0, which `NULL`
stands for, is none of them.  Every present entry above the last level points to a table, at the
address that `vmm_map_page` reads: large leaves (`HardwareTree` has those) and entries with one of
the bits 52 to 62 or `PTE_NX` set are left out. -/
structure TableTree (root : BitVec 64) (s : Vmm) (node : List (BitVec 9) → Option (BitVec 64)) :
    Prop where
  tree : Radix childOf 3 s.entry node
  top : node [] = some root
  frame : ∀ p f, node p = some f → IsFrame f
  notNull : ∀ p, node p ≠ some 0
  address : ∀ p f i, p.length < 3 → node p = some f → s.entry f i &&& ptePresent ≠ 0 →
    s.entry f i &&& ~~~0xFFF#64 = s.entry f i &&& frameMask

/-- The tables of a map are such tables, if no table lies in page 0. -/
theorem PageTables.tableTree {root : BitVec 64} {first : ℕ} {s : Vmm}
    {node : List (BitVec 9) → Option (BitVec 64)} {map : List (BitVec 9) → Option Mapping}
    (inv : PageTables root first s node map) (notNull : ∀ p, node p ≠ some 0) :
    TableTree root s node where
  tree := inv.tree
  top := inv.top
  frame := inv.frame
  notNull := notNull
  address p f i short hf present := by
    have linked := inv.tree.linked p f i short hf
    rw [childOf, if_neg present] at linked
    obtain ⟨user, entry⟩ := inv.table p f i _ short hf linked.symm
    rw [entry.notLow, entry.frameMask]

/-- What the calls to `pmm_alloc_page` from `first` on and before `last` return: page 0, for
`NULL`, or a frame that is no table yet. -/
structure PageAnswers (alloc : ℕ → BitVec 64) (old : BitVec 64 → Prop) (first last : ℕ) : Prop where
  frame : ∀ k, first ≤ k → k < last → IsFrame (alloc k)
  fresh : ∀ k, first ≤ k → k < last → alloc k ≠ 0 → ¬ old (alloc k)
  distinct : ∀ j k, first ≤ j → j < k → k < last → alloc j ≠ 0 → alloc j ≠ alloc k

/-- A table a call has reached: one of the old tables, or one obtained from the call number `first`
on, and none of those still to come. -/
structure OnPath (old : BitVec 64 → Prop) (first last : ℕ) (s : Vmm) (f : BitVec 64) : Prop where
  frame : IsFrame f
  notNull : f ≠ 0
  known : old f ∨ ∃ k, first ≤ k ∧ k < s.allocs ∧ s.pmmAllocPage k = f
  fresh : ∀ k, s.allocs ≤ k → k < last → s.pmmAllocPage k ≠ f

/-- The tables that are there along the indexes can be reached. -/
def Walkable (old : BitVec 64 → Prop) (first last : ℕ) (s : Vmm) :
    BitVec 64 → List (BitVec 9) → Prop
  | f, [] => OnPath old first last s f
  | f, i :: is => OnPath old first last s f ∧
      (s.entry f i &&& ptePresent ≠ 0 →
        s.entry f i &&& ~~~0xFFF#64 = s.entry f i &&& frameMask ∧
          Walkable old first last s (s.entry f i &&& frameMask) is)

section

variable {old : BitVec 64 → Prop} {first last : ℕ} {s s' : Vmm} {root : BitVec 64}
  {node : List (BitVec 9) → Option (BitVec 64)}

theorem Walkable.onPath {f : BitVec 64} {is : List (BitVec 9)}
    (walkable : Walkable old first last s f is) :
    OnPath old first last s f := by
  cases is with
  | nil => exact walkable
  | cons i is => exact walkable.1

/-- A table is on the path. -/
theorem PageAnswers.onPath
    (answers : PageAnswers s.pmmAllocPage (fun f => ∃ p, node p = some f) s.allocs last)
    {p : List (BitVec 9)} {f : BitVec 64} (hf : node p = some f) (frame : IsFrame f)
    (notNull : node p ≠ some 0) :
    OnPath (fun f => ∃ p, node p = some f) s.allocs last s f := by
  have ne : f ≠ 0 := by
    rintro rfl
    exact notNull hf
  refine ⟨frame, ne, .inl ⟨p, hf⟩, fun k hk lt same => ?_⟩
  exact answers.fresh k hk lt (same ▸ ne) ⟨p, same ▸ hf⟩

theorem TableTree.walkable (tree : TableTree root s node)
    (answers : PageAnswers s.pmmAllocPage (fun f => ∃ p, node p = some f) s.allocs last)
    {p : List (BitVec 9)} {f : BitVec 64} {is : List (BitVec 9)} (hf : node p = some f)
    (len : p.length + is.length ≤ 3) :
    Walkable (fun f => ∃ p, node p = some f) s.allocs last s f is := by
  have onPath : ∀ {p f}, node p = some f → OnPath _ s.allocs last s f :=
    fun hf => answers.onPath hf (tree.frame _ _ hf) (tree.notNull _)
  induction is generalizing p f with
  | nil => exact onPath hf
  | cons i is ih =>
    rw [List.length_cons] at len
    refine ⟨onPath hf, fun present => ⟨tree.address p f i (by omega) hf present, ?_⟩⟩
    have linked := tree.tree.linked p f i (by omega) hf
    rw [childOf, if_neg present] at linked
    apply ih linked.symm
    rw [List.length_append, List.length_singleton]
    omega

/-- Nothing but `PTE_USER` in present entries tells the tables of the states apart. -/
structure Tagged (s s' : Vmm) : Prop where
  entry : ∀ f i, IsFrame f → s'.entry f i = s.entry f i ∨ s'.entry f i = s.entry f i ||| pteUser
  sHhdm : s'.sHhdm = s.sHhdm
  pmmAllocPage : s'.pmmAllocPage = s.pmmAllocPage
  allocs : s'.allocs = s.allocs

theorem Tagged.and (tag : Tagged s s') {f m : BitVec 64} (frame : IsFrame f) (i : BitVec 9)
    (outside : pteUser &&& m = 0#64) : s'.entry f i &&& m = s.entry f i &&& m := by
  obtain same | added := tag.entry f i frame
  · rw [same]
  · rw [added, or_pteUser_and outside]

theorem Tagged.missingTables (tag : Tagged s s') {f : BitVec 64} (frame : IsFrame f)
    (is : List (BitVec 9)) : missingTables s' f is = missingTables s f is := by
  induction is generalizing f with
  | nil => rfl
  | cons i is ih =>
    rw [ChefOs.missingTables, ChefOs.missingTables, tag.and frame i (by decide),
      tag.and frame i (by decide), ih (isFrame_mask _)]

theorem Tagged.onPath (tag : Tagged s s') {f : BitVec 64} (on : OnPath old first last s f) :
    OnPath old first last s' f := by
  refine ⟨on.frame, on.notNull, ?_, ?_⟩
  · rw [tag.allocs, tag.pmmAllocPage]
    exact on.known
  · rw [tag.allocs, tag.pmmAllocPage]
    exact on.fresh

theorem Tagged.walkable (tag : Tagged s s') {f : BitVec 64} {is : List (BitVec 9)}
    (walkable : Walkable old first last s f is) : Walkable old first last s' f is := by
  induction is generalizing f with
  | nil => exact tag.onPath walkable
  | cons i is ih =>
    have frame := walkable.onPath.frame
    refine ⟨tag.onPath walkable.1, fun present => ?_⟩
    rw [tag.and frame i (by decide)] at present
    rw [tag.and frame i (by decide), tag.and frame i (by decide)]
    obtain ⟨address, rest⟩ := walkable.2 present
    exact ⟨address, ih rest⟩

theorem tagged_store (flags : BitVec 64) {f : BitVec 64} (frame : IsFrame f) (i : BitVec 9) :
    Tagged s (s.store (f + s.sHhdm) (i.setWidth 64) (tagged (s.entry f i) flags)) := by
  refine ⟨fun g j hg => ?_, rfl, rfl, rfl⟩
  rw [entry_store frame hg]
  split_ifs with here
  · obtain ⟨rfl, rfl⟩ := here
    rw [tagged]
    split_ifs
    · exact .inr rfl
    · exact .inl rfl
  · exact .inl rfl

/-! ## One step -/

/-- The steps of a call, from the table at a pointer along the indexes. -/
def descend (flags : BitVec 64) (user : Bool) : List (BitVec 9) → BitVec 64 → Vmm → BitVec 64 × Vmm
  | [], table, s => (table, s)
  | i :: is, table, s =>
    descend flags user is (nextTable table (i.setWidth 64) flags (tableFlags user) s).1
      (nextTable table (i.setWidth 64) flags (tableFlags user) s).2

theorem vmmMapPage_descend {virt phys flags : BitVec 64} {user : Bool}
    (asked : flags &&& pteUser ≠ 0 ↔ user = true) (pml4 : BitVec 64) (s : Vmm) :
    vmmMapPage pml4 virt phys flags s =
      (descend flags user [index virt 39, index virt 30, index virt 21] pml4 s).2.store
        (descend flags user [index virt 39, index virt 30, index virt 21] pml4 s).1
        ((index virt 12).setWidth 64) (phys ||| flags ||| ptePresent) :=
  vmmMapPage_eq asked rfl rfl rfl

theorem nextTable_pmmAllocPage (table idx flags tf : BitVec 64) (s : Vmm) :
    (nextTable table idx flags tf s).2.pmmAllocPage = s.pmmAllocPage := by
  by_cases vacant : s.load table idx &&& ptePresent = 0
  · rw [nextTable_vacant vacant]
    rfl
  · rw [nextTable_present vacant]
    rfl

theorem descend_pmmAllocPage (flags : BitVec 64) (user : Bool) (is : List (BitVec 9))
    (table : BitVec 64) (s : Vmm) :
    (descend flags user is table s).2.pmmAllocPage = s.pmmAllocPage := by
  induction is generalizing table s with
  | nil => rfl
  | cons i is ih => exact (ih ..).trans (nextTable_pmmAllocPage ..)

/-- A step over a table that exists. -/
theorem Walkable.present (flags : BitVec 64) (user : Bool) {f : BitVec 64} {i : BitVec 9}
    {is : List (BitVec 9)} (walkable : Walkable old first last s f (i :: is))
    (present : s.entry f i &&& ptePresent ≠ 0) :
    nextTable (f + s.sHhdm) (i.setWidth 64) flags (tableFlags user) s =
        ((s.entry f i &&& frameMask) + s.sHhdm,
          s.store (f + s.sHhdm) (i.setWidth 64) (tagged (s.entry f i) flags)) ∧
      Walkable old first last (s.store (f + s.sHhdm) (i.setWidth 64) (tagged (s.entry f i) flags))
        (s.entry f i &&& frameMask) is := by
  obtain ⟨address, rest⟩ := walkable.2 present
  constructor
  · rw [nextTable_present present, ← address, ← tagged_and (by decide) (s.entry f i) flags]
    rfl
  · exact (tagged_store flags walkable.onPath.frame i).walkable rest

/-- What an entry of an old table that is not present after a new table was linked was before. -/
theorem grow_vacant {f g : BitVec 64} (hf : IsFrame f) (hg : IsFrame g)
    (fresh : IsFrame (s.pmmAllocPage s.allocs)) (other : g ≠ s.pmmAllocPage s.allocs)
    {i j : BitVec 9} {user : Bool}
    (vacant : (s.grow (f + s.sHhdm) (i.setWidth 64) (tableFlags user)).entry g j &&&
      ptePresent = 0) : s.entry g j &&& ptePresent = 0 := by
  rw [entry_grow hf hg fresh] at vacant
  by_cases here : g = f ∧ j = i
  · rw [if_pos here] at vacant
    exact absurd vacant (TableEntry.present ⟨fresh, rfl⟩)
  · rwa [if_neg here, if_neg other] at vacant

/-- The next pointer after a table was linked, or after the step that failed to. -/
theorem nextTable_grow {f flags : BitVec 64} {i : BitVec 9} {user : Bool}
    (fresh : IsFrame (s.pmmAllocPage s.allocs)) (vacant : s.entry f i &&& ptePresent = 0) :
    nextTable (f + s.sHhdm) (i.setWidth 64) flags (tableFlags user) s =
      (s.pmmAllocPage s.allocs + s.sHhdm,
        s.grow (f + s.sHhdm) (i.setWidth 64) (tableFlags user)) := by
  have entry : TableEntry (s.pmmAllocPage s.allocs ||| tableFlags user) (s.pmmAllocPage s.allocs)
      user := ⟨fresh, rfl⟩
  rw [nextTable_vacant vacant, entry.notLow]

theorem OnPath.grow {f table idx tf : BitVec 64} (on : OnPath old first last s f) :
    OnPath old first last (s.grow table idx tf) f := by
  refine ⟨on.frame, on.notNull, ?_, fun k hk lt => on.fresh k ((Nat.le_succ _).trans hk) lt⟩
  exact on.known.imp_right fun ⟨k, hk, lt, eq⟩ => ⟨k, hk, lt.trans (Nat.lt_succ_self _), eq⟩

/-- A step that links a new table: nothing below it is there. -/
theorem Walkable.linked (user : Bool) {f : BitVec 64} {i : BitVec 9} {is : List (BitVec 9)}
    (walkable : Walkable old first last s f (i :: is))
    (answers : PageAnswers s.pmmAllocPage old first last) (from' : first ≤ s.allocs)
    (room : s.allocs < last) (granted : s.pmmAllocPage s.allocs ≠ 0) :
    Walkable old first last (s.grow (f + s.sHhdm) (i.setWidth 64) (tableFlags user))
        (s.pmmAllocPage s.allocs) is ∧
      missingTables (s.grow (f + s.sHhdm) (i.setWidth 64) (tableFlags user))
        (s.pmmAllocPage s.allocs) is = is.length := by
  set g := s.pmmAllocPage s.allocs with hg
  set s' := s.grow (f + s.sHhdm) (i.setWidth 64) (tableFlags user) with hs'
  have frame := answers.frame s.allocs from' room
  have other : g ≠ f := walkable.onPath.fresh s.allocs le_rfl room
  have empty : ∀ j, s'.entry g j &&& ptePresent = 0 := by
    intro j
    rw [hs', entry_grow walkable.onPath.frame frame frame, if_neg fun here => other here.1,
      if_pos hg]
    exact BitVec.zero_and
  have on : OnPath old first last s' g := by
    refine ⟨frame, granted, .inr ⟨s.allocs, from', Nat.lt_succ_self _, rfl⟩, fun k hk lt same => ?_⟩
    exact answers.distinct s.allocs k from' hk lt granted same.symm
  cases is with
  | nil => exact ⟨on, rfl⟩
  | cons j is =>
    refine ⟨⟨on, fun present => absurd (empty j) present⟩, ?_⟩
    rw [missingTables, if_pos (empty j), List.length_cons]

/-! ## After a failure -/

/-- The call has set a present entry for page 0 in a table it reached; the table it goes on from
lies in page 0 or is new, and leads to page 0 only. -/
structure Broken (old : BitVec 64 → Prop) (first last : ℕ) (user : Bool) (s : Vmm)
    (slot : BitVec 64) (i : BitVec 9) (t : BitVec 64) : Prop where
  on : OnPath old first last s slot
  entry : s.entry slot i = tableFlags user
  null : ∃ k, first ≤ k ∧ k < s.allocs ∧ s.pmmAllocPage k = 0
  frame : IsFrame t
  other : t ≠ slot
  fresh : t ≠ 0 → ∀ k, s.allocs ≤ k → k < last → s.pmmAllocPage k ≠ t
  blank : ∀ j, s.entry t j = 0 ∨ t = 0 ∧ s.entry t j = tableFlags user

/-- The step in which `pmm_alloc_page` returns `NULL`. -/
theorem OnPath.broken (user : Bool) {f : BitVec 64} (on : OnPath old first last s f) (i : BitVec 9)
    (from' : first ≤ s.allocs) (null : s.pmmAllocPage s.allocs = 0) :
    Broken old first last user (s.grow (f + s.sHhdm) (i.setWidth 64) (tableFlags user)) f i 0 := by
  have frame : IsFrame (s.pmmAllocPage s.allocs) := by
    rw [null]
    decide
  refine ⟨on.grow, ?_, ⟨s.allocs, from', Nat.lt_succ_self _, null⟩, by decide, on.notNull.symm,
    fun ne => absurd rfl ne, fun j => .inl ?_⟩
  · rw [entry_grow on.frame on.frame frame, if_pos ⟨rfl, rfl⟩, null]
    exact BitVec.zero_or
  · rw [entry_grow on.frame (by decide) frame, if_neg fun here => on.notNull here.1.symm,
      if_pos null.symm]

/-- A later step leaves the entry for page 0 where it is. -/
theorem Broken.step {slot t flags : BitVec 64} {i : BitVec 9} {user : Bool}
    (broken : Broken old first last user s slot i t)
    (answers : PageAnswers s.pmmAllocPage old first last) (from' : first ≤ s.allocs)
    (room : s.allocs < last) (asked : flags &&& pteUser ≠ 0 ↔ user = true) (j : BitVec 9) :
    ∃ t' s', nextTable (t + s.sHhdm) (j.setWidth 64) flags (tableFlags user) s =
        (t' + s.sHhdm, s') ∧
      Broken old first last user s' slot i t' ∧ s'.sHhdm = s.sHhdm ∧
      s'.pmmAllocPage = s.pmmAllocPage ∧ s.allocs ≤ s'.allocs ∧ s'.allocs ≤ s.allocs + 1 := by
  have apart : ∀ l, ¬ (slot = t ∧ l = j) := fun l here => broken.other here.1.symm
  by_cases vacant : s.entry t j &&& ptePresent = 0
  · have frame := answers.frame s.allocs from' room
    have slot_ne : slot ≠ s.pmmAllocPage s.allocs := (broken.on.fresh s.allocs le_rfl room).symm
    refine ⟨_, _, nextTable_grow frame vacant, ?_, rfl, rfl, Nat.le_succ _, le_rfl⟩
    refine { on := broken.on.grow, entry := ?entry, null := ?null, frame := frame,
             other := slot_ne.symm, fresh := ?fresh, blank := ?blank }
    case entry =>
      rw [entry_grow broken.frame broken.on.frame frame, if_neg (apart i), if_neg slot_ne,
        broken.entry]
    case null =>
      obtain ⟨k, hk, lt, eq⟩ := broken.null
      exact ⟨k, hk, lt.trans (Nat.lt_succ_self _), eq⟩
    case fresh =>
      intro granted k hk lt same
      exact answers.distinct s.allocs k from' hk lt granted same.symm
    case blank =>
      intro l
      rw [entry_grow broken.frame frame frame]
      by_cases here : s.pmmAllocPage s.allocs = t ∧ l = j
      · -- the page handed out is the current table only if both are page 0
        have zero : t = 0 := by
          by_contra ne
          exact broken.fresh ne s.allocs le_rfl room here.1
        rw [if_pos here, here.1, zero]
        exact .inr ⟨rfl, BitVec.zero_or⟩
      · rw [if_neg here, if_pos rfl]
        exact .inl rfl
  · obtain zero | ⟨rfl, entry⟩ := broken.blank j
    · rw [zero] at vacant
      exact absurd BitVec.zero_and vacant
    have next : nextTable _ _ flags (tableFlags user) s = _ := nextTable_present vacant
    change _ = ((tagged (s.entry 0 j) flags &&& ~~~0xFFF#64) + s.sHhdm,
      s.store (0 + s.sHhdm) (j.setWidth 64) (tagged (s.entry 0 j) flags)) at next
    have address : tableFlags user &&& ~~~0xFFF#64 = 0 := by cases user <;> decide
    rw [entry, tagged_tableFlags asked, address] at next
    refine ⟨_, _, next, ?_, rfl, rfl, le_rfl, Nat.le_succ _⟩
    refine { on := ⟨broken.on.frame, broken.on.notNull, broken.on.known, broken.on.fresh⟩,
             entry := ?entry', null := broken.null, frame := broken.frame, other := broken.other,
             fresh := broken.fresh, blank := ?blank' }
    case entry' => rw [entry_store broken.frame broken.on.frame, if_neg (apart i), broken.entry]
    case blank' =>
      intro l
      rw [entry_store broken.frame broken.frame]
      split_ifs
      · exact .inr ⟨rfl, rfl⟩
      · exact broken.blank l

theorem Broken.descend {slot t flags : BitVec 64} {i : BitVec 9} {user : Bool}
    (broken : Broken old first last user s slot i t)
    (answers : PageAnswers s.pmmAllocPage old first last) (from' : first ≤ s.allocs)
    (asked : flags &&& pteUser ≠ 0 ↔ user = true) {is : List (BitVec 9)}
    (room : s.allocs + is.length ≤ last) :
    ∃ t', (descend flags user is (t + s.sHhdm) s).1 =
        t' + (descend flags user is (t + s.sHhdm) s).2.sHhdm ∧
      Broken old first last user (descend flags user is (t + s.sHhdm) s).2 slot i t' := by
  induction is generalizing s t with
  | nil => exact ⟨t, rfl, broken⟩
  | cons j is ih =>
    rw [List.length_cons] at room
    obtain ⟨t', s', step, broken', hhdm, alloc, le, le'⟩ :=
      broken.step answers from' (by omega) asked j
    rw [ChefOs.descend, step, ← hhdm]
    exact ih broken' (alloc ▸ answers) (from'.trans le) (by omega)

/-! ## Whole calls -/

/-- A step that reaches the next table: the tables still missing are the others. -/
theorem Walkable.step (flags : BitVec 64) (user : Bool) {f : BitVec 64} {i : BitVec 9}
    {is : List (BitVec 9)} (walkable : Walkable old first last s f (i :: is))
    (answers : PageAnswers s.pmmAllocPage old first last) (from' : first ≤ s.allocs)
    (room : s.allocs < last)
    (granted : ∀ k < missingTables s f (i :: is), s.pmmAllocPage (s.allocs + k) ≠ 0) :
    ∃ f' s', nextTable (f + s.sHhdm) (i.setWidth 64) flags (tableFlags user) s =
        (f' + s'.sHhdm, s') ∧
      s'.sHhdm = s.sHhdm ∧ s'.pmmAllocPage = s.pmmAllocPage ∧ s.allocs ≤ s'.allocs ∧
      s'.allocs ≤ s.allocs + 1 ∧ Walkable old first last s' f' is ∧
      s'.allocs + missingTables s' f' is = s.allocs + missingTables s f (i :: is) ∧
      ∀ k < missingTables s' f' is, s'.pmmAllocPage (s'.allocs + k) ≠ 0 := by
  by_cases vacant : s.entry f i &&& ptePresent = 0
  · have missing : missingTables s f (i :: is) = is.length + 1 := if_pos vacant
    rw [missing] at granted
    obtain ⟨walkable', missing'⟩ :=
      walkable.linked user answers from' room (granted 0 (Nat.succ_pos _))
    refine ⟨s.pmmAllocPage s.allocs, s.grow (f + s.sHhdm) (i.setWidth 64) (tableFlags user),
      nextTable_grow (answers.frame s.allocs from' room) vacant, rfl, rfl, Nat.le_succ _, le_rfl,
      walkable', ?_, fun k hk => ?_⟩
    · rw [missing, missing', Nat.add_comm is.length 1, ← Nat.add_assoc]
      rfl
    · rw [missing'] at hk
      have := granted (k + 1) (by omega)
      rwa [← Nat.add_assoc, Nat.add_right_comm] at this
  · have missing : missingTables s f (i :: is) = missingTables s (s.entry f i &&& frameMask) is :=
      if_neg vacant
    have tag : Tagged s _ := tagged_store flags walkable.onPath.frame i
    obtain ⟨step, walkable'⟩ := walkable.present flags user vacant
    have missing' := tag.missingTables (isFrame_mask (s.entry f i)) is
    refine ⟨s.entry f i &&& frameMask,
      s.store (f + s.sHhdm) (i.setWidth 64) (tagged (s.entry f i) flags), step, rfl, rfl, le_rfl,
      Nat.le_succ _, walkable', ?_, fun k hk => ?_⟩
    · rw [missing, missing']
      rfl
    · rw [missing', ← missing] at hk
      exact granted k hk

/-- If each missing table is obtained, no other call is made. -/
theorem Walkable.descend_allocs (flags : BitVec 64) (user : Bool) {f : BitVec 64}
    {is : List (BitVec 9)} (walkable : Walkable old first last s f is)
    (answers : PageAnswers s.pmmAllocPage old first last) (from' : first ≤ s.allocs)
    (room : s.allocs + is.length ≤ last)
    (granted : ∀ k < missingTables s f is, s.pmmAllocPage (s.allocs + k) ≠ 0) :
    (descend flags user is (f + s.sHhdm) s).2.allocs = s.allocs + missingTables s f is := by
  induction is generalizing s f with
  | nil => rfl
  | cons i is ih =>
    rw [List.length_cons] at room
    obtain ⟨f', s', step, -, alloc, le, le', walkable', missing, granted'⟩ :=
      walkable.step flags user answers from' (by omega) granted
    rw [descend, step, ← missing]
    exact ih walkable' (alloc ▸ answers) (from'.trans le) (by omega) granted'

/-- If the first of some calls returns a page and one of them does not, a later one does not. -/
theorem exists_null_later {alloc : ℕ → BitVec 64} {k n : ℕ} (now : alloc k ≠ 0)
    (null : ∃ j < n + 1, alloc (k + j) = 0) : ∃ j < n, alloc (k + 1 + j) = 0 := by
  obtain ⟨j, hj, eq⟩ := null
  cases j with
  | zero => exact absurd eq now
  | succ j =>
    refine ⟨j, by omega, ?_⟩
    rwa [Nat.add_right_comm]

/-- Behind a table that was obtained, a later one is not. -/
theorem Walkable.null_linked (user : Bool) {f : BitVec 64} {i : BitVec 9} {is : List (BitVec 9)}
    (walkable : Walkable old first last s f (i :: is))
    (answers : PageAnswers s.pmmAllocPage old first last) (from' : first ≤ s.allocs)
    (room : s.allocs < last) (vacant : s.entry f i &&& ptePresent = 0)
    (now : s.pmmAllocPage s.allocs ≠ 0)
    (null : ∃ k < missingTables s f (i :: is), s.pmmAllocPage (s.allocs + k) = 0) :
    ∃ k < missingTables (s.grow (f + s.sHhdm) (i.setWidth 64) (tableFlags user))
        (s.pmmAllocPage s.allocs) is, s.pmmAllocPage (s.allocs + 1 + k) = 0 := by
  have missing : missingTables s f (i :: is) = is.length + 1 := if_pos vacant
  rw [(walkable.linked user answers from' room now).2]
  exact exists_null_later now (missing ▸ null)

/-- Behind a table that was there, one is not obtained. -/
theorem Walkable.null_present (flags : BitVec 64) {f : BitVec 64} {i : BitVec 9}
    {is : List (BitVec 9)} (walkable : Walkable old first last s f (i :: is))
    (present : s.entry f i &&& ptePresent ≠ 0)
    (null : ∃ k < missingTables s f (i :: is), s.pmmAllocPage (s.allocs + k) = 0) :
    ∃ k < missingTables (s.store (f + s.sHhdm) (i.setWidth 64) (tagged (s.entry f i) flags))
        (s.entry f i &&& frameMask) is, s.pmmAllocPage (s.allocs + k) = 0 := by
  have missing : missingTables s f (i :: is) = missingTables s (s.entry f i &&& frameMask) is :=
    if_neg present
  have tag : Tagged s _ := tagged_store flags walkable.onPath.frame i
  rwa [tag.missingTables (isFrame_mask (s.entry f i)) is, ← missing]

/-- If some missing table is not obtained, an entry for page 0 stays behind, in a table that did
not have it before the call. -/
theorem Walkable.descend_broken {f flags : BitVec 64} {user : Bool} {is : List (BitVec 9)}
    (walkable : Walkable old first last s f is)
    (answers : PageAnswers s.pmmAllocPage old first last) (from' : first ≤ s.allocs)
    (room : s.allocs + is.length ≤ last)
    (asked : flags &&& pteUser ≠ 0 ↔ user = true)
    (null : ∃ k < missingTables s f is, s.pmmAllocPage (s.allocs + k) = 0) :
    ∃ slot i t, (descend flags user is (f + s.sHhdm) s).1 =
        t + (descend flags user is (f + s.sHhdm) s).2.sHhdm ∧
      Broken old first last user (descend flags user is (f + s.sHhdm) s).2 slot i t ∧
      (old slot → s.entry slot i &&& ptePresent = 0) := by
  induction is generalizing s f with
  | nil =>
    obtain ⟨k, lt, -⟩ := null
    exact absurd lt (Nat.not_lt_zero k)
  | cons i is ih =>
    rw [List.length_cons] at room
    have on := walkable.onPath
    by_cases vacant : s.entry f i &&& ptePresent = 0
    · have frame := answers.frame s.allocs from' (by omega)
      rw [descend, nextTable_grow frame vacant]
      by_cases now : s.pmmAllocPage s.allocs = 0
      · -- the failure is here
        have broken := on.broken user i from' now
        obtain ⟨t, table, final⟩ := broken.descend answers (from'.trans (Nat.le_succ _)) asked
          (show s.allocs + 1 + is.length ≤ last by omega)
        rw [now]
        exact ⟨f, i, t, table, final, fun _ => vacant⟩
      · obtain ⟨walkable', -⟩ := walkable.linked user answers from' (by omega) now
        have later := walkable.null_linked user answers from' (by omega) vacant now null
        obtain ⟨slot, j, t, table, final, before⟩ := ih walkable' answers
          (from'.trans (Nat.le_succ _)) (by change s.allocs + 1 + _ ≤ _; omega) later
        refine ⟨slot, j, t, table, final, fun hold => ?_⟩
        have other : slot ≠ s.pmmAllocPage s.allocs := by
          rintro rfl
          exact answers.fresh s.allocs from' (by omega) now hold
        exact grow_vacant on.frame final.on.frame frame other (before hold)
    · have tag : Tagged s _ := tagged_store flags walkable.onPath.frame i
      obtain ⟨step, walkable'⟩ := walkable.present flags user vacant
      have later := walkable.null_present flags vacant null
      obtain ⟨slot, j, t, table, final, before⟩ := ih walkable' answers from'
        (by change s.allocs + _ ≤ _; omega) later
      rw [descend, step]
      refine ⟨slot, j, t, table, final, fun hold => ?_⟩
      rw [← tag.and final.on.frame j (by decide)]
      exact before hold

end

/-- A frame that `pmm_alloc_page` returned between the states. -/
def NewTable (s s' : Vmm) (f : BitVec 64) : Prop :=
  f ≠ 0 ∧ ∃ k, s.allocs ≤ k ∧ k < s'.allocs ∧ s.pmmAllocPage k = f

/-- A call to `pmm_alloc_page` between the states returned `NULL`. -/
def NullAnswer (s s' : Vmm) : Prop := ∃ k, s.allocs ≤ k ∧ k < s'.allocs ∧ s.pmmAllocPage k = 0

/-- From `s` to `s'` no memory outside of the tables was written, no present entry for page 0 was
installed in one, and every walk ends as before. -/
structure Unchanged (root : BitVec 64) (node : List (BitVec 9) → Option (BitVec 64)) (s s' : Vmm) :
    Prop where
  outside : ∀ a, (∀ f, (∃ p, node p = some f) ∨ NewTable s s' f →
    ¬ (a - (f + s.sHhdm)).toNat < 4096) → s'.mem a = s.mem a
  notNull : ∀ f i, (∃ p, node p = some f) ∨ NewTable s s' f → PointsToNull (s'.entry f i) →
    (∃ p, node p = some f) ∧ PointsToNull (s.entry f i)
  walk : ∀ v, hardwareWalk s' root v = hardwareWalk s root v

/-- A call in which `pmm_alloc_page` returns `NULL` at some level leaves things unchanged just when
there is no such call: `pmm_alloc_page` has a page for each table that is missing on the way. -/
theorem vmmMapPage_unchanged_iff (s : Vmm) (root virt phys flags : BitVec 64)
    (node : List (BitVec 9) → Option (BitVec 64)) (tree : TableTree root s node)
    (answers : PageAnswers s.pmmAllocPage (fun f => ∃ p, node p = some f) s.allocs (s.allocs + 3)) :
    (NullAnswer s (vmmMapPage (root + s.sHhdm) virt phys flags s) →
        Unchanged root node s (vmmMapPage (root + s.sHhdm) virt phys flags s)) ↔
      ∀ k < missingTables s root [index virt 39, index virt 30, index virt 21],
        s.pmmAllocPage (s.allocs + k) ≠ 0 := by
  obtain ⟨user, asked⟩ : ∃ user : Bool, flags &&& pteUser ≠ 0 ↔ user = true :=
    ⟨decide _, (decide_eq_true_iff ..).symm⟩
  have walkable : Walkable _ s.allocs (s.allocs + 3) s root
      [index virt 39, index virt 30, index virt 21] :=
    tree.walkable answers tree.top (by simp)
  rw [vmmMapPage_descend asked]
  constructor
  · intro unchanged
    by_contra fails
    push Not at fails
    obtain ⟨slot, i, t, table, broken, before⟩ :=
      walkable.descend_broken answers le_rfl (by simp) asked fails
    have alloc := descend_pmmAllocPage flags user
      [index virt 39, index virt 30, index virt 21] (root + s.sHhdm) s
    have null := broken.null
    have known := broken.on.known
    rw [alloc] at null known
    rw [table] at unchanged
    have kept := (unchanged null).notNull slot i
    rw [entry_store broken.frame broken.on.frame, if_neg fun here => broken.other here.1.symm,
      broken.entry] at kept
    obtain ⟨old, present, -⟩ :=
      kept (known.imp_right fun new => ⟨broken.on.notNull, new⟩) (tableFlags_pointsToNull user)
    exact present (before old)
  · rintro granted ⟨k, hk, lt, null⟩
    have count := walkable.descend_allocs flags user answers le_rfl (by simp) granted
    have lt' : k < s.allocs +
        missingTables s root [index virt 39, index virt 30, index virt 21] := by
      rw [← count]
      exact lt
    apply absurd null
    have := granted (k - s.allocs) (by omega)
    rwa [Nat.add_sub_cancel' hk] at this

/-- The root alone, as `PageTables.empty` has it. -/
def rootOnly (root : BitVec 64) (p : List (BitVec 9)) : Option (BitVec 64) :=
  if p = [] then some root else none

/-- With three pages left a first mapping finds them all. -/
theorem vmmMapPage_unchanged_example :
    missingTables exampleVmm 0x1000 [index 0x400000 39, index 0x400000 30, index 0x400000 21] = 3 ∧
    (NullAnswer exampleVmm (vmmMapPage (0x1000 + exampleVmm.sHhdm) 0x400000 0x80000 7 exampleVmm) →
      Unchanged 0x1000 (rootOnly 0x1000) exampleVmm
        (vmmMapPage (0x1000 + exampleVmm.sHhdm) 0x400000 0x80000 7 exampleVmm)) := by
  have known : ∀ p f, rootOnly 0x1000 p = some f → f = 0x1000 := by
    intro p f hf
    rw [rootOnly] at hf
    split_ifs at hf
    exact (Option.some.inj hf).symm
  have root : IsFrame 0x1000 := by decide
  have tables : PageTables 0x1000 0 exampleVmm (rootOnly 0x1000) (fun _ => none) :=
    PageTables.empty (s := exampleVmm) root fun _ => rfl
  have frames : ∀ k < 3, IsFrame (exampleVmm.pmmAllocPage k) ∧
      exampleVmm.pmmAllocPage k ≠ 0x1000 ∧
      ∀ j < k, exampleVmm.pmmAllocPage j ≠ exampleVmm.pmmAllocPage k := by decide +kernel
  refine ⟨by decide, (vmmMapPage_unchanged_iff exampleVmm 0x1000 0x400000 0x80000 7 _
    (tables.tableTree fun p hp => ?_) ⟨fun k _ lt => (frames k lt).1, fun k _ lt _ old => ?_,
      fun j k _ jk lt _ => (frames k lt).2.2 j jk⟩).mpr ?_⟩
  · exact absurd (known p 0 hp) (by decide)
  · obtain ⟨p, hp⟩ := old
    exact (frames k lt).2.1 (known p _ hp)
  · decide

/-- The machine of `exampleVmm` with no page left. -/
def noPages : Vmm := { exampleVmm with pmmAllocPage := fun _ => 0 }

/-- The first mapping then leaves a present entry for page 0 in the root. -/
theorem noPages_changed :
    ¬ (NullAnswer noPages (vmmMapPage (0x1000 + noPages.sHhdm) 0x400000 0x80000 7 noPages) →
      Unchanged 0x1000 (rootOnly 0x1000) noPages
        (vmmMapPage (0x1000 + noPages.sHhdm) 0x400000 0x80000 7 noPages)) := by
  intro claim
  have unchanged := claim ⟨0, le_rfl, by decide, rfl⟩
  have before := unchanged.notNull 0x1000 0 (.inl ⟨[], rfl⟩) (by decide)
  exact absurd before.2 (by decide)

end ChefOs
