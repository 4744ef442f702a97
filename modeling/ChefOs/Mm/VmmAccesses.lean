import ChefOs.Mm.VmmFailure

/-!
# The memory that `vmm_map_page` touches

An entry of the second or third level with bit 7 set maps a large page and points to no table.
`vmm_map_page` tests `PTE_PRESENT` only, so it goes on into the large page as if it were a table,
reads one of its words there and overwrites one.
-/

namespace ChefOs

open Kit

/-! ## Accesses -/

/-- Bytes that are accessed together: an entry, or a page that `memset` clears. -/
structure Access where
  base : BitVec 64
  size : ℕ
deriving DecidableEq, Repr

/-- The byte at a kernel address belongs to the access. -/
def Access.Covers (x : Access) (a : BitVec 64) : Prop := (a - x.base).toNat < x.size

/-- `table[idx]`. -/
def entryAccess (table idx : BitVec 64) : Access := ⟨table + 8 * idx, 8⟩

/-- What a step from a table to the next one accesses. -/
def nextTableAccesses (table idx : BitVec 64) (s : Vmm) : List Access :=
  if s.load table idx &&& ptePresent = 0 then
    [entryAccess table idx, ⟨s.pmmAllocPage s.allocs + s.sHhdm, 4096⟩]
  else [entryAccess table idx]

/-- What `vmm_map_page` accesses. -/
def vmmMapPageAccesses (pml4 virt flags : BitVec 64) (s : Vmm) : List Access :=
  let pml4Idx := (virt >>> 39) &&& 0x1FF#64
  let pdptIdx := (virt >>> 30) &&& 0x1FF#64
  let pdIdx := (virt >>> 21) &&& 0x1FF#64
  let ptIdx := (virt >>> 12) &&& 0x1FF#64
  let tableFlags := ptePresent ||| pteWritable
  let tableFlags := if flags &&& pteUser ≠ 0 then tableFlags ||| pteUser else tableFlags
  let (pdpt, s₁) := nextTable pml4 pml4Idx flags tableFlags s
  let (pd, s₂) := nextTable pdpt pdptIdx flags tableFlags s₁
  let (pt, _) := nextTable pd pdIdx flags tableFlags s₂
  nextTableAccesses pml4 pml4Idx s ++ nextTableAccesses pdpt pdptIdx s₁ ++
    nextTableAccesses pd pdIdx s₂ ++ [entryAccess pt ptIdx]

/-- The accesses of the steps from a table at a pointer along the indexes, and of the entry at the
last index. -/
def descendAccesses (flags : BitVec 64) (user : Bool) (last : BitVec 9) :
    List (BitVec 9) → BitVec 64 → Vmm → List Access
  | [], table, _ => [entryAccess table (last.setWidth 64)]
  | i :: is, table, s =>
    nextTableAccesses table (i.setWidth 64) s ++
      descendAccesses flags user last is
        (nextTable table (i.setWidth 64) flags (tableFlags user) s).1
        (nextTable table (i.setWidth 64) flags (tableFlags user) s).2

/-! ## Nothing else is accessed -/

section

variable {table idx flags tf a : BitVec 64} {s t : Vmm} {xs ys : List Access}

theorem covers_entryAccess (table idx : BitVec 64) :
    (entryAccess table idx).Covers (table + 8 * idx) := by
  change (table + 8 * idx - (table + 8 * idx)).toNat < 8
  rw [BitVec.sub_self]
  decide

theorem covers_page (page : BitVec 64) : (Access.mk page 4096).Covers page := by
  change (page - page).toNat < 4096
  rw [BitVec.sub_self]
  decide

theorem entryAccess_mem (table idx : BitVec 64) (s : Vmm) :
    entryAccess table idx ∈ nextTableAccesses table idx s := by
  rw [nextTableAccesses]
  split_ifs
  · exact List.mem_cons_self
  · exact List.mem_cons_self

theorem pageAccess_mem (vacant : s.load table idx &&& ptePresent = 0) :
    ⟨s.pmmAllocPage s.allocs + s.sHhdm, 4096⟩ ∈ nextTableAccesses table idx s := by
  rw [nextTableAccesses, if_pos vacant]
  exact List.mem_cons_of_mem _ List.mem_cons_self

/-- The states agree on what the accesses read, and on everything that is not memory. -/
structure SameOn (s t : Vmm) (xs : List Access) : Prop where
  mem : ∀ x ∈ xs, ∀ a, x.Covers a → t.mem a = s.mem a
  sHhdm : t.sHhdm = s.sHhdm
  pmmAllocPage : t.pmmAllocPage = s.pmmAllocPage
  allocs : t.allocs = s.allocs

/-- A store to an entry that both states have at the same place. -/
theorem SameOn.store (same : SameOn s t xs) (table idx e : BitVec 64) :
    SameOn (s.store table idx e) (t.store table idx e) xs := by
  refine ⟨fun x hx a covers => ?_, same.sHhdm, same.pmmAllocPage, same.allocs⟩
  change Function.update t.mem (table + 8 * idx) e a = Function.update s.mem (table + 8 * idx) e a
  simp only [Function.update_apply, same.mem x hx a covers]

/-- A word that the accesses do not cover stays as it is. -/
theorem nextTable_frame (outside : ∀ x ∈ nextTableAccesses table idx s, ¬ x.Covers a) :
    (nextTable table idx flags tf s).2.mem a = s.mem a := by
  have entry : a ≠ table + 8 * idx := by
    rintro rfl
    exact outside _ (entryAccess_mem table idx s) (covers_entryAccess table idx)
  by_cases vacant : s.load table idx &&& ptePresent = 0
  · have page := outside _ (pageAccess_mem vacant)
    rw [nextTable_vacant vacant]
    change Function.update _ (table + 8 * idx) _ a = _
    rw [Function.update_of_ne entry]
    exact if_neg page
  · rw [nextTable_present vacant]
    exact Function.update_of_ne entry ..

/-- A step computes the same from the same words. -/
theorem nextTable_local (same : SameOn s t (nextTableAccesses table idx s)) :
    nextTableAccesses table idx t = nextTableAccesses table idx s ∧
      (nextTable table idx flags tf t).1 = (nextTable table idx flags tf s).1 ∧
      ∀ ys, SameOn s t ys → SameOn (nextTable table idx flags tf s).2
        (nextTable table idx flags tf t).2 ys := by
  have load : t.load table idx = s.load table idx :=
    same.mem _ (entryAccess_mem table idx s) _ (covers_entryAccess table idx)
  refine ⟨?_, ?_, fun ys sameYs => ?_⟩
  · rw [nextTableAccesses, nextTableAccesses, load, same.sHhdm, same.pmmAllocPage, same.allocs]
  · by_cases vacant : s.load table idx &&& ptePresent = 0
    · rw [nextTable_vacant vacant, nextTable_vacant (by rw [load]; exact vacant), same.sHhdm,
        same.pmmAllocPage, same.allocs]
    · rw [nextTable_present vacant, nextTable_present (by rw [load]; exact vacant), load,
        same.sHhdm]
  · by_cases vacant : s.load table idx &&& ptePresent = 0
    · rw [nextTable_vacant vacant, nextTable_vacant (by rw [load]; exact vacant)]
      refine ⟨fun x hx a covers => ?_, same.sHhdm, same.pmmAllocPage, ?_⟩
      · change Function.update _ (table + 8 * idx) _ a = Function.update _ (table + 8 * idx) _ a
        rw [same.pmmAllocPage, same.allocs, same.sHhdm]
        simp only [Function.update_apply, Vmm.clear, sameYs.mem x hx a covers]
      · change t.allocs + 1 = s.allocs + 1
        rw [same.allocs]
    · rw [nextTable_present vacant, nextTable_present (by rw [load]; exact vacant), load]
      exact sameYs.store table idx _

theorem SameOn.sublist (same : SameOn s t xs) (sub : ys ⊆ xs) : SameOn s t ys :=
  ⟨fun x hx => same.mem x (sub hx), same.sHhdm, same.pmmAllocPage, same.allocs⟩

end

section

variable {flags table e a : BitVec 64} {user : Bool} {last : BitVec 9} {is : List (BitVec 9)}
  {s t : Vmm}

theorem descend_frame (outside : ∀ x ∈ descendAccesses flags user last is table s, ¬ x.Covers a) :
    ((descend flags user is table s).2.store (descend flags user is table s).1
      (last.setWidth 64) e).mem a = s.mem a := by
  induction is generalizing table s with
  | nil =>
    apply Function.update_of_ne
    rintro rfl
    exact outside _ List.mem_cons_self (covers_entryAccess table (last.setWidth 64))
  | cons i is ih =>
    rw [descend, ih fun x hx => outside x (List.mem_append_right _ hx)]
    exact nextTable_frame fun x hx => outside x (List.mem_append_left _ hx)

theorem descend_local (same : SameOn s t (descendAccesses flags user last is table s)) :
    descendAccesses flags user last is table t = descendAccesses flags user last is table s ∧
      ∀ ys, SameOn s t ys → SameOn
        ((descend flags user is table s).2.store (descend flags user is table s).1
          (last.setWidth 64) e)
        ((descend flags user is table t).2.store (descend flags user is table t).1
          (last.setWidth 64) e) ys := by
  induction is generalizing table s t with
  | nil => exact ⟨rfl, fun ys sameYs => sameYs.store table _ e⟩
  | cons i is ih =>
    obtain ⟨accesses, next, later⟩ := nextTable_local
      (same.sublist (List.subset_append_left _ _))
    have rest := ih (later _ (same.sublist (List.subset_append_right _ _)))
    rw [descendAccesses, descendAccesses, descend, descend, accesses, next, rest.1]
    exact ⟨rfl, fun ys sameYs => rest.2 ys (later ys sameYs)⟩

end

theorem vmmMapPageAccesses_descend {virt flags : BitVec 64} {user : Bool}
    (asked : flags &&& pteUser ≠ 0 ↔ user = true) (pml4 : BitVec 64) (s : Vmm) :
    vmmMapPageAccesses pml4 virt flags s = descendAccesses flags user (index virt 12)
      [index virt 39, index virt 30, index virt 21] pml4 s := by
  simp only [vmmMapPageAccesses, tableFlags_eq asked, idx_eq, descendAccesses, List.append_assoc]

/-- `vmm_map_page` writes no word that its accesses do not cover. -/
theorem vmmMapPage_frame {pml4 virt phys flags a : BitVec 64} {s : Vmm}
    (outside : ∀ x ∈ vmmMapPageAccesses pml4 virt flags s, ¬ x.Covers a) :
    (vmmMapPage pml4 virt phys flags s).mem a = s.mem a := by
  obtain ⟨user, asked⟩ : ∃ user : Bool, flags &&& pteUser ≠ 0 ↔ user = true :=
    ⟨decide _, (decide_eq_true_iff ..).symm⟩
  rw [vmmMapPageAccesses_descend asked] at outside
  rw [vmmMapPage_descend asked]
  exact descend_frame outside

/-- `vmm_map_page` reads no word that its accesses do not cover: over any other contents of the rest
of the memory it accesses the same bytes and leaves the same words behind. -/
theorem vmmMapPage_local {pml4 virt phys flags : BitVec 64} {s t : Vmm}
    (same : SameOn s t (vmmMapPageAccesses pml4 virt flags s)) :
    vmmMapPageAccesses pml4 virt flags t = vmmMapPageAccesses pml4 virt flags s ∧
      SameOn (vmmMapPage pml4 virt phys flags s) (vmmMapPage pml4 virt phys flags t)
        (vmmMapPageAccesses pml4 virt flags s) := by
  obtain ⟨user, asked⟩ : ∃ user : Bool, flags &&& pteUser ≠ 0 ↔ user = true :=
    ⟨decide _, (decide_eq_true_iff ..).symm⟩
  simp only [vmmMapPageAccesses_descend asked, vmmMapPage_descend asked] at same ⊢
  obtain ⟨accesses, results⟩ := descend_local same
  exact ⟨accesses, results _ same⟩

/-! ## Bytes of frames -/

/-- The byte at a kernel address lies in the frame. -/
def Vmm.InFrame (s : Vmm) (f a : BitVec 64) : Prop := (a - (f + s.sHhdm)).toNat < 4096

theorem notLow_aligned (e : BitVec 64) : (e &&& ~~~0xFFF#64).toNat % 4096 = 0 :=
  and_aligned (by decide) e

/-- The bytes of an entry lie in the frame of its table. -/
theorem entryAccess_inFrame {s : Vmm} {f a : BitVec 64} {i : BitVec 9}
    (covers : (entryAccess (f + s.sHhdm) (i.setWidth 64)).Covers a) : s.InFrame f a := by
  have offset : a - (f + s.sHhdm) =
      a - (f + s.sHhdm + 8#64 * i.setWidth 64) + 8#64 * i.setWidth 64 := by grind
  have small : (a - (f + s.sHhdm + 8#64 * i.setWidth 64)).toNat < 8 := covers
  have := i.isLt
  rw [Vmm.InFrame, offset, BitVec.toNat_add, offset_toNat]
  omega

/-- An entry at an aligned address lies in no frame but its own. -/
theorem entry_inFrame {s : Vmm} {f g : BitVec 64} (aligned : f.toNat % 4096 = 0) (hg : IsFrame g)
    {i : BitVec 9} (inside : s.InFrame g (f + s.sHhdm + 8#64 * i.setWidth 64)) : f = g := by
  have cancelled : f + s.sHhdm + 8#64 * i.setWidth 64 - (g + s.sHhdm) =
      f + 8#64 * i.setWidth 64 - g := by grind
  have := i.isLt
  have := hg.1
  rw [Vmm.InFrame, cancelled, BitVec.toNat_sub, BitVec.toNat_add, offset_toNat] at inside
  apply BitVec.eq_of_toNat_eq
  omega

/-- Frames that share a byte are one. -/
theorem inFrame_unique {s : Vmm} {f g a : BitVec 64} (hf : IsFrame f) (hg : IsFrame g)
    (inF : s.InFrame f a) (inG : s.InFrame g a) : f = g := by
  have cancelled : a - (f + s.sHhdm) + f = a - (g + s.sHhdm) + g := by grind
  have sums := congrArg BitVec.toNat cancelled
  have := hf.1
  have := hg.1
  rw [Vmm.InFrame] at inF inG
  rw [BitVec.toNat_add, BitVec.toNat_add] at sums
  apply BitVec.eq_of_toNat_eq
  omega

/-! ## Trees with large pages -/

/-- The table that an entry points to, in a table at this depth: above the last level, an entry of
any level but the first is a large leaf if its bit 7 is set. -/
def hardwareChild (depth : ℕ) (e : BitVec 64) : Option (BitVec 64) :=
  if e &&& ptePresent = 0 then none
  else if depth ≠ 0 ∧ e &&& ptePageSize ≠ 0 then none
  else some (e &&& frameMask)

/-- `node p` is the table that the hardware reaches along the index path `p`.  Physical page 0,
which `NULL` stands for, is no table. -/
structure HardwareTree (root : BitVec 64) (s : Vmm) (node : List (BitVec 9) → Option (BitVec 64)) :
    Prop where
  top : node [] = some root
  linked : ∀ p f i, p.length < 3 → node p = some f →
    node (p ++ [i]) = hardwareChild p.length (s.entry f i)
  closed : ∀ p i, node p = none → node (p ++ [i]) = none
  levels : ∀ p f, node p = some f → p.length ≤ 3
  frame : ∀ p f, node p = some f → IsFrame f
  notNull : ∀ p, node p ≠ some 0

/-- The address bits of a large leaf, in a table at depth 1 or 2. -/
def largeMask (depth : ℕ) : BitVec 64 :=
  if depth = 1 then 0x000FFFFFC0000000 else 0x000FFFFFFFE00000

/-- The frame lies in the large page that the entry at `i` of the table at the path `q` maps. -/
structure LargePage (s : Vmm) (node : List (BitVec 9) → Option (BitVec 64)) (q : List (BitVec 9))
    (i : BitVec 9) (g : BitVec 64) : Prop where
  depth : q.length = 1 ∨ q.length = 2
  leaf : ∃ f, node q = some f ∧ s.entry f i &&& ptePresent ≠ 0 ∧ s.entry f i &&& ptePageSize ≠ 0 ∧
    g &&& largeMask q.length = s.entry f i &&& largeMask q.length
  frame : IsFrame g

/-- The frame is a table of the tree, or `pmm_alloc_page` returned it between the states. -/
def OwnTable (node : List (BitVec 9) → Option (BitVec 64)) (s s' : Vmm) (f : BitVec 64) : Prop :=
  (∃ p, node p = some f) ∨ NewTable s s' f

/-- The frame lies in a page that a large leaf maps and holds data: it is no table, or the leaf is
the one that maps `virt`. -/
def LargeData (node : List (BitVec 9) → Option (BitVec 64)) (virt : BitVec 64) (s s' : Vmm)
    (g : BitVec 64) : Prop :=
  ∃ q i, LargePage s node q i g ∧ (q ++ [i] <+: pathOf virt ∨ ¬ OwnTable node s s' g)

/-- A call for `virt` that leads from `s` to `s'` accesses tables only. -/
structure OnlyTables (node : List (BitVec 9) → Option (BitVec 64)) (virt : BitVec 64) (s s' : Vmm)
    (accesses : List Access) : Prop where
  tables : ∀ x ∈ accesses, ∃ f, OwnTable node s s' f ∧ ∀ a, x.Covers a → s.InFrame f a
  data : ∀ x ∈ accesses, ∀ g, LargeData node virt s s' g → ∀ a, x.Covers a → ¬ s.InFrame g a

/-- Each present entry on the way from the table at `f` along the indexes points to a table, at the
address that `vmm_map_page` takes from it. -/
def TablePath (s : Vmm) : ℕ → BitVec 64 → List (BitVec 9) → Prop
  | _, _, [] => True
  | depth, f, i :: is => s.entry f i &&& ptePresent ≠ 0 →
      (depth ≠ 0 → s.entry f i &&& ptePageSize = 0) ∧
        s.entry f i &&& ~~~0xFFF#64 = s.entry f i &&& frameMask ∧
          TablePath s (depth + 1) (s.entry f i &&& frameMask) is

section

variable {root : BitVec 64} {s s' : Vmm} {node : List (BitVec 9) → Option (BitVec 64)}

/-- The next table on a path of tables. -/
theorem HardwareTree.next (tree : HardwareTree root s node) {p : List (BitVec 9)} {f : BitVec 64}
    {i : BitVec 9} {is : List (BitVec 9)} (hf : node p = some f) (short : p.length < 3)
    (path : TablePath s p.length f (i :: is)) (present : s.entry f i &&& ptePresent ≠ 0) :
    node (p ++ [i]) = some (s.entry f i &&& frameMask) := by
  obtain ⟨inner, -⟩ := path present
  rw [tree.linked p f i short hf, hardwareChild, if_neg present,
    if_neg fun large => large.2 (inner large.1)]

/-- A path of tables can be reached. -/
theorem TablePath.walkable (tree : HardwareTree root s node) {last : ℕ}
    (answers : PageAnswers s.pmmAllocPage (fun f => ∃ p, node p = some f) s.allocs last)
    {p : List (BitVec 9)} {f : BitVec 64} {is : List (BitVec 9)} (hf : node p = some f)
    (len : p.length + is.length ≤ 3) (path : TablePath s p.length f is) :
    Walkable (fun f => ∃ p, node p = some f) s.allocs last s f is := by
  have onPath : ∀ {p f}, node p = some f → OnPath _ s.allocs last s f :=
    fun hf => answers.onPath hf (tree.frame _ _ hf) (tree.notNull _)
  induction is generalizing p f with
  | nil => exact onPath hf
  | cons i is ih =>
    rw [List.length_cons] at len
    refine ⟨onPath hf, fun present => ⟨(path present).2.1, ?_⟩⟩
    apply ih (tree.next hf (by omega) path present)
    · rw [List.length_append, List.length_singleton]
      omega
    · rw [List.length_append, List.length_singleton]
      exact (path present).2.2

/-- No entry on a path of tables is a large leaf. -/
theorem TablePath.no_largePage (tree : HardwareTree root s node) {p q is : List (BitVec 9)}
    {f g : BitVec 64} {i : BitVec 9} (hf : node p = some f) (len : p.length + is.length ≤ 3)
    (path : TablePath s p.length f is) (on : q ++ [i] <+: is) :
    ¬ LargePage s node (p ++ q) i g := by
  induction q generalizing p f is with
  | nil =>
    obtain ⟨is, rfl⟩ := on
    rintro ⟨depth, ⟨f', hf', present, large, -⟩, -⟩
    rw [List.append_nil] at hf' depth
    obtain rfl := Option.some.inj (hf.symm.trans hf')
    exact large ((path present).1 (by omega))
  | cons j q ih =>
    obtain ⟨is, rfl⟩ := on
    intro page
    obtain ⟨f', hf', -⟩ := page.leaf
    have split : p ++ j :: q = p ++ [j] ++ q := by simp
    rw [split] at hf' page
    obtain ⟨f'', hf''⟩ := Option.ne_none_iff_exists'.mp
      (ancestors_of_closed tree.closed (by rw [hf']; exact Option.some_ne_none f'))
    have short : p.length < 3 := by
      simp only [List.cons_append, List.length_cons] at len
      omega
    have present : s.entry f j &&& ptePresent ≠ 0 := by
      intro vacant
      rw [tree.linked p f j short hf, hardwareChild, if_pos vacant] at hf''
      exact absurd hf'' (by simp)
    have next := tree.next hf short path present
    refine ih next ?_ ?_ ⟨is, rfl⟩ page
    · simp only [List.cons_append, List.length_cons, List.length_append, List.length_nil] at len ⊢
      omega
    · rw [List.length_append, List.length_singleton]
      exact (path present).2.2

/-- A large page is the same for states that only differ in `PTE_USER`. -/
theorem Tagged.largePage (tag : Tagged s s') (tree : HardwareTree root s node)
    {q : List (BitVec 9)} {i : BitVec 9} {g : BitVec 64} (page : LargePage s' node q i g) :
    LargePage s node q i g := by
  obtain ⟨depth, ⟨f, hf, present, large, bits⟩, frame⟩ := page
  have hframe := tree.frame q f hf
  have outside : pteUser &&& largeMask q.length = 0#64 := by
    rcases depth with one | two
    · rw [one]
      decide
    · rw [two]
      decide
  rw [tag.and hframe i (by decide)] at present large
  rw [tag.and hframe i outside] at bits
  exact ⟨depth, ⟨f, hf, present, large, bits⟩, frame⟩

theorem Tagged.hardwareTree (tag : Tagged s s') (tree : HardwareTree root s node) :
    HardwareTree root s' node := by
  refine ⟨tree.top, fun p f i short hf => ?_, tree.closed, tree.levels, tree.frame, tree.notNull⟩
  have frame := tree.frame p f hf
  rw [tree.linked p f i short hf, hardwareChild, hardwareChild, tag.and frame i (by decide),
    tag.and frame i (by decide), tag.and frame i (by decide)]

theorem Tagged.tablePath (tag : Tagged s s') {depth : ℕ} {f : BitVec 64} (frame : IsFrame f)
    (is : List (BitVec 9)) : TablePath s' depth f is ↔ TablePath s depth f is := by
  induction is generalizing depth f with
  | nil => exact Iff.rfl
  | cons i is ih =>
    rw [TablePath, TablePath, tag.and frame i (by decide), tag.and frame i (by decide),
      tag.and frame i (by decide), tag.and frame i (by decide), ih (isFrame_mask _)]

end

/-! ## Whole calls -/

section

variable {root flags : BitVec 64} {user : Bool} {s : Vmm} {old : BitVec 64 → Prop}
  {first last : ℕ} {node : List (BitVec 9) → Option (BitVec 64)} {f : BitVec 64}
  {is : List (BitVec 9)} {l : BitVec 9}

theorem descend_allocs_le (flags : BitVec 64) (user : Bool) (is : List (BitVec 9))
    (table : BitVec 64) (s : Vmm) :
    s.allocs ≤ (descend flags user is table s).2.allocs ∧
      (descend flags user is table s).2.allocs ≤ s.allocs + is.length := by
  induction is generalizing table s with
  | nil => exact ⟨le_rfl, le_rfl⟩
  | cons i is ih =>
    have step := nextTable_allocs table (i.setWidth 64) flags (tableFlags user) s
    have one := nextTable_allocs_le table (i.setWidth 64) flags (tableFlags user) s
    have rest := ih (nextTable table (i.setWidth 64) flags (tableFlags user) s).1
      (nextTable table (i.setWidth 64) flags (tableFlags user) s).2
    rw [descend, List.length_cons]
    omega

/-- An entry of the table at the pointer is accessed. -/
theorem exists_entryAccess (flags : BitVec 64) (user : Bool) (l : BitVec 9) (is : List (BitVec 9))
    (table : BitVec 64) (s : Vmm) :
    ∃ j : BitVec 9,
      entryAccess table (j.setWidth 64) ∈ descendAccesses flags user l is table s := by
  cases is with
  | nil => exact ⟨l, List.mem_cons_self⟩
  | cons i is => exact ⟨i, List.mem_append_left _ (entryAccess_mem ..)⟩

/-- The frame is an old table, or one of the calls from `first` on and before `last` returned it. -/
def Obtained (alloc : ℕ → BitVec 64) (old : BitVec 64 → Prop) (first last : ℕ) (f : BitVec 64) :
    Prop :=
  f ≠ 0 ∧ (old f ∨ ∃ k, first ≤ k ∧ k < last ∧ alloc k = f)

theorem OnPath.obtained (on : OnPath old first last s f) {n : ℕ} (le : s.allocs ≤ n) :
    Obtained s.pmmAllocPage old first n f := by
  refine ⟨on.notNull, on.known.imp_right ?_⟩
  rintro ⟨k, hk, lt, eq⟩
  exact ⟨k, hk, lt.trans_le le, eq⟩

/-- The accesses of a step lie in the table it starts from and in the page it obtains. -/
theorem OnPath.nextTable_owned (on : OnPath old first last s f) {i : BitVec 9} {n : ℕ}
    (from' : first ≤ s.allocs) (le : (nextTable (f + s.sHhdm) (i.setWidth 64) flags
      (tableFlags user) s).2.allocs ≤ n)
    (granted : s.entry f i &&& ptePresent = 0 → s.pmmAllocPage s.allocs ≠ 0) :
    ∀ x ∈ nextTableAccesses (f + s.sHhdm) (i.setWidth 64) s,
      ∃ g, Obtained s.pmmAllocPage old first n g ∧ ∀ a, x.Covers a → s.InFrame g a := by
  intro x hx
  have entry : ∃ g, Obtained s.pmmAllocPage old first n g ∧
      ∀ a, (entryAccess (f + s.sHhdm) (i.setWidth 64)).Covers a → s.InFrame g a :=
    ⟨f, on.obtained ((nextTable_allocs ..).trans le), fun a => entryAccess_inFrame⟩
  rw [nextTableAccesses] at hx
  split_ifs at hx with vacant
  · rcases List.mem_cons.mp hx with rfl | hx
    · exact entry
    · rw [List.mem_singleton.mp hx]
      have lt : s.allocs < n := by
        rw [nextTable_vacant vacant] at le
        exact le
      exact ⟨_, ⟨granted vacant, Or.inr ⟨s.allocs, from', lt, rfl⟩⟩, fun a covers => covers⟩
  · rw [List.mem_singleton.mp hx]
    exact entry

/-- If each missing table is obtained, the accesses lie in tables that were there and in pages that
were obtained. -/
theorem Walkable.owned (flags : BitVec 64) (user : Bool) (l : BitVec 9)
    (walkable : Walkable old first last s f is)
    (answers : PageAnswers s.pmmAllocPage old first last) (from' : first ≤ s.allocs)
    (room : s.allocs + is.length ≤ last)
    (granted : ∀ k < missingTables s f is, s.pmmAllocPage (s.allocs + k) ≠ 0) :
    ∀ x ∈ descendAccesses flags user l is (f + s.sHhdm) s,
      ∃ g, Obtained s.pmmAllocPage old first
        (descend flags user is (f + s.sHhdm) s).2.allocs g ∧ ∀ a, x.Covers a → s.InFrame g a := by
  induction is generalizing s f with
  | nil =>
    intro x hx
    rw [List.mem_singleton.mp hx]
    exact ⟨f, walkable.onPath.obtained le_rfl, fun a => entryAccess_inFrame⟩
  | cons i is ih =>
    rw [List.length_cons] at room
    intro x hx
    rcases List.mem_append.mp hx with hx | hx
    · refine walkable.onPath.nextTable_owned from' (descend_allocs_le ..).1 (fun vacant => ?_) x hx
      have missing : missingTables s f (i :: is) = is.length + 1 := if_pos vacant
      exact granted 0 (by omega)
    · obtain ⟨f', s', step, hhdm, alloc, le, le', walkable', missing, granted'⟩ :=
        walkable.step flags user answers from' (by omega) granted
      rw [step] at hx
      have rest := ih walkable' (alloc ▸ answers) (from'.trans le) (by omega) granted' x hx
      rw [descend, step]
      simpa only [Vmm.InFrame, hhdm, alloc] using rest

/-- If some missing table is not obtained, page 0 is cleared. -/
theorem Walkable.null_access (flags : BitVec 64) (user : Bool) (l : BitVec 9)
    (walkable : Walkable old first last s f is)
    (answers : PageAnswers s.pmmAllocPage old first last) (from' : first ≤ s.allocs)
    (room : s.allocs + is.length ≤ last)
    (null : ∃ k < missingTables s f is, s.pmmAllocPage (s.allocs + k) = 0) :
    ⟨0 + s.sHhdm, 4096⟩ ∈ descendAccesses flags user l is (f + s.sHhdm) s := by
  induction is generalizing s f with
  | nil =>
    obtain ⟨k, lt, -⟩ := null
    exact absurd lt (Nat.not_lt_zero k)
  | cons i is ih =>
    rw [List.length_cons] at room
    rw [descendAccesses, List.mem_append]
    by_cases vacant : s.entry f i &&& ptePresent = 0
    · by_cases now : s.pmmAllocPage s.allocs = 0
      · have page := pageAccess_mem (s := s) vacant
        rw [now] at page
        exact Or.inl page
      · obtain ⟨walkable', -⟩ := walkable.linked user answers from' (by omega) now
        have later := walkable.null_linked user answers from' (by omega) vacant now null
        rw [nextTable_grow (answers.frame s.allocs from' (by omega)) vacant]
        exact Or.inr (ih walkable' answers (from'.trans (Nat.le_succ _))
          (by change s.allocs + 1 + _ ≤ _; omega) later)
    · obtain ⟨step, walkable'⟩ := walkable.present flags user vacant
      have later := walkable.null_present flags vacant null
      rw [step]
      exact Or.inr (ih walkable' answers from' (by change s.allocs + _ ≤ _; omega) later)

/-- The address taken from an entry that points to no table, or elsewhere, is no frame or lies in
the large page. -/
theorem largePage_of_off {p : List (BitVec 9)} {i : BitVec 9} (hf : node p = some f)
    (short : p.length < 3) (present : s.entry f i &&& ptePresent ≠ 0)
    (off : ¬ ((p.length ≠ 0 → s.entry f i &&& ptePageSize = 0) ∧
      s.entry f i &&& ~~~0xFFF#64 = s.entry f i &&& frameMask)) :
    ¬ IsFrame (s.entry f i &&& ~~~0xFFF#64) ∨
      LargePage s node p i (s.entry f i &&& ~~~0xFFF#64) := by
  by_cases address : s.entry f i &&& ~~~0xFFF#64 = s.entry f i &&& frameMask
  · right
    obtain ⟨depth, large⟩ : p.length ≠ 0 ∧ s.entry f i &&& ptePageSize ≠ 0 := by tauto
    have depth : p.length = 1 ∨ p.length = 2 := by omega
    have bits : frameMask &&& largeMask p.length = largeMask p.length := by
      rcases depth with one | two
      · rw [one]
        decide
      · rw [two]
        decide
    rw [address]
    exact ⟨depth, ⟨f, hf, present, large, by rw [BitVec.and_assoc, bits]⟩, isFrame_mask _⟩
  · -- the address has a bit above the frame
    left
    intro isFrame
    apply address
    have low : ~~~0xFFF#64 &&& frameMask = frameMask := by decide
    have mask := isFrame.mask
    rw [BitVec.and_assoc, low] at mask
    exact mask.symm

/-- Behind the first entry that points to no table, or not to the address that is taken from it, a
word is accessed that lies in the large page or in no frame at all. -/
theorem HardwareTree.off_access (tree : HardwareTree root s node) {p : List (BitVec 9)}
    (hf : node p = some f) (len : p.length + is.length ≤ 3) (off : ¬ TablePath s p.length f is) :
    ∃ x ∈ descendAccesses flags user l is (f + s.sHhdm) s, ∃ y, ∃ j : BitVec 9,
      x.Covers (y + s.sHhdm + 8#64 * j.setWidth 64) ∧ y.toNat % 4096 = 0 ∧
        (¬ IsFrame y ∨ ∃ q i, q ++ [i] <+: p ++ is ∧ LargePage s node q i y) := by
  induction is generalizing s p f with
  | nil => exact absurd trivial off
  | cons i is ih =>
    rw [List.length_cons] at len
    have present : s.entry f i &&& ptePresent ≠ 0 := fun vacant =>
      off fun present => absurd vacant present
    have tag : Tagged s _ := tagged_store flags (tree.frame p f hf) i
    have next : nextTable (f + s.sHhdm) (i.setWidth 64) flags (tableFlags user) s =
        ((s.entry f i &&& ~~~0xFFF#64) + s.sHhdm,
          s.store (f + s.sHhdm) (i.setWidth 64) (tagged (s.entry f i) flags)) := by
      rw [nextTable_present present, ← tagged_and (by decide) (s.entry f i) flags]
      rfl
    rw [descendAccesses, next]
    by_cases inner : (p.length ≠ 0 → s.entry f i &&& ptePageSize = 0) ∧
        s.entry f i &&& ~~~0xFFF#64 = s.entry f i &&& frameMask
    · have linked := tree.linked p f i (by omega) hf
      rw [hardwareChild, if_neg present, if_neg fun large => large.2 (inner.1 large.1)] at linked
      have rest : ¬ TablePath s (p ++ [i]).length (s.entry f i &&& frameMask) is := by
        rw [List.length_append, List.length_singleton]
        exact fun path => off fun _ => ⟨inner.1, inner.2, path⟩
      rw [← tag.tablePath (isFrame_mask _)] at rest
      obtain ⟨x, hx, y, j, covers, aligned, bad⟩ := ih (tag.hardwareTree tree) linked
        (by rw [List.length_append, List.length_singleton]; omega) rest
      rw [inner.2]
      refine ⟨x, List.mem_append_right _ hx, y, j, covers, aligned, bad.imp_right ?_⟩
      rintro ⟨q, k, on, page⟩
      refine ⟨q, k, ?_, tag.largePage tree page⟩
      rwa [List.append_assoc] at on
    · -- the call goes on from an address that is no table
      obtain ⟨j, access⟩ := exists_entryAccess flags user l is
        ((s.entry f i &&& ~~~0xFFF#64) + s.sHhdm)
        (s.store (f + s.sHhdm) (i.setWidth 64) (tagged (s.entry f i) flags))
      refine ⟨_, List.mem_append_right _ access, _, j, covers_entryAccess .., notLow_aligned _, ?_⟩
      apply (largePage_of_off hf (by omega) present inner).imp_right
      exact fun page => ⟨p, i, ⟨is, by simp⟩, page⟩

theorem OwnTable.isFrame {t : Vmm} (own : OwnTable node s t f) (tree : HardwareTree root s node)
    (answers : PageAnswers s.pmmAllocPage (fun f => ∃ p, node p = some f) s.allocs last)
    (room : t.allocs ≤ last) : IsFrame f ∧ f ≠ 0 := by
  obtain ⟨p, hp⟩ | ⟨notNull, k, hk, lt, rfl⟩ := own
  · refine ⟨tree.frame p f hp, ?_⟩
    rintro rfl
    exact tree.notNull p hp
  · exact ⟨answers.frame k hk (lt.trans_le room), notNull⟩

section

variable {t : Vmm} {virt : BitVec 64} (tree : HardwareTree root s node)
  (answers : PageAnswers s.pmmAllocPage (fun f => ∃ p, node p = some f) s.allocs (s.allocs + 3))

include tree answers

/-- A call that accesses only tables finds only tables on its way. -/
theorem OnlyTables.tablePath
    (only : OnlyTables node virt s t (descendAccesses flags user l is (root + s.sHhdm) s))
    (room : t.allocs ≤ s.allocs + 3) (on : is <+: pathOf virt) (len : is.length ≤ 3) :
    TablePath s 0 root is := by
  by_contra off
  obtain ⟨x, hx, y, j, covers, aligned, bad⟩ := tree.off_access tree.top (by simpa using len) off
  obtain notFrame | ⟨q, i, path, page⟩ := bad
  · obtain ⟨f, own, inside⟩ := only.tables x hx
    have isFrame := (own.isFrame tree answers room).1
    obtain rfl := entry_inFrame aligned isFrame (inside _ covers)
    exact notFrame isFrame
  · apply only.data x hx y ⟨q, i, page, Or.inl (path.trans on)⟩ _ covers
    exact entryAccess_inFrame (covers_entryAccess ..)

/-- A call that accesses only tables gets a page for each missing one. -/
theorem OnlyTables.granted
    (only : OnlyTables node virt s t (descendAccesses flags user l is (root + s.sHhdm) s))
    (room : t.allocs ≤ s.allocs + 3) (path : TablePath s 0 root is) (len : is.length ≤ 3) :
    ∀ k < missingTables s root is, s.pmmAllocPage (s.allocs + k) ≠ 0 := by
  by_contra fails
  push Not at fails
  have walkable := path.walkable tree answers tree.top (by simpa using len)
  obtain ⟨f, own, inside⟩ := only.tables _
    (walkable.null_access flags user l answers le_rfl (Nat.add_le_add_left len _) fails)
  obtain ⟨isFrame, notNull⟩ := own.isFrame tree answers room
  have zero := inFrame_unique (by decide : IsFrame 0) isFrame (covers_page (0 + s.sHhdm))
    (inside _ (covers_page _))
  exact notNull zero.symm

/-- A call that finds only tables on its way, and gets the missing ones, accesses only tables. -/
theorem TablePath.onlyTables (path : TablePath s 0 root is) (on : is <+: pathOf virt)
    (len : is.length = 3)
    (granted : ∀ k < missingTables s root is, s.pmmAllocPage (s.allocs + k) ≠ 0)
    (same : t.allocs = (descend flags user is (root + s.sHhdm) s).2.allocs) :
    OnlyTables node virt s t (descendAccesses flags user l is (root + s.sHhdm) s) := by
  have walkable := path.walkable tree answers tree.top (by simpa using len.le)
  have owned := walkable.owned flags user l answers le_rfl (Nat.add_le_add_left len.le _) granted
  rw [← same] at owned
  have tables : ∀ x ∈ descendAccesses flags user l is (root + s.sHhdm) s,
      ∃ f, OwnTable node s t f ∧ ∀ a, x.Covers a → s.InFrame f a := by
    intro x hx
    obtain ⟨f, ⟨notNull, known⟩, inside⟩ := owned x hx
    exact ⟨f, known.imp_right fun new => ⟨notNull, new⟩, inside⟩
  refine ⟨tables, ?_⟩
  rintro x hx g ⟨q, i, page, onPath | notOwn⟩ a covers inside
  · have depth := page.depth
    have short : (q ++ [i]).length ≤ is.length := by
      rw [List.length_append, List.length_singleton, len]
      omega
    have within := List.prefix_of_prefix_length_le onPath on short
    exact path.no_largePage tree tree.top (by simpa using len.le) within page
  · obtain ⟨f, own, inF⟩ := tables x hx
    have room : t.allocs ≤ s.allocs + 3 := by
      rw [same, ← len]
      exact (descend_allocs_le ..).2
    have shared := inFrame_unique (own.isFrame tree answers room).1 page.frame (inF a covers) inside
    exact notOwn (shared ▸ own)

end

end

/-- A call accesses only tables of the tree and pages it obtained if and only if every present entry
on the way to the page points to a table, at the address that is taken from it, and
`pmm_alloc_page` has a page for each table that is missing. -/
theorem vmmMapPage_onlyTables_iff (s : Vmm) (root virt phys flags : BitVec 64)
    (node : List (BitVec 9) → Option (BitVec 64)) (tree : HardwareTree root s node)
    (answers : PageAnswers s.pmmAllocPage (fun f => ∃ p, node p = some f) s.allocs (s.allocs + 3)) :
    OnlyTables node virt s (vmmMapPage (root + s.sHhdm) virt phys flags s)
        (vmmMapPageAccesses (root + s.sHhdm) virt flags s) ↔
      TablePath s 0 root [index virt 39, index virt 30, index virt 21] ∧
        ∀ k < missingTables s root [index virt 39, index virt 30, index virt 21],
          s.pmmAllocPage (s.allocs + k) ≠ 0 := by
  obtain ⟨user, asked⟩ : ∃ user : Bool, flags &&& pteUser ≠ 0 ↔ user = true :=
    ⟨decide _, (decide_eq_true_iff ..).symm⟩
  have on : [index virt 39, index virt 30, index virt 21] <+: pathOf virt := ⟨[index virt 12], rfl⟩
  have room := (descend_allocs_le flags user [index virt 39, index virt 30, index virt 21]
    (root + s.sHhdm) s).2
  rw [vmmMapPage_descend asked, vmmMapPageAccesses_descend asked]
  constructor
  · intro only
    have path := only.tablePath tree answers room on le_rfl
    exact ⟨path, only.granted tree answers room path le_rfl⟩
  · rintro ⟨path, granted⟩
    exact path.onlyTables tree answers on rfl granted rfl

/-! ## A large page -/

/-- Tables that map `0x200000` by a large leaf, and an allocator that returns the next frames. -/
def largeVmm : Vmm :=
  (((({ exampleVmm with pmmAllocPage := fun k => 0x4000 + 0x1000 * BitVec.ofNat 64 k } : Vmm).store
    (0x1000 + exampleVmm.sHhdm) ((0 : BitVec 9).setWidth 64) 0x2003).store
    (0x2000 + exampleVmm.sHhdm) ((0 : BitVec 9).setWidth 64) 0x3003).store
    (0x3000 + exampleVmm.sHhdm) ((1 : BitVec 9).setWidth 64) 0x200083)

/-- The tables of `largeVmm`. -/
def largeNode (p : List (BitVec 9)) : Option (BitVec 64) :=
  if p = [] then some 0x1000
  else if p = [0] then some 0x2000
  else if p = [0, 0] then some 0x3000
  else none

theorem largeNode_some {p : List (BitVec 9)} {f : BitVec 64} (h : largeNode p = some f) :
    p = [] ∧ f = 0x1000 ∨ p = [0] ∧ f = 0x2000 ∨ p = [0, 0] ∧ f = 0x3000 := by
  rw [largeNode] at h
  split_ifs at h with root pdpt pd
  · exact Or.inl ⟨root, (Option.some.inj h).symm⟩
  · exact Or.inr (Or.inl ⟨pdpt, (Option.some.inj h).symm⟩)
  · exact Or.inr (Or.inr ⟨pd, (Option.some.inj h).symm⟩)

theorem largeVmm_entry {g : BitVec 64} (hg : IsFrame g) (j : BitVec 9) :
    largeVmm.entry g j = if g = 0x3000 ∧ j = 1 then 0x200083
      else if g = 0x2000 ∧ j = 0 then 0x3003 else if g = 0x1000 ∧ j = 0 then 0x2003 else 0 := by
  have pd : IsFrame 0x3000 := by decide
  have pdpt : IsFrame 0x2000 := by decide
  have root : IsFrame 0x1000 := by decide
  refine (entry_store pd hg _ _ _).trans ?_
  congr 1
  refine (entry_store pdpt hg _ _ _).trans ?_
  congr 1
  exact entry_store root hg _ _ _

theorem largeVmm_tree : HardwareTree 0x1000 largeVmm largeNode := by
  refine ⟨rfl, fun p f i _ hf => ?linked, fun p i none => ?closed, fun p f hf => ?levels,
    fun p f hf => ?frame, fun p zero => ?notNull⟩
  case linked =>
    obtain ⟨rfl, rfl⟩ | ⟨rfl, rfl⟩ | ⟨rfl, rfl⟩ := largeNode_some hf
    · rw [largeVmm_entry (by decide)]
      by_cases here : i = 0#9
      · subst here
        decide
      · simp [largeNode, hardwareChild, here]
    · rw [largeVmm_entry (by decide)]
      by_cases here : i = 0#9
      · subst here
        decide
      · simp [largeNode, hardwareChild, here]
    · rw [largeVmm_entry (by decide)]
      by_cases here : i = 1#9
      · subst here
        decide
      · simp [largeNode, hardwareChild, here]
  case closed =>
    by_contra some
    obtain ⟨f, hf⟩ := Option.ne_none_iff_exists'.mp some
    obtain ⟨h, -⟩ | ⟨h, -⟩ | ⟨h, -⟩ := largeNode_some hf
    · simp at h
    · obtain ⟨rfl, -⟩ := List.append_inj' (show p ++ [i] = [] ++ [0] from h) rfl
      exact absurd none (by decide)
    · obtain ⟨rfl, -⟩ := List.append_inj' (show p ++ [i] = [0] ++ [0] from h) rfl
      exact absurd none (by decide)
  case levels =>
    obtain ⟨rfl, -⟩ | ⟨rfl, -⟩ | ⟨rfl, -⟩ := largeNode_some hf <;> decide
  case frame =>
    obtain ⟨-, rfl⟩ | ⟨-, rfl⟩ | ⟨-, rfl⟩ := largeNode_some hf <;> decide
  case notNull =>
    obtain ⟨-, h⟩ | ⟨-, h⟩ | ⟨-, h⟩ := largeNode_some zero <;> exact absurd h (by decide)

/-- The page behind the large one is mapped as it should. -/
theorem vmmMapPage_onlyTables_example :
    OnlyTables largeNode 0x400000 largeVmm
      (vmmMapPage (0x1000 + largeVmm.sHhdm) 0x400000 0x80000 7 largeVmm)
      (vmmMapPageAccesses (0x1000 + largeVmm.sHhdm) 0x400000 7 largeVmm) := by
  have frames : ∀ k < 3, IsFrame (largeVmm.pmmAllocPage k) ∧
      (largeVmm.pmmAllocPage k ≠ 0x1000 ∧ largeVmm.pmmAllocPage k ≠ 0x2000 ∧
        largeVmm.pmmAllocPage k ≠ 0x3000) ∧
      ∀ j < k, largeVmm.pmmAllocPage j ≠ largeVmm.pmmAllocPage k := by decide +kernel
  have answers : PageAnswers largeVmm.pmmAllocPage (fun f => ∃ p, largeNode p = some f) 0 3 := by
    refine ⟨fun k _ lt => (frames k lt).1, fun k _ lt _ old => ?_,
      fun j k _ jk lt _ => (frames k lt).2.2 j jk⟩
    obtain ⟨p, hp⟩ := old
    obtain ⟨root, pdpt, pd⟩ := (frames k lt).2.1
    obtain ⟨-, h⟩ | ⟨-, h⟩ | ⟨-, h⟩ := largeNode_some hp
    · exact root h
    · exact pdpt h
    · exact pd h
  have path : TablePath largeVmm 0 0x1000
      [index 0x400000 39, index 0x400000 30, index 0x400000 21] := by
    refine fun _ => ⟨fun ne => absurd rfl ne, by decide +kernel, fun _ =>
      ⟨fun _ => by decide +kernel, by decide +kernel, fun present => ?_⟩⟩
    exact absurd (by decide +kernel) present
  exact (vmmMapPage_onlyTables_iff largeVmm 0x1000 0x400000 0x80000 7 largeNode largeVmm_tree
    answers).mpr ⟨path, by decide +kernel⟩

/-- A call for the page that the large leaf maps writes its entry into that page, and the page stays
mapped where it was. -/
theorem large_page_overwritten :
    HardwareTree 0x1000 largeVmm largeNode ∧
    (vmmMapPage (0x1000 + largeVmm.sHhdm) 0x200000 0x80000 7 largeVmm).mem
      (0x200000 + largeVmm.sHhdm) = 0x80007 ∧
    hardwareWalk (vmmMapPage (0x1000 + largeVmm.sHhdm) 0x200000 0x80000 7 largeVmm) 0x1000 0x200000
      = some ⟨0x200000, true, true⟩ ∧
    ¬ OnlyTables largeNode 0x200000 largeVmm
      (vmmMapPage (0x1000 + largeVmm.sHhdm) 0x200000 0x80000 7 largeVmm)
      (vmmMapPageAccesses (0x1000 + largeVmm.sHhdm) 0x200000 7 largeVmm) := by
  refine ⟨largeVmm_tree, by decide +kernel, by decide +kernel, fun only => ?_⟩
  have access : entryAccess (0x200000 + largeVmm.sHhdm) ((0 : BitVec 9).setWidth 64) ∈
      vmmMapPageAccesses (0x1000 + largeVmm.sHhdm) 0x200000 7 largeVmm := by decide +kernel
  have page : LargePage largeVmm largeNode [0, 0] 1 0x200000 :=
    ⟨Or.inr rfl, ⟨0x3000, rfl, by decide +kernel⟩, by decide⟩
  have covers := covers_entryAccess (0x200000 + largeVmm.sHhdm) ((0 : BitVec 9).setWidth 64)
  exact only.data _ access 0x200000 ⟨[0, 0], 1, page, Or.inl ⟨[0], by decide⟩⟩ _ covers
    (entryAccess_inFrame covers)

end ChefOs
