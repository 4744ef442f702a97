import ChefOs.Mm.PmmOwnership

/-!
# The calls of the page allocator, bit by bit

What each call does to every bit of the bitmap, whether the bit belongs to a page or not, and to
`s_free_pages`.
-/

namespace ChefOs

open Kit

/-! ## Allocation -/

/-- `count` consecutive free pages from `k` on. -/
def FreeRun (s : Pmm) (k count : ℕ) : Prop :=
  k + count ≤ s.sTotalPages ∧ ∀ j, k ≤ j → j < k + count → bitmapTest s j = false

/-- The pages of a run are in use now, no other bit has changed, and they were counted. -/
structure Marked (s t : Pmm) (k count : ℕ) : Prop where
  bits : ∀ j, bitmapTest t j = (decide (k ≤ j ∧ j < k + count) || bitmapTest s j)
  counter : t.sFreePages = sub64 s.sFreePages count
  total : t.sTotalPages = s.sTotalPages

theorem freeRun_iff {s : Pmm} {k count : ℕ} :
    FreeRun s k count ↔ k + count ≤ s.sTotalPages ∧ pageRun k count ⊆ freeSet s := by
  unfold FreeRun
  refine and_congr_right fun inside => ⟨fun clear j hj => ?_, fun sub j lo hi => ?_⟩
  · rw [pageRun, Finset.mem_Ico] at hj
    exact mem_freeSet.mpr ⟨by omega, clear j hj.1 hj.2⟩
  · exact (mem_freeSet.mp (sub (Finset.mem_Ico.mpr ⟨lo, hi⟩))).2

theorem bitmapTest_setRange (n j : ℕ) (s : Pmm) (i : ℕ) :
    bitmapTest (setRange n j s) i = (decide (j ≤ i ∧ i < j + n) || bitmapTest s i) := by
  induction n generalizing j s with
  | zero =>
    have : ¬ (j ≤ i ∧ i < j + 0) := by omega
    rw [setRange, decide_eq_false this, Bool.false_or]
  | succ n ih =>
    rw [setRange, ih, bitmapTest_bitmapSet, ← Bool.or_assoc]
    congr 1
    rw [Bool.eq_iff_iff, Bool.or_eq_true, decide_eq_true_eq, decide_eq_true_eq, decide_eq_true_eq]
    omega

theorem marked_setRange (s : Pmm) (k count : ℕ) :
    Marked s ((setRange count k s).setFreePages (sub64 s.sFreePages count)) k count where
  bits j := by rw [bitmapTest_setFreePages, bitmapTest_setRange]
  counter := by rw [sFreePages_setFreePages]
  total := by rw [sTotalPages_setFreePages, (freeSet_setRange count k s).2.1]

/-- `pmm_alloc_page` is `pmm_alloc_pages(1)`. -/
theorem pmmAllocPage_eq (s : Pmm) : pmmAllocPage s = pmmAllocPages 1 s := by
  have single : ∀ k, pageRun k 1 = {k} := fun k => by rw [pageRun, Nat.Ico_succ_singleton]
  have run : ∀ k, pageRun k 1 ⊆ freeSet s ↔ k ∈ freeSet s := fun k => by
    rw [single, Finset.singleton_subset_iff]
  rcases pmmAllocPage_cases s with ⟨call, empty⟩ | ⟨k, hk, lowest, call⟩ <;>
    rcases pmmAllocPages_cases 1 s with ⟨call', none⟩ | ⟨k', -, inside', sub', lowest', call'⟩
  · rw [call, call']
  · rw [run, empty] at sub'
    exact absurd sub' (Finset.notMem_empty k')
  · have inside := (mem_freeSet.mp hk).1
    exact absurd ((run k).mpr hk) (none one_pos k (by omega))
  · -- both are the lowest free page
    rw [run] at sub'
    have le := lowest k' sub'
    have ge : k' ≤ k := by
      by_contra lt
      exact lowest' k (by omega) ((run k).mpr hk)
    obtain rfl : k = k' := by omega
    rw [call, call', setRange, setRange]

/-- With page 0 in use, `pmm_alloc_pages` answers with the lowest run of free pages and marks
exactly it, if there is one, and otherwise it answers `NULL` and changes nothing.
`pmm_alloc_page` is the case of one page. -/
theorem pmmAllocPages_lowest {s : Pmm} (pageZero : bitmapTest s 0 = true) (count : ℕ) :
    (0 < count ∧ (∃ k, FreeRun s k count) →
      ∃ k t, FreeRun s k count ∧ (∀ k' < k, ¬ FreeRun s k' count) ∧
        pmmAllocPages count s = (t, k * pageSize) ∧ k * pageSize ≠ 0 ∧ Marked s t k count) ∧
    (¬ (0 < count ∧ ∃ k, FreeRun s k count) → pmmAllocPages count s = (s, 0)) ∧
    pmmAllocPage s = pmmAllocPages 1 s := by
  refine ⟨fun ⟨pos, k₀, run₀⟩ => ?_, fun missing => ?_, pmmAllocPage_eq s⟩
  · obtain ⟨inside₀, sub₀⟩ := freeRun_iff.mp run₀
    rcases pmmAllocPages_cases count s with ⟨-, none⟩ | ⟨k, -, inside, sub, lowest, call⟩
    · exact absurd sub₀ (none pos k₀ inside₀)
    · have run : FreeRun s k count := freeRun_iff.mpr ⟨inside, sub⟩
      have nonzero : k ≠ 0 := by
        rintro rfl
        rw [run.2 0 le_rfl (by omega)] at pageZero
        contradiction
      refine ⟨k, _, run, fun k' lt run' => ?_, call, Nat.mul_ne_zero nonzero pageSize_pos.ne',
        marked_setRange s k count⟩
      exact lowest k' lt (freeRun_iff.mp run').2
  · rcases pmmAllocPages_cases count s with ⟨call, -⟩ | ⟨k, pos, inside, sub, -, -⟩
    · exact call
    · exact absurd ⟨pos, k, freeRun_iff.mpr ⟨inside, sub⟩⟩ missing

/-- Two of the three free pages of four. -/
theorem pmmAllocPages_lowest_example : ∃ t, pmmAllocPages 2 fourPages = (t, 0x1000) ∧
    Marked fourPages t 1 2 := by
  have run : FreeRun fourPages 1 2 := by
    refine ⟨by decide, fun j lo hi => ?_⟩
    obtain rfl | rfl : j = 1 ∨ j = 2 := by omega
    · decide
    · decide
  obtain ⟨k, t, here, lowest, call, nonzero, marked⟩ :=
    (pmmAllocPages_lowest (by decide : bitmapTest fourPages 0 = true) 2).1 ⟨by decide, 1, run⟩
  have : ¬ 1 < k := fun lt => lowest 1 lt run
  obtain rfl : k = 1 := by
    have : k ≠ 0 := by
      rintro rfl
      exact nonzero (Nat.zero_mul _)
    omega
  exact ⟨t, call, marked⟩

/-! ## Release -/

/-- `pmm_free_page` on the `n` pages from the index `i` on, one after the other. -/
def freeEach (ptr : ℕ) : ℕ → ℕ → Pmm → Pmm
  | 0, _, s => s
  | n + 1, i, s => freeEach ptr n (i + 1) (pmmFreePage (u64 (ptr + i * pageSize)) s)

/-- Pages that are freed in turn if they are in use. -/
def releaseBits (pages : List ℕ) (s : Pmm) : Pmm :=
  pages.foldl (fun s page => if bitmapTest s page = true then freeBit page s else s) s

/-- Which of the pages are in use. -/
def inUse (s : Pmm) (pages : List ℕ) : Finset ℕ :=
  pages.toFinset.filter fun page => bitmapTest s page = true

theorem mem_inUse {s : Pmm} {pages : List ℕ} {j : ℕ} :
    j ∈ inUse s pages ↔ j ∈ pages ∧ bitmapTest s j = true := by
  simp [inUse]

/-- The pages that the loop of `pmm_free_pages` visits. -/
def batchPages (ptr count : ℕ) : List ℕ :=
  (List.range' 0 count).map fun i => u64 (ptr / pageSize + i)

/-- The pages of the pointers that go one by one to `pmm_free_page`. -/
def singlePages (ptr count : ℕ) : List ℕ :=
  (List.range' 0 count).map fun i => u64 (ptr + i * pageSize) / pageSize

theorem freePagesLoop_eq (startPage n i : ℕ) (s : Pmm) :
    freePagesLoop startPage n i s =
      releaseBits ((List.range' i n).map fun i => u64 (startPage + i)) s := by
  induction n generalizing i s with
  | zero => rfl
  | succ n ih =>
    rw [freePagesLoop, ih, List.range'_succ, List.map_cons, releaseBits, releaseBits,
      List.foldl_cons]

theorem pmmFreePage_eq (ptr : ℕ) (s : Pmm) :
    pmmFreePage ptr s = releaseBits ([ptr / pageSize].filter (· < s.sTotalPages)) s := by
  rw [pmmFreePage]
  by_cases inside : ptr / pageSize < s.sTotalPages
  · rw [List.filter_cons_of_pos (by simpa using inside), releaseBits]
    simp only [inside, true_and]
    rfl
  · rw [List.filter_cons_of_neg (by simpa using inside), if_neg (fun h => inside h.1)]
    rfl

theorem sTotalPages_releaseBits (pages : List ℕ) (s : Pmm) :
    (releaseBits pages s).sTotalPages = s.sTotalPages := by
  induction pages generalizing s with
  | nil => rfl
  | cons page pages ih =>
    rw [releaseBits, List.foldl_cons]
    split
    · exact ih _
    · exact ih s

theorem freeEach_eq (ptr n i : ℕ) (s : Pmm) :
    freeEach ptr n i s = releaseBits (((List.range' i n).map fun i =>
      u64 (ptr + i * pageSize) / pageSize).filter (· < s.sTotalPages)) s := by
  induction n generalizing i s with
  | zero => rfl
  | succ n ih =>
    rw [freeEach, ih, pmmFreePage_eq, sTotalPages_releaseBits, List.range'_succ, List.map_cons,
      ← List.singleton_append (l := List.map _ _), List.filter_append]
    exact List.foldl_append.symm

/-- The pages in use are freed, each once, and nothing else happens. -/
theorem releaseBits_spec (pages : List ℕ) (s : Pmm) :
    (∀ j, bitmapTest (releaseBits pages s) j = (decide (j ∉ pages) && bitmapTest s j)) ∧
      (releaseBits pages s).sFreePages =
        (fun n => u64 (n + 1))^[(inUse s pages).card] s.sFreePages := by
  induction pages generalizing s with
  | nil => simp [releaseBits, inUse]
  | cons page pages ih =>
    rw [releaseBits, List.foldl_cons, ← releaseBits]
    by_cases used : bitmapTest s page = true
    · rw [if_pos used]
      obtain ⟨bits, counter⟩ := ih (freeBit page s)
      refine ⟨fun j => ?_, ?_⟩
      · rw [bits, bitmapTest_freeBit, ← Bool.and_assoc]
        congr 1
        rw [Bool.and_comm]
        simp [eq_comm]
      · -- the page is counted once, and not again
        have rest : inUse (freeBit page s) pages = (inUse s (page :: pages)).erase page := by
          ext j
          rw [Finset.mem_erase, mem_inUse, mem_inUse, bitmapTest_freeBit, List.mem_cons]
          rw [Bool.and_eq_true, Bool.not_eq_true', decide_eq_false_iff_not]
          constructor
          · exact fun ⟨mem, ne, h⟩ => ⟨Ne.symm ne, .inr mem, h⟩
          · exact fun ⟨ne, mem, h⟩ => ⟨mem.resolve_left ne, Ne.symm ne, h⟩
        have first : page ∈ inUse s (page :: pages) := mem_inUse.mpr ⟨List.mem_cons_self, used⟩
        have count := Finset.card_erase_add_one first
        rw [counter, rest, ← count, Function.iterate_succ_apply]
        congr 1
    · rw [if_neg used]
      obtain ⟨bits, counter⟩ := ih s
      have same : inUse s (page :: pages) = inUse s pages := by
        ext j
        rw [mem_inUse, mem_inUse, List.mem_cons]
        constructor
        · rintro ⟨rfl | mem, h⟩
          · exact absurd h used
          · exact ⟨mem, h⟩
        · exact fun ⟨mem, h⟩ => ⟨.inr mem, h⟩
      refine ⟨fun j => ?_, by rw [counter, same]⟩
      rw [bits, Bool.eq_iff_iff]
      simp only [Bool.and_eq_true, decide_eq_true_eq, List.mem_cons, not_or]
      constructor
      · exact fun ⟨out, h⟩ => ⟨⟨fun e => used (e ▸ h), out⟩, h⟩
      · exact fun ⟨⟨_, out⟩, h⟩ => ⟨out, h⟩

/-- `pmm_free_pages` does what `pmm_free_page` does for each page, nothing beyond the pages of the
memory changes, and the counter stays right. -/
structure BatchAgrees (ptr count : ℕ) (s : Pmm) : Prop where
  bits : ∀ j, bitmapTest (pmmFreePages ptr count s) j = bitmapTest (freeEach ptr count 0 s) j
  counter : (pmmFreePages ptr count s).sFreePages = (freeEach ptr count 0 s).sFreePages
  beyond : ∀ j, s.sTotalPages ≤ j → bitmapTest (pmmFreePages ptr count s) j = bitmapTest s j
  counted : Counted s → Counted (pmmFreePages ptr count s)

/-- Every page of the batch that is in use is a page of the memory, and pointers that wrap lead to
no page in use that the batch does not have. -/
structure BatchInMemory (ptr count : ℕ) (s : Pmm) : Prop where
  below : ∀ i < count, bitmapTest s (u64 (ptr / pageSize + i)) = true →
    u64 (ptr / pageSize + i) < s.sTotalPages
  wrapped : ∀ i < count, 2 ^ 64 ≤ ptr + i * pageSize →
    bitmapTest s (u64 (ptr + i * pageSize) / pageSize) = true →
    u64 (ptr + i * pageSize) / pageSize < s.sTotalPages →
    ∃ j < count, u64 (ptr / pageSize + j) = u64 (ptr + i * pageSize) / pageSize

section

variable {ptr count j : ℕ} {s : Pmm}

theorem mem_batchPages :
    j ∈ batchPages ptr count ↔ ∃ i < count, u64 (ptr / pageSize + i) = j := by
  simp [batchPages]

theorem mem_singlePages :
    j ∈ singlePages ptr count ↔ ∃ i < count, u64 (ptr + i * pageSize) / pageSize = j := by
  simp [singlePages]

theorem pmmFreePages_eq (ptr count : ℕ) (s : Pmm) :
    pmmFreePages ptr count s = releaseBits (batchPages ptr count) s := freePagesLoop_eq ..

theorem freeEach_zero_eq (ptr count : ℕ) (s : Pmm) :
    freeEach ptr count 0 s = releaseBits ((singlePages ptr count).filter (· < s.sTotalPages)) s :=
  freeEach_eq ..

/-- A page of the memory that the batch has is the page of one of the pointers. -/
theorem single_of_batch (inside : j < s.sTotalPages) (mem : j ∈ batchPages ptr count) :
    j ∈ singlePages ptr count := by
  obtain ⟨i, hi, rfl⟩ := mem_batchPages.mp mem
  refine mem_singlePages.mpr ⟨i, hi, ?_⟩
  have fit := s.pagesFit
  unfold u64 pageSize at *
  omega

/-- The two ways free the same pages in use exactly if the batch stays in memory. -/
theorem inUse_eq_iff :
    inUse s (batchPages ptr count) =
        inUse s ((singlePages ptr count).filter (· < s.sTotalPages)) ↔
      BatchInMemory ptr count s := by
  have single : ∀ j, j ∈ inUse s ((singlePages ptr count).filter (· < s.sTotalPages)) ↔
      (j ∈ singlePages ptr count ∧ j < s.sTotalPages) ∧ bitmapTest s j = true := fun j => by
    rw [mem_inUse, List.mem_filter, decide_eq_true_eq]
  constructor
  · intro same
    constructor
    · intro i hi used
      have mem := mem_inUse.mpr ⟨mem_batchPages.mpr ⟨i, hi, rfl⟩, used⟩
      rw [same, single] at mem
      exact mem.1.2
    · intro i hi _ used inside
      have mem := (single _).mpr ⟨⟨mem_singlePages.mpr ⟨i, hi, rfl⟩, inside⟩, used⟩
      rw [← same] at mem
      exact mem_batchPages.mp (mem_inUse.mp mem).1
  · intro inMemory
    ext j
    rw [mem_inUse, single]
    refine and_congr_left fun used => ⟨fun mem => ?_, fun ⟨mem, inside⟩ => ?_⟩
    · obtain ⟨i, hi, rfl⟩ := mem_batchPages.mp mem
      have inside := inMemory.below i hi used
      exact ⟨single_of_batch inside mem, inside⟩
    · obtain ⟨i, hi, rfl⟩ := mem_singlePages.mp mem
      apply mem_batchPages.mpr
      by_cases wraps : 2 ^ 64 ≤ ptr + i * pageSize
      · exact inMemory.wrapped i hi wraps used inside
      · refine ⟨i, hi, ?_⟩
        unfold u64 pageSize at *
        omega

/-- Freeing pages of the memory keeps the counter right. -/
theorem counted_releaseBits {pages : List ℕ}
    (below : ∀ page ∈ pages, bitmapTest s page = true → page < s.sTotalPages)
    (counted : Counted s) : Counted (releaseBits pages s) := by
  induction pages generalizing s with
  | nil => exact counted
  | cons page pages ih =>
    obtain ⟨here, below⟩ := List.forall_mem_cons.mp below
    rw [releaseBits, List.foldl_cons, ← releaseBits]
    by_cases used : bitmapTest s page = true
    · rw [if_pos used]
      refine ih (fun q hq hq' => ?_) (counted_freeBit counted (here used) used)
      rw [bitmapTest_freeBit, Bool.and_eq_true] at hq'
      exact below q hq hq'.2
    · rw [if_neg used]
      exact ih below counted

/-- `pmm_free_pages` agrees with `pmm_free_page` exactly if every page of the batch that is in use
is a page of the memory, and pointers that wrap lead to no other page in use. -/
theorem pmmFreePages_agrees_iff (ptr count : ℕ) (s : Pmm) :
    BatchAgrees ptr count s ↔ BatchInMemory ptr count s := by
  obtain ⟨bits, counter⟩ := releaseBits_spec (batchPages ptr count) s
  obtain ⟨bits', counter'⟩ :=
    releaseBits_spec ((singlePages ptr count).filter (· < s.sTotalPages)) s
  rw [← pmmFreePages_eq] at bits counter
  rw [← freeEach_zero_eq] at bits' counter'
  -- a page in use is freed if it is visited
  have freed : ∀ {pages : List ℕ} {t : Pmm},
      (∀ j, bitmapTest t j = (decide (j ∉ pages) && bitmapTest s j)) →
      ∀ j, j ∈ inUse s pages ↔ bitmapTest s j = true ∧ bitmapTest t j = false := by
    intro pages t spec j
    rw [mem_inUse, spec]
    by_cases used : bitmapTest s j = true
    · simp [used]
    · simp [used]
  constructor
  · intro agrees
    rw [← inUse_eq_iff]
    ext j
    rw [freed bits, freed bits', agrees.bits]
  · intro inMemory
    have same := inUse_eq_iff.mpr inMemory
    have beyond : ∀ j, s.sTotalPages ≤ j →
        bitmapTest (pmmFreePages ptr count s) j = bitmapTest s j := by
      intro j hj
      rw [bits]
      by_cases mem : j ∈ inUse s (batchPages ptr count)
      · rw [same, mem_inUse, List.mem_filter, decide_eq_true_eq] at mem
        omega
      · rw [mem_inUse] at mem
        cases used : bitmapTest s j with
        | false => exact Bool.and_false _
        | true => simpa [used] using mem
    refine ⟨fun j => ?_, by rw [counter, counter', same], beyond, ?_⟩
    · have mem := congrArg (j ∈ ·) same
      rw [freed bits, freed bits', eq_iff_iff] at mem
      have kept : bitmapTest s j = false → bitmapTest (pmmFreePages ptr count s) j = false ∧
          bitmapTest (freeEach ptr count 0 s) j = false := by
        intro clear
        rw [bits, bits', clear]
        exact ⟨Bool.and_false _, Bool.and_false _⟩
      cases used : bitmapTest s j with
      | false => rw [(kept used).1, (kept used).2]
      | true =>
        rw [Bool.eq_iff_iff, ← not_iff_not, Bool.not_eq_true, Bool.not_eq_true]
        simpa [used] using mem
    · intro counted
      rw [pmmFreePages_eq]
      refine counted_releaseBits (fun page mem used => ?_) counted
      obtain ⟨i, hi, rfl⟩ := mem_batchPages.mp mem
      exact inMemory.below i hi used

end

/-- Four pages, of which 0 and 3 are in use.  The rest of the byte of the bitmap is set, as
`pmm_init` leaves it. -/
def fourPagesLast : Pmm := { fourPages with mem := fun _ => 0xF9#8, sFreePages := 2 }

/-- A batch over the end of the memory. -/
theorem pmmFreePages_beyond : ¬ BatchAgrees 0x3000 2 fourPagesLast := by
  intro agrees
  have := agrees.beyond 4 le_rfl
  revert this
  decide

end ChefOs
