import ChefOs.Lib.Run
import ChefOs.Lib.Scan
import ChefOs.Lib.Ledger
import ChefOs.Mm.Pmm

/-!
# Page ownership

The clear bits below `s_total_pages` are the free pages.  Each operation of the allocator is
described by what it does to that set and to `s_free_pages`, and the allocator then refines a
ledger: pages are owned by at most one allocation, and none is lost.
-/

namespace ChefOs

open Kit

/-- The free pages. -/
def freeSet (s : Pmm) : Finset ℕ :=
  (Finset.range s.sTotalPages).filter fun i => bitmapTest s i = false

/-- `s_free_pages` is the number of free pages. -/
def Counted (s : Pmm) : Prop := s.sFreePages = (freeSet s).card

/-- The pages of a run of `count` pages from `k` on. -/
def pageRun (k count : ℕ) : Finset ℕ := Finset.Ico k (k + count)

theorem mem_freeSet {s : Pmm} {i : ℕ} :
    i ∈ freeSet s ↔ i < s.sTotalPages ∧ bitmapTest s i = false := by
  simp [freeSet]

/-- The counter is not part of the bitmap. -/
@[simp] theorem freeSet_setFreePages (s : Pmm) (n : ℕ) :
    freeSet (s.setFreePages n) = freeSet s := rfl

theorem card_freeSet_lt (s : Pmm) : (freeSet s).card < 2 ^ 64 := by
  have hcard : (freeSet s).card ≤ s.sTotalPages :=
    (Finset.card_filter_le _ _).trans (Finset.card_range _).le
  have hfit := s.pagesFit
  unfold pageSize at hfit
  omega

/-- The address of a page below `s_total_pages` does not wrap. -/
theorem u64_page {s : Pmm} {i : ℕ} (h : i < s.sTotalPages) : u64 (i * pageSize) = i * pageSize := by
  have hfit := s.pagesFit
  exact u64_of_lt ((Nat.mul_le_mul_right _ h.le).trans_lt hfit)

/-! ## Setting bits -/

theorem freeSet_bitmapSet (s : Pmm) (k : ℕ) : freeSet (bitmapSet k s) = (freeSet s).erase k := by
  ext i
  rw [Finset.mem_erase, mem_freeSet, mem_freeSet, bitmapTest_bitmapSet, Bool.or_eq_false_iff,
    decide_eq_false_iff_not]
  change i < s.sTotalPages ∧ _ ↔ _
  tauto

theorem freeSet_setRange (n j : ℕ) (s : Pmm) :
    freeSet (setRange n j s) = freeSet s \ pageRun j n ∧
      (setRange n j s).sTotalPages = s.sTotalPages ∧
      (setRange n j s).sFreePages = s.sFreePages := by
  induction n generalizing j s with
  | zero => simp [setRange, pageRun]
  | succ n ih =>
    obtain ⟨hfree, htotal, hcount⟩ := ih (j + 1) (bitmapSet j s)
    refine ⟨?_, htotal, hcount⟩
    rw [setRange, hfree, freeSet_bitmapSet]
    ext i
    simp only [pageRun, Finset.mem_sdiff, Finset.mem_erase, Finset.mem_Ico]
    constructor
    · rintro ⟨⟨hij, hi⟩, hout⟩
      exact ⟨hi, by omega⟩
    · rintro ⟨hi, hout⟩
      exact ⟨⟨by omega, hi⟩, by omega⟩

/-- Taking free pages lowers the counter by their number. -/
theorem counted_sdiff {s t : Pmm} {A : Finset ℕ} {n : ℕ} (counted : Counted s)
    (available : A ⊆ freeSet s) (size : A.card = n) (free : freeSet t = freeSet s \ A)
    (counter : t.sFreePages = sub64 s.sFreePages n) : Counted t := by
  have hle : A.card ≤ (freeSet s).card := Finset.card_le_card available
  have hlt := card_freeSet_lt s
  rw [Counted, free, Finset.card_sdiff_of_subset available, counter, counted, size]
  exact sub64_of_le (by omega) hlt

/-! ## Allocation -/

/-- `pmm_alloc_page` takes the lowest free page, or answers `NULL` when there is none. -/
theorem allocPageLoop_cases (n i : ℕ) (s : Pmm) :
    allocPageLoop n i s = (s, 0) ∧ (∀ j, i ≤ j → j < i + n → bitmapTest s j = true) ∨
      ∃ k, i ≤ k ∧ k < i + n ∧ bitmapTest s k = false ∧
        (∀ j, i ≤ j → j < k → bitmapTest s j = true) ∧
        allocPageLoop n i s =
          ((bitmapSet k s).setFreePages (sub64 s.sFreePages 1), u64 (k * pageSize)) := by
  induction n generalizing i with
  | zero => exact Or.inl ⟨rfl, fun j h h' => by omega⟩
  | succ n ih =>
    rw [allocPageLoop]
    cases here : bitmapTest s i with
    | false => exact Or.inr ⟨i, le_rfl, by omega, here, fun j h h' => by omega, by simp⟩
    | true =>
      rw [if_neg (by simp)]
      rcases ih (i + 1) with ⟨none, used⟩ | ⟨k, hik, hk, clear, used, call⟩
      · refine Or.inl ⟨none, fun j hj hj' => ?_⟩
        by_cases hji : j = i
        · rw [hji, here]
        · exact used j (by omega) (by omega)
      · refine Or.inr ⟨k, by omega, by omega, clear, fun j hj hj' => ?_, call⟩
        by_cases hji : j = i
        · rw [hji, here]
        · exact used j (by omega) (by omega)

theorem pmmAllocPage_cases (s : Pmm) :
    pmmAllocPage s = (s, 0) ∧ freeSet s = ∅ ∨
      ∃ k ∈ freeSet s, (∀ j ∈ freeSet s, k ≤ j) ∧
        pmmAllocPage s =
          ((bitmapSet k s).setFreePages (sub64 s.sFreePages 1), k * pageSize) := by
  unfold pmmAllocPage
  rcases allocPageLoop_cases s.sTotalPages 0 s with ⟨none, used⟩ | ⟨k, -, hk, clear, used, call⟩
  · refine Or.inl ⟨none, Finset.eq_empty_of_forall_notMem fun j hj => ?_⟩
    obtain ⟨hj, clear⟩ := mem_freeSet.mp hj
    rw [used j (by omega) (by omega)] at clear
    exact absurd clear (by simp)
  · refine Or.inr ⟨k, mem_freeSet.mpr ⟨by omega, clear⟩, fun j hj => ?_, ?_⟩
    · by_contra lower
      have := used j (by omega) (by omega)
      rw [(mem_freeSet.mp hj).2] at this
      exact absurd this (by simp)
    · rw [call, u64_page (by omega : k < s.sTotalPages)]

/-- The scan of `pmm_alloc_pages` is the search for the lowest run of clear bits. -/
theorem allocPagesLoop_eq (count n i consecutive startPage : ℕ) (s : Pmm) :
    allocPagesLoop count n i consecutive startPage s =
      match scanRun (fun j => !bitmapTest s j) count n i consecutive startPage with
      | some k => ((setRange count k s).setFreePages (sub64 s.sFreePages count),
          u64 (k * pageSize))
      | none => (s, 0) := by
  induction n generalizing i consecutive startPage with
  | zero => rfl
  | succ n ih =>
    rw [allocPagesLoop, scanRun]
    cases here : bitmapTest s i with
    | true => simpa using ih (i + 1) 0 startPage
    | false =>
      by_cases done : consecutive + 1 = count
      · simp [done, (freeSet_setRange count _ s).2.2]
      · simpa [done] using ih (i + 1) (consecutive + 1) _

theorem runAt_iff_pageRun {s : Pmm} {k count : ℕ} (inside : k + count ≤ s.sTotalPages) :
    RunAt (fun j => (!bitmapTest s j) = true) k count ↔ pageRun k count ⊆ freeSet s := by
  constructor
  · intro run i hi
    rw [pageRun, Finset.mem_Ico] at hi
    have := run (i - k) (by omega)
    rw [show k + (i - k) = i by omega] at this
    exact mem_freeSet.mpr ⟨by omega, by simpa using this⟩
  · intro sub j hj
    have := sub (Finset.mem_Ico.mpr ⟨by omega, by omega⟩ : k + j ∈ pageRun k count)
    simp [(mem_freeSet.mp this).2]

theorem pmmAllocPages_cases (count : ℕ) (s : Pmm) :
    pmmAllocPages count s = (s, 0) ∧
        (0 < count → ∀ k, k + count ≤ s.sTotalPages → ¬ pageRun k count ⊆ freeSet s) ∨
      ∃ k, 0 < count ∧ k + count ≤ s.sTotalPages ∧ pageRun k count ⊆ freeSet s ∧
        (∀ k' < k, ¬ pageRun k' count ⊆ freeSet s) ∧
        pmmAllocPages count s =
          ((setRange count k s).setFreePages (sub64 s.sFreePages count), k * pageSize) := by
  rw [pmmAllocPages, allocPagesLoop_eq]
  cases found : scanRun (fun j => !bitmapTest s j) count s.sTotalPages 0 0 0 with
  | none =>
    refine Or.inl ⟨rfl, fun pos k hk sub => ?_⟩
    exact scanRun_none found pos hk ((runAt_iff_pageRun hk).mpr sub)
  | some k =>
    obtain ⟨pos, hk, run, lowest⟩ := scanRun_some found
    refine Or.inr ⟨k, pos, hk, (runAt_iff_pageRun hk).mp run, fun k' hk' sub => ?_, ?_⟩
    · exact lowest k' hk' ((runAt_iff_pageRun (by omega)).mpr sub)
    · simp only [u64_page (by omega : k < s.sTotalPages)]

/-! ## Release -/

@[simp] theorem bitmapTest_freeBit (k : ℕ) (s : Pmm) (i : ℕ) :
    bitmapTest (freeBit k s) i = (!decide (k = i) && bitmapTest s i) := by
  rw [freeBit, bitmapTest_setFreePages, bitmapTest_bitmapClear]

theorem freeSet_freeBit {s : Pmm} {k : ℕ} (h : k < s.sTotalPages) :
    freeSet (freeBit k s) = insert k (freeSet s) := by
  ext i
  rw [Finset.mem_insert, mem_freeSet, mem_freeSet]
  change i < s.sTotalPages ∧ bitmapTest (bitmapClear k s) i = false ↔ _
  rw [bitmapTest_bitmapClear]
  by_cases hi : k = i
  · subst hi
    simp [h]
  · have : i ≠ k := fun e => hi e.symm
    simp [hi, this]

/-- Freeing a page that is in use raises the counter by one. -/
theorem counted_freeBit {s : Pmm} {k : ℕ} (counted : Counted s) (h : k < s.sTotalPages)
    (inUse : bitmapTest s k = true) : Counted (freeBit k s) := by
  have fresh : k ∉ freeSet s := fun hk => by
    rw [(mem_freeSet.mp hk).2] at inUse
    exact absurd inUse (by simp)
  have hlt := card_freeSet_lt (freeBit k s)
  rw [freeSet_freeBit h, Finset.card_insert_of_notMem fresh] at hlt
  rw [Counted, freeSet_freeBit h, Finset.card_insert_of_notMem fresh, freeBit,
    sFreePages_setFreePages, sFreePages_bitmapClear, counted, u64_of_lt hlt]

theorem pmmFreePage_spec {ptr : ℕ} {s : Pmm} (inside : ptr / pageSize < s.sTotalPages) :
    freeSet (pmmFreePage ptr s) = insert (ptr / pageSize) (freeSet s) ∧
      (pmmFreePage ptr s).sTotalPages = s.sTotalPages ∧
      (Counted s → Counted (pmmFreePage ptr s)) := by
  rw [pmmFreePage]
  cases inUse : bitmapTest s (ptr / pageSize) with
  | true =>
    rw [if_pos ⟨inside, rfl⟩]
    exact ⟨freeSet_freeBit inside, rfl, fun counted => counted_freeBit counted inside inUse⟩
  | false =>
    rw [if_neg (by simp), Finset.insert_eq_of_mem (mem_freeSet.mpr ⟨inside, inUse⟩)]
    exact ⟨rfl, rfl, id⟩

theorem freePagesLoop_spec {startPage n i : ℕ} {s : Pmm}
    (inside : ∀ j < n, startPage + i + j < s.sTotalPages) :
    freeSet (freePagesLoop startPage n i s) = freeSet s ∪ pageRun (startPage + i) n ∧
      (freePagesLoop startPage n i s).sTotalPages = s.sTotalPages ∧
      (Counted s → Counted (freePagesLoop startPage n i s)) := by
  induction n generalizing i s with
  | zero => simp [freePagesLoop, pageRun]
  | succ n ih =>
    have here : startPage + i < s.sTotalPages := inside 0 (by omega)
    have hfit := s.pagesFit
    have hpage : u64 (startPage + i) = startPage + i := by
      apply u64_of_lt
      unfold pageSize at hfit
      omega
    have union : ∀ A : Finset ℕ, insert (startPage + i) A ∪ pageRun (startPage + (i + 1)) n =
        A ∪ pageRun (startPage + i) (n + 1) := by
      intro A
      ext j
      simp only [pageRun, Finset.mem_union, Finset.mem_insert, Finset.mem_Ico]
      constructor
      · rintro ((rfl | h) | h)
        · exact Or.inr ⟨le_rfl, by omega⟩
        · exact Or.inl h
        · exact Or.inr (by omega)
      · rintro (h | h)
        · exact Or.inl (Or.inr h)
        · by_cases hj : j = startPage + i
          · exact Or.inl (Or.inl hj)
          · exact Or.inr (by omega)
    rw [freePagesLoop, hpage]
    cases inUse : bitmapTest s (startPage + i) with
    | true =>
      rw [if_pos rfl]
      have rest : ∀ j < n, startPage + (i + 1) + j < (freeBit (startPage + i) s).sTotalPages :=
        fun j hj => by
          have := inside (j + 1) (by omega)
          change _ < s.sTotalPages
          omega
      obtain ⟨hfree, htotal, hcount⟩ := ih rest
      refine ⟨?_, htotal, fun counted => hcount (counted_freeBit counted here inUse)⟩
      rw [hfree, freeSet_freeBit here, union]
    | false =>
      rw [if_neg (by simp)]
      have rest : ∀ j < n, startPage + (i + 1) + j < s.sTotalPages := fun j hj => by
        have := inside (j + 1) (by omega)
        omega
      obtain ⟨hfree, htotal, hcount⟩ := ih rest
      refine ⟨?_, htotal, hcount⟩
      rw [hfree, ← union, Finset.insert_eq_of_mem (mem_freeSet.mpr ⟨here, inUse⟩)]

/-! ## Calls in sequence -/

/-- A call to the page allocator. -/
inductive PmmOp where
  | allocPage
  | allocPages (count : ℕ)
  | freePage (ptr : ℕ)
  | freePages (ptr count : ℕ)
deriving DecidableEq, Repr

/-- The pages of a new allocation at `ptr`; `NULL` allocates nothing. -/
def allocate (ptr count : ℕ) (live : List (Finset ℕ)) : List (Finset ℕ) :=
  if ptr = 0 then live else pageRun (ptr / pageSize) count :: live

/-- One call, with the pages each live allocation holds: clients free only pages they hold. -/
inductive PmmStep : Pmm × List (Finset ℕ) → PmmOp → Pmm × List (Finset ℕ) → Prop
  | allocPage (s : Pmm) (live : List (Finset ℕ)) :
      PmmStep (s, live) .allocPage
        ((pmmAllocPage s).1, allocate (pmmAllocPage s).2 1 live)
  | allocPages (s : Pmm) (live : List (Finset ℕ)) (count : ℕ) :
      PmmStep (s, live) (.allocPages count)
        ((pmmAllocPages count s).1, allocate (pmmAllocPages count s).2 count live)
  | freePage (s : Pmm) (live : List (Finset ℕ)) (ptr : ℕ)
      (holds : ∃ A ∈ live, ptr / pageSize ∈ A) :
      PmmStep (s, live) (.freePage ptr)
        (pmmFreePage ptr s, live.map (· \ {ptr / pageSize}))
  | freePages (s : Pmm) (live : List (Finset ℕ)) (ptr count : ℕ)
      (holds : ∀ i ∈ pageRun (ptr / pageSize) count, ∃ A ∈ live, i ∈ A) :
      PmmStep (s, live) (.freePages ptr count)
        (pmmFreePages ptr count s, live.map (· \ pageRun (ptr / pageSize) count))

/-- The allocator as a ledger of pages. -/
def pageLedger (x : Pmm × List (Finset ℕ)) : Ledger ℕ := ⟨freeSet x.1, x.2⟩

/-- The run invariant: no page is lost or owned twice, the counter is right, and page 0 was not
there to be handed out. -/
structure PmmInv (initial : Finset ℕ) (total : ℕ) (x : Pmm × List (Finset ℕ)) : Prop where
  conserved : Ledger.Conserved initial (pageLedger x)
  counted : Counted x.1
  total_eq : x.1.sTotalPages = total

theorem pageRun_card (k count : ℕ) : (pageRun k count).card = count := by
  rw [pageRun, Nat.card_Ico]
  omega

/-- A page that is not page 0 has a non-`NULL` address, from which the page is recovered. -/
theorem allocate_page {k count : ℕ} (nonzero : k ≠ 0) (live : List (Finset ℕ)) :
    allocate (k * pageSize) count live = pageRun k count :: live := by
  have hpos : k * pageSize ≠ 0 := Nat.mul_ne_zero nonzero pageSize_pos.ne'
  rw [allocate, if_neg hpos, Nat.mul_div_cancel _ pageSize_pos]

/-- A run of free pages may go to a new allocation. -/
theorem PmmInv.take {initial : Finset ℕ} {total k count : ℕ} {s t : Pmm} {live : List (Finset ℕ)}
    (inv : PmmInv initial total (s, live)) (available : pageRun k count ⊆ freeSet s)
    (free : freeSet t = freeSet s \ pageRun k count)
    (counter : t.sFreePages = sub64 s.sFreePages count) (same : t.sTotalPages = s.sTotalPages) :
    PmmInv initial total (t, pageRun k count :: live) := by
  refine ⟨?_, counted_sdiff inv.counted available (pageRun_card k count) free counter,
    same.trans inv.total_eq⟩
  have := inv.conserved.take available
  rwa [Ledger.take, pageLedger, ← free] at this

theorem pmmStep_inv {initial : Finset ℕ} {total : ℕ} (bounded : initial ⊆ Finset.range total)
    (noZero : 0 ∉ initial) {x y : Pmm × List (Finset ℕ)} {op : PmmOp}
    (inv : PmmInv initial total x) (step : PmmStep x op y) : PmmInv initial total y := by
  obtain ⟨conserved, counted, htotal⟩ := inv
  have free_ne : ∀ k ∈ freeSet x.1, k ≠ 0 := fun k hk h =>
    noZero (h ▸ ((conserved.free_iff k).mp hk).1)
  -- owned pages are below `s_total_pages`
  have owned_lt : ∀ i, (∃ A ∈ x.2, i ∈ A) → i < x.1.sTotalPages := by
    rintro i ⟨A, hA, hi⟩
    rw [htotal]
    exact Finset.mem_range.mp (bounded (conserved.within A hA hi))
  cases step with
  | allocPage s live =>
    rcases pmmAllocPage_cases s with ⟨call, -⟩ | ⟨k, hk, -, call⟩
    · rw [call]
      exact ⟨conserved, counted, htotal⟩
    · have single : pageRun k 1 = {k} := by rw [pageRun, Nat.Ico_succ_singleton]
      rw [call, allocate_page (free_ne k hk)]
      apply PmmInv.take ⟨conserved, counted, htotal⟩
      · rwa [single, Finset.singleton_subset_iff]
      · rw [freeSet_setFreePages, freeSet_bitmapSet, single, Finset.erase_eq]
      · rw [sFreePages_setFreePages]
      · rw [sTotalPages_setFreePages, sTotalPages_bitmapSet]
  | allocPages s live count =>
    rcases pmmAllocPages_cases count s with ⟨call, -⟩ | ⟨k, pos, -, available, -, call⟩
    · rw [call]
      refine ⟨?_, counted, htotal⟩
      rw [allocate, if_pos rfl]
      exact conserved
    · obtain ⟨free, total, -⟩ := freeSet_setRange count k s
      rw [← freeSet_setFreePages _ (sub64 s.sFreePages count)] at free
      have first : k ∈ freeSet s := available (Finset.mem_Ico.mpr ⟨le_rfl, by omega⟩)
      rw [call, allocate_page (free_ne k first)]
      apply PmmInv.take ⟨conserved, counted, htotal⟩ available free
      · rw [sFreePages_setFreePages]
      · rw [sTotalPages_setFreePages, total]
  | freePage s live ptr holds =>
    obtain ⟨free, total, count⟩ := pmmFreePage_spec (owned_lt _ holds)
    refine ⟨?_, count counted, total.trans htotal⟩
    have := conserved.give (F := {ptr / pageSize}) fun i hi => by
      rw [Finset.mem_singleton.mp hi]
      exact holds
    rwa [Ledger.give, pageLedger, Finset.union_comm, ← Finset.insert_eq, ← free] at this
  | freePages s live ptr count holds =>
    have inside : ∀ j < count, ptr / pageSize + 0 + j < s.sTotalPages := fun j hj =>
      owned_lt _ (holds _ (Finset.mem_Ico.mpr ⟨by omega, by omega⟩))
    obtain ⟨free, total, count'⟩ := freePagesLoop_spec inside
    refine ⟨?_, count' counted, total.trans htotal⟩
    rw [Nat.add_zero] at free
    have := conserved.give holds
    rwa [Ledger.give, pageLedger, ← free] at this

/-- What is reported as the free and the whole memory does not wrap. -/
theorem reports_eq {s : Pmm} (counted : s.sFreePages = (freeSet s).card) :
    pmmGetFreeMemory s = (freeSet s).card * pageSize ∧
      pmmGetTotalMemory s = s.sTotalPages * pageSize := by
  have few : (freeSet s).card ≤ s.sTotalPages :=
    (Finset.card_filter_le _ _).trans (Finset.card_range _).le
  rw [pmmGetFreeMemory, counted]
  exact ⟨u64_of_lt ((Nat.mul_le_mul_right _ few).trans_lt s.pagesFit), u64_of_lt s.pagesFit⟩

/-- Page conservation: in every run in which clients free only pages they hold, live allocations
hold disjoint sets of initially free pages, the free pages are the initial ones minus those held,
and `s_free_pages` is their number.  The memory reported is that of these pages. -/
theorem pmmRun_conserves {s₀ s : Pmm} {live : List (Finset ℕ)} {ops : List PmmOp}
    (counted : s₀.sFreePages = (freeSet s₀).card) (pageZero : 0 ∉ freeSet s₀)
    (run : Run PmmStep (s₀, []) ops (s, live)) :
    live.Pairwise Disjoint ∧ (∀ A ∈ live, A ⊆ freeSet s₀) ∧
      (∀ i, i ∈ freeSet s ↔ i ∈ freeSet s₀ ∧ ∀ A ∈ live, i ∉ A) ∧
      s.sFreePages = (freeSet s).card ∧
      pmmGetFreeMemory s = (freeSet s).card * pageSize ∧
      pmmGetTotalMemory s = s₀.sTotalPages * pageSize := by
  have bounded : freeSet s₀ ⊆ Finset.range s₀.sTotalPages := Finset.filter_subset _ _
  have initial : PmmInv (freeSet s₀) s₀.sTotalPages (s₀, []) :=
    ⟨Ledger.conserved_initial _, counted, rfl⟩
  have inv := run.invariant (fun _ _ _ inv step => pmmStep_inv bounded pageZero inv step) initial
  obtain ⟨free, total⟩ := reports_eq inv.counted
  refine ⟨inv.conserved.disjoint, inv.conserved.within, fun i => ?_, inv.counted, free,
    total.trans (congrArg (· * pageSize) inv.total_eq)⟩
  rw [show i ∈ freeSet s ↔ _ from inv.conserved.free_iff i, Ledger.Owned]
  simp [pageLedger]

/-- Four pages of which page 0 is in use. -/
def fourPages : Pmm where
  mem := fun _ => 1#8
  stores := []
  sBitmap := 0x1000
  sTotalPages := 4
  sFreePages := 3
  sHighestAddr := 0x4000
  sHhdm := 0
  pagesFit := by norm_num [pageSize]
  highestFits := by norm_num

/-- Two allocations, and the first one given back. -/
theorem pmmRun_conserves_example : ∃ s live,
    Run PmmStep (fourPages, []) [.allocPages 2, .allocPage, .freePages 0x1000 2] (s, live) ∧
      live.Pairwise Disjoint ∧ s.sFreePages = (freeSet s).card ∧
      pmmGetTotalMemory s = 0x4000 := by
  have run : ∃ s live, Run PmmStep (fourPages, [])
      [.allocPages 2, .allocPage, .freePages 0x1000 2] (s, live) :=
    ⟨_, _, .cons (.allocPages _ _ 2) (.cons (.allocPage _ _)
      (.cons (.freePages _ _ 0x1000 2 (by decide +kernel)) (.nil _)))⟩
  obtain ⟨s, live, run⟩ := run
  obtain ⟨disjoint, -, -, counted, -, total⟩ :=
    pmmRun_conserves (by decide +kernel) (by decide +kernel) run
  exact ⟨s, live, run, disjoint, counted, total⟩

end ChefOs
