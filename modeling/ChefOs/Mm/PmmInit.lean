import ChefOs.Mm.PmmOwnership
import Mathlib.Order.CompletePartialOrder

/-!
# What `pmm_init` frees

`pmm_init` moves the base of the entry that hosts the bitmap up by the bitmap's size rounded to
pages, but takes only the unrounded size off its length.  The entry then ends behind its real end
unless the size is a multiple of a page, and the loop frees one page too many.  So the page after
the host entry is freed, or counted twice, on every memory map whose bitmap does not fill its last
page, and on the others the free pages are exactly the usable ones.
-/

namespace ChefOs

open Kit

/-- A region of usable memory. -/
def LimineMemmapEntry.Usable (e : LimineMemmapEntry) : Prop := e.type = limineMemmapUsable

instance (e : LimineMemmapEntry) : Decidable e.Usable :=
  inferInstanceAs (Decidable (e.type = limineMemmapUsable))

theorem usable_iff (e : LimineMemmapEntry) : e.type = limineMemmapUsable ↔ e.Usable := Iff.rfl

/-- The bytes of a region. -/
def LimineMemmapEntry.bytes (e : LimineMemmapEntry) : Set ℕ := Set.Ico e.base (e.base + e.length)

/-- What the boot protocol guarantees of the usable entries. -/
structure WellFormedMap (entries : List LimineMemmapEntry) : Prop where
  aligned : ∀ e ∈ entries, e.Usable → pageSize ∣ e.base ∧ pageSize ∣ e.length
  fits : ∀ e ∈ entries, e.Usable → e.base + e.length < 2 ^ 64
  disjoint : entries.Pairwise fun e f => e.Usable → f.Usable → Disjoint e.bytes f.bytes
  noPageZero : ∀ e ∈ entries, e.Usable → 0 ∉ e.bytes

/-- `(s_total_pages + 7) / 8` for this memory map. -/
def bitmapSize (entries : List LimineMemmapEntry) : ℕ :=
  (highestLoop entries 0 / pageSize + 7) / 8

/-- The statics of `pmm.c` before `pmm_init`. -/
def pmmStatic (mem : ℕ → BitVec 8) : Pmm where
  mem := mem
  stores := []
  sBitmap := 0
  sTotalPages := 0
  sFreePages := 0
  sHighestAddr := 0
  sHhdm := 0
  pagesFit := by norm_num
  highestFits := by norm_num

/-- The bytes of page `i`. -/
def pageBytes (i : ℕ) : Set ℕ := Set.Ico (i * pageSize) ((i + 1) * pageSize)

/-- The bytes of the bitmap, as physical addresses. -/
def bitmapBytes (s : Pmm) : Set ℕ :=
  Set.Ico (sub64 s.sBitmap s.sHhdm) (sub64 s.sBitmap s.sHhdm + (s.sTotalPages + 7) / 8)

/-- What `pmm_init` is for: the free pages are those inside a usable entry that hold no byte of the
bitmap, only the bitmap was written, and the counter is right. -/
structure InitCorrect (entries : List LimineMemmapEntry) (s : Pmm) : Prop where
  free_iff : ∀ i < s.sTotalPages, bitmapTest s i = false ↔
    (∃ e ∈ entries, e.Usable ∧ pageBytes i ⊆ e.bytes) ∧ Disjoint (pageBytes i) (bitmapBytes s)
  stores : ∀ a ∈ s.stores, s.sBitmap ≤ a ∧ a < s.sBitmap + (s.sTotalPages + 7) / 8
  count : s.sFreePages = (freeSet s).card

/-! ## The loops -/

/-- The pages the inner loop visits in an entry. -/
def entryPages (e : LimineMemmapEntry) : List ℕ :=
  List.range' (e.base / pageSize)
    ((u64 (e.base + e.length) + (pageSize - 1)) / pageSize - e.base / pageSize)

/-- The pages visited in all usable entries. -/
def regionPages (entries : List LimineMemmapEntry) : List ℕ :=
  (entries.filter fun e => e.Usable).flatMap entryPages

/-- Free a list of pages one by one. -/
def freeAll (pages : List ℕ) (s : Pmm) : Pmm := pages.foldl (fun s k => freeBit k s) s

theorem regionPages_cons_of_usable {e : LimineMemmapEntry} (entries : List LimineMemmapEntry)
    (usable : e.Usable) : regionPages (e :: entries) = entryPages e ++ regionPages entries := by
  simp [regionPages, usable]

theorem regionPages_cons_of_not {e : LimineMemmapEntry} (entries : List LimineMemmapEntry)
    (unusable : ¬ e.Usable) : regionPages (e :: entries) = regionPages entries := by
  simp [regionPages, unusable]

theorem freeAll_append (l r : List ℕ) (s : Pmm) :
    freeAll (l ++ r) s = freeAll r (freeAll l s) := List.foldl_append

/-- A region that reaches into the last page of the address space is never left: the address wraps
to 0 before it can pass the end. -/
theorem freeRegion_diverges {stop fuel p : ℕ} {s : Pmm} (last : 2 ^ 64 < stop + pageSize)
    (inside : p * pageSize < 2 ^ 64) : freeRegion stop fuel (p * pageSize) s = none := by
  induction fuel generalizing p s with
  | zero => rfl
  | succ fuel ih =>
    have more : p * pageSize < stop := by
      unfold pageSize at last inside ⊢
      omega
    rw [freeRegion, if_pos more]
    obtain ⟨q, hq, hq'⟩ : ∃ q, u64 (p * pageSize + pageSize) = q * pageSize ∧
        q * pageSize < 2 ^ 64 := by
      by_cases wraps : (p + 1) * pageSize < 2 ^ 64
      · exact ⟨p + 1, by rw [← Nat.succ_mul, u64_of_lt wraps], wraps⟩
      · refine ⟨0, ?_, by norm_num⟩
        unfold u64 pageSize at *
        omega
    rw [hq]
    exact ih hq'

/-- When the inner loop ends, it has freed the pages from its start up to the end of the region. -/
theorem freeRegion_eq {stop fuel p : ℕ} {s t : Pmm} (inside : p * pageSize < 2 ^ 64)
    (done : freeRegion stop fuel (p * pageSize) s = some t) :
    t = freeAll (List.range' p ((stop + (pageSize - 1)) / pageSize - p)) s := by
  have bounded : ¬ 2 ^ 64 < stop + pageSize := fun last => by
    rw [freeRegion_diverges last inside] at done
    exact absurd done (by simp)
  induction fuel generalizing p s with
  | zero => simp [freeRegion] at done
  | succ fuel ih =>
    rw [freeRegion] at done
    split_ifs at done with more
    · have next : (p + 1) * pageSize < 2 ^ 64 := by
        rw [Nat.succ_mul]
        omega
      have hcount : (stop + (pageSize - 1)) / pageSize - p =
          (stop + (pageSize - 1)) / pageSize - (p + 1) + 1 := by
        unfold pageSize at more ⊢
        omega
      rw [← Nat.succ_mul, u64_of_lt next, Nat.mul_div_cancel _ pageSize_pos] at done
      rw [hcount, List.range'_succ]
      exact ih next done
    · have hcount : (stop + (pageSize - 1)) / pageSize - p = 0 := by
        unfold pageSize at more ⊢
        omega
      rw [hcount]
      exact (Option.some.inj done).symm

/-- The inner loop ends when the region stops before the last page of the address space. -/
theorem freeRegion_isSome {stop fuel p : ℕ} {s : Pmm} (bounded : stop + pageSize ≤ 2 ^ 64)
    (enough : (stop + (pageSize - 1)) / pageSize - p < fuel) :
    (freeRegion stop fuel (p * pageSize) s).isSome := by
  induction fuel generalizing p s with
  | zero => omega
  | succ fuel ih =>
    rw [freeRegion]
    split_ifs with more
    · have next : (p + 1) * pageSize < 2 ^ 64 := by
        rw [Nat.succ_mul]
        omega
      rw [← Nat.succ_mul, u64_of_lt next]
      apply ih
      unfold pageSize at enough more ⊢
      omega
    · rfl

/-- The loop over the map is the same walk over all pages of its usable entries. -/
theorem freeRegions_eq {fuel : ℕ} {entries : List LimineMemmapEntry} {s t : Pmm}
    (aligned : ∀ e ∈ entries, e.Usable → pageSize ∣ e.base ∧ e.base < 2 ^ 64)
    (done : freeRegions fuel entries s = some t) : t = freeAll (regionPages entries) s := by
  induction entries generalizing s with
  | nil => exact (Option.some.inj done).symm
  | cons entry entries ih =>
    have rest := fun e he => aligned e (List.mem_cons_of_mem _ he)
    by_cases usable : entry.Usable
    · rw [freeRegions, if_pos ((usable_iff _).mpr usable), Option.bind_eq_bind,
        Option.bind_eq_some_iff] at done
      obtain ⟨u, here, done⟩ := done
      obtain ⟨⟨p, hp⟩, hbase⟩ := aligned entry List.mem_cons_self usable
      rw [Nat.mul_comm] at hp
      rw [hp] at here
      have hu := freeRegion_eq (hp ▸ hbase) here
      rw [ih rest done, hu, regionPages_cons_of_usable _ usable, freeAll_append, entryPages, hp,
        Nat.mul_div_cancel _ pageSize_pos]
    · rw [freeRegions, if_neg (mt (usable_iff _).mp usable)] at done
      rw [ih rest done, regionPages_cons_of_not _ usable]

/-- The loop over the map ends when no usable entry reaches into the last page of the address
space. -/
theorem freeRegions_isSome {fuel : ℕ} {entries : List LimineMemmapEntry} {s : Pmm}
    (aligned : ∀ e ∈ entries, e.Usable → pageSize ∣ e.base)
    (bounded : ∀ e ∈ entries, e.Usable → u64 (e.base + e.length) + pageSize ≤ 2 ^ 64)
    (enough : 2 ^ 64 < fuel) : (freeRegions fuel entries s).isSome := by
  induction entries generalizing s with
  | nil => rfl
  | cons entry entries ih =>
    have aligned' := fun e he => aligned e (List.mem_cons_of_mem _ he)
    have bounded' := fun e he => bounded e (List.mem_cons_of_mem _ he)
    by_cases usable : entry.Usable
    · obtain ⟨p, hp⟩ := aligned entry List.mem_cons_self usable
      have hstop := bounded entry List.mem_cons_self usable
      have here : (freeRegion (u64 (entry.base + entry.length)) fuel entry.base s).isSome := by
        rw [hp, Nat.mul_comm] at hstop ⊢
        apply freeRegion_isSome hstop
        have := Nat.div_le_self (u64 (p * pageSize + entry.length) + (pageSize - 1)) pageSize
        omega
      obtain ⟨t, ht⟩ := Option.isSome_iff_exists.mp here
      rw [freeRegions, if_pos ((usable_iff _).mpr usable), ht]
      exact ih aligned' bounded'
    · rw [freeRegions, if_neg (mt (usable_iff _).mp usable)]
      exact ih aligned' bounded'

/-! ## Freeing a list of pages -/

@[simp] theorem freeAll_nil (s : Pmm) : freeAll [] s = s := rfl

@[simp] theorem freeAll_cons (k : ℕ) (pages : List ℕ) (s : Pmm) :
    freeAll (k :: pages) s = freeAll pages (freeBit k s) := rfl

@[simp] theorem sTotalPages_freeAll (pages : List ℕ) (s : Pmm) :
    (freeAll pages s).sTotalPages = s.sTotalPages := by
  induction pages generalizing s with
  | nil => rfl
  | cons k pages ih => exact ih _

@[simp] theorem sBitmap_freeAll (pages : List ℕ) (s : Pmm) :
    (freeAll pages s).sBitmap = s.sBitmap := by
  induction pages generalizing s with
  | nil => rfl
  | cons k pages ih => exact ih _

@[simp] theorem sHhdm_freeAll (pages : List ℕ) (s : Pmm) : (freeAll pages s).sHhdm = s.sHhdm := by
  induction pages generalizing s with
  | nil => rfl
  | cons k pages ih => exact ih _

theorem bitmapTest_freeAll (pages : List ℕ) (s : Pmm) (i : ℕ) :
    bitmapTest (freeAll pages s) i = (!decide (i ∈ pages) && bitmapTest s i) := by
  induction pages generalizing s with
  | nil => simp
  | cons k pages ih =>
    rw [freeAll_cons, ih, bitmapTest_freeBit]
    by_cases here : k = i
    · simp [here]
    · have : i ≠ k := fun h => here h.symm
      simp [here, this]

theorem sFreePages_freeAll {pages : List ℕ} {s : Pmm}
    (small : s.sFreePages + pages.length < 2 ^ 64) :
    (freeAll pages s).sFreePages = s.sFreePages + pages.length := by
  induction pages generalizing s with
  | nil => rfl
  | cons k pages ih =>
    rw [List.length_cons] at small
    have hcount : (freeBit k s).sFreePages = s.sFreePages + 1 := by
      rw [freeBit, sFreePages_setFreePages, sFreePages_bitmapClear, u64_of_lt (by omega)]
    rw [freeAll_cons, ih (by omega), hcount, List.length_cons]
    omega

/-- The bytes written while freeing are those that hold the bits of the pages. -/
theorem stores_freeAll {pages : List ℕ} {s : Pmm} {a : ℕ} (h : a ∈ (freeAll pages s).stores) :
    a ∈ s.stores ∨ ∃ k ∈ pages, a = s.sBitmap + k / 8 := by
  induction pages generalizing s with
  | nil => exact Or.inl h
  | cons k pages ih =>
    rcases ih h with old | ⟨j, hj, rfl⟩
    · rcases List.mem_cons.mp old with rfl | old
      · exact Or.inr ⟨k, List.mem_cons_self, rfl⟩
      · exact Or.inl old
    · exact Or.inr ⟨j, List.mem_cons_of_mem _ hj, rfl⟩

/-! ## The pages of a memory map -/

theorem pageBytes_subset {i b l : ℕ} :
    pageBytes i ⊆ Set.Ico (b * pageSize) (b * pageSize + l * pageSize) ↔ b ≤ i ∧ i < b + l := by
  have nonempty : i * pageSize < (i + 1) * pageSize :=
    Nat.mul_lt_mul_of_pos_right (Nat.lt_succ_self i) pageSize_pos
  rw [pageBytes, ← Nat.add_mul, Set.Ico_subset_Ico_iff nonempty,
    Nat.mul_le_mul_right_iff pageSize_pos, Nat.mul_le_mul_right_iff pageSize_pos]
  rfl

/-- The pages of an aligned entry. -/
theorem entryPages_eq {e : LimineMemmapEntry} {b l : ℕ} (hb : e.base = b * pageSize)
    (hl : e.length = l * pageSize) (fits : e.base + e.length < 2 ^ 64) :
    entryPages e = List.range' b l := by
  have hend : (b * pageSize + l * pageSize + (pageSize - 1)) / pageSize = b + l := by
    unfold pageSize
    omega
  rw [entryPages, u64_of_lt fits, hb, hl, hend, Nat.mul_div_cancel _ pageSize_pos,
    Nat.add_sub_cancel_left]

theorem nodup_entryPages (e : LimineMemmapEntry) : (entryPages e).Nodup := List.nodup_range'

/-- An aligned entry's pages are those that lie wholly inside it. -/
theorem mem_entryPages {e : LimineMemmapEntry} (hbase : pageSize ∣ e.base)
    (hlength : pageSize ∣ e.length) (fits : e.base + e.length < 2 ^ 64) {i : ℕ} :
    i ∈ entryPages e ↔ pageBytes i ⊆ e.bytes := by
  obtain ⟨b, hb⟩ := hbase
  obtain ⟨l, hl⟩ := hlength
  rw [Nat.mul_comm] at hb hl
  rw [entryPages_eq hb hl fits, LimineMemmapEntry.bytes, hb, hl, pageBytes_subset,
    List.mem_range'_1]

/-- Below an aligned address a whole page is left in the address space. -/
theorem page_room {n : ℕ} (aligned : pageSize ∣ n) (h : n < 2 ^ 64) : n + pageSize ≤ 2 ^ 64 := by
  have hspace : pageSize * 2 ^ 52 = 2 ^ 64 := by norm_num [pageSize]
  obtain ⟨l, rfl⟩ := aligned
  rw [← hspace] at h ⊢
  have hl := Nat.lt_of_mul_lt_mul_left h
  rw [← Nat.mul_succ]
  exact Nat.mul_le_mul_left _ hl

/-- The first byte of a page. -/
theorem mem_pageBytes (i : ℕ) : i * pageSize ∈ pageBytes i :=
  ⟨le_rfl, Nat.mul_lt_mul_of_pos_right (Nat.lt_succ_self i) pageSize_pos⟩

/-- The loop over the entries of a map ends. -/
theorem WellFormedMap.freeRegions_ends {entries : List LimineMemmapEntry}
    (wf : WellFormedMap entries) (s : Pmm) : (freeRegions (2 ^ 64 + 1) entries s).isSome := by
  apply freeRegions_isSome
  · exact fun e he usable => (wf.aligned e he usable).1
  · intro e he usable
    obtain ⟨hbase, hlength⟩ := wf.aligned e he usable
    rw [u64_of_lt (wf.fits e he usable)]
    exact page_room ((Nat.dvd_add_right hbase).mpr hlength) (wf.fits e he usable)
  · norm_num

theorem WellFormedMap.mem_regionPages {entries : List LimineMemmapEntry}
    (wf : WellFormedMap entries) {i : ℕ} :
    i ∈ regionPages entries ↔ ∃ e ∈ entries, e.Usable ∧ pageBytes i ⊆ e.bytes := by
  simp only [regionPages, List.mem_flatMap, List.mem_filter, decide_eq_true_eq, and_assoc]
  refine exists_congr fun e => and_congr_right fun he => and_congr_right fun usable => ?_
  obtain ⟨hbase, hlength⟩ := wf.aligned e he usable
  exact mem_entryPages hbase hlength (wf.fits e he usable)

/-- No page is visited twice, as the usable entries are disjoint. -/
theorem WellFormedMap.nodup_regionPages {entries : List LimineMemmapEntry}
    (wf : WellFormedMap entries) : (regionPages entries).Nodup := by
  refine List.nodup_flatMap.mpr ⟨fun e _ => nodup_entryPages e, ?_⟩
  rw [List.pairwise_filter]
  apply wf.disjoint.imp_of_mem
  intro e f he hf disjoint he' hf'
  rw [decide_eq_true_eq] at he' hf'
  intro i hi hj
  obtain ⟨eb, el⟩ := wf.aligned e he he'
  obtain ⟨fb, fl⟩ := wf.aligned f hf hf'
  have hi := (mem_entryPages eb el (wf.fits e he he')).mp hi
  have hj := (mem_entryPages fb fl (wf.fits f hf hf')).mp hj
  exact Set.disjoint_left.mp (disjoint he' hf') (hi (mem_pageBytes i)) (hj (mem_pageBytes i))

/-- Every usable entry ends at or below the highest address. -/
theorem le_highestLoop {entries : List LimineMemmapEntry} {highest : ℕ} :
    highest ≤ highestLoop entries highest ∧
      ∀ e ∈ entries, e.Usable → u64 (e.base + e.length) ≤ highestLoop entries highest := by
  induction entries generalizing highest with
  | nil => simp [highestLoop]
  | cons entry entries ih =>
    rw [highestLoop]
    split_ifs with usable
    · obtain ⟨hmax, hall⟩ := @ih (if u64 (entry.base + entry.length) > highest
        then u64 (entry.base + entry.length) else highest)
      have hsplit : highest ≤ (if u64 (entry.base + entry.length) > highest
            then u64 (entry.base + entry.length) else highest) ∧
          u64 (entry.base + entry.length) ≤ (if u64 (entry.base + entry.length) > highest
            then u64 (entry.base + entry.length) else highest) := by
        split_ifs <;> omega
      refine ⟨hsplit.1.trans hmax, fun e he => ?_⟩
      rcases List.mem_cons.mp he with rfl | he
      · exact fun _ => hsplit.2.trans hmax
      · exact hall e he
    · obtain ⟨hmax, hall⟩ := @ih highest
      refine ⟨hmax, fun e he => ?_⟩
      rcases List.mem_cons.mp he with rfl | he
      · exact fun h => absurd h usable
      · exact hall e he

/-- A page inside a usable entry is below `s_total_pages`. -/
theorem WellFormedMap.page_lt {entries : List LimineMemmapEntry} (wf : WellFormedMap entries)
    {e : LimineMemmapEntry} (he : e ∈ entries) (usable : e.Usable) {i : ℕ}
    (inside : pageBytes i ⊆ e.bytes) : i < highestLoop entries 0 / pageSize := by
  have top : u64 (e.base + e.length) ≤ highestLoop entries 0 := le_highestLoop.2 e he usable
  rw [u64_of_lt (wf.fits e he usable)] at top
  have last : (i + 1) * pageSize - 1 ∈ pageBytes i := by
    have := pageSize_pos
    rw [pageBytes, Set.mem_Ico, Nat.succ_mul]
    omega
  have := (inside last).2
  rw [Nat.lt_iff_add_one_le, Nat.le_div_iff_mul_le pageSize_pos]
  omega

/-! ## The entry that hosts the bitmap -/

/-- The bytes set aside for a bitmap of `size` bytes. -/
def reserved (size : ℕ) : ℕ := (size + (pageSize - 1)) / pageSize * pageSize

/-- The host entry as `pmm_init` leaves it. -/
def hostEdited (size : ℕ) (e : LimineMemmapEntry) : LimineMemmapEntry :=
  ⟨e.base + reserved size, e.length - size, e.type⟩

/-- The host entry without the pages set aside. -/
def hostRest (size : ℕ) (e : LimineMemmapEntry) : LimineMemmapEntry :=
  ⟨e.base + reserved size, e.length - reserved size, e.type⟩

theorem reserved_lt (size : ℕ) : reserved size < size + pageSize := by
  unfold reserved pageSize
  omega

/-- The pages set aside fit where the bitmap fits. -/
theorem reserved_le {size length : ℕ} (aligned : pageSize ∣ length) (h : size ≤ length) :
    reserved size ≤ length := by
  obtain ⟨l, rfl⟩ := aligned
  unfold reserved pageSize at *
  omega

theorem reserved_eq_iff {size : ℕ} : reserved size = size ↔ size % pageSize = 0 := by
  unfold reserved pageSize
  omega

/-- The edit of the host entry, computed in words, does not wrap. -/
theorem host_edit {size : ℕ} {e : LimineMemmapEntry} (aligned : pageSize ∣ e.length)
    (fits : e.base + e.length < 2 ^ 64) (h : size ≤ e.length) :
    (⟨u64 (e.base + (u64 (size + pageSize - 1) &&& not64 (pageSize - 1))),
      sub64 e.length size, e.type⟩ : LimineMemmapEntry) = hostEdited size e := by
  have hmask : u64 (size + pageSize - 1) &&& not64 (pageSize - 1) = reserved size := by
    have hroom := page_room aligned (by omega)
    have hsmall : size + (pageSize - 1) < 2 ^ 64 := by
      have := pageSize_pos
      omega
    exact roundUp_mask (k := 12) (by norm_num) hsmall
  have hle := reserved_le aligned h
  rw [hmask, u64_of_lt (by omega), sub64_of_le h (by omega), hostEdited]

/-- The bitmap goes to a usable entry it fits in, the only entry that is edited. -/
theorem placeBitmap_spec {size : ℕ} {entries : List LimineMemmapEntry}
    (aligned : ∀ e ∈ entries, e.Usable → pageSize ∣ e.base ∧ pageSize ∣ e.length)
    (fits : ∀ e ∈ entries, e.Usable → e.base + e.length < 2 ^ 64)
    (room : ∃ e ∈ entries, e.Usable ∧ size ≤ e.length) (s : Pmm) :
    ∃ pre host post, entries = pre ++ host :: post ∧ host.Usable ∧ size ≤ host.length ∧
      placeBitmap size entries s = (pre ++ hostEdited size host :: post,
        memsetBitmap size { s with sBitmap := u64 (host.base + s.sHhdm) }) := by
  induction entries with
  | nil =>
    obtain ⟨e, he, -⟩ := room
    exact absurd he (List.not_mem_nil)
  | cons entry entries ih =>
    unfold placeBitmap
    by_cases here : entry.type = limineMemmapUsable ∧ size ≤ entry.length
    · have edit := host_edit (aligned entry List.mem_cons_self here.1).2
        (fits entry List.mem_cons_self here.1) here.2
      refine ⟨[], entry, entries, rfl, here.1, here.2, ?_⟩
      rw [if_pos here, List.nil_append, ← edit]
    · obtain ⟨e, he, usable, large⟩ := room
      have tail : e ∈ entries := by
        rcases List.mem_cons.mp he with rfl | he
        · exact absurd ⟨usable, large⟩ here
        · exact he
      obtain ⟨pre, host, post, split, hhost, hsize, call⟩ :=
        ih (fun f hf => aligned f (List.mem_cons_of_mem _ hf))
          (fun f hf => fits f (List.mem_cons_of_mem _ hf)) ⟨e, tail, usable, large⟩
      refine ⟨entry :: pre, host, post, by rw [split, List.cons_append], hhost, hsize, ?_⟩
      rw [if_neg here, call, List.cons_append]

/-- Taking the reserved pages off an entry keeps the map well formed. -/
theorem WellFormedMap.rest {pre post : List LimineMemmapEntry} {host : LimineMemmapEntry}
    {size : ℕ} (wf : WellFormedMap (pre ++ host :: post)) (usable : host.Usable)
    (h : size ≤ host.length) : WellFormedMap (pre ++ hostRest size host :: post) := by
  have mem : host ∈ pre ++ host :: post := by simp
  obtain ⟨hbase, hlength⟩ := wf.aligned host mem usable
  have hfits := wf.fits host mem usable
  have hle := reserved_le hlength h
  have hsub : (hostRest size host).bytes ⊆ host.bytes := by
    intro a ha
    rw [LimineMemmapEntry.bytes, hostRest, Set.mem_Ico] at ha
    rw [LimineMemmapEntry.bytes, Set.mem_Ico]
    dsimp only at ha
    omega
  have hdvd : pageSize ∣ reserved size := Dvd.intro_left _ rfl
  -- every entry of the new map is the shrunken host or an entry of the old one
  have cases : ∀ e ∈ pre ++ hostRest size host :: post,
      e = hostRest size host ∨ e ∈ pre ++ host :: post := by
    intro e he
    simp only [List.mem_append, List.mem_cons] at he ⊢
    tauto
  obtain ⟨hpre, hpost, hacross⟩ := List.pairwise_append.mp wf.disjoint
  obtain ⟨hhost, hpost⟩ := List.pairwise_cons.mp hpost
  refine ⟨fun e he => ?_, fun e he => ?_, List.pairwise_append.mpr ⟨hpre, ?_, ?_⟩, fun e he => ?_⟩
  · rcases cases e he with rfl | he
    · exact fun _ => ⟨(Nat.dvd_add_right hbase).mpr hdvd, Nat.dvd_sub hlength hdvd⟩
    · exact wf.aligned e he
  · rcases cases e he with rfl | he
    · intro _
      change host.base + reserved size + (host.length - reserved size) < 2 ^ 64
      omega
    · exact wf.fits e he
  · refine List.pairwise_cons.mpr ⟨fun f hf _ hf' => ?_, hpost⟩
    exact (hhost f hf usable hf').mono_left hsub
  · intro e he f hf he' hf'
    rcases List.mem_cons.mp hf with rfl | hf
    · exact (hacross e he host List.mem_cons_self he' usable).mono_right hsub
    · exact hacross e he f (List.mem_cons_of_mem _ hf) he' hf'
  · rcases cases e he with rfl | he
    · exact fun _ zero => wf.noPageZero host mem usable (hsub zero)
    · exact wf.noPageZero e he

/-- The pages of the shrunken map are those that lie inside a usable entry and hold no byte of the
bitmap. -/
theorem mem_hostRest_pages {pre post : List LimineMemmapEntry} {host : LimineMemmapEntry}
    {size : ℕ} (wf : WellFormedMap (pre ++ host :: post)) (usable : host.Usable)
    (h : size ≤ host.length) {i : ℕ} :
    i ∈ regionPages (pre ++ hostRest size host :: post) ↔
      (∃ e ∈ pre ++ host :: post, e.Usable ∧ pageBytes i ⊆ e.bytes) ∧
        Disjoint (pageBytes i) (Set.Ico host.base (host.base + size)) := by
  have mem : host ∈ pre ++ host :: post := by simp
  obtain ⟨⟨b, hb⟩, hlength⟩ := wf.aligned host mem usable
  have hle := reserved_le hlength h
  have hbitmap : Set.Ico host.base (host.base + size) ⊆ host.bytes :=
    Set.Ico_subset_Ico_right (by omega)
  obtain ⟨-, hpost, hacross⟩ := List.pairwise_append.mp wf.disjoint
  obtain ⟨hhost, -⟩ := List.pairwise_cons.mp hpost
  -- the other entries do not meet the bitmap
  have apart : ∀ e ∈ pre ++ post, e.Usable → pageBytes i ⊆ e.bytes →
      Disjoint (pageBytes i) (Set.Ico host.base (host.base + size)) := by
    intro e he he' inside
    rcases List.mem_append.mp he with he | he
    · exact (hacross e he host List.mem_cons_self he' usable).mono inside hbitmap
    · exact (hhost e he usable he').symm.mono inside hbitmap
  -- a page of the host is behind the bitmap or meets it
  have behind : pageBytes i ⊆ (hostRest size host).bytes ↔
      pageBytes i ⊆ host.bytes ∧ Disjoint (pageBytes i) (Set.Ico host.base (host.base + size)) := by
    have hpage : i * pageSize < (i + 1) * pageSize := by
      rw [Nat.succ_mul]
      have := pageSize_pos
      omega
    rw [pageBytes, LimineMemmapEntry.bytes, LimineMemmapEntry.bytes, hostRest,
      Set.Ico_subset_Ico_iff hpage, Set.Ico_subset_Ico_iff hpage, Set.Ico_disjoint_Ico, hb]
    dsimp only
    unfold reserved pageSize at *
    omega
  rw [(wf.rest usable h).mem_regionPages]
  simp only [List.mem_append, List.mem_cons] at apart ⊢
  constructor
  · rintro ⟨e, he | rfl | he, he', inside⟩
    · exact ⟨⟨e, Or.inl he, he', inside⟩, apart e (Or.inl he) he' inside⟩
    · exact ⟨⟨host, Or.inr (Or.inl rfl), usable, (behind.mp inside).1⟩, (behind.mp inside).2⟩
    · exact ⟨⟨e, Or.inr (Or.inr he), he', inside⟩, apart e (Or.inr he) he' inside⟩
  · rintro ⟨⟨e, he | rfl | he, he', inside⟩, disjoint⟩
    · exact ⟨e, Or.inl he, he', inside⟩
    · exact ⟨_, Or.inr (Or.inl rfl), usable, behind.mpr ⟨inside, disjoint⟩⟩
    · exact ⟨e, Or.inr (Or.inr he), he', inside⟩

/-- When the bitmap does not fill its last page, the edited host has a page more. -/
theorem entryPages_hostEdited {size : ℕ} {e : LimineMemmapEntry} (hbase : pageSize ∣ e.base)
    (hlength : pageSize ∣ e.length) (fits : e.base + e.length < 2 ^ 64) (h : size ≤ e.length)
    (partly : size % pageSize ≠ 0) :
    (entryPages (hostEdited size e)).length = (entryPages (hostRest size e)).length + 1 := by
  have hle := reserved_le hlength h
  have hroom := page_room ((Nat.dvd_add_right hbase).mpr hlength) fits
  have hlt := reserved_lt size
  obtain ⟨b, hb⟩ := hbase
  obtain ⟨l, hl⟩ := hlength
  rw [entryPages, entryPages, List.length_range', List.length_range', hostEdited, hostRest]
  dsimp only
  rw [u64_of_lt (by omega), u64_of_lt (by omega), hb, hl]
  rw [hl] at hle
  clear hroom hlt fits hb hl
  unfold reserved pageSize at *
  omega

theorem regionPages_append (l r : List LimineMemmapEntry) :
    regionPages (l ++ r) = regionPages l ++ regionPages r := by
  simp [regionPages]

/-! ## The whole function -/

/-- The state of `pmm_init` after its first loop. -/
def scannedState (entries : List LimineMemmapEntry) (hhdm : ℕ) (mem : ℕ → BitVec 8) : Pmm :=
  { pmmStatic mem with
    sHhdm := hhdm
    sHighestAddr := highestLoop entries 0
    highestFits := highestLoop_lt (pmmStatic mem).highestFits
    sTotalPages := highestLoop entries 0 / pageSize
    pagesFit := pages_fit (highestLoop_lt (pmmStatic mem).highestFits) }

/-- The state in which the last loop of `pmm_init` starts. -/
def placedState (entries : List LimineMemmapEntry) (host : LimineMemmapEntry) (hhdm : ℕ)
    (mem : ℕ → BitVec 8) : Pmm :=
  (memsetBitmap (bitmapSize entries)
    { scannedState entries hhdm mem with sBitmap := u64 (host.base + hhdm) }).setFreePages 0

theorem bitmapTest_memsetBitmap {size i : ℕ} (s : Pmm) (h : i / 8 < size) :
    bitmapTest (memsetBitmap size s) i = true := by
  rw [bitmapTest_eq]
  have hbyte : (memsetBitmap size s).mem ((memsetBitmap size s).sBitmap + i / 8) = 0xFF#8 :=
    if_pos ⟨Nat.le_add_right _ _, Nat.add_lt_add_left h _⟩
  have hones : ∀ k < 8, (0xFF#8).getLsbD k = true := by decide
  rw [hbyte, hones _ (Nat.mod_lt _ (by norm_num))]

/-- All bits of the placed bitmap are set. -/
theorem placedState_used {entries : List LimineMemmapEntry} {host : LimineMemmapEntry} {hhdm : ℕ}
    {mem : ℕ → BitVec 8} {i : ℕ} (h : i < highestLoop entries 0 / pageSize) :
    bitmapTest (placedState entries host hhdm mem) i = true := by
  rw [placedState, bitmapTest_setFreePages]
  apply bitmapTest_memsetBitmap
  unfold bitmapSize
  omega

/-- Setting them wrote the bitmap and nothing else. -/
theorem placedState_stores {entries : List LimineMemmapEntry} {host : LimineMemmapEntry} {hhdm : ℕ}
    {mem : ℕ → BitVec 8} {a : ℕ} (h : a ∈ (placedState entries host hhdm mem).stores) :
    u64 (host.base + hhdm) ≤ a ∧ a < u64 (host.base + hhdm) + bitmapSize entries := by
  change a ∈ (List.range (bitmapSize entries)).map (u64 (host.base + hhdm) + ·) ++ [] at h
  rw [List.append_nil, List.mem_map] at h
  obtain ⟨j, hj, rfl⟩ := h
  exact ⟨Nat.le_add_right _ _, Nat.add_lt_add_left (List.mem_range.mp hj) _⟩

/-- `pmm_init` places the bitmap and then frees the regions of the edited map. -/
theorem pmmInit_eq {entries : List LimineMemmapEntry} (wf : WellFormedMap entries)
    (room : ∃ e ∈ entries, e.Usable ∧ bitmapSize entries ≤ e.length) (hhdm : ℕ)
    (mem : ℕ → BitVec 8) :
    ∃ pre host post, entries = pre ++ host :: post ∧ host.Usable ∧
      bitmapSize entries ≤ host.length ∧
      ∀ fuel, pmmInit fuel (some entries) hhdm (pmmStatic mem) =
        (freeRegions fuel (pre ++ hostEdited (bitmapSize entries) host :: post)
          (placedState entries host hhdm mem)).map fun t =>
            (pre ++ hostEdited (bitmapSize entries) host :: post, t) := by
  obtain ⟨pre, host, post, split, usable, size, call⟩ :=
    placeBitmap_spec wf.aligned wf.fits room (scannedState entries hhdm mem)
  refine ⟨pre, host, post, split, usable, size, fun fuel => ?_⟩
  change ((freeRegions fuel
      (placeBitmap (bitmapSize entries) entries (scannedState entries hhdm mem)).1
      ((placeBitmap (bitmapSize entries) entries (scannedState entries hhdm mem)).2.setFreePages
        0)).bind fun t =>
      some ((placeBitmap (bitmapSize entries) entries (scannedState entries hhdm mem)).1, t)) = _
  rw [call, Option.map_eq_bind]
  rfl

/-- The bitmap lies at the start of its host. -/
theorem bitmapBytes_eq {entries : List LimineMemmapEntry} {host : LimineMemmapEntry} {s : Pmm}
    (total : s.sTotalPages = highestLoop entries 0 / pageSize)
    (bitmap : s.sBitmap = u64 (host.base + s.sHhdm)) (fits : host.base < 2 ^ 64) :
    bitmapBytes s = Set.Ico host.base (host.base + bitmapSize entries) := by
  rw [bitmapBytes, bitmap, total, sub64_u64_add fits, bitmapSize]

section Host

variable {pre post : List LimineMemmapEntry} {host : LimineMemmapEntry} {size : ℕ}

/-- The pages to free are below `s_total_pages`. -/
theorem hostRest_page_lt (wf : WellFormedMap (pre ++ host :: post)) (usable : host.Usable)
    (h : size ≤ host.length) {i : ℕ} (hi : i ∈ regionPages (pre ++ hostRest size host :: post)) :
    i < highestLoop (pre ++ host :: post) 0 / pageSize := by
  obtain ⟨⟨e, he, he', inside⟩, -⟩ := (mem_hostRest_pages wf usable h).mp hi
  exact wf.page_lt he he' inside

/-- The counter cannot wrap over the pages to free. -/
theorem hostRest_pages_small (wf : WellFormedMap (pre ++ host :: post)) (usable : host.Usable)
    (h : size ≤ host.length) :
    (regionPages (pre ++ hostRest size host :: post)).length + 1 < 2 ^ 64 := by
  have hrange : (regionPages (pre ++ hostRest size host :: post)).toFinset ⊆
      Finset.range (highestLoop (pre ++ host :: post) 0 / pageSize) := fun i hi =>
    Finset.mem_range.mpr (hostRest_page_lt wf usable h (List.mem_toFinset.mp hi))
  have hle := Finset.card_le_card hrange
  have htop : highestLoop (pre ++ host :: post) 0 < 2 ^ 64 := highestLoop_lt (by norm_num)
  rw [List.toFinset_card_of_nodup (wf.rest usable h).nodup_regionPages, Finset.card_range] at hle
  unfold pageSize at hle
  omega

/-- The edited map is still aligned. -/
theorem hostEdited_aligned (wf : WellFormedMap (pre ++ host :: post)) (usable : host.Usable)
    (h : size ≤ host.length) :
    ∀ e ∈ pre ++ hostEdited size host :: post, e.Usable → pageSize ∣ e.base ∧ e.base < 2 ^ 64 := by
  intro e he he'
  have rest := wf.rest usable h
  simp only [List.mem_append, List.mem_cons] at he
  -- the host keeps the base it has in the shrunken map
  obtain ⟨f, hf, hf', hbase⟩ : ∃ f ∈ pre ++ hostRest size host :: post, f.Usable ∧
      f.base = e.base := by
    rcases he with he | rfl | he
    · exact ⟨e, by simp [he], he', rfl⟩
    · exact ⟨hostRest size host, by simp, usable, rfl⟩
    · exact ⟨e, by simp [he], he', rfl⟩
  have hfits := rest.fits f hf hf'
  rw [← hbase]
  exact ⟨(rest.aligned f hf hf').1, by omega⟩

/-- A bitmap that does not fill its last page makes the loop visit one page too many. -/
theorem hostEdited_pages (wf : WellFormedMap (pre ++ host :: post)) (usable : host.Usable)
    (h : size ≤ host.length) (partly : size % pageSize ≠ 0) :
    (regionPages (pre ++ hostEdited size host :: post)).length =
      (regionPages (pre ++ hostRest size host :: post)).length + 1 := by
  obtain ⟨hbase, hlength⟩ := wf.aligned host (by simp) usable
  have more := entryPages_hostEdited hbase hlength (wf.fits host (by simp) usable) h partly
  have hedit : (hostEdited size host).Usable := usable
  have hrest : (hostRest size host).Usable := usable
  rw [regionPages_append, regionPages_append, regionPages_cons_of_usable _ hedit,
    regionPages_cons_of_usable _ hrest, List.length_append, List.length_append, List.length_append,
    List.length_append, more]
  omega

end Host

/-- A correct outcome has exactly the pages to free in its free set. -/
theorem InitCorrect.freeSet_eq {pre post : List LimineMemmapEntry} {host : LimineMemmapEntry}
    {size : ℕ} {s : Pmm} (correct : InitCorrect (pre ++ host :: post) s)
    (wf : WellFormedMap (pre ++ host :: post)) (usable : host.Usable) (h : size ≤ host.length)
    (total : s.sTotalPages = highestLoop (pre ++ host :: post) 0 / pageSize)
    (bitmap : bitmapBytes s = Set.Ico host.base (host.base + size)) :
    freeSet s = (regionPages (pre ++ hostRest size host :: post)).toFinset := by
  ext i
  rw [mem_freeSet, List.mem_toFinset]
  constructor
  · rintro ⟨hi, clear⟩
    rw [mem_hostRest_pages wf usable h, ← bitmap]
    exact (correct.free_iff i hi).mp clear
  · intro hi
    have hlt := hostRest_page_lt wf usable h hi
    rw [mem_hostRest_pages wf usable h, ← bitmap] at hi
    exact ⟨total ▸ hlt, (correct.free_iff i (total ▸ hlt)).mpr hi⟩

/-- Freeing the pages of the shrunken map is a correct outcome. -/
theorem initCorrect_freeAll {pre post : List LimineMemmapEntry} {host : LimineMemmapEntry}
    (wf : WellFormedMap (pre ++ host :: post)) (usable : host.Usable)
    (h : bitmapSize (pre ++ host :: post) ≤ host.length) (hhdm : ℕ) (mem : ℕ → BitVec 8)
    {s : Pmm} (result : s = freeAll
      (regionPages (pre ++ hostRest (bitmapSize (pre ++ host :: post)) host :: post))
      (placedState (pre ++ host :: post) host hhdm mem))
    (bitmap : bitmapBytes s =
      Set.Ico host.base (host.base + bitmapSize (pre ++ host :: post))) :
    InitCorrect (pre ++ host :: post) s := by
  have htotal : s.sTotalPages = highestLoop (pre ++ host :: post) 0 / pageSize := by
    rw [result, sTotalPages_freeAll]
    rfl
  have hbitmap : s.sBitmap = u64 (host.base + hhdm) := by
    rw [result, sBitmap_freeAll]
    rfl
  have clear : ∀ i < s.sTotalPages, bitmapTest s i = false ↔
      i ∈ regionPages (pre ++ hostRest (bitmapSize (pre ++ host :: post)) host :: post) := by
    intro i hi
    rw [htotal] at hi
    rw [result, bitmapTest_freeAll, placedState_used hi]
    simp
  refine ⟨fun i hi => ?_, fun a ha => ?_, ?_⟩
  · rw [clear i hi, mem_hostRest_pages wf usable h, bitmap]
  · rw [result] at ha
    rw [htotal, hbitmap]
    rcases stores_freeAll ha with placed | ⟨k, hk, rfl⟩
    · exact placedState_stores placed
    · have hk' := hostRest_page_lt wf usable h hk
      change u64 (host.base + hhdm) ≤ u64 (host.base + hhdm) + k / 8 ∧
        u64 (host.base + hhdm) + k / 8 < _
      omega
  · have free : freeSet s =
        (regionPages
          (pre ++ hostRest (bitmapSize (pre ++ host :: post)) host :: post)).toFinset := by
      ext i
      rw [mem_freeSet, List.mem_toFinset]
      constructor
      · rintro ⟨hi, hclear⟩
        exact (clear i hi).mp hclear
      · intro hi
        have hlt : i < s.sTotalPages := htotal ▸ hostRest_page_lt wf usable h hi
        exact ⟨hlt, (clear i hlt).mpr hi⟩
    have small := hostRest_pages_small wf usable h
    rw [free, List.toFinset_card_of_nodup (wf.rest usable h).nodup_regionPages, result,
      sFreePages_freeAll]
    · exact Nat.zero_add _
    · change 0 + _ < _
      omega

/-- `pmm_init` frees exactly the usable memory if and only if the bitmap fills its last page. -/
theorem pmmInit_correct_iff {entries : List LimineMemmapEntry} (wf : WellFormedMap entries)
    (room : ∃ e ∈ entries, e.Usable ∧ bitmapSize entries ≤ e.length) (hhdm : ℕ)
    (mem : ℕ → BitVec 8) :
    (∃ fuel r s, pmmInit fuel (some entries) hhdm (pmmStatic mem) = some (r, s) ∧
      InitCorrect entries s) ↔ bitmapSize entries % pageSize = 0 := by
  obtain ⟨pre, host, post, split, usable, size, call⟩ := pmmInit_eq wf room hhdm mem
  subst split
  have rest := wf.rest usable size
  have small := hostRest_pages_small wf usable size
  have hfits := wf.fits host (by simp) usable
  have bitmap : ∀ pages, bitmapBytes (freeAll pages
      (placedState (pre ++ host :: post) host hhdm mem)) =
        Set.Ico host.base (host.base + bitmapSize (pre ++ host :: post)) := fun pages =>
    bitmapBytes_eq (by rw [sTotalPages_freeAll]; rfl)
      (by rw [sBitmap_freeAll, sHhdm_freeAll]; rfl) (by omega)
  constructor
  · rintro ⟨fuel, r, s, init, correct⟩
    by_contra partly
    rw [call fuel, Option.map_eq_some_iff] at init
    obtain ⟨t, done, heq⟩ := init
    obtain rfl : t = s := (Prod.ext_iff.mp heq).2
    have more := hostEdited_pages wf usable size partly
    obtain rfl := freeRegions_eq (hostEdited_aligned wf usable size) done
    -- the counter has one page more than the set it should count
    have free := correct.freeSet_eq wf usable size (sTotalPages_freeAll _ _) (bitmap _)
    have count := correct.count
    rw [free, List.toFinset_card_of_nodup rest.nodup_regionPages, sFreePages_freeAll, more] at count
    · change 0 + _ = _ at count
      omega
    · change 0 + _ < _
      omega
  · intro whole
    have edited : hostEdited (bitmapSize (pre ++ host :: post)) host =
        hostRest (bitmapSize (pre ++ host :: post)) host := by
      rw [hostEdited, hostRest, reserved_eq_iff.mpr whole]
    rw [edited] at call
    have aligned := hostEdited_aligned wf usable size
    rw [edited] at aligned
    obtain ⟨s, done⟩ := Option.isSome_iff_exists.mp (rest.freeRegions_ends
      (placedState (pre ++ host :: post) host hhdm mem))
    refine ⟨2 ^ 64 + 1, _, s, by rw [call, done]; rfl, ?_⟩
    obtain rfl := freeRegions_eq aligned done
    exact initCorrect_freeAll wf usable size hhdm mem rfl (bitmap _)

/-- 128 MiB less page 0, which need a bitmap of exactly one page. -/
def wholeMap : List LimineMemmapEntry := [⟨0x1000, 0x7FFF000, limineMemmapUsable⟩]

/-- A map that `pmm_init` gets right. -/
theorem pmmInit_wholeMap : ∃ fuel r s,
    pmmInit fuel (some wholeMap) 0 (pmmStatic fun _ => 0) = some (r, s) ∧
      InitCorrect wholeMap s := by
  have wf : WellFormedMap wholeMap := by
    refine ⟨?_, ?_, List.pairwise_singleton _ _, ?_⟩ <;>
      simp [wholeMap, pageSize, LimineMemmapEntry.bytes]
  exact (pmmInit_correct_iff wf (by decide +kernel) 0 fun _ => 0).mpr (by decide +kernel)

/-- Two usable regions with the tables of the firmware between them. -/
def acpiMap : List LimineMemmapEntry :=
  [⟨0x1000, 0x2000, limineMemmapUsable⟩, ⟨0x3000, 0x1000, 2⟩, ⟨0x4000, 0x1000, limineMemmapUsable⟩]

/-- `pmm_init` marks the page of the firmware tables free. -/
theorem pmmInit_frees_acpi : WellFormedMap acpiMap ∧
    (∃ e ∈ acpiMap, e.Usable ∧ bitmapSize acpiMap ≤ e.length) ∧
    ∃ r s, pmmInit 8 (some acpiMap) 0 (pmmStatic fun _ => 0) = some (r, s) ∧
      bitmapTest s 3 = false ∧ ¬ InitCorrect acpiMap s := by
  refine ⟨⟨?_, ?_, ?_, ?_⟩, by decide +kernel, ?_⟩
  · simp [acpiMap, LimineMemmapEntry.Usable, limineMemmapUsable, pageSize]
  · simp [acpiMap, LimineMemmapEntry.Usable, limineMemmapUsable]
  · simp [acpiMap, LimineMemmapEntry.Usable, limineMemmapUsable, LimineMemmapEntry.bytes]
  · simp [acpiMap, LimineMemmapEntry.Usable, limineMemmapUsable, LimineMemmapEntry.bytes]
  · have outcome : (pmmInit 8 (some acpiMap) 0 (pmmStatic fun _ => 0)).map
        (fun x => (x.2.sTotalPages, bitmapTest x.2 3)) = some (5, false) := by decide +kernel
    obtain ⟨⟨r, s⟩, init, facts⟩ := Option.map_eq_some_iff.mp outcome
    obtain ⟨total, clear⟩ := Prod.ext_iff.mp facts
    refine ⟨r, s, init, clear, fun correct => ?_⟩
    change s.sTotalPages = 5 at total
    obtain ⟨⟨e, he, usable, inside⟩, -⟩ := (correct.free_iff 3 (by omega)).mp clear
    have first := inside (mem_pageBytes 3)
    simp only [acpiMap, List.mem_cons, List.not_mem_nil, or_false] at he
    rcases he with rfl | rfl | rfl
    · simp [LimineMemmapEntry.bytes, pageSize] at first
    · simp [LimineMemmapEntry.Usable, limineMemmapUsable] at usable
    · simp [LimineMemmapEntry.bytes, pageSize] at first

end ChefOs
