import ChefOs.Lib.Word

/-!
# The physical page allocator

`mm/pmm.c` over a memory of bytes.  The bitmap lies in memory behind `s_bitmap`: bit `i % 8` of the
byte `s_bitmap[i / 8]` is set when page `i` is in use.  `stores` records the addresses written
through `s_bitmap`; nothing reads it.
-/

namespace ChefOs

open Kit

/-- `PAGE_SIZE`. -/
def pageSize : ℕ := 4096

theorem pageSize_pos : 0 < pageSize := Nat.succ_pos _

/-- `LIMINE_MEMMAP_USABLE`. -/
def limineMemmapUsable : ℕ := 0

/-- `struct limine_memmap_entry`. -/
structure LimineMemmapEntry where
  base : ℕ
  length : ℕ
  type : ℕ
deriving DecidableEq, Repr

/-- The static variables of `pmm.c` and the memory they point into.  `s_total_pages` is only ever
`s_highest_addr / PAGE_SIZE`, so every page has a 64-bit address. -/
structure Pmm where
  mem : ℕ → BitVec 8
  stores : List ℕ
  sBitmap : ℕ
  sTotalPages : ℕ
  sFreePages : ℕ
  sHighestAddr : ℕ
  sHhdm : ℕ
  pagesFit : sTotalPages * pageSize < 2 ^ 64
  highestFits : sHighestAddr < 2 ^ 64

/-- `s_bitmap[offset] = v`. -/
def Pmm.store (s : Pmm) (offset : ℕ) (v : BitVec 8) : Pmm :=
  { s with
    mem := Function.update s.mem (s.sBitmap + offset) v
    stores := (s.sBitmap + offset) :: s.stores }

/-- `s_free_pages = n`. -/
def Pmm.setFreePages (s : Pmm) (n : ℕ) : Pmm := { s with sFreePages := n }

/-- `bitmap_set`. -/
def bitmapSet (bit : ℕ) (s : Pmm) : Pmm :=
  s.store (bit / 8) (s.mem (s.sBitmap + bit / 8) ||| (1#8 <<< (bit % 8)))

/-- `bitmap_clear`. -/
def bitmapClear (bit : ℕ) (s : Pmm) : Pmm :=
  s.store (bit / 8) (s.mem (s.sBitmap + bit / 8) &&& ~~~(1#8 <<< (bit % 8)))

/-- `bitmap_test`. -/
def bitmapTest (s : Pmm) (bit : ℕ) : Bool :=
  ((s.mem (s.sBitmap + bit / 8) >>> (bit % 8)) &&& 1#8) != 0#8

/-! ## `pmm_init` -/

/-- "Find highest address". -/
def highestLoop : List LimineMemmapEntry → ℕ → ℕ
  | [], highest => highest
  | entry :: entries, highest =>
    if entry.type = limineMemmapUsable then
      let top := u64 (entry.base + entry.length)
      highestLoop entries (if top > highest then top else highest)
    else highestLoop entries highest

/-- `memset(s_bitmap, 0xFF, size)`. -/
def memsetBitmap (size : ℕ) (s : Pmm) : Pmm :=
  { s with
    mem := fun a => if s.sBitmap ≤ a ∧ a < s.sBitmap + size then 0xFF#8 else s.mem a
    stores := (List.range size).map (s.sBitmap + ·) ++ s.stores }

/-- "Find usable region for bitmap": the first usable entry that is long enough hosts the bitmap
and is edited in place. -/
def placeBitmap (bitmapSize : ℕ) : List LimineMemmapEntry → Pmm → List LimineMemmapEntry × Pmm
  | [], s => ([], s)
  | entry :: entries, s =>
    if entry.type = limineMemmapUsable ∧ bitmapSize ≤ entry.length then
      let s := memsetBitmap bitmapSize { s with sBitmap := u64 (entry.base + s.sHhdm) }
      let base := u64 (entry.base + (u64 (bitmapSize + pageSize - 1) &&& not64 (pageSize - 1)))
      let length := sub64 entry.length bitmapSize
      (⟨base, length, entry.type⟩ :: entries, s)
    else
      let r := placeBitmap bitmapSize entries s
      (entry :: r.1, r.2)

/-- The inner loop of "Free usable memory regions", from `addr` to `stop`; `none` when it does not
end within the fuel. -/
def freeRegion (stop : ℕ) : ℕ → ℕ → Pmm → Option Pmm
  | 0, _, _ => none
  | fuel + 1, addr, s =>
    if addr < stop then
      let s := bitmapClear (addr / pageSize) s
      freeRegion stop fuel (u64 (addr + pageSize)) (s.setFreePages (u64 (s.sFreePages + 1)))
    else some s

/-- "Free usable memory regions". -/
def freeRegions (fuel : ℕ) : List LimineMemmapEntry → Pmm → Option Pmm
  | [], s => some s
  | entry :: entries, s =>
    if entry.type = limineMemmapUsable then do
      let s ← freeRegion (u64 (entry.base + entry.length)) fuel entry.base s
      freeRegions fuel entries s
    else freeRegions fuel entries s

theorem highestLoop_lt {entries : List LimineMemmapEntry} {highest : ℕ} (h : highest < 2 ^ 64) :
    highestLoop entries highest < 2 ^ 64 := by
  induction entries generalizing highest with
  | nil => exact h
  | cons entry entries ih =>
    rw [highestLoop]
    split
    · apply ih
      split
      · exact u64_lt _
      · exact h
    · exact ih h

theorem pages_fit {highest : ℕ} (h : highest < 2 ^ 64) :
    highest / pageSize * pageSize < 2 ^ 64 :=
  (Nat.div_mul_le_self _ _).trans_lt h

/-- `pmm_init`.  Returns the memory map as edited and the state; a `NULL` response only records the
direct map offset. -/
def pmmInit (fuel : ℕ) (memmapResponse : Option (List LimineMemmapEntry)) (hhdmOffset : ℕ)
    (s : Pmm) : Option (List LimineMemmapEntry × Pmm) :=
  let s := { s with sHhdm := hhdmOffset }
  match memmapResponse with
  | none => some ([], s)
  | some entries => do
    let highest := highestLoop entries s.sHighestAddr
    have bound : highestLoop entries s.sHighestAddr < 2 ^ 64 := highestLoop_lt s.highestFits
    let s := { s with
      sHighestAddr := highest
      highestFits := bound
      sTotalPages := highest / pageSize
      pagesFit := pages_fit bound }
    let bitmapSize := (s.sTotalPages + 7) / 8
    let r := placeBitmap bitmapSize entries s
    let s ← freeRegions fuel r.1 (r.2.setFreePages 0)
    return (r.1, s)

/-! ## Allocation -/

/-- The scan of `pmm_alloc_page`, over the `n` pages from `i` on. -/
def allocPageLoop : ℕ → ℕ → Pmm → Pmm × ℕ
  | 0, _, s => (s, 0)
  | n + 1, i, s =>
    if bitmapTest s i = false then
      let s := bitmapSet i s
      (s.setFreePages (sub64 s.sFreePages 1), u64 (i * pageSize))
    else allocPageLoop n (i + 1) s

/-- `pmm_alloc_page`. -/
def pmmAllocPage (s : Pmm) : Pmm × ℕ := allocPageLoop s.sTotalPages 0 s

/-- The loop of `pmm_alloc_pages` that marks the `n` pages from `j` on used. -/
def setRange : ℕ → ℕ → Pmm → Pmm
  | 0, _, s => s
  | n + 1, j, s => setRange n (j + 1) (bitmapSet j s)

/-- The scan of `pmm_alloc_pages`, over the `n` pages from `i` on. -/
def allocPagesLoop (count : ℕ) : ℕ → ℕ → ℕ → ℕ → Pmm → Pmm × ℕ
  | 0, _, _, _, s => (s, 0)
  | n + 1, i, consecutive, startPage, s =>
    if bitmapTest s i = false then
      let startPage := if consecutive = 0 then i else startPage
      let consecutive := consecutive + 1
      if consecutive = count then
        let s := setRange count startPage s
        (s.setFreePages (sub64 s.sFreePages count), u64 (startPage * pageSize))
      else allocPagesLoop count n (i + 1) consecutive startPage s
    else allocPagesLoop count n (i + 1) 0 startPage s

/-- `pmm_alloc_pages`. -/
def pmmAllocPages (count : ℕ) (s : Pmm) : Pmm × ℕ :=
  allocPagesLoop count s.sTotalPages 0 0 0 s

/-! ## Release -/

/-- Clear a bit and count its page free. -/
def freeBit (page : ℕ) (s : Pmm) : Pmm :=
  let s := bitmapClear page s
  s.setFreePages (u64 (s.sFreePages + 1))

/-- `pmm_free_page`. -/
def pmmFreePage (ptr : ℕ) (s : Pmm) : Pmm :=
  let page := ptr / pageSize
  if page < s.sTotalPages ∧ bitmapTest s page = true then freeBit page s else s

/-- The loop of `pmm_free_pages`, over the `n` indices from `i` on. -/
def freePagesLoop (startPage : ℕ) : ℕ → ℕ → Pmm → Pmm
  | 0, _, s => s
  | n + 1, i, s =>
    let page := u64 (startPage + i)
    freePagesLoop startPage n (i + 1) (if bitmapTest s page = true then freeBit page s else s)

/-- `pmm_free_pages`. -/
def pmmFreePages (ptr count : ℕ) (s : Pmm) : Pmm := freePagesLoop (ptr / pageSize) count 0 s

/-- `pmm_get_free_memory`. -/
def pmmGetFreeMemory (s : Pmm) : ℕ := u64 (s.sFreePages * pageSize)

/-- `pmm_get_total_memory`. -/
def pmmGetTotalMemory (s : Pmm) : ℕ := u64 (s.sTotalPages * pageSize)

/-! ## Bits of the bitmap -/

@[simp] theorem bitmapTest_setFreePages (s : Pmm) (n i : ℕ) :
    bitmapTest (s.setFreePages n) i = bitmapTest s i := rfl

@[simp] theorem sTotalPages_setFreePages (s : Pmm) (n : ℕ) :
    (s.setFreePages n).sTotalPages = s.sTotalPages := rfl

@[simp] theorem sFreePages_setFreePages (s : Pmm) (n : ℕ) :
    (s.setFreePages n).sFreePages = n := rfl

@[simp] theorem sTotalPages_bitmapSet (s : Pmm) (i : ℕ) :
    (bitmapSet i s).sTotalPages = s.sTotalPages := rfl

@[simp] theorem sFreePages_bitmapSet (s : Pmm) (i : ℕ) :
    (bitmapSet i s).sFreePages = s.sFreePages := rfl

@[simp] theorem sTotalPages_bitmapClear (s : Pmm) (i : ℕ) :
    (bitmapClear i s).sTotalPages = s.sTotalPages := rfl

@[simp] theorem sFreePages_bitmapClear (s : Pmm) (i : ℕ) :
    (bitmapClear i s).sFreePages = s.sFreePages := rfl

theorem bitmapTest_eq (s : Pmm) (i : ℕ) :
    bitmapTest s i = (s.mem (s.sBitmap + i / 8)).getLsbD (i % 8) := by
  have bit : ∀ x : BitVec 8, ((x &&& 1#8) != 0#8) = x.getLsbD 0 := by decide
  rw [bitmapTest, bit, BitVec.getLsbD_ushiftRight]
  rfl

/-- The mask `1 << (i % 8)` has exactly bit `i % 8`. -/
theorem getLsbD_mask (i j : ℕ) :
    (1#8 <<< (i % 8)).getLsbD (j % 8) = decide (i % 8 = j % 8) := by
  have hj : j % 8 < 8 := Nat.mod_lt _ (by norm_num)
  rw [BitVec.getLsbD_shiftLeft, BitVec.getLsbD_one, Bool.eq_iff_iff]
  simp only [hj, decide_true, Bool.true_and, Bool.and_eq_true, Bool.not_eq_true',
    decide_eq_true_eq, decide_eq_false_iff_not]
  omega

theorem bitmapTest_store (s : Pmm) (i j : ℕ) (v : BitVec 8) :
    bitmapTest (s.store (i / 8) v) j =
      if i / 8 = j / 8 then v.getLsbD (j % 8) else bitmapTest s j := by
  rw [bitmapTest_eq, bitmapTest_eq]
  simp only [Pmm.store, Function.update_apply, Nat.add_left_cancel_iff, eq_comm (a := j / 8)]
  split_ifs <;> rfl

/-- `bitmap_set` sets its bit and no other. -/
@[simp] theorem bitmapTest_bitmapSet (s : Pmm) (i j : ℕ) :
    bitmapTest (bitmapSet i s) j = (decide (i = j) || bitmapTest s j) := by
  rw [bitmapSet, bitmapTest_store]
  split_ifs with byte
  · rw [BitVec.getLsbD_or, getLsbD_mask, bitmapTest_eq, byte, Bool.or_comm]
    congr 1
    exact decide_eq_decide.mpr (by omega)
  · have : i ≠ j := fun h => byte (by rw [h])
    simp [this]

/-- `bitmap_clear` clears its bit and no other. -/
@[simp] theorem bitmapTest_bitmapClear (s : Pmm) (i j : ℕ) :
    bitmapTest (bitmapClear i s) j = (!decide (i = j) && bitmapTest s j) := by
  rw [bitmapClear, bitmapTest_store]
  split_ifs with byte
  · rw [BitVec.getLsbD_and, BitVec.getLsbD_not, getLsbD_mask, bitmapTest_eq, byte, Bool.and_comm]
    simp only [Nat.mod_lt j (by norm_num : 0 < 8), decide_true, Bool.true_and]
    congr 2
    exact decide_eq_decide.mpr (by omega)
  · have : i ≠ j := fun h => byte (by rw [h])
    simp [this]

end ChefOs
