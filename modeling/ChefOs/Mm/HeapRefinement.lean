import ChefOs.Lib.Arena
import ChefOs.Mm.Heap

/-!
# The heap's block list refines an arena

The list of headers reached from `s_head` through `next` (`BlockList`) is an arena tiling the heap
region.  On such a list `kmalloc` computes first fit with splitting and `kfree` the release with
merging, and neither changes a word outside the headers it rewrites.
-/

namespace ChefOs

open Kit Kit.Arena

/-- Following `next` from `p` visits the headers of `bs` in order and then reaches `NULL`. -/
def BlockList (s : Heap) : ℕ → List Block → Prop
  | p, [] => p = 0
  | p, b :: bs => p ≠ 0 ∧ b = ⟨p, s.size p, s.isFree p⟩ ∧ BlockList s (s.next p) bs

/-! ## Reading after writing -/

theorem Heap.mem_store (s : Heap) (a v x : ℕ) :
    (s.store a v).mem x = if x = a then v else s.mem x := Function.update_apply _ _ _ _

/-- The three fields of a header read only its own three words. -/
theorem Heap.fields_congr {s t : Heap} {b : ℕ} (size : t.mem b = s.mem b)
    (isFree : t.mem (b + 8) = s.mem (b + 8)) (next : t.mem (b + 16) = s.mem (b + 16)) :
    t.size b = s.size b ∧ t.isFree b = s.isFree b ∧ t.next b = s.next b := by
  simp only [Heap.size, Heap.isFree, Heap.next, size, isFree, next, and_self]

/-- A block list only depends on the words of its headers. -/
theorem BlockList.transport {s t : Heap} {p : ℕ} {bs : List Block} (h : BlockList s p bs)
    (same : ∀ b ∈ bs, ∀ k ≤ 16, t.mem (b.addr + k) = s.mem (b.addr + k)) : BlockList t p bs := by
  induction bs generalizing p with
  | nil => exact h
  | cons b bs ih =>
    obtain ⟨nonzero, hb, rest⟩ := h
    have haddr : b.addr = p := by rw [hb]
    have here := same b (by simp)
    rw [haddr] at here
    obtain ⟨hsize, hfree, hnext⟩ : t.size p = s.size p ∧ t.isFree p = s.isFree p ∧
        t.next p = s.next p :=
      Heap.fields_congr (here 0 (by omega)) (here 8 (by omega)) (here 16 (by omega))
    refine ⟨nonzero, by rw [hsize, hfree]; exact hb, ?_⟩
    rw [hnext]
    exact ih rest fun c hc => same c (List.mem_cons_of_mem _ hc)

/-- A pointer to a non-empty tiled list is the address the tiling starts at. -/
theorem BlockList.start {s : Heap} {p a stop : ℕ} {b : Block} {bs : List Block}
    (h : BlockList s p (b :: bs)) (tiles : Tiles headerSize a (b :: bs) stop) : p = a := by
  have haddr : b.addr = p := by rw [h.2.1]
  exact haddr.symm.trans tiles.1

/-- The walk determines the list. -/
theorem BlockList.unique {s : Heap} {p : ℕ} {bs cs : List Block} (hb : BlockList s p bs)
    (hc : BlockList s p cs) : bs = cs := by
  induction bs generalizing p cs with
  | nil =>
    cases cs with
    | nil => rfl
    | cons c cs => exact absurd hb hc.1
  | cons b bs ih =>
    cases cs with
    | nil => exact absurd hc hb.1
    | cons c cs => rw [hb.2.1, hc.2.1, ih hb.2.2 hc.2.2]

/-! ## `kmalloc` -/

theorem alignSize_spec (n : ℕ) : 8 ∣ alignSize n ∧ alignSize n < 2 ^ 64 := by
  have h : alignSize n = u64 (n + 7) / 8 * 8 := and_not64 (k := 3) (u64_lt _) (by norm_num)
  have := u64_lt (n + 7)
  exact ⟨by omega, by omega⟩

/-- The rounded size, unless it wraps. -/
theorem alignSize_eq {n : ℕ} (fits : n ≤ 2 ^ 64 - 8) : alignSize n = (n + 7) / 8 * 8 :=
  roundUp_mask (k := 3) (by norm_num) (by omega)

/-- The rounded size is no smaller, unless it wraps. -/
theorem le_alignSize {n : ℕ} (fits : n ≤ 2 ^ 64 - 8) : n ≤ alignSize n := by
  rw [alignSize_eq fits]
  omega

/-- A request in the last seven bytes of `size_t` is rounded to zero. -/
theorem alignSize_wraps {n : ℕ} (large : 2 ^ 64 - 8 < n) (word : n < 2 ^ 64) :
    alignSize n = 0 := by
  have wraps : u64 (n + 7) < 8 := by
    unfold u64
    omega
  have rounded : alignSize n = u64 (n + 7) / 8 * 8 := and_not64 (k := 3) (u64_lt _) (by norm_num)
  omega

/-- The six stores of a split, when the new header lies behind the old one. -/
theorem mem_splitBlock {s : Heap} {p size : ℕ} (fits : size + headerSize ≤ s.size p)
    (small : p + s.size p < 2 ^ 64) (x : ℕ) :
    (splitBlock size p s).mem x =
      if x = p + 16 then p + headerSize + size else if x = p + 8 then 0 else if x = p then size
      else if x = p + headerSize + size + 16 then s.next p
      else if x = p + headerSize + size + 8 then 1
      else if x = p + headerSize + size then s.size p - size - headerSize else s.mem x := by
  have hh : headerSize = 24 := rfl
  have hnew : u64 (p + headerSize + size) = p + headerSize + size := u64_of_lt (by omega)
  have hpay : sub64 (s.size p) size = s.size p - size := sub64_of_le (by omega) (by omega)
  have hrest : sub64 (sub64 (s.size p) size) headerSize = s.size p - size - headerSize := by
    rw [hpay, sub64_of_le (by omega) (by omega)]
  have hnext : (((s.setSize (p + headerSize + size) (s.size p - size - headerSize)).setIsFree
      (p + headerSize + size) true).next p) = s.next p := by
    simp only [Heap.next, Heap.setIsFree, Heap.setSize, Heap.mem_store]
    rw [if_neg (by omega), if_neg (by omega)]
  simp only [splitBlock, hnew, hrest, hnext]
  simp only [Heap.setNext, Heap.setIsFree, Heap.setSize, Heap.mem_store]
  rfl

/-- A split leaves the taken block and the left-over block in front of the rest of the list. -/
theorem blockList_splitBlock {s : Heap} {p a stop size : ℕ} {b : Block} {bs : List Block}
    (list : BlockList s p (b :: bs)) (tiles : Tiles headerSize a (b :: bs) stop)
    (region : stop < 2 ^ 64) (fits : size + headerSize ≤ b.size) :
    BlockList (splitBlock size p s) p
      (⟨p, size, false⟩ :: ⟨p + headerSize + size, b.size - size - headerSize, true⟩ :: bs) := by
  have hh : headerSize = 24 := rfl
  have hpa : p = a := list.start tiles
  have hinside := tiles.2.le
  obtain ⟨nonzero, hb, rest⟩ := list
  have hsize : b.size = s.size p := by rw [hb]
  have mem := mem_splitBlock (s := s) (p := p) (by omega : size + headerSize ≤ _) (by omega)
  rw [hsize] at fits ⊢
  rw [hh] at fits mem ⊢
  generalize splitBlock size p s = t at mem
  have first : t.size p = size ∧ t.isFree p = false ∧ t.next p = p + 24 + size := by
    simp [Heap.size, Heap.isFree, Heap.next, mem]
  have second : t.size (p + 24 + size) = s.size p - size - 24 ∧
      t.isFree (p + 24 + size) = true ∧ t.next (p + 24 + size) = s.next p := by
    have bit : t.mem (p + 24 + size + 8) = 1 := by
      rw [mem]
      split_ifs <;> omega
    refine ⟨?_, by simp [Heap.isFree, bit], ?_⟩
    · rw [Heap.size, mem]
      split_ifs <;> omega
    · rw [Heap.next, mem]
      split_ifs <;> omega
  refine ⟨nonzero, by rw [first.1, first.2.1], ?_⟩
  rw [first.2.2]
  refine ⟨by omega, by rw [second.1, second.2.1], ?_⟩
  rw [second.2.2]
  apply rest.transport
  intro c hc k hk
  have := (tiles.2.bounds hc).1
  rw [mem]
  split_ifs <;> omega

/-- Clearing `is_free` of the head of a list. -/
theorem blockList_setIsFree {s : Heap} {p a stop : ℕ} {v : Bool} {b : Block} {bs : List Block}
    (h : BlockList s p (b :: bs)) (tiles : Tiles headerSize a (b :: bs) stop) :
    BlockList (s.setIsFree p v) p (⟨b.addr, b.size, v⟩ :: bs) := by
  obtain ⟨nonzero, hb, rest⟩ := h
  have haddr : b.addr = p := by rw [hb]
  have hsize : b.size = s.size p := by rw [hb]
  have fields : (s.setIsFree p v).size p = s.size p ∧ (s.setIsFree p v).isFree p = v ∧
      (s.setIsFree p v).next p = s.next p := by
    refine ⟨?_, ?_, ?_⟩
    · simp [Heap.size, Heap.setIsFree, Heap.mem_store]
    · cases v <;> simp [Heap.isFree, Heap.setIsFree, Heap.mem_store]
    · simp [Heap.next, Heap.setIsFree, Heap.mem_store]
  refine ⟨nonzero, by rw [fields.1, fields.2.1, haddr, hsize], ?_⟩
  rw [fields.2.2]
  apply rest.transport
  intro c hc k hk
  have := (tiles.2.bounds hc).1
  have : b.addr = a := tiles.1
  have hh : headerSize = 24 := rfl
  rw [Heap.setIsFree, Heap.mem_store, if_neg (by omega)]

/-- The words an operation on the list from `a` leaves alone: those before it and those in the
payload of a used block. -/
def Kept (a : ℕ) (bs : List Block) (x : ℕ) : Prop :=
  x < a ∨ ∃ b ∈ used bs, b.addr + headerSize ≤ x ∧ x < b.addr + headerSize + b.size

theorem Kept.tail {a x stop : ℕ} {b : Block} {bs : List Block} (h : Kept a (b :: bs) x)
    (tiles : Tiles headerSize a (b :: bs) stop) : Kept (a + headerSize + b.size) bs x := by
  have haddr := tiles.1
  rcases h with h | ⟨c, hc, hx⟩
  · exact Or.inl (by omega)
  · obtain ⟨hc, used⟩ := mem_used.mp hc
    rcases List.mem_cons.mp hc with rfl | hc
    · exact Or.inl (by omega)
    · exact Or.inr ⟨c, mem_used.mpr ⟨hc, used⟩, hx⟩

/-- A kept word is not in the extent of the free head. -/
theorem Kept.outside {a x stop : ℕ} {b : Block} {bs : List Block} (h : Kept a (b :: bs) x)
    (tiles : Tiles headerSize a (b :: bs) stop) (free : b.free = true) :
    x < a ∨ a + headerSize + b.size ≤ x := by
  rcases h with h | ⟨c, hc, hx⟩
  · exact Or.inl h
  · rw [used_cons_free free] at hc
    have := (tiles.2.bounds (mem_used.mp hc).1).1
    exact Or.inr (by omega)

/-- Merging two free blocks keeps the same words. -/
theorem Kept.merged {a x size : ℕ} {b c : Block} {bs : List Block} (h : Kept a (b :: c :: bs) x)
    (free : b.free = true) (free' : c.free = true) : Kept a (⟨b.addr, size, b.free⟩ :: bs) x := by
  rcases h with h | ⟨d, hd, hx⟩
  · exact Or.inl h
  · rw [used_cons_free free, used_cons_free free'] at hd
    exact Or.inr ⟨d, by rwa [used_cons_free (by exact free)], hx⟩

/-- The loop of `kmalloc` on a list without a fitting block changes nothing. -/
theorem kmallocLoop_none {s : Heap} {p fuel size : ℕ} {bs : List Block} (list : BlockList s p bs)
    (enough : bs.length < fuel) (fails : alloc headerSize 32 size bs = none) :
    kmallocLoop size fuel p s = some (s, 0) := by
  induction bs generalizing p fuel with
  | nil =>
    obtain ⟨fuel, rfl⟩ : ∃ n, fuel = n + 1 := ⟨fuel - 1, by simp at enough; omega⟩
    rw [kmallocLoop, if_pos (show p = 0 from list)]
  | cons b bs ih =>
    obtain ⟨fuel, rfl⟩ : ∃ n, fuel = n + 1 := ⟨fuel - 1, by simp at enough; omega⟩
    obtain ⟨nonzero, hb, rest⟩ := list
    have hnone := alloc_none.mp fails
    have hhead : ¬ (s.isFree p = true ∧ size ≤ s.size p) := by
      have := hnone b (by simp)
      rwa [hb] at this
    rw [kmallocLoop, if_neg nonzero, if_neg hhead]
    refine ih rest (by simpa using enough) (alloc_none.mpr fun c hc => ?_)
    exact hnone c (List.mem_cons_of_mem _ hc)

/-- The loop of `kmalloc` computes first fit. -/
theorem kmallocLoop_some {s : Heap} {p q a stop fuel size : ℕ} {bs bs' : List Block}
    (list : BlockList s p bs) (tiles : Tiles headerSize a bs stop) (region : stop < 2 ^ 64)
    (small : stop ≤ a + initialPages * pageSize) (enough : bs.length < fuel)
    (done : alloc headerSize 32 size bs = some (bs', q)) :
    ∃ t, kmallocLoop size fuel p s = some (t, q) ∧ BlockList t p bs' ∧ t.sHead = s.sHead ∧
      ∀ x, Kept a bs x → t.mem x = s.mem x := by
  have hh : headerSize = 24 := rfl
  have hbytes : initialPages * pageSize = 33554432 := rfl
  induction bs generalizing p a fuel bs' with
  | nil => simp [alloc] at done
  | cons b bs ih =>
    obtain ⟨fuel, rfl⟩ : ∃ n, fuel = n + 1 := ⟨fuel - 1, by simp at enough; omega⟩
    have hpa : p = a := list.start tiles
    have haddr : b.addr = a := tiles.1
    have hinside := tiles.2.le
    obtain ⟨nonzero, hb, rest⟩ := id list
    have hsize : s.size p = b.size := by rw [hb]
    have hfree : s.isFree p = b.free := by rw [hb]
    rw [kmallocLoop, if_neg nonzero, hsize, hfree]
    rw [alloc] at done
    split_ifs at done with fits
    · rw [if_pos fits]
      simp only [Option.some.injEq, Prod.mk.injEq] at done
      obtain ⟨rfl, rfl⟩ := done
      have hq : u64 (p + headerSize) = b.addr + headerSize := by
        rw [u64_of_lt (by omega)]
        omega
      have hneed : u64 (size + headerSize + 32) = size + headerSize + 32 :=
        u64_of_lt (by omega)
      rw [hq, hneed, carve]
      split_ifs with split
      · refine ⟨_, rfl, ?_, rfl, fun x hx => ?_⟩
        · rw [haddr, ← hpa]
          exact blockList_splitBlock list tiles region (by omega)
        · have := hx.outside tiles fits.1
          rw [mem_splitBlock (by omega) (by omega)]
          split_ifs <;> omega
      · refine ⟨_, rfl, ?_, rfl, fun x hx => ?_⟩
        · have := blockList_setIsFree (v := false) list tiles
          simpa [haddr] using this
        · have := hx.outside tiles fits.1
          rw [Heap.setIsFree, Heap.mem_store, if_neg (by omega)]
    · rw [if_neg fits]
      simp only [Option.map_eq_some_iff, Prod.mk.injEq] at done
      obtain ⟨⟨cs, q'⟩, hr, rfl, rfl⟩ := done
      obtain ⟨t, run, ht, hhead, kept⟩ :=
        ih rest tiles.2 (by omega) (by simpa using enough) hr
      refine ⟨t, run, ?_, hhead, fun x hx => kept x (hx.tail tiles)⟩
      obtain ⟨tsize, tfree, tnext⟩ : t.size p = s.size p ∧ t.isFree p = s.isFree p ∧
          t.next p = s.next p := by
        refine Heap.fields_congr (kept _ (Or.inl ?_)) (kept _ (Or.inl ?_)) (kept _ (Or.inl ?_)) <;>
          omega
      exact ⟨nonzero, by rw [tsize, tfree]; exact hb, by rw [tnext]; exact ht⟩

/-- `kmalloc` when no free block fits: `NULL`, and nothing changes. -/
theorem kmalloc_none {s : Heap} {fuel n : ℕ} {bs : List Block} (list : BlockList s s.sHead bs)
    (enough : bs.length < fuel) (fails : alloc headerSize 32 (alignSize n) bs = none) :
    kmalloc fuel n s = some (s, 0) :=
  kmallocLoop_none list enough fails

/-- `kmalloc` when some free block fits. -/
theorem kmalloc_some {s : Heap} {q a stop fuel n : ℕ} {bs bs' : List Block}
    (list : BlockList s s.sHead bs) (tiles : Tiles headerSize a bs stop) (region : stop < 2 ^ 64)
    (small : stop ≤ a + initialPages * pageSize) (enough : bs.length < fuel)
    (done : alloc headerSize 32 (alignSize n) bs = some (bs', q)) :
    ∃ t, kmalloc fuel n s = some (t, q) ∧ BlockList t t.sHead bs' ∧ t.sHead = s.sHead ∧
      ∀ x, Kept a bs x → t.mem x = s.mem x := by
  obtain ⟨t, run, ht, head, kept⟩ := kmallocLoop_some list tiles region small enough done
  exact ⟨t, run, head ▸ ht, head, kept⟩

/-! ## `kfree` -/

/-- Merging the next block in: the head grows over it and the list loses one header. -/
theorem blockList_absorbNext {s : Heap} {p a stop : ℕ} {b c : Block} {bs : List Block}
    (list : BlockList s p (b :: c :: bs)) (tiles : Tiles headerSize a (b :: c :: bs) stop)
    (region : stop < 2 ^ 64) :
    BlockList (absorbNext p s) p (⟨b.addr, b.size + (headerSize + c.size), b.free⟩ :: bs) ∧
      ∀ x, x ≠ p → x ≠ p + 16 → (absorbNext p s).mem x = s.mem x := by
  have hh : headerSize = 24 := rfl
  have hpa : p = a := list.start tiles
  obtain ⟨haddr, haddr', hrest⟩ := tiles
  have hinside := hrest.le
  obtain ⟨nonzero, hb, nonzero', hc, rest⟩ := list
  have hnext : s.next p = c.addr := by rw [hc]
  have hsize : s.size p = b.size := by rw [hb]
  have hsize' : s.size (s.next p) = c.size := by rw [hc]
  have hsum : u64 (s.size p + (headerSize + s.size (s.next p))) =
      b.size + (headerSize + c.size) := by
    rw [hsize, hsize', u64_of_lt (by omega)]
  have hfar : s.next p + 16 ≠ p := by omega
  have mem : ∀ x, (absorbNext p s).mem x = if x = p + 16 then s.next (s.next p)
      else if x = p then b.size + (headerSize + c.size) else s.mem x := by
    intro x
    simp only [absorbNext, hsum]
    simp only [Heap.next, Heap.setNext, Heap.setSize, Heap.mem_store] at hfar ⊢
    rw [if_neg (by omega : p + 16 ≠ p), if_neg hfar]
  refine ⟨?_, fun x hx hx' => by rw [mem, if_neg hx', if_neg hx]⟩
  generalize absorbNext p s = t at mem
  have fields : t.size p = b.size + (headerSize + c.size) ∧ t.isFree p = s.isFree p ∧
      t.next p = s.next (s.next p) := by
    simp [Heap.size, Heap.isFree, Heap.next, mem]
  refine ⟨nonzero, by rw [fields.1, fields.2.1, hb], ?_⟩
  rw [fields.2.2]
  apply rest.transport
  intro d hd k hk
  have := (hrest.bounds hd).1
  rw [mem, if_neg (by omega), if_neg (by omega)]

/-- The merge loop computes `mergeFrom`. -/
theorem mergeLoop_spec {s : Heap} {p a stop fuel : ℕ} {b : Block} {bs : List Block}
    (list : BlockList s p (b :: bs)) (tiles : Tiles headerSize a (b :: bs) stop)
    (region : stop < 2 ^ 64) (enough : bs.length < fuel) :
    ∃ t, mergeLoop fuel p s = some t ∧ BlockList t p (mergeFrom headerSize b bs) ∧
      t.sHead = s.sHead ∧ ∀ x, Kept a (b :: bs) x → t.mem x = s.mem x := by
  have hh : headerSize = 24 := rfl
  induction bs generalizing s p a b fuel with
  | nil =>
    obtain ⟨fuel, rfl⟩ : ∃ n, fuel = n + 1 := ⟨fuel - 1, by simp at enough; omega⟩
    have last : s.next p = 0 := list.2.2
    refine ⟨s, ?_, list, rfl, fun _ _ => rfl⟩
    rw [mergeLoop, if_neg (by simp [last])]
  | cons c bs ih =>
    obtain ⟨fuel, rfl⟩ : ∃ n, fuel = n + 1 := ⟨fuel - 1, by simp at enough; omega⟩
    have hpa : p = a := list.start tiles
    obtain ⟨haddr, haddr', hrest⟩ := tiles
    have hinside := hrest.le
    obtain ⟨nonzero, hb, nonzero', hc, rest⟩ := id list
    have hfree : s.isFree p = b.free := by rw [hb]
    have hfree' : s.isFree (s.next p) = c.free := by rw [hc]
    rw [mergeLoop, if_pos ⟨nonzero, nonzero'⟩, hfree, hfree', mergeFrom]
    split_ifs with both
    · -- the two headers become one, and the loop looks at it again
      obtain ⟨merged, frame⟩ := blockList_absorbNext list ⟨haddr, haddr', hrest⟩ region
      have tiles' : Tiles headerSize a (⟨b.addr, b.size + (headerSize + c.size), b.free⟩ :: bs)
          stop := by
        refine ⟨haddr, ?_⟩
        rwa [show a + headerSize + (b.size + (headerSize + c.size)) =
          a + headerSize + b.size + headerSize + c.size by omega]
      obtain ⟨t, run, ht, head, kept⟩ := ih merged tiles' (by simpa using enough)
      refine ⟨t, run, ht, head, fun x hx => ?_⟩
      have hout := hx.outside ⟨haddr, haddr', hrest⟩ both.1
      rw [kept x (hx.merged both.1 both.2), frame x (by omega) (by omega)]
    · obtain ⟨t, run, ht, head, kept⟩ :=
        ih ⟨nonzero', hc, rest⟩ ⟨haddr', hrest⟩ (by simpa using enough)
      have hkept : ∀ x, Kept a (b :: c :: bs) x → t.mem x = s.mem x := fun x hx =>
        kept x (hx.tail ⟨haddr, haddr', hrest⟩)
      refine ⟨t, run, ?_, head, hkept⟩
      obtain ⟨tsize, tfree, tnext⟩ : t.size p = s.size p ∧ t.isFree p = s.isFree p ∧
          t.next p = s.next p := by
        refine Heap.fields_congr (kept _ (Or.inl ?_)) (kept _ (Or.inl ?_)) (kept _ (Or.inl ?_)) <;>
          omega
      exact ⟨nonzero, by rw [tsize, tfree]; exact hb, by rw [tnext]; exact ht⟩

/-- Setting `is_free` in one header of a list whose other headers lie elsewhere. -/
theorem blockList_markFree {s : Heap} {p q : ℕ} {bs : List Block} (list : BlockList s p bs)
    (apart : ∀ b ∈ bs, b.addr = q ∨ b.addr + 16 < q + 8 ∨ q + 8 < b.addr) :
    BlockList (s.setIsFree q true) p (markFree headerSize (q + headerSize) bs) := by
  induction bs generalizing p with
  | nil => exact list
  | cons b bs ih =>
    obtain ⟨nonzero, hb, rest⟩ := list
    have haddr : b.addr = p := by rw [hb]
    have hsize : b.size = s.size p := by rw [hb]
    have hfree : b.free = s.isFree p := by rw [hb]
    have tail := ih rest fun c hc => apart c (List.mem_cons_of_mem _ hc)
    have fields : (s.setIsFree q true).size p = s.size p ∧
        (s.setIsFree q true).isFree p = (if p = q then true else s.isFree p) ∧
        (s.setIsFree q true).next p = s.next p := by
      have here := apart b (by simp)
      simp only [Heap.size, Heap.isFree, Heap.next, Heap.setIsFree, Heap.mem_store]
      refine ⟨if_neg (by omega), ?_, if_neg (by omega)⟩
      by_cases hq : p = q
      · simp [hq]
      · simp [hq]
    rw [markFree, List.map_cons]
    refine ⟨nonzero, ?_, by rw [fields.2.2]; exact tail⟩
    rw [fields.1, fields.2.1, haddr]
    by_cases hq : p = q
    · rw [if_pos (by omega), if_pos hq, ← hsize]
    · rw [if_neg (by omega), if_neg hq, ← hsize, ← hfree, ← haddr]

/-- `kfree` of the pointer to a used block releases that block. -/
theorem kfree_spec {s : Heap} {a stop fuel : ℕ} {b : Block} {bs : List Block}
    (list : BlockList s s.sHead bs) (tiles : Tiles headerSize a bs stop) (region : stop < 2 ^ 64)
    (enough : bs.length < fuel) (hb : b ∈ bs) :
    ∃ t, kfree fuel (b.addr + headerSize) s = some t ∧
      BlockList t t.sHead (release headerSize (b.addr + headerSize) bs) ∧ t.sHead = s.sHead ∧
      ∀ x, Kept a (markFree headerSize (b.addr + headerSize) bs) x → t.mem x = s.mem x := by
  have hh : headerSize = 24 := rfl
  have hbounds := tiles.bounds hb
  have hblock : sub64 (b.addr + headerSize) headerSize = b.addr := by
    rw [sub64_of_le (by omega) (by omega)]
    omega
  have apart : ∀ c ∈ bs, c.addr = b.addr ∨ c.addr + 16 < b.addr + 8 ∨ b.addr + 8 < c.addr := by
    intro c hc
    by_cases same : c = b
    · exact Or.inl (by rw [same])
    · have := tiles.disjoint hc hb same
      omega
  have marked := blockList_markFree list apart
  have markedTiles := tiles_markFree (p := b.addr + headerSize) tiles
  have frame : ∀ x, Kept a (markFree headerSize (b.addr + headerSize) bs) x →
      (s.setIsFree b.addr true).mem x = s.mem x := by
    intro x hx
    rw [Heap.setIsFree, Heap.mem_store, if_neg]
    rintro rfl
    rcases hx with hx | ⟨c, hc, hx⟩
    · omega
    · rw [used_markFree, List.mem_filter, mem_used] at hc
      have := apart c hc.1.1
      have different : c ≠ b := by
        rintro rfl
        simp at hc
      have := tiles.disjoint hc.1.1 hb different
      omega
  rw [kfree, if_neg (by omega), hblock]
  unfold release merge
  have hlength : (markFree headerSize (b.addr + headerSize) bs).length = bs.length :=
    List.length_map _
  generalize markFree headerSize (b.addr + headerSize) bs = marks at *
  cases marks with
  | nil =>
    rw [List.length_nil] at hlength
    rw [List.eq_nil_of_length_eq_zero hlength.symm] at hb
    simp at hb
  | cons c marks =>
    have enough' : marks.length < fuel := by
      rw [List.length_cons] at hlength
      omega
    obtain ⟨t, run, ht, head, kept⟩ := mergeLoop_spec marked markedTiles region enough'
    exact ⟨t, run, head ▸ ht, head, fun x hx => (kept x hx).trans (frame x hx)⟩

end ChefOs
