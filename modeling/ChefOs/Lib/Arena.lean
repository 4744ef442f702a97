import Mathlib.Tactic

/-!
# Arenas of blocks with in-band headers

An arena is a region tiled by blocks, each a header of `hdr` bytes followed by a payload.
Allocation is first fit with splitting, release marks a block free and merges every group of free
neighbours.  A tiling without two free neighbours is determined by its used blocks
(`tiling_unique`), so the free space of an arena keeps no trace of its history.
-/

namespace Kit.Arena

/-- A block: the address of its header, its payload size and whether it is free. -/
@[ext] structure Block where
  addr : ℕ
  size : ℕ
  free : Bool
deriving DecidableEq, Repr

section

variable (hdr : ℕ)

/-- `bs` lie one after another from `a` to `stop`, without gaps. -/
def Tiles : ℕ → List Block → ℕ → Prop
  | a, [], stop => a = stop
  | a, b :: bs, stop => b.addr = a ∧ Tiles (a + hdr + b.size) bs stop

/-- No two neighbouring blocks are both free. -/
def Coalesced : List Block → Prop
  | b :: c :: bs => ¬ (b.free = true ∧ c.free = true) ∧ Coalesced (c :: bs)
  | _ => True

/-- The used blocks, in address order. -/
def used (bs : List Block) : List Block := bs.filter fun b => !b.free

/-- What an allocation of `size` bytes puts in place of the free block `b`: the taken block, and
what is left over when that can hold a header and `slack` bytes. -/
def carve (slack size : ℕ) (b : Block) : List Block :=
  if size + hdr + slack ≤ b.size then
    [⟨b.addr, size, false⟩, ⟨b.addr + hdr + size, b.size - size - hdr, true⟩]
  else [⟨b.addr, b.size, false⟩]

/-- First fit: the first free block of at least `size` bytes is carved.  Returns the new blocks and
the payload address. -/
def alloc (slack size : ℕ) : List Block → Option (List Block × ℕ)
  | [] => none
  | b :: bs =>
    if b.free = true ∧ size ≤ b.size then some (carve hdr slack size b ++ bs, b.addr + hdr)
    else (alloc slack size bs).map fun r => (b :: r.1, r.2)

/-- Merge the block `b` with the free blocks that follow it, then go on with the rest. -/
def mergeFrom (b : Block) : List Block → List Block
  | [] => [b]
  | c :: bs =>
    if b.free = true ∧ c.free = true then mergeFrom ⟨b.addr, b.size + (hdr + c.size), b.free⟩ bs
    else b :: mergeFrom c bs

/-- Merge all groups of free neighbours. -/
def merge : List Block → List Block
  | [] => []
  | b :: bs => mergeFrom hdr b bs

/-- Mark the block with payload address `p` free. -/
def markFree (p : ℕ) (bs : List Block) : List Block :=
  bs.map fun b => if b.addr + hdr = p then { b with free := true } else b

/-- Give the block with payload address `p` back and merge what is free. -/
def release (p : ℕ) (bs : List Block) : List Block := merge hdr (markFree hdr p bs)

end

variable {hdr : ℕ}

/-! ## Tilings -/

theorem Tiles.le {a stop : ℕ} {bs : List Block} (h : Tiles hdr a bs stop) : a ≤ stop := by
  induction bs generalizing a with
  | nil => exact Nat.le_of_eq h
  | cons b bs ih =>
    have := ih h.2
    omega

/-- Every block of a tiling lies inside the region. -/
theorem Tiles.bounds {a stop : ℕ} {bs : List Block} (h : Tiles hdr a bs stop) {b : Block}
    (hb : b ∈ bs) : a ≤ b.addr ∧ b.addr + hdr + b.size ≤ stop := by
  induction bs generalizing a with
  | nil => simp at hb
  | cons c bs ih =>
    obtain ⟨rfl, rest⟩ := h
    rcases List.mem_cons.mp hb with rfl | hb
    · exact ⟨le_rfl, rest.le⟩
    · have := ih rest hb
      omega

/-- Two blocks of a tiling are the same or disjoint, headers included. -/
theorem Tiles.disjoint {a stop : ℕ} {bs : List Block} (h : Tiles hdr a bs stop) {b c : Block}
    (hb : b ∈ bs) (hc : c ∈ bs) (different : b ≠ c) :
    b.addr + hdr + b.size ≤ c.addr ∨ c.addr + hdr + c.size ≤ b.addr := by
  induction bs generalizing a with
  | nil => simp at hb
  | cons d bs ih =>
    obtain ⟨rfl, rest⟩ := h
    rcases List.mem_cons.mp hb with hb | hb <;> rcases List.mem_cons.mp hc with hc | hc
    · exact absurd (hb.trans hc.symm) different
    · exact hb ▸ Or.inl (rest.bounds hc).1
    · exact hc ▸ Or.inr (rest.bounds hb).1
    · exact ih rest hb hc

/-- With a non-empty header, the address identifies a block of a tiling. -/
theorem Tiles.eq_of_addr {a stop : ℕ} {bs : List Block} (pos : 0 < hdr) (h : Tiles hdr a bs stop)
    {b c : Block} (hb : b ∈ bs) (hc : c ∈ bs) (same : b.addr = c.addr) : b = c := by
  by_contra different
  have := h.disjoint hb hc different
  omega

theorem mem_used {bs : List Block} {b : Block} : b ∈ used bs ↔ b ∈ bs ∧ b.free = false := by
  simp [used]

@[simp] theorem used_nil : used [] = [] := rfl

@[simp] theorem used_cons_free {b : Block} {bs : List Block} (h : b.free = true) :
    used (b :: bs) = used bs := by
  simp [used, h]

@[simp] theorem used_cons_used {b : Block} {bs : List Block} (h : b.free = false) :
    used (b :: bs) = b :: used bs := by
  simp [used, h]

theorem coalesced_cons {b : Block} {bs : List Block} :
    Coalesced (b :: bs) ↔
      (∀ c ∈ bs.head?, ¬ (b.free = true ∧ c.free = true)) ∧ Coalesced bs := by
  cases bs with
  | nil => simp [Coalesced]
  | cons c bs => simp [Coalesced]

/-- A tiling splits where its list does. -/
theorem tiles_append {a stop : ℕ} {front back : List Block} :
    Tiles hdr a (front ++ back) stop ↔
      ∃ mid, Tiles hdr a front mid ∧ Tiles hdr mid back stop := by
  induction front generalizing a with
  | nil => simp [Tiles]
  | cons b front ih =>
    simp only [List.cons_append, Tiles, ih]
    constructor
    · rintro ⟨hb, mid, h⟩
      exact ⟨mid, ⟨hb, h.1⟩, h.2⟩
    · rintro ⟨mid, ⟨hb, h⟩, h'⟩
      exact ⟨hb, mid, h, h'⟩

/-- The blocks of a tiling are in the order of their addresses. -/
theorem Tiles.addr_lt {hdr a stop : ℕ} {front back : List Block} {b c : Block} (pos : 0 < hdr)
    (tiles : Tiles hdr a (front ++ b :: back) stop) (hc : c ∈ back) : b.addr < c.addr := by
  obtain ⟨mid, -, here, rest⟩ := tiles_append.mp tiles
  have := (rest.bounds hc).1
  omega

@[simp] theorem used_append (front back : List Block) :
    used (front ++ back) = used front ++ used back := List.filter_append _ _

/-- Coalescing is a property of neighbouring pairs. -/
theorem coalesced_append {front back : List Block} :
    Coalesced (front ++ back) ↔ Coalesced front ∧ Coalesced back ∧
      ∀ b ∈ front.getLast?, ∀ c ∈ back.head?, ¬ (b.free = true ∧ c.free = true) := by
  induction front with
  | nil => simp [Coalesced]
  | cons b front ih =>
    cases front with
    | nil =>
      cases back with
      | nil => simp [Coalesced]
      | cons c back => simp [Coalesced, and_comm]
    | cons c front =>
      simp only [List.cons_append, Coalesced] at ih ⊢
      rw [ih, List.getLast?_cons_cons]
      tauto

/-! ## Allocation -/

/-- The used block an allocation leaves at the address of the free block `b`. -/
def taken (hdr slack size : ℕ) (b : Block) : Block :=
  ⟨b.addr, if size + hdr + slack ≤ b.size then size else b.size, false⟩

theorem le_size_taken {hdr slack size : ℕ} {b : Block} (fits : size ≤ b.size) :
    size ≤ (taken hdr slack size b).size := by
  unfold taken
  split_ifs
  · exact le_rfl
  · exact fits

theorem used_carve (slack size : ℕ) (b : Block) :
    used (carve hdr slack size b) = [taken hdr slack size b] := by
  unfold carve taken
  split_ifs <;> rfl

theorem tiles_carve {slack size a stop : ℕ} {b : Block} (h : Tiles hdr a [b] stop) :
    Tiles hdr a (carve hdr slack size b) stop := by
  obtain ⟨rfl, h⟩ := h
  unfold carve
  split_ifs with split
  · refine ⟨rfl, rfl, ?_⟩
    simp only [Tiles] at h ⊢
    omega
  · exact ⟨rfl, h⟩

/-- What a successful allocation did: the first free block that fits was carved. -/
theorem alloc_cases {slack size p : ℕ} {bs bs' : List Block}
    (h : alloc hdr slack size bs = some (bs', p)) :
    ∃ front b back, bs = front ++ b :: back ∧
      (∀ c ∈ front, ¬ (c.free = true ∧ size ≤ c.size)) ∧ b.free = true ∧ size ≤ b.size ∧
      p = b.addr + hdr ∧ bs' = front ++ (carve hdr slack size b ++ back) := by
  induction bs generalizing bs' with
  | nil => simp [alloc] at h
  | cons c bs ih =>
    rw [alloc] at h
    split_ifs at h with fits
    · simp only [Option.some.injEq, Prod.mk.injEq] at h
      exact ⟨[], c, bs, rfl, by simp, fits.1, fits.2, h.2.symm, h.1.symm⟩
    · simp only [Option.map_eq_some_iff, Prod.mk.injEq] at h
      obtain ⟨r, hr, rfl, rfl⟩ := h
      obtain ⟨front, b, back, rfl, hfront, hfree, hsize, hp, hbs⟩ := ih hr
      refine ⟨c :: front, b, back, rfl, ?_, hfree, hsize, hp, by rw [hbs]; rfl⟩
      intro d hd
      rcases List.mem_cons.mp hd with rfl | hd
      · exact fits
      · exact hfront d hd

/-- Allocation fails only when no free block fits. -/
theorem alloc_none {slack size : ℕ} {bs : List Block} :
    alloc hdr slack size bs = none ↔ ∀ b ∈ bs, ¬ (b.free = true ∧ size ≤ b.size) := by
  induction bs with
  | nil => simp [alloc]
  | cons b bs ih =>
    rw [alloc]
    split_ifs with fits
    · simp [fits]
    · simp only [Option.map_eq_none_iff, ih, List.forall_mem_cons, fits, not_false_eq_true,
        true_and]

theorem Tiles.alloc {slack size a stop p : ℕ} {bs bs' : List Block} (h : Tiles hdr a bs stop)
    (done : alloc hdr slack size bs = some (bs', p)) : Tiles hdr a bs' stop := by
  obtain ⟨front, b, back, rfl, -, -, -, -, rfl⟩ := alloc_cases done
  obtain ⟨mid, hfront, hb⟩ := tiles_append.mp h
  obtain ⟨last, hone, hback⟩ := tiles_append.mp (show Tiles hdr mid ([b] ++ back) stop from hb)
  exact tiles_append.mpr ⟨mid, hfront, tiles_append.mpr ⟨last, tiles_carve hone, hback⟩⟩

theorem Coalesced.alloc {slack size p : ℕ} {bs bs' : List Block} (h : Coalesced bs)
    (done : alloc hdr slack size bs = some (bs', p)) : Coalesced bs' := by
  obtain ⟨front, b, back, rfl, -, hfree, -, -, rfl⟩ := alloc_cases done
  obtain ⟨hfront, hb, -⟩ := coalesced_append.mp h
  obtain ⟨hback, tail⟩ := coalesced_cons.mp hb
  refine coalesced_append.mpr ⟨hfront, ?_, ?_⟩
  · -- `b` was free, so what follows it is not: the left-over block may be free
    unfold carve
    split_ifs with split
    · refine ⟨by simp, coalesced_cons.mpr ⟨fun c hc => ?_, tail⟩⟩
      simpa [hfree] using hback c hc
    · exact coalesced_cons.mpr ⟨by simp, tail⟩
  · intro c _ d hd
    unfold carve at hd
    split_ifs at hd <;> simp only [List.cons_append, List.head?_cons, Option.mem_some_iff] at hd <;>
      simp [← hd]

/-- A successful allocation adds exactly one used block, behind the pointer returned. -/
theorem used_alloc {slack size p : ℕ} {bs bs' : List Block}
    (done : alloc hdr slack size bs = some (bs', p)) :
    ∃ front b back, b ∈ bs ∧ b.free = true ∧ size ≤ b.size ∧ p = b.addr + hdr ∧
      used bs = front ++ back ∧ used bs' = front ++ taken hdr slack size b :: back := by
  obtain ⟨front, b, back, rfl, -, hfree, hsize, hp, rfl⟩ := alloc_cases done
  refine ⟨used front, b, used back, by simp, hfree, hsize, hp, ?_, ?_⟩
  · rw [used_append, used_cons_free hfree]
  · rw [used_append, used_append, used_carve]
    rfl

theorem dvd_alloc {unit slack size p : ℕ} {bs bs' : List Block} (hhdr : unit ∣ hdr)
    (hsize : unit ∣ size) (h : ∀ b ∈ bs, unit ∣ b.size)
    (done : alloc hdr slack size bs = some (bs', p)) : ∀ b ∈ bs', unit ∣ b.size := by
  obtain ⟨front, b, back, rfl, -, -, -, -, rfl⟩ := alloc_cases done
  have hb : unit ∣ b.size := h b (by simp)
  have carved : ∀ c ∈ carve hdr slack size b, unit ∣ c.size := by
    unfold carve
    split_ifs
    · simp [hsize, Nat.dvd_sub (Nat.dvd_sub hb hsize) hhdr]
    · simp [hb]
  intro c hc
  simp only [List.mem_append] at hc
  rcases hc with hc | hc | hc
  · exact h c (by simp [hc])
  · exact carved c hc
  · exact h c (by simp [hc])

/-! ## Release -/

/-- Merging keeps the address and the kind of the block it starts from. -/
theorem head_mergeFrom (hdr : ℕ) (b : Block) (bs : List Block) :
    ∃ c ∈ (mergeFrom hdr b bs).head?, c.addr = b.addr ∧ c.free = b.free := by
  induction bs generalizing b with
  | nil => exact ⟨b, rfl, rfl, rfl⟩
  | cons c bs ih =>
    rw [mergeFrom]
    split_ifs
    · exact ih ⟨b.addr, b.size + (hdr + c.size), b.free⟩
    · exact ⟨b, rfl, rfl, rfl⟩

theorem tiles_mergeFrom {a stop : ℕ} {b : Block} {bs : List Block}
    (h : Tiles hdr a (b :: bs) stop) : Tiles hdr a (mergeFrom hdr b bs) stop := by
  induction bs generalizing a b with
  | nil => exact h
  | cons c bs ih =>
    obtain ⟨rfl, hc, rest⟩ := h
    rw [mergeFrom]
    split_ifs
    · refine ih ⟨rfl, ?_⟩
      rwa [show b.addr + hdr + (b.size + (hdr + c.size)) = b.addr + hdr + b.size + hdr + c.size by
        omega]
    · exact ⟨rfl, ih ⟨hc, rest⟩⟩

theorem coalesced_mergeFrom (b : Block) (bs : List Block) : Coalesced (mergeFrom hdr b bs) := by
  induction bs generalizing b with
  | nil => trivial
  | cons c bs ih =>
    rw [mergeFrom]
    split_ifs with both
    · exact ih _
    · refine coalesced_cons.mpr ⟨fun d hd => ?_, ih c⟩
      obtain ⟨d', hd', -, hfree⟩ := head_mergeFrom hdr c bs
      obtain rfl : d' = d := Option.some.inj (hd'.symm.trans hd)
      rwa [hfree]

theorem used_mergeFrom (b : Block) (bs : List Block) :
    used (mergeFrom hdr b bs) = used (b :: bs) := by
  induction bs generalizing b with
  | nil => rfl
  | cons c bs ih =>
    rw [mergeFrom]
    split_ifs with both
    · rw [ih, used_cons_free both.1, used_cons_free both.2, used_cons_free (by exact both.1)]
    · cases hb : b.free
      · rw [used_cons_used hb, used_cons_used hb, ih]
      · rw [used_cons_free hb, used_cons_free hb, ih]

theorem dvd_mergeFrom {unit : ℕ} (hhdr : unit ∣ hdr) {b : Block} {bs : List Block}
    (h : ∀ c ∈ b :: bs, unit ∣ c.size) : ∀ c ∈ mergeFrom hdr b bs, unit ∣ c.size := by
  induction bs generalizing b with
  | nil => exact h
  | cons c bs ih =>
    simp only [List.forall_mem_cons] at h ih
    rw [mergeFrom]
    split_ifs
    · exact ih ⟨Nat.dvd_add h.1 (Nat.dvd_add hhdr h.2.1), h.2.2⟩
    · exact List.forall_mem_cons.mpr ⟨h.1, ih h.2⟩

theorem tiles_markFree {a p stop : ℕ} {bs : List Block} (h : Tiles hdr a bs stop) :
    Tiles hdr a (markFree hdr p bs) stop := by
  induction bs generalizing a with
  | nil => exact h
  | cons b bs ih =>
    simp only [markFree, List.map_cons]
    split_ifs
    · exact ⟨h.1, ih h.2⟩
    · exact ⟨h.1, ih h.2⟩

theorem used_markFree (p : ℕ) (bs : List Block) :
    used (markFree hdr p bs) = (used bs).filter fun b => b.addr + hdr ≠ p := by
  induction bs with
  | nil => rfl
  | cons b bs ih =>
    rw [markFree, List.map_cons]
    by_cases hp : b.addr + hdr = p
    · rw [if_pos hp, used_cons_free rfl]
      cases hb : b.free
      · rw [used_cons_used hb, List.filter_cons_of_neg (by simp [hp])]
        exact ih
      · rw [used_cons_free hb]
        exact ih
    · rw [if_neg hp]
      cases hb : b.free
      · rw [used_cons_used hb, used_cons_used hb, List.filter_cons_of_pos (by simp [hp])]
        exact congrArg _ ih
      · rw [used_cons_free hb, used_cons_free hb]
        exact ih

theorem Tiles.release {a p stop : ℕ} {bs : List Block} (h : Tiles hdr a bs stop) :
    Tiles hdr a (release hdr p bs) stop := by
  have marked : Tiles hdr a (markFree hdr p bs) stop := tiles_markFree h
  unfold Arena.release merge
  generalize markFree hdr p bs = marks at marked
  cases marks with
  | nil => exact marked
  | cons b bs' => exact tiles_mergeFrom marked

theorem coalesced_release (p : ℕ) (bs : List Block) : Coalesced (release hdr p bs) := by
  unfold release merge
  cases markFree hdr p bs with
  | nil => trivial
  | cons b bs' => exact coalesced_mergeFrom b bs'

/-- A release takes exactly the block behind `p` out of the used blocks. -/
theorem used_release (p : ℕ) (bs : List Block) :
    used (release hdr p bs) = (used bs).filter fun b => b.addr + hdr ≠ p := by
  rw [← used_markFree]
  unfold release merge
  cases markFree hdr p bs with
  | nil => rfl
  | cons b bs' => exact used_mergeFrom b bs'

theorem dvd_release {unit : ℕ} (hhdr : unit ∣ hdr) (p : ℕ) {bs : List Block}
    (h : ∀ b ∈ bs, unit ∣ b.size) : ∀ b ∈ release hdr p bs, unit ∣ b.size := by
  have marked : ∀ b ∈ markFree hdr p bs, unit ∣ b.size := by
    intro b hb
    obtain ⟨c, hc, rfl⟩ := List.mem_map.mp hb
    split_ifs <;> exact h c hc
  unfold release merge
  generalize markFree hdr p bs = marks at marked
  cases marks with
  | nil => simp
  | cons b bs' => exact dvd_mergeFrom hhdr marked

/-! ## The canonical form -/

/-- In a coalesced tiling whose head is free, the next block starts at a used block's address or at
the end of the region. -/
theorem Coalesced.next {a stop : ℕ} {b : Block} {bs : List Block} (h : Coalesced (b :: bs))
    (tiles : Tiles hdr a (b :: bs) stop) (free : b.free = true) :
    a + hdr + b.size = stop ∨ ∃ c ∈ used bs, c.addr = a + hdr + b.size := by
  cases bs with
  | nil => exact Or.inl tiles.2
  | cons c bs =>
    right
    have hc : c.free = false := by
      cases hc : c.free
      · rfl
      · exact absurd ⟨free, hc⟩ h.1
    exact ⟨c, by simp [hc], tiles.2.1⟩

/-- The free heads of two coalesced tilings with the same used blocks are equally long: the shorter
one would end inside the longer one, where nothing used starts. -/
theorem head_size_le {a stop : ℕ} {b c : Block} {bs cs : List Block} (pos : 0 < hdr)
    (hb : Tiles hdr a (b :: bs) stop) (hc : Tiles hdr a (c :: cs) stop)
    (coalesced : Coalesced (b :: bs)) (free : b.free = true)
    (same : ∀ d ∈ used bs, d ∈ used (c :: cs)) : c.size ≤ b.size := by
  have hrest := hc.2.le
  have hb' := hb.2.le
  rcases coalesced.next hb free with stops | ⟨d, hd, haddr⟩
  · omega
  · have mem := (mem_used.mp (same d hd)).1
    rcases List.mem_cons.mp mem with rfl | mem
    · have := hc.1
      omega
    · have := (hc.2.bounds mem).1
      omega

/-- Coalesced tilings with the same used blocks start with the same block. -/
theorem tiling_head_unique (pos : 0 < hdr) {a stop : ℕ} {b c : Block} {bs cs : List Block}
    (hb : Tiles hdr a (b :: bs) stop) (hc : Tiles hdr a (c :: cs) stop)
    (coalescedB : Coalesced (b :: bs)) (coalescedC : Coalesced (c :: cs))
    (same : ∀ d, d ∈ used (b :: bs) ↔ d ∈ used (c :: cs)) : b = c := by
  cases hbf : b.free with
  | false =>
    -- a used head is a used block of the other tiling, and only its head starts at `a`
    have mem := (mem_used.mp ((same b).mp (by simp [hbf]))).1
    rcases List.mem_cons.mp mem with rfl | mem
    · rfl
    · have := (hc.2.bounds mem).1
      have := hb.1
      omega
  | true =>
    cases hcf : c.free with
    | false =>
      have mem := (mem_used.mp ((same c).mpr (by simp [hcf]))).1
      rcases List.mem_cons.mp mem with rfl | mem
      · rfl
      · have := (hb.2.bounds mem).1
        have := hc.1
        omega
    | true =>
      have le := head_size_le pos hb hc coalescedB hbf fun d hd =>
        (same d).mp (by rwa [used_cons_free hbf])
      have ge := head_size_le pos hc hb coalescedC hcf fun d hd =>
        (same d).mpr (by rwa [used_cons_free hcf])
      exact Block.ext (hb.1.trans hc.1.symm) (le_antisymm ge le) (hbf.trans hcf.symm)

/-- Behind a common first block the used blocks are the same, too. -/
theorem used_tail_iff (pos : 0 < hdr) {a stop : ℕ} {b : Block} {bs cs : List Block}
    (hb : Tiles hdr a (b :: bs) stop) (hc : Tiles hdr a (b :: cs) stop)
    (same : ∀ d, d ∈ used (b :: bs) ↔ d ∈ used (b :: cs)) (d : Block) :
    d ∈ used bs ↔ d ∈ used cs := by
  cases hbf : b.free with
  | true => simpa [used_cons_free hbf] using same d
  | false =>
    -- the tails start after `b`, so `b` itself is in neither
    have nb : ∀ ds, Tiles hdr (a + hdr + b.size) ds stop → b ∉ used ds := by
      intro ds hds mem
      have := (hds.bounds (mem_used.mp mem).1).1
      have := hb.1
      omega
    have hd := same d
    rw [used_cons_used hbf, used_cons_used hbf, List.mem_cons, List.mem_cons] at hd
    by_cases hdb : d = b
    · subst hdb
      simp [nb bs hb.2, nb cs hc.2]
    · simpa [hdb] using hd

/-- A coalesced tiling is determined by its region and its used blocks. -/
theorem tiling_unique (pos : 0 < hdr) {a stop : ℕ} {bs cs : List Block}
    (hb : Tiles hdr a bs stop) (hc : Tiles hdr a cs stop) (coalescedB : Coalesced bs)
    (coalescedC : Coalesced cs) (same : ∀ d, d ∈ used bs ↔ d ∈ used cs) : bs = cs := by
  induction bs generalizing a cs with
  | nil =>
    cases cs with
    | nil => rfl
    | cons c cs =>
      have := hc.2.le
      have : a = stop := hb
      omega
  | cons b bs ih =>
    cases cs with
    | nil =>
      have := hb.2.le
      have : a = stop := hc
      omega
    | cons c cs =>
      obtain rfl := tiling_head_unique pos hb hc coalescedB coalescedC same
      exact congrArg (b :: ·) (ih hb.2 hc.2 (coalesced_cons.mp coalescedB).2
        (coalesced_cons.mp coalescedC).2 (used_tail_iff pos hb hc same))

end Kit.Arena
