import Mathlib.Tactic

/-!
# PS/2 mice

What a mouse sends for a movement, and a pointer that follows the movements on a screen.
-/

namespace Kit.Ps2

/-- A movement since the last report with its overflow flags, and the buttons.  `dy` grows
upwards. -/
structure Report where
  dx : BitVec 9
  dy : BitVec 9
  left : Bool
  right : Bool
  middle : Bool
  overflowX : Bool
  overflowY : Bool
deriving DecidableEq

/-- The first byte of a report, the lowest bit first. -/
def flagsByte (left right middle signX signY overflowX overflowY : Bool) : UInt8 :=
  .ofNat (left.toNat + 2 * right.toNat + 4 * middle.toNat + 8 + 16 * signX.toNat +
    32 * signY.toNat + 64 * overflowX.toNat + 128 * overflowY.toNat)

/-- The bytes of a report. -/
def Report.bytes (r : Report) : List UInt8 :=
  [flagsByte r.left r.right r.middle r.dx.msb r.dy.msb r.overflowX r.overflowY,
    ⟨r.dx.setWidth 8⟩, ⟨r.dy.setWidth 8⟩]

/-- The bits of the first byte. -/
theorem flagsByte_bits : ∀ left right middle signX signY overflowX overflowY,
    let flags := flagsByte left right middle signX signY overflowX overflowY
    decide (flags &&& 0x01 ≠ 0) = left ∧ decide (flags &&& 0x02 ≠ 0) = right ∧
      decide (flags &&& 0x04 ≠ 0) = middle ∧ (flags &&& 0x10 ≠ 0 ↔ signX) ∧
      (flags &&& 0x20 ≠ 0 ↔ signY) := by
  decide

/-- A nine-bit number by its sign and its low byte. -/
theorem toInt_low (d : BitVec 9) :
    d.toInt = (d.setWidth 8).toNat - if d.msb then 256 else 0 := by
  have bound := d.isLt
  have low : (d.setWidth 8).toNat = d.toNat % 256 := BitVec.toNat_setWidth ..
  rw [BitVec.toInt_eq_msb_cond, low, BitVec.msb_eq_decide]
  simp only [decide_eq_true_eq]
  split_ifs <;> omega

/-! ## The pointer -/

/-- A pointer on a screen, with the buttons.  `y` grows downwards. -/
structure Pointer where
  x : ℤ
  y : ℤ
  left : Bool
  right : Bool
  middle : Bool
deriving DecidableEq

/-- The number of a line or column that is nearest to a coordinate. -/
def nearest (size : ℕ) (v : ℤ) : ℤ := max 0 (min v (size - 1))

/-- The pointer after a report. -/
def Pointer.follow (width height : ℕ) (p : Pointer) (r : Report) : Pointer where
  x := nearest width (p.x + r.dx.toInt)
  y := nearest height (p.y - r.dy.toInt)
  left := r.left
  right := r.right
  middle := r.middle

theorem nearest_eq {size : ℕ} {v : ℤ} (low : 0 ≤ v) (high : v < size) : nearest size v = v := by
  unfold nearest
  omega

/-- Where reports lead together, without a screen. -/
def Pointer.displaced (p : Pointer) (rs : List Report) : ℤ × ℤ :=
  (p.x + (rs.map fun r => r.dx.toInt).sum, p.y - (rs.map fun r => r.dy.toInt).sum)

/-- Coordinates on a screen. -/
def InScreen (width height : ℕ) (q : ℤ × ℤ) : Prop :=
  (0 ≤ q.1 ∧ q.1 < width) ∧ 0 ≤ q.2 ∧ q.2 < height

/-- As long as the reports do not lead out of the screen, the pointer is where they lead
together. -/
theorem foldl_follow {width height : ℕ} {rs : List Report} {p : Pointer}
    (inside : ∀ rs', rs' <+: rs → InScreen width height (p.displaced rs')) :
    ((rs.foldl (Pointer.follow width height) p).x,
      (rs.foldl (Pointer.follow width height) p).y) = p.displaced rs := by
  induction rs generalizing p with
  | nil => simp [Pointer.displaced]
  | cons r rs ih =>
    have displaced (rs : List Report) :
        p.displaced (r :: rs) = (p.follow width height r).displaced rs := by
      have first : InScreen width height (p.displaced [r]) := inside [r] (by simp)
      simp only [InScreen, Pointer.displaced, List.map_singleton, List.sum_singleton] at first
      simp only [Pointer.displaced, Pointer.follow, List.map_cons, List.sum_cons, Prod.mk.injEq]
      rw [nearest_eq first.1.1 first.1.2, nearest_eq first.2.1 first.2.2]
      constructor
      · ring
      · ring
    rw [List.foldl_cons, displaced]
    apply ih
    intro rs' le
    rw [← displaced]
    exact inside (r :: rs') (List.cons_prefix_cons.mpr ⟨rfl, le⟩)

end Kit.Ps2
