import Mathlib.Tactic

/-!
# Rectangles and regular grids

Rectangles in the plane that keep a distance, and the two ways to lay them out: one below the
other, or as the cells of a grid at a fixed pitch.
-/

namespace Kit

/-- The points from `(x, y)` up to, but not including, `(x + width, y + height)`. -/
structure Rect where
  x : ℤ
  y : ℤ
  width : ℤ
  height : ℤ
deriving DecidableEq

namespace Rect

/-- `r` is not empty and lies in `area`. -/
structure Inside (r area : Rect) : Prop where
  width_pos : 0 < r.width
  height_pos : 0 < r.height
  left : area.x ≤ r.x
  right : r.x + r.width ≤ area.x + area.width
  top : area.y ≤ r.y
  bottom : r.y + r.height ≤ area.y + area.height

/-- At least `gap` lies between the rectangles, horizontally or vertically. -/
def Apart (gap : ℤ) (r s : Rect) : Prop :=
  (r.x + r.width + gap ≤ s.x ∨ s.x + s.width + gap ≤ r.x) ∨
    (r.y + r.height + gap ≤ s.y ∨ s.y + s.height + gap ≤ r.y)

/-- The point lies in the rectangle. -/
def Contains (r : Rect) (px py : ℤ) : Prop :=
  (r.x ≤ px ∧ px < r.x + r.width) ∧ (r.y ≤ py ∧ py < r.y + r.height)

/-- No point lies in both rectangles. -/
def Disjoint (r s : Rect) : Prop := ∀ px py, r.Contains px py → ¬ s.Contains px py

theorem Apart.disjoint {gap : ℤ} (nonneg : 0 ≤ gap) {r s : Rect} (apart : Apart gap r s) :
    Disjoint r s := by
  rintro px py ⟨⟨rl, rr⟩, rt, rb⟩ ⟨⟨sl, sr⟩, st, sb⟩
  obtain (left | right) | (above | below) := apart <;> omega

/-- A rectangle that is not empty meets itself. -/
theorem not_disjoint_self {r : Rect} (width : 0 < r.width) (height : 0 < r.height) :
    ¬ Disjoint r r := by
  intro disjoint
  have corner : r.Contains r.x r.y := ⟨⟨le_rfl, by omega⟩, le_rfl, by omega⟩
  exact disjoint r.x r.y corner corner

/-! ## Cells of a grid -/

/-- The cell in column `c` and row `r` of a grid. -/
def cell (x y width height gap : ℤ) (c r : ℕ) : Rect :=
  ⟨x + c * (width + gap), y + r * (height + gap), width, height⟩

/-- Distinct multiples of a pitch differ by a pitch. -/
theorem pitch_le {pitch : ℤ} (nonneg : 0 ≤ pitch) {a b : ℕ} (lt : a < b) :
    (a : ℤ) * pitch + pitch ≤ b * pitch := by
  have step : (a : ℤ) + 1 ≤ b := by exact_mod_cast lt
  calc (a : ℤ) * pitch + pitch = (a + 1) * pitch := by ring
    _ ≤ b * pitch := mul_le_mul_of_nonneg_right step nonneg

theorem cell_apart {x y width height gap : ℤ} (hw : 0 ≤ width + gap) (hh : 0 ≤ height + gap)
    {c r c' r' : ℕ} (ne : ¬ (c = c' ∧ r = r')) :
    Apart gap (cell x y width height gap c r) (cell x y width height gap c' r') := by
  simp only [Apart, cell]
  rcases lt_trichotomy c c' with lt | same | gt
  · have := pitch_le hw lt
    exact .inl (.inl (by linarith))
  · rcases lt_trichotomy r r' with lt | same' | gt
    · have := pitch_le hh lt
      exact .inr (.inl (by linarith))
    · exact absurd ⟨same, same'⟩ ne
    · have := pitch_le hh gt
      exact .inr (.inr (by linarith))
  · have := pitch_le hw gt
    exact .inl (.inr (by linarith))

/-- If `n` cells of a length with their gaps fit into a total, then each cell ends inside. -/
theorem pitch_fits {total size gap i n : ℕ} (lt : i < n) (fits : n * (size + gap) ≤ total + gap) :
    i * (size + gap) + size ≤ total := by
  have step : (i + 1) * (size + gap) ≤ n * (size + gap) := Nat.mul_le_mul_right _ lt
  rw [Nat.succ_mul] at step
  omega

/-- An even division of a total into `n` cells with gaps fits. -/
theorem div_fits {total gap n : ℕ} (pos : 0 < n) (room : gap * (n - 1) ≤ total) :
    n * ((total - gap * (n - 1)) / n + gap) ≤ total + gap := by
  obtain ⟨m, rfl⟩ : ∃ m, n = m + 1 := ⟨n - 1, by omega⟩
  rw [Nat.add_sub_cancel] at room ⊢
  have cells := Nat.mul_div_le (total - gap * m) (m + 1)
  calc (m + 1) * ((total - gap * m) / (m + 1) + gap)
      = (m + 1) * ((total - gap * m) / (m + 1)) + (gap * m + gap) := by ring
    _ ≤ (total - gap * m) + (gap * m + gap) := by omega
    _ = total + gap := by omega

end Rect

end Kit
