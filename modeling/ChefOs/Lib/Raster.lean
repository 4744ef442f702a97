import ChefOs.Lib.Rect

/-!
# Stores into a raster

A drawing is a list of stores, made from left to right.  A raster keeps the pixels of a screen in a
buffer, at indices that may coincide for different pixels.  Filling a rectangle is right when it
leaves the pixels of the rectangle in one color and all others as they were.
-/

namespace Kit

variable {α : Type*}

/-- The buffer after the stores of a list. -/
def storeAll (stores : List (ℕ × α)) (b : ℕ → α) : ℕ → α :=
  stores.foldl (fun b s => Function.update b s.1 s.2) b

theorem storeAll_append (stores later : List (ℕ × α)) (b : ℕ → α) :
    storeAll (stores ++ later) b = storeAll later (storeAll stores b) := List.foldl_append

/-- A loop makes the stores of its rounds. -/
theorem foldl_storeAll {β : Type*} {f : (ℕ → α) → β → ℕ → α} {stores : β → List (ℕ × α)}
    (body : ∀ b x, f b x = storeAll (stores x) b) (l : List β) (b : ℕ → α) :
    l.foldl f b = storeAll (l.flatMap stores) b := by
  induction l generalizing b with
  | nil => rfl
  | cons x l ih => rw [List.foldl_cons, ih, body, List.flatMap_cons, storeAll_append]

theorem foldl_update {β : Type*} (index : β → ℕ) (v : α) (l : List β) (b : ℕ → α) :
    l.foldl (fun b x => Function.update b (index x) v) b =
      storeAll (l.map fun x => (index x, v)) b := by
  rw [storeAll, List.foldl_map]

/-- Stores of one value. -/
theorem storeAll_same {v : α} {stores : List (ℕ × α)} (same : ∀ s ∈ stores, s.2 = v) (b : ℕ → α)
    (a : ℕ) : storeAll stores b a = if a ∈ stores.map Prod.fst then v else b a := by
  induction stores generalizing b with
  | nil => rfl
  | cons s stores ih =>
    obtain ⟨here, later⟩ := List.forall_mem_cons.mp same
    change storeAll stores (Function.update b s.1 s.2) a = _
    rw [ih later, Function.update_apply, here, List.map_cons]
    by_cases stored : a ∈ stores.map Prod.fst
    · rw [if_pos stored, if_pos (List.mem_cons_of_mem _ stored)]
    · simp only [List.mem_cons, stored, if_false, or_false]

/-- The same stores leave the same in a place, when it was the same before or is stored to. -/
theorem storeAll_congr {stores : List (ℕ × α)} {b b' : ℕ → α} {a : ℕ}
    (same : b a = b' a ∨ a ∈ stores.map Prod.fst) : storeAll stores b a = storeAll stores b' a := by
  induction stores generalizing b b' with
  | nil => exact same.resolve_right List.not_mem_nil
  | cons s stores ih =>
    apply ih
    rw [List.map_cons, List.mem_cons] at same
    by_cases here : a = s.1
    · simp [here]
    · simp only [Function.update_of_ne here]
      exact same.imp_right fun mem => mem.resolve_left here

/-- A screen whose pixels lie in a buffer, the pixel `(x, y)` at `index x y`. -/
structure Raster where
  width : ℕ
  height : ℕ
  index : ℕ → ℕ → ℕ

namespace Raster

variable {s : Raster} {r : Rect} {v : α} {b : ℕ → α}

/-- The pixel is on the screen and in the rectangle. -/
def Shows (s : Raster) (r : Rect) (x y : ℕ) : Prop :=
  (x < s.width ∧ y < s.height) ∧ r.Contains x y

/-- The pixels of the rectangle have a color. -/
def Painted (s : Raster) (r : Rect) (v : α) (b : ℕ → α) : Prop :=
  ∀ x y, s.Shows r x y → b (s.index x y) = v

/-- The pixels outside of the rectangle that share their index with one inside have a color. -/
def SharedPainted (s : Raster) (r : Rect) (v : α) (b : ℕ → α) : Prop :=
  ∀ x y x' y', x < s.width → y < s.height → ¬ r.Contains x y → s.Shows r x' y' →
    s.index x y = s.index x' y' → b (s.index x y) = v

/-- In `b'` the pixels of the rectangle have a color, and all others are as in `b`. -/
def Fills (s : Raster) (r : Rect) (v : α) (b b' : ℕ → α) : Prop :=
  ∀ x y, x < s.width → y < s.height →
    (r.Contains x y → b' (s.index x y) = v) ∧
      (¬ r.Contains x y → b' (s.index x y) = b (s.index x y))

/-- The pixels from `x₀` and `y₀` on, below `x₁` and `y₁`, row by row. -/
def cells (x₀ x₁ y₀ y₁ : ℕ) : List (ℕ × ℕ) :=
  (List.range' y₀ (y₁ - y₀)).flatMap fun y => (List.range' x₀ (x₁ - x₀)).map fun x => (x, y)

theorem mem_cells {x₀ x₁ y₀ y₁ x y : ℕ} :
    (x, y) ∈ cells x₀ x₁ y₀ y₁ ↔ (x₀ ≤ x ∧ x < x₁) ∧ (y₀ ≤ y ∧ y < y₁) := by
  simp only [cells, List.mem_flatMap, List.mem_map, List.mem_range'_1, Prod.mk.injEq]
  constructor
  · rintro ⟨y', hy, x', hx, rfl, rfl⟩
    omega
  · intro inside
    exact ⟨y, by omega, x, by omega, rfl, rfl⟩

/-- The stores of a color at some pixels. -/
def stores (s : Raster) (v : α) (cells : List (ℕ × ℕ)) : List (ℕ × α) :=
  cells.map fun c => (s.index c.1 c.2, v)

theorem stores_cells (x₀ x₁ y₀ y₁ : ℕ) :
    s.stores v (cells x₀ x₁ y₀ y₁) =
      (List.range' y₀ (y₁ - y₀)).flatMap fun y =>
        (List.range' x₀ (x₁ - x₀)).map fun x => (s.index x y, v) := by
  rw [stores, cells, List.map_flatMap]
  simp only [List.map_map, Function.comp_def]

theorem storeAll_stores (cells : List (ℕ × ℕ)) (a : ℕ) :
    storeAll (s.stores v cells) b a = if ∃ c ∈ cells, s.index c.1 c.2 = a then v else b a := by
  have same : ∀ w ∈ s.stores v cells, w.2 = v := by
    intro w hw
    obtain ⟨c, -, rfl⟩ := List.mem_map.mp hw
    rfl
  rw [storeAll_same same, stores, List.map_map]
  simp only [List.mem_map, Function.comp_apply]

/-- The pixels are numbered row by row. -/
theorem row_lt {width height x y : ℕ} (hx : x < width) (hy : y < height) :
    y * width + x < width * height := by
  calc y * width + x < y * width + width := Nat.add_lt_add_left hx _
    _ = (y + 1) * width := (Nat.succ_mul y width).symm
    _ ≤ height * width := Nat.mul_le_mul_right width hy
    _ = width * height := Nat.mul_comm ..

/-- Pixels that are numbered row by row have different numbers. -/
theorem rows_injective {width x y x' y' : ℕ} (hx : x < width) (hx' : x' < width)
    (same : y * width + x = y' * width + x') : x = x' ∧ y = y' := by
  have pos : 0 < width := Nat.zero_lt_of_lt hx
  have column := congrArg (· % width) same
  have row := congrArg (· / width) same
  simp only [Nat.mul_add_mod', Nat.mod_eq_of_lt hx, Nat.mod_eq_of_lt hx'] at column
  simp only [Nat.mul_comm _ width, Nat.mul_add_div pos, Nat.div_eq_of_lt hx, Nat.div_eq_of_lt hx',
    Nat.add_zero] at row
  exact ⟨column, row⟩

/-- No pixels share an index if their numbers are cut off beyond the last one. -/
theorem sharedPainted_of_rows {m : ℕ} (index : ∀ x y, s.index x y = (y * s.width + x) % m)
    (fits : s.width * s.height ≤ m) (r : Rect) (v : α) (b : ℕ → α) : s.SharedPainted r v b := by
  intro x y x' y' hx hy outside shows same
  have here := (row_lt hx hy).trans_le fits
  have there := (row_lt shows.1.1 shows.1.2).trans_le fits
  rw [index, index, Nat.mod_eq_of_lt here, Nat.mod_eq_of_lt there] at same
  obtain ⟨rfl, rfl⟩ := rows_injective hx shows.1.1 same
  exact absurd shows.2 outside

/-- Without a store the rectangle is filled just when it has its color already. -/
theorem fills_nil_iff : s.Fills r v b b ↔ s.Painted r v b := by
  constructor
  · intro fills x y shows
    exact (fills x y shows.1.1 shows.1.2).1 shows.2
  · intro painted x y hx hy
    exact ⟨fun inside => painted x y ⟨⟨hx, hy⟩, inside⟩, fun _ => rfl⟩

/-- Stores at the pixels of the rectangle fill it unless they reach a pixel outside. -/
theorem fills_cells_iff {cells : List (ℕ × ℕ)} (exact' : ∀ x y, (x, y) ∈ cells ↔ s.Shows r x y) :
    s.Fills r v b (storeAll (s.stores v cells) b) ↔ s.SharedPainted r v b := by
  constructor
  · intro fills x y x' y' hx hy outside shows same
    have kept := (fills x y hx hy).2 outside
    rwa [storeAll_stores, if_pos ⟨(x', y'), (exact' x' y').mpr shows, same.symm⟩, eq_comm] at kept
  · intro shared x y hx hy
    rw [storeAll_stores]
    refine ⟨fun inside => if_pos ⟨(x, y), (exact' x y).mpr ⟨⟨hx, hy⟩, inside⟩, rfl⟩, ?_⟩
    intro outside
    split_ifs with reached
    · obtain ⟨⟨x', y'⟩, mem, same⟩ := reached
      exact (shared x y x' y' hx hy outside ((exact' x' y').mp mem) same.symm).symm
    · rfl

/-- Stores at the pixels of another rectangle leave the screen as it was just when these pixels
have the color already. -/
theorem fills_other_iff {u : Rect} {cells : List (ℕ × ℕ)}
    (exact' : ∀ x y, (x, y) ∈ cells ↔ s.Shows u x y) (hidden : ∀ x y, ¬ s.Shows r x y) :
    s.Fills r v b (storeAll (s.stores v cells) b) ↔ s.Painted u v b := by
  have outside : ∀ x y, x < s.width → y < s.height → ¬ r.Contains x y :=
    fun x y hx hy inside => hidden x y ⟨⟨hx, hy⟩, inside⟩
  constructor
  · intro fills x y shows
    have kept := (fills x y shows.1.1 shows.1.2).2 (outside x y shows.1.1 shows.1.2)
    rwa [storeAll_stores, if_pos ⟨(x, y), (exact' x y).mpr shows, rfl⟩, eq_comm] at kept
  · intro painted x y hx hy
    refine ⟨fun inside => absurd inside (outside x y hx hy), fun _ => ?_⟩
    rw [storeAll_stores]
    split_ifs with reached
    · obtain ⟨⟨x', y'⟩, mem, same⟩ := reached
      rw [← same]
      exact (painted x' y' ((exact' x' y').mp mem)).symm
    · rfl

end Raster

end Kit
