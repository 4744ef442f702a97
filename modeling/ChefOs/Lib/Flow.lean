import Mathlib.Tactic

/-!
# Text in columns

A cursor walks over a page of a fixed number of columns and rows without end.  Before a symbol is
put behind the last column the cursor goes to the next row, and a break always leads to the next
row.  Where a symbol lands is seen from the lengths of the lines before it.
-/

namespace Kit

/-- A cell of the page. -/
@[ext] structure Cell where
  row : ℕ
  column : ℕ
deriving DecidableEq

namespace Cell

/-- The start of the next row. -/
def newLine (p : Cell) : Cell := ⟨p.row + 1, 0⟩

/-- The cell of the next symbol, where there are so many columns. -/
def wrap (columns : ℕ) (p : Cell) : Cell := if p.column < columns then p else p.newLine

/-- The cursor after a symbol. -/
def put (columns : ℕ) (p : Cell) : Cell := ⟨(p.wrap columns).row, (p.wrap columns).column + 1⟩

end Cell

/-- The lengths of the lines of a text: of those that have ended, and of the last one. -/
structure Lines where
  ended : List ℕ
  current : ℕ
deriving DecidableEq

section

variable {α : Type*}

/-- The lines with a symbol more. -/
def Lines.add (isBreak : α → Bool) (l : Lines) (a : α) : Lines :=
  if isBreak a then ⟨l.ended ++ [l.current], 0⟩ else ⟨l.ended, l.current + 1⟩

/-- The lines of a text. -/
def linesOf (isBreak : α → Bool) (as : List α) : Lines := as.foldl (Lines.add isBreak) ⟨[], 0⟩

/-- The cursor after a symbol or a break. -/
def Cell.step (columns : ℕ) (isBreak : α → Bool) (p : Cell) (a : α) : Cell :=
  if isBreak a then p.newLine else p.put columns

/-- The cursor after a text. -/
def cursorOf (columns : ℕ) (isBreak : α → Bool) (as : List α) : Cell :=
  as.foldl (Cell.step columns isBreak) ⟨0, 0⟩

end

/-- The number of rows of a line: at least one. -/
def lineRows (columns n : ℕ) : ℕ := (n - 1) / columns + 1

/-- The cell of the next symbol after the lines. -/
def Lines.cell (columns : ℕ) (l : Lines) : Cell :=
  ⟨(l.ended.map (lineRows columns)).sum + l.current / columns, l.current % columns⟩

/-- Where the cursor stands after the lines.  It is left behind the last column. -/
def Lines.cursor (columns : ℕ) (l : Lines) : Cell :=
  match l.current with
  | 0 => ⟨(l.ended.map (lineRows columns)).sum, 0⟩
  | n + 1 => ⟨(l.ended.map (lineRows columns)).sum + n / columns, n % columns + 1⟩

section

variable {columns : ℕ} (pos : 0 < columns)
include pos

/-- The next symbol gets its cell. -/
theorem Lines.wrap_cursor (l : Lines) : (l.cursor columns).wrap columns = l.cell columns := by
  obtain ⟨ended, current⟩ := l
  cases current with
  | zero =>
    rw [cell, Nat.zero_div, Nat.zero_mod]
    exact if_pos pos
  | succ n =>
    have below := Nat.mod_lt n pos
    have whole := Nat.mod_add_div n columns
    rw [Cell.wrap, cell, cursor]
    dsimp only
    split_ifs with room
    · obtain ⟨div, mod⟩ := (Nat.div_mod_unique pos (c := n % columns + 1) (d := n / columns)
        (a := n + 1)).mpr ⟨by omega, room⟩
      rw [div, mod]
    · obtain ⟨div, mod⟩ := (Nat.div_mod_unique pos (c := 0) (d := n / columns + 1)
        (a := n + 1)).mpr ⟨by rw [Nat.mul_succ]; omega, pos⟩
      rw [div, mod]
      rfl

variable {α : Type*} (isBreak : α → Bool)

/-- A symbol or a break moves the cursor as it changes the lines. -/
theorem Lines.cursor_add (l : Lines) (a : α) :
    (l.add isBreak a).cursor columns = (l.cursor columns).step columns isBreak a := by
  rw [Lines.add, Cell.step]
  split_ifs
  · obtain ⟨ended, current⟩ := l
    rw [cursor, List.map_append, List.sum_append]
    cases current with
    | zero =>
      simp only [List.map_cons, lineRows, Nat.zero_sub, Nat.zero_div]
      rfl
    | succ n => rfl
  · rw [Cell.put, l.wrap_cursor pos]
    rfl

/-- The cursor after a text stands behind its lines. -/
theorem cursorOf_eq (as : List α) :
    cursorOf columns isBreak as = (linesOf isBreak as).cursor columns := by
  unfold cursorOf linesOf
  generalize start : (⟨[], 0⟩ : Lines) = l
  have stands : (⟨0, 0⟩ : Cell) = l.cursor columns := by
    rw [← start]
    rfl
  rw [stands]
  clear start stands
  induction as generalizing l with
  | nil => rfl
  | cons a as ih =>
    rw [List.foldl_cons, List.foldl_cons, ← ih, l.cursor_add pos isBreak a]

/-- The cell of a symbol behind a text. -/
theorem wrap_cursorOf (as : List α) :
    (cursorOf columns isBreak as).wrap columns = (linesOf isBreak as).cell columns := by
  rw [cursorOf_eq pos, Lines.wrap_cursor pos]

/-- The symbols are within the columns. -/
theorem Lines.cell_column_lt (l : Lines) : (l.cell columns).column < columns :=
  Nat.mod_lt _ pos

/-- The cursor is at most behind the last column. -/
theorem Cell.step_column_le (p : Cell) (a : α) : (p.step columns isBreak a).column ≤ columns := by
  rw [Cell.step]
  split_ifs
  · exact Nat.zero_le _
  · rw [Cell.put, Cell.wrap]
    split_ifs with room
    · exact room
    · exact pos

end

end Kit
