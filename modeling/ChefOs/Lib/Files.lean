import Mathlib.Tactic

/-!
# Cursors on byte strings

Files are byte strings and a descriptor is a cursor on one of them.  Reading and writing move only
the descriptor's own cursor, a write is visible through every descriptor of the file, and no cursor
passes the end of its file.
-/

namespace Kit

variable {α β ν φ : Type*}

/-- Replace the elements from `o` on by `ws`, and extend the list when they do not fit. -/
def splice (bs : List α) (o : ℕ) (ws : List α) : List α :=
  bs.take o ++ ws ++ bs.drop (o + ws.length)

theorem length_splice {bs ws : List α} {o : ℕ} (h : o ≤ bs.length) :
    (splice bs o ws).length = max bs.length (o + ws.length) := by
  simp only [splice, List.length_append, List.length_take, List.length_drop]
  omega

@[simp] theorem splice_nil (bs : List α) (o : ℕ) : splice bs o [] = bs := by
  simp [splice]

theorem map_splice (f : α → β) (bs : List α) (o : ℕ) (ws : List α) :
    (splice bs o ws).map f = splice (bs.map f) o (ws.map f) := by
  simp [splice, List.map_take, List.map_drop]

/-- A splice inside a buffer is a splice of the part of the buffer in use. -/
theorem take_splice {bs ws : List α} {o n : ℕ} (ho : o ≤ n)
    (fits : o + ws.length ≤ bs.length) :
    (splice bs o ws).take (max n (o + ws.length)) = splice (bs.take n) o ws := by
  have front : (bs.take o ++ ws).length = o + ws.length := by
    rw [List.length_append, List.length_take]
    omega
  rw [splice, splice, List.take_append, List.take_of_length_le (by omega), front,
    ← Nat.sub_eq_max_sub, List.take_take, min_eq_left ho, List.drop_take]

/-- The contents of the files and the cursors of the open descriptors. -/
structure Files (ν φ β : Type*) where
  bytes : ν → Option (List β)
  cursor : φ → Option (ν × ℕ)

namespace Files

/-- No cursor is behind the end of its file. -/
def Within (f : Files ν φ β) : Prop :=
  ∀ d n o bs, f.cursor d = some (n, o) → f.bytes n = some bs → o ≤ bs.length

/-- What a read of `count` bytes at `o` returns. -/
def readAt (bs : List β) (o count : ℕ) : List β := (bs.drop o).take count

variable [DecidableEq φ]

/-- Give a descriptor a cursor, or none. -/
def seek (f : Files ν φ β) (d : φ) (c : Option (ν × ℕ)) : Files ν φ β :=
  { f with cursor := Function.update f.cursor d c }

/-- Read `count` bytes through a descriptor at position `o` of file `n`. -/
def read (f : Files ν φ β) (d : φ) (n : ν) (o : ℕ) (bs : List β) (count : ℕ) : Files ν φ β :=
  f.seek d (some (n, o + (readAt bs o count).length))

theorem Within.seek {f : Files ν φ β} (within : f.Within) {d : φ} {c : Option (ν × ℕ)}
    (inside : ∀ n o bs, c = some (n, o) → f.bytes n = some bs → o ≤ bs.length) :
    (f.seek d c).Within := by
  intro e n o bs he hb
  simp only [Files.seek, Function.update_apply] at he
  split_ifs at he
  · exact inside n o bs he hb
  · exact within e n o bs he hb

variable [DecidableEq ν]

/-- Give a file its contents. -/
def put (f : Files ν φ β) (n : ν) (bs : List β) : Files ν φ β :=
  { f with bytes := Function.update f.bytes n (some bs) }

/-- Write `ws` through a descriptor at position `o` of file `n`. -/
def write (f : Files ν φ β) (d : φ) (n : ν) (o : ℕ) (bs ws : List β) : Files ν φ β :=
  (f.put n (splice bs o ws)).seek d (some (n, o + ws.length))

omit [DecidableEq φ] in
/-- A file that only grows leaves all cursors inside. -/
theorem Within.put {f : Files ν φ β} (within : f.Within) {n : ν} {bs cs : List β}
    (contents : f.bytes n = some bs) (grows : bs.length ≤ cs.length) : (f.put n cs).Within := by
  intro e m p ds he hb
  simp only [Files.put, Function.update_apply] at hb
  split_ifs at hb with same
  · obtain rfl := Option.some.inj hb
    subst same
    exact (within e m p bs he contents).trans grows
  · exact within e m p ds he hb

end Files

end Kit
