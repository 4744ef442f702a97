import Mathlib.Data.List.TakeWhile
import Mathlib.Tactic

/-!
# C strings

`lib/string.c` over regions of bytes.  A pointer is the list of bytes from it to the end of its
region, and a function that runs past the end of a region has no result.
-/

namespace ChefOs

/-- `memcpy`, into the bytes from `dest` on. -/
def memcpy {α : Type} : List α → List α → ℕ → Option (List α)
  | dest, _, 0 => some dest
  | _ :: dest, b :: src, len + 1 => (memcpy dest src len).map (b :: ·)
  | _, _, _ + 1 => none

/-- `strcmp`. -/
def strcmp : List UInt8 → List UInt8 → Option ℤ
  | a :: s1, b :: s2 => if a ≠ 0 ∧ a = b then strcmp s1 s2 else some ((a.toNat : ℤ) - b.toNat)
  | _, _ => none

/-- `strncmp`. -/
def strncmp : List UInt8 → List UInt8 → ℕ → Option ℤ
  | _, _, 0 => some 0
  | a :: s1, b :: s2, n + 1 =>
    if a ≠ 0 ∧ a = b then strncmp s1 s2 n else some ((a.toNat : ℤ) - b.toNat)
  | _, _, _ + 1 => none

/-- `strcpy`, into the bytes from `dest` on. -/
def strcpy : List UInt8 → List UInt8 → Option (List UInt8)
  | _ :: dest, b :: src => if b ≠ 0 then (strcpy dest src).map (b :: ·) else some (b :: dest)
  | _, _ => none

/-- The second loop of `strncpy`: `n` bytes of padding. -/
def padZeros : List UInt8 → ℕ → Option (List UInt8)
  | dest, 0 => some dest
  | _ :: dest, n + 1 => (padZeros dest n).map (0 :: ·)
  | [], _ + 1 => none

/-- `strncpy`, into the bytes from `dest` on.  The terminator that ends the copy is not counted
against `n`. -/
def strncpy : List UInt8 → List UInt8 → ℕ → Option (List UInt8)
  | dest, _, 0 => padZeros dest 0
  | _ :: dest, b :: src, n + 1 =>
    if b ≠ 0 then (strncpy dest src n).map (b :: ·) else (padZeros dest (n + 1)).map (b :: ·)
  | _, _, _ + 1 => none

/-- A string literal. -/
def cString (chars : List Char) : List UInt8 := chars.map (fun c => UInt8.ofNat c.toNat) ++ [0]

/-- The string a region holds: its bytes before the first zero. -/
def cstr (bytes : List UInt8) : List UInt8 := bytes.takeWhile (· ≠ 0)

/-! ## Copying -/

theorem memcpy_eq {α : Type} {dest src : List α} {len : ℕ} (hdest : len ≤ dest.length)
    (hsrc : len ≤ src.length) : memcpy dest src len = some (src.take len ++ dest.drop len) := by
  induction len generalizing dest src with
  | zero => simp [memcpy]
  | succ len ih =>
    cases dest with
    | nil => simp at hdest
    | cons d dest =>
      cases src with
      | nil => simp at hsrc
      | cons b src =>
        rw [memcpy, ih (by simpa using hdest) (by simpa using hsrc)]
        rfl

theorem memcpy_some {α : Type} {dest src r : List α} {len : ℕ}
    (h : memcpy dest src len = some r) : len ≤ dest.length ∧ len ≤ src.length := by
  induction len generalizing dest src r with
  | zero => simp
  | succ len ih =>
    cases dest with
    | nil => simp [memcpy] at h
    | cons d dest =>
      cases src with
      | nil => simp [memcpy] at h
      | cons b src =>
        rw [memcpy, Option.map_eq_some_iff] at h
        obtain ⟨r', h, -⟩ := h
        simpa using ih h

theorem padZeros_eq {dest : List UInt8} {n : ℕ} (h : n ≤ dest.length) :
    padZeros dest n = some (List.replicate n 0 ++ dest.drop n) := by
  induction n generalizing dest with
  | zero => simp [padZeros]
  | succ n ih =>
    cases dest with
    | nil => simp at h
    | cons d dest =>
      rw [padZeros, ih (by simpa using h), List.replicate_succ]
      rfl

/-! ## Strings in regions -/

theorem cstr_append_zero {name : List UInt8} (noNul : 0 ∉ name) (rest : List UInt8) :
    cstr (name ++ 0 :: rest) = name := by
  induction name with
  | nil => simp [cstr]
  | cons b name ih =>
    obtain ⟨hb, hname⟩ := not_or.mp (mt List.mem_cons.mpr noNul)
    have hb : b ≠ 0 := fun h => hb h.symm
    rw [List.cons_append, cstr, List.takeWhile_cons_of_pos (by simpa using hb), ← cstr, ih hname]

theorem cstr_zero (bytes : List UInt8) : cstr (0 :: bytes) = [] :=
  List.takeWhile_cons_of_neg (by simp)

theorem cstr_cons {b : UInt8} (char : b ≠ 0) (bytes : List UInt8) :
    cstr (b :: bytes) = b :: cstr bytes := List.takeWhile_cons_of_pos (by simpa using char)

theorem zero_notMem_cstr (bytes : List UInt8) : 0 ∉ cstr bytes := fun h => by
  simpa using List.mem_takeWhile_imp h

/-- A terminated region is its string, a zero, and bytes behind it. -/
theorem exists_cstr {bytes : List UInt8} (terminated : 0 ∈ bytes) :
    ∃ rest, bytes = cstr bytes ++ 0 :: rest := by
  induction bytes with
  | nil => exact absurd terminated List.not_mem_nil
  | cons b bytes ih =>
    by_cases hb : b = 0
    · exact ⟨bytes, by simp [cstr, hb]⟩
    · have later : 0 ∈ bytes := by
        rcases List.mem_cons.mp terminated with h | h
        · exact absurd h.symm hb
        · exact h
      obtain ⟨rest, hrest⟩ := ih later
      refine ⟨rest, ?_⟩
      rw [cstr, List.takeWhile_cons_of_pos (by simpa using hb), List.cons_append, ← cstr, ← hrest]

/-- `strcmp` compares the strings the two regions hold. -/
theorem strcmp_spec {s1 s2 : List UInt8} (h1 : 0 ∈ s1) (h2 : 0 ∈ s2) :
    ∃ d, strcmp s1 s2 = some d ∧ (d = 0 ↔ cstr s1 = cstr s2) := by
  induction s1 generalizing s2 with
  | nil => exact absurd h1 List.not_mem_nil
  | cons a s1 ih =>
    cases s2 with
    | nil => exact absurd h2 List.not_mem_nil
    | cons b s2 =>
      rw [strcmp]
      by_cases ha : a = 0
      · refine ⟨_, if_neg (by simp [ha]), ?_⟩
        by_cases hb : b = 0
        · simp [cstr, ha, hb]
        · have : b.toNat ≠ 0 := fun h => hb (UInt8.toNat_inj.mp h)
          simp [cstr, ha, hb, this]
      · by_cases hab : a = b
        · subst hab
          have later : ∀ l, 0 ∈ a :: l → 0 ∈ l := fun l h =>
            (List.mem_cons.mp h).resolve_left fun h => ha h.symm
          obtain ⟨d, call, hd⟩ := ih (later _ h1) (later _ h2)
          refine ⟨d, by rw [if_pos ⟨ha, rfl⟩, call], hd.trans ?_⟩
          simp [cstr, ha]
        · refine ⟨_, if_neg (by simp [hab]), ?_⟩
          have hne : (a.toNat : ℤ) - b.toNat ≠ 0 := fun h =>
            hab (UInt8.toNat_inj.mp (by omega))
          apply iff_of_false hne
          intro h
          by_cases hb : b = 0
          · simp [cstr, ha, hb] at h
          · simp [cstr, ha, hb, hab] at h

/-- `strncpy` of a string that does not fit copies its first `n` bytes and no terminator. -/
theorem strncpy_long {dest name src : List UInt8} {n : ℕ} (noNul : 0 ∉ name)
    (long : n ≤ name.length) (room : n ≤ dest.length) :
    strncpy dest (name ++ src) n = some (name.take n ++ dest.drop n) := by
  induction n generalizing dest name with
  | zero => simp [strncpy, padZeros]
  | succ n ih =>
    cases name with
    | nil => simp at long
    | cons b name =>
      cases dest with
      | nil => simp at room
      | cons d dest =>
        obtain ⟨hb, hname⟩ := not_or.mp (mt List.mem_cons.mpr noNul)
        have hb : b ≠ 0 := fun h => hb h.symm
        rw [List.cons_append, strncpy, if_pos hb, ih hname (by simpa using long)
          (by simpa using room)]
        rfl

/-- `strncpy` of a string shorter than `n` pads it with zeros, one byte beyond `n`. -/
theorem strncpy_short {dest name src : List UInt8} {n : ℕ} (noNul : 0 ∉ name)
    (short : name.length < n) (room : n + 1 ≤ dest.length) :
    strncpy dest (name ++ 0 :: src) n =
      some (name ++ List.replicate (n + 1 - name.length) 0 ++ dest.drop (n + 1)) := by
  induction name generalizing dest n with
  | nil =>
    obtain ⟨n, rfl⟩ : ∃ m, n = m + 1 := ⟨n - 1, by simp at short; omega⟩
    cases dest with
    | nil => simp at room
    | cons d dest =>
      rw [List.nil_append, strncpy, if_neg (by simp), padZeros_eq (by simpa using room)]
      simp [List.replicate_succ]
  | cons b name ih =>
    obtain ⟨n, rfl⟩ : ∃ m, n = m + 1 := ⟨n - 1, by simp at short; omega⟩
    cases dest with
    | nil => simp at room
    | cons d dest =>
      obtain ⟨hb, hname⟩ := not_or.mp (mt List.mem_cons.mpr noNul)
      have hb : b ≠ 0 := fun h => hb h.symm
      rw [List.cons_append, strncpy, if_pos hb, ih hname (by simpa using short)
        (by simpa using room)]
      simp

/-- A 128-byte name field after `strncpy(name, src, 127)`: the first 127 bytes of the string, with
zeros behind them. -/
theorem strncpy_name {src : List UInt8} (terminated : 0 ∈ src) :
    strncpy (List.replicate 128 0) src 127 = some ((cstr src).take 127 ++
      List.replicate (128 - ((cstr src).take 127).length) 0) := by
  obtain ⟨rest, split⟩ := exists_cstr terminated
  have noNul := zero_notMem_cstr src
  generalize cstr src = name at split noNul
  rw [split]
  by_cases short : name.length < 127
  · rw [strncpy_short noNul short (by simp), List.take_of_length_le (by omega),
      List.drop_of_length_le (by simp), List.append_nil]
  · rw [strncpy_long noNul (by omega) (by simp), List.drop_replicate, List.length_take,
      min_eq_left (by omega)]

end ChefOs
