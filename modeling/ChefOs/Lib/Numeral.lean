import Mathlib.Data.Nat.Digits.Lemmas
import Mathlib.Tactic

/-!
# Numerals

Numbers written with the digits of an alphabet, most significant digit first, and how they are
read.  A numeral has no leading zero, so a number has one numeral only.
-/

namespace Kit

variable {α : Type*} {b : ℕ}

/-- The digits to the base `b`, and what a character stands for. -/
structure Alphabet (α : Type*) (b : ℕ) where
  digit : ℕ → α
  value : α → Option ℕ
  base : 2 ≤ b
  value_digit : ∀ d < b, value (digit d) = some d

namespace Alphabet

variable (A : Alphabet α b)

/-- The numeral of a number.  Zero has one digit. -/
def numeral (n : ℕ) : List α :=
  if n = 0 then [A.digit 0] else ((Nat.digits b n).map A.digit).reverse

/-- One more digit is read. -/
def push (n : Option ℕ) (c : α) : Option ℕ := n.bind fun n => (A.value c).map fun d => n * b + d

/-- The number that a text stands for. -/
def parse (t : List α) : Option ℕ := if t.isEmpty then none else t.foldl A.push (some 0)

include A in
theorem base_pos : 0 < b := lt_of_lt_of_le two_pos A.base

theorem numeral_zero : A.numeral 0 = [A.digit 0] := rfl

theorem numeral_pos {n : ℕ} (pos : 0 < n) :
    A.numeral n = ((Nat.digits b n).map A.digit).reverse := if_neg pos.ne'

theorem numeral_ne_nil (n : ℕ) : A.numeral n ≠ [] := by
  obtain rfl | pos := Nat.eq_zero_or_pos n
  · rw [numeral_zero]
    exact List.cons_ne_nil _ _
  · rw [A.numeral_pos pos, ne_eq, List.reverse_eq_nil_iff, List.map_eq_nil_iff]
    exact Nat.digits_ne_nil_iff_ne_zero.mpr pos.ne'

/-- The digits of a number, read from the most significant one. -/
theorem foldl_push (ds : List ℕ) (small : ∀ d ∈ ds, d < b) :
    (ds.map A.digit).reverse.foldl A.push (some 0) = some (Nat.ofDigits b ds) := by
  induction ds with
  | nil => rfl
  | cons d ds ih =>
    have here := A.value_digit d (small d List.mem_cons_self)
    have rest := ih fun e he => small e (List.mem_cons_of_mem d he)
    rw [List.map_cons, List.reverse_cons, List.foldl_append, rest, Nat.ofDigits_cons]
    simp only [List.foldl_cons, List.foldl_nil, push, Option.bind_some, here, Option.map_some]
    rw [Nat.mul_comm, Nat.add_comm]

theorem parse_numeral (n : ℕ) : A.parse (A.numeral n) = some n := by
  rw [parse, if_neg (by simpa using A.numeral_ne_nil n)]
  obtain rfl | pos := Nat.eq_zero_or_pos n
  · simp [numeral_zero, push, A.value_digit 0 A.base_pos]
  · rw [A.numeral_pos pos, A.foldl_push _ fun d hd => Nat.digits_lt_base A.base hd,
      Nat.ofDigits_digits]

theorem numeral_digits {n : ℕ} {c : α} (mem : c ∈ A.numeral n) : ∃ d < b, c = A.digit d := by
  obtain rfl | pos := Nat.eq_zero_or_pos n
  · exact ⟨0, A.base_pos, List.mem_singleton.mp mem⟩
  · rw [A.numeral_pos pos, List.mem_reverse, List.mem_map] at mem
    obtain ⟨d, hd, rfl⟩ := mem
    exact ⟨d, Nat.digits_lt_base A.base hd, rfl⟩

/-! ## Signed numerals -/

variable [DecidableEq α] {minus : α}

/-- The numeral of an integer, behind `minus` if it is negative. -/
def signed (minus : α) (z : ℤ) : List α :=
  if z < 0 then minus :: A.numeral z.natAbs else A.numeral z.natAbs

/-- The integer that a text stands for. -/
def parseSigned (minus : α) : List α → Option ℤ
  | [] => none
  | c :: t =>
    if c = minus then (A.parse t).map fun n : ℕ => -(n : ℤ)
    else (A.parse (c :: t)).map fun n : ℕ => (n : ℤ)

omit [DecidableEq α] in
/-- A character that is no digit is not in a numeral. -/
theorem head_ne_minus (none : A.value minus = none) {n : ℕ} {c : α} {t : List α}
    (eq : A.numeral n = c :: t) : c ≠ minus := by
  rintro rfl
  obtain ⟨d, hd, rfl⟩ := A.numeral_digits (n := n) (eq ▸ List.mem_cons_self)
  rw [A.value_digit d hd] at none
  exact absurd none (Option.some_ne_none d)

theorem parseSigned_signed (none : A.value minus = none) (z : ℤ) :
    A.parseSigned minus (A.signed minus z) = some z := by
  rw [signed]
  split_ifs with negative
  · rw [parseSigned, if_pos rfl, A.parse_numeral, Option.map_some]
    congr 1
    omega
  · cases eq : A.numeral z.natAbs with
    | nil => exact absurd eq (A.numeral_ne_nil _)
    | cons c t =>
      rw [parseSigned, if_neg (A.head_ne_minus none eq), ← eq, A.parse_numeral, Option.map_some]
      congr 1
      omega

theorem signed_injective (none : A.value minus = none) :
    Function.Injective (A.signed minus) := by
  intro y z same
  apply Option.some.inj
  rw [← A.parseSigned_signed none y, ← A.parseSigned_signed none z, same]

end Alphabet

end Kit
