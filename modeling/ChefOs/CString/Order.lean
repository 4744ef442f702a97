import ChefOs.CString

/-!
# The order of strings

`strcmp` subtracts the bytes at the first place where two strings differ, where a terminator counts
as the byte zero.  `strncmp` does the same to the parts of the strings that it may read.
-/

namespace ChefOs

/-- What two strings differ by. -/
def difference : List UInt8 → List UInt8 → ℤ
  | [], [] => 0
  | [], b :: _ => -b.toNat
  | a :: _, [] => a.toNat
  | a :: s, b :: t => if a = b then difference s t else (a.toNat : ℤ) - b.toNat

theorem toNat_pos {b : UInt8} (char : b ≠ 0) : 0 < b.toNat := by
  apply Nat.pos_of_ne_zero
  intro zero
  exact char (UInt8.toNat_inj.mp zero)

/-! ## The sign of the difference -/

theorem difference_swap (s t : List UInt8) : difference t s = -difference s t := by
  fun_induction difference s t with
  | case1 => rfl
  | case2 b t => simp [difference]
  | case3 a s => rfl
  | case4 s b t ih => rw [difference, if_pos rfl, ih]
  | case5 a s b t other =>
    rw [difference, if_neg (Ne.symm other)]
    omega

theorem difference_neg_iff {s t : List UInt8} (hs : 0 ∉ s) (ht : 0 ∉ t) :
    difference s t < 0 ↔ s < t := by
  fun_induction difference s t with
  | case1 => simp
  | case2 b t =>
    have char := toNat_pos (List.ne_of_not_mem_cons ht).symm
    simp [char]
  | case3 a s => simp
  | case4 s b t ih =>
    have ih := ih (List.not_mem_of_not_mem_cons hs) (List.not_mem_of_not_mem_cons ht)
    rw [List.cons_lt_cons_iff, ih]
    simp
  | case5 a s b t other =>
    rw [List.cons_lt_cons_iff, UInt8.lt_iff_toNat_lt]
    simp [other]

theorem difference_eq_zero_iff {s t : List UInt8} (hs : 0 ∉ s) (ht : 0 ∉ t) :
    difference s t = 0 ↔ s = t := by
  fun_induction difference s t with
  | case1 => simp
  | case2 b t =>
    have char := toNat_pos (List.ne_of_not_mem_cons ht).symm
    simp [char.ne']
  | case3 a s =>
    have char := toNat_pos (List.ne_of_not_mem_cons hs).symm
    simp [char.ne']
  | case4 s b t ih =>
    rw [ih (List.not_mem_of_not_mem_cons hs) (List.not_mem_of_not_mem_cons ht)]
    simp
  | case5 a s b t other =>
    have bytes : a.toNat ≠ b.toNat := fun same => other (UInt8.toNat_inj.mp same)
    apply iff_of_false
    · omega
    · simp [other]

theorem difference_pos_iff {s t : List UInt8} (hs : 0 ∉ s) (ht : 0 ∉ t) :
    0 < difference s t ↔ t < s := by
  rw [← difference_neg_iff ht hs, difference_swap]
  omega

/-! ## The loops -/

/-- A terminator in one region ends the loop of `strcmp`, whatever is behind it. -/
theorem strcmp_eq {s t : List UInt8} (hs : 0 ∉ s) (ht : 0 ∉ t) (p q : List UInt8) :
    strcmp (s ++ 0 :: p) (t ++ 0 :: q) = some (difference s t) := by
  fun_induction difference s t with
  | case1 => rfl
  | case2 b t => simp [strcmp]
  | case3 a s =>
    have char : a ≠ 0 := (List.ne_of_not_mem_cons hs).symm
    simp [strcmp, char]
  | case4 s b t ih =>
    have char : b ≠ 0 := (List.ne_of_not_mem_cons hs).symm
    rw [List.cons_append, List.cons_append, strcmp, if_pos ⟨char, rfl⟩]
    exact ih (List.not_mem_of_not_mem_cons hs) (List.not_mem_of_not_mem_cons ht)
  | case5 a s b t other =>
    rw [List.cons_append, List.cons_append, strcmp]
    exact if_neg fun same => other same.2

/-- `strncmp` needs the strings with their terminators, but no more than `n` bytes of them. -/
theorem strncmp_eq {s t : List UInt8} (hs : 0 ∉ s) (ht : 0 ∉ t) (n : ℕ) (p q : List UInt8) :
    strncmp ((s ++ [0]).take n ++ p) ((t ++ [0]).take n ++ q) n =
      some (difference (s.take n) (t.take n)) := by
  induction n generalizing s t with
  | zero => simp [strncmp, difference]
  | succ n ih =>
    cases s with
    | nil => cases t <;> simp [strncmp, difference]
    | cons a s =>
      have char : a ≠ 0 := (List.ne_of_not_mem_cons hs).symm
      cases t with
      | nil => simp [strncmp, difference, char]
      | cons b t =>
        rw [List.cons_append, List.cons_append, List.take_succ_cons, List.take_succ_cons,
          List.cons_append, List.cons_append, strncmp, List.take_succ_cons, List.take_succ_cons,
          difference]
        by_cases same : a = b
        · rw [if_pos ⟨char, same⟩, if_pos same]
          exact ih (List.not_mem_of_not_mem_cons hs) (List.not_mem_of_not_mem_cons ht)
        · rw [if_neg fun h => same h.2, if_neg same]

theorem notMem_take {s : List UInt8} (hs : 0 ∉ s) (n : ℕ) : 0 ∉ s.take n := fun mem =>
  hs (List.mem_of_mem_take mem)

/-- `strncmp` with the length of a string tells whether the other one begins with it, as the shell
asks for the commands with arguments. -/
theorem strncmp_zero_iff {s t : List UInt8} (hs : 0 ∉ s) (ht : 0 ∉ t) (p q : List UInt8) :
    strncmp (s ++ 0 :: p) (t ++ 0 :: q) t.length = some 0 ↔ t <+: s := by
  have region : ∀ u v : List UInt8, u ++ 0 :: v =
      (u ++ [0]).take t.length ++ ((u ++ [0]).drop t.length ++ v) := by
    intro u v
    rw [← List.append_assoc, List.take_append_drop, List.append_assoc]
    rfl
  rw [region s p, region t q, strncmp_eq hs ht, Option.some_inj,
    difference_eq_zero_iff (notMem_take hs _) (notMem_take ht _), List.take_length,
    List.prefix_iff_eq_take]
  exact eq_comm

/-! ## One order -/

/-- `strcmp` orders strings lexicographically by their bytes, and `strncmp` does to two strings what
`strcmp` does to their parts of at most `n` bytes.  Neither needs a byte behind a terminator, or
behind the first `n`. -/
theorem stringOrder {s t : List UInt8} (hs : 0 ∉ s) (ht : 0 ∉ t) (n : ℕ) :
    ∃ d e : ℤ, (∀ p q, strcmp (s ++ 0 :: p) (t ++ 0 :: q) = some d) ∧
      (d < 0 ↔ s < t) ∧ (d = 0 ↔ s = t) ∧ (0 < d ↔ t < s) ∧
      (∀ p q, strncmp ((s ++ [0]).take n ++ p) ((t ++ [0]).take n ++ q) n = some e) ∧
      strcmp (s.take n ++ [0]) (t.take n ++ [0]) = some e := by
  refine ⟨difference s t, difference (s.take n) (t.take n), strcmp_eq hs ht,
    difference_neg_iff hs ht, difference_eq_zero_iff hs ht, difference_pos_iff hs ht,
    strncmp_eq hs ht n, ?_⟩
  exact strcmp_eq (notMem_take hs n) (notMem_take ht n) [] []

/-- Two strings with bytes from `0x80` on. -/
def accented : List UInt8 × List UInt8 := ([0x61, 0xE9], [0x61, 0x7A])

theorem stringOrder_example :
    ∃ d e : ℤ, (∀ p q, strcmp (accented.1 ++ 0 :: p) (accented.2 ++ 0 :: q) = some d) ∧
      (d < 0 ↔ accented.1 < accented.2) ∧ (d = 0 ↔ accented.1 = accented.2) ∧
      (0 < d ↔ accented.2 < accented.1) ∧
      (∀ p q, strncmp ((accented.1 ++ [0]).take 1 ++ p) ((accented.2 ++ [0]).take 1 ++ q) 1 =
        some e) ∧
      strcmp (accented.1.take 1 ++ [0]) (accented.2.take 1 ++ [0]) = some e :=
  stringOrder (by decide) (by decide) 1

end ChefOs
