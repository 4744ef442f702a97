import ChefOs.CString
import ChefOs.Lib.Transfer

/-!
# Copies

`strncpy` and `memmove` of `lib/string.c`.  The padding of `strncpy` is one byte too long when the
string is shorter than its count.  `memmove` works on one memory, in which its ranges may overlap.
-/

namespace ChefOs

open Kit

/-! ## The padding of `strncpy` -/

/-- What the C standard asks `strncpy` to put into the first `n` bytes. -/
def paddedString (src : List UInt8) (n : ℕ) : List UInt8 :=
  (cstr src).take n ++ List.replicate (n - (cstr src).length) 0

theorem padZeros_none {dest : List UInt8} {n : ℕ} (short : dest.length < n) :
    padZeros dest n = none := by
  induction n generalizing dest with
  | zero => exact absurd short (Nat.not_lt_zero _)
  | succ n ih =>
    cases dest with
    | nil => rfl
    | cons d dest =>
      rw [padZeros, ih (Nat.lt_of_succ_lt_succ short)]
      rfl

/-- `strncpy` of a string shorter than `n` leaves a destination of `n` bytes. -/
theorem strncpy_none {dest name src : List UInt8} {n : ℕ} (noNul : 0 ∉ name)
    (short : name.length < n) (full : dest.length ≤ n) :
    strncpy dest (name ++ 0 :: src) n = none := by
  induction name generalizing dest n with
  | nil =>
    obtain ⟨n, rfl⟩ := Nat.exists_eq_add_one.mpr short
    cases dest with
    | nil => rfl
    | cons d dest =>
      rw [List.nil_append, strncpy, if_neg (by simp), padZeros_none]
      · rfl
      · exact Nat.lt_of_succ_le full
  | cons b name ih =>
    obtain ⟨n, rfl⟩ := Nat.exists_eq_add_one.mpr (Nat.zero_lt_of_lt short)
    have char : b ≠ 0 := (List.ne_of_not_mem_cons noNul).symm
    cases dest with
    | nil => rfl
    | cons d dest =>
      rw [List.cons_append, strncpy, if_pos char, ih]
      · rfl
      · exact List.not_mem_of_not_mem_cons noNul
      · exact Nat.lt_of_succ_lt_succ short
      · exact Nat.le_of_succ_le_succ full

/-- `strncpy` writes exactly `n` bytes, as the C standard has them, just when the string is not
shorter than `n`, or the byte behind them is zero before. -/
theorem strncpy_padded_iff {dest src : List UInt8} {n : ℕ} (terminated : 0 ∈ src)
    (room : n ≤ dest.length) :
    strncpy dest src n = some (paddedString src n ++ dest.drop n) ↔
      n ≤ (cstr src).length ∨ dest[n]? = some 0 := by
  obtain ⟨rest, split⟩ := exists_cstr terminated
  have noNul := zero_notMem_cstr src
  unfold paddedString
  generalize cstr src = name at split noNul ⊢
  rw [split]
  by_cases long : n ≤ name.length
  · rw [strncpy_long noNul long room, Nat.sub_eq_zero_of_le long]
    simp [long]
  · have short : name.length < n := not_le.mp long
    rw [or_iff_right long, List.take_of_length_le short.le]
    rcases Nat.lt_or_eq_of_le room with inside | full
    · rw [strncpy_short noNul short inside, List.drop_eq_getElem_cons inside,
        List.getElem?_eq_getElem inside, Nat.succ_sub short.le, List.replicate_succ']
      simp only [List.append_assoc, List.append_cancel_left_eq, List.singleton_append,
        List.cons.injEq, Option.some.injEq, and_true]
      exact eq_comm
    · rw [strncpy_none noNul short full.ge, List.getElem?_eq_none full.ge]
      simp

theorem strncpy_padded_example :
    strncpy ([7, 7, 7] : List UInt8) (cString ['a', 'b']) 2 =
      some (paddedString (cString ['a', 'b']) 2 ++ ([7, 7, 7] : List UInt8).drop 2) :=
  (strncpy_padded_iff (by decide) (by decide)).mpr (.inl (by decide))

/-- The terminator of an empty string is not counted, and the byte behind the count is cleared. -/
theorem padding_too_long :
    ¬ ∀ (dest src : List UInt8) (n : ℕ), 0 ∈ src → n ≤ dest.length →
      strncpy dest src n = some (paddedString src n ++ dest.drop n) := by
  intro claim
  have copied := claim [7, 7] [0] 1 (by decide) (by decide)
  revert copied
  decide

/-! ## Overlapping ranges -/

/-- The bytes of the address space. -/
abbrev AddressSpace := BitVec 64 → UInt8

/-- `while (len--) *d++ = *s++`. -/
def copyUp : ℕ → BitVec 64 → BitVec 64 → AddressSpace → AddressSpace
  | 0, _, _, m => m
  | len + 1, d, s, m => copyUp len (d + 1) (s + 1) (Function.update m d (m s))

/-- `while (len--) *--d = *--s`. -/
def copyDown : ℕ → BitVec 64 → BitVec 64 → AddressSpace → AddressSpace
  | 0, _, _, m => m
  | len + 1, d, s, m => copyDown len (d - 1) (s - 1) (Function.update m (d - 1) (m (s - 1)))

/-- `memmove`. -/
def memmove (dest src len : BitVec 64) (m : AddressSpace) : AddressSpace :=
  if dest < src then copyUp len.toNat dest src m
  else if dest > src then copyDown len.toNat (dest + len) (src + len) m
  else m

/-- The `i`-th bytes of two ranges. -/
def bytePair (d s : BitVec 64) (i : ℕ) : BitVec 64 × BitVec 64 :=
  (d + .ofNat 64 i, s + .ofNat 64 i)

theorem copyUp_eq (n : ℕ) (d s : BitVec 64) (m : AddressSpace) :
    copyUp n d s m = transfer ((List.range n).map (bytePair d s)) m := by
  induction n generalizing d s m with
  | zero => rfl
  | succ n ih =>
    have next : bytePair d s ∘ Nat.succ = bytePair (d + 1) (s + 1) := by
      funext i
      have one (p : BitVec 64) : p + .ofNat 64 (i + 1) = p + 1 + .ofNat 64 i := by
        rw [Nat.add_comm, BitVec.ofNat_add, ← BitVec.add_assoc]
        rfl
      simp only [Function.comp_apply, bytePair, Nat.succ_eq_add_one, one]
    have first : bytePair d s 0 = (d, s) := by simp [bytePair]
    rw [copyUp, ih, List.range_succ_eq_map, List.map_cons, List.map_map, next, first]
    rfl

theorem copyDown_eq (n : ℕ) (d s : BitVec 64) (m : AddressSpace) :
    copyDown n (d + .ofNat 64 n) (s + .ofNat 64 n) m =
      transfer ((List.range n).reverse.map (bytePair d s)) m := by
  induction n generalizing m with
  | zero => rfl
  | succ n ih =>
    have last (p : BitVec 64) : p + .ofNat 64 (n + 1) - 1 = p + .ofNat 64 n := by
      rw [BitVec.ofNat_add, ← BitVec.add_assoc]
      exact BitVec.add_sub_cancel _ _
    rw [copyDown, last, last, ih, List.range_succ, List.reverse_append]
    rfl

theorem toNat_add_ofNat {p : BitVec 64} {i : ℕ} (h : p.toNat + i < 2 ^ 64) :
    (p + .ofNat 64 i).toNat = p.toNat + i := by
  rw [BitVec.toNat_add, BitVec.toNat_ofNat, Nat.add_mod_mod]
  exact Nat.mod_eq_of_lt h

section

variable {d s : BitVec 64} {n : ℕ} (hd : d.toNat + n ≤ 2 ^ 64) (hs : s.toNat + n ≤ 2 ^ 64)
include hd

theorem dest_ne {i j : ℕ} (hi : i < n) (hj : j < n) (ne : i ≠ j) :
    d + .ofNat 64 i ≠ d + .ofNat 64 j := by
  intro same
  apply_fun BitVec.toNat at same
  rw [toNat_add_ofNat (by omega), toNat_add_ofNat (by omega)] at same
  omega

include hs

theorem dest_ne_src {i j : ℕ} (hi : i < n) (hj : j < n) (ne : d.toNat + i ≠ s.toNat + j) :
    d + .ofNat 64 i ≠ s + .ofNat 64 j := by
  intro same
  apply_fun BitVec.toNat at same
  rw [toNat_add_ofNat (by omega), toNat_add_ofNat (by omega)] at same
  exact ne same

/-- Upwards, a byte is written below all bytes that are still to be read. -/
theorem unclobbered_up (below : d < s) : Unclobbered ((List.range n).map (bytePair d s)) := by
  apply List.pairwise_map.mpr
  apply List.pairwise_lt_range.imp_of_mem
  intro i j hi hj lt
  rw [List.mem_range] at hi hj
  have start : d.toNat < s.toNat := below
  constructor
  · exact dest_ne hd hi hj lt.ne
  · apply dest_ne_src hd hs hi hj
    omega

/-- Downwards, a byte is written above all bytes that are still to be read. -/
theorem unclobbered_down (above : s < d) :
    Unclobbered ((List.range n).reverse.map (bytePair d s)) := by
  apply List.pairwise_map.mpr
  apply List.pairwise_reverse.mpr
  apply List.pairwise_lt_range.imp_of_mem
  intro i j hi hj lt
  rw [List.mem_range] at hi hj
  have start : s.toNat < d.toNat := above
  constructor
  · exact dest_ne hd hj hi lt.ne'
  · apply dest_ne_src hd hs hj hi
    omega

end

/-- Any order of the assignments in which none is clobbered moves the range. -/
theorem transfer_range {d s : BitVec 64} {n : ℕ} {order : List ℕ} (all : ∀ i, i ∈ order ↔ i < n)
    (unclobbered : Unclobbered (order.map (bytePair d s))) (m : AddressSpace) :
    (∀ i < n, transfer (order.map (bytePair d s)) m (d + .ofNat 64 i) = m (s + .ofNat 64 i)) ∧
      ∀ a, (∀ i < n, a ≠ d + .ofNat 64 i) → transfer (order.map (bytePair d s)) m a = m a := by
  constructor
  · intro i hi
    exact transfer_mem unclobbered (List.mem_map_of_mem ((all i).mpr hi)) m
  · intro a outside
    apply transfer_other
    intro p hp
    obtain ⟨i, hi, rfl⟩ := List.mem_map.mp hp
    exact outside i ((all i).mp hi)

/-- `memmove` leaves in the destination what the source held before, however the two overlap, and
changes nothing else. -/
theorem memmove_moves {dest src len : BitVec 64} (hdest : dest.toNat + len.toNat ≤ 2 ^ 64)
    (hsrc : src.toNat + len.toNat ≤ 2 ^ 64) (m : AddressSpace) :
    (∀ i < len.toNat, memmove dest src len m (dest + .ofNat 64 i) = m (src + .ofNat 64 i)) ∧
      ∀ a, (∀ i < len.toNat, a ≠ dest + .ofNat 64 i) → memmove dest src len m a = m a := by
  unfold memmove
  by_cases below : dest < src
  · rw [if_pos below, copyUp_eq]
    exact transfer_range (fun _ => List.mem_range) (unclobbered_up hdest hsrc below) m
  by_cases above : dest > src
  · have down := copyDown_eq len.toNat dest src m
    rw [BitVec.ofNat_toNat, BitVec.setWidth_eq] at down
    rw [if_neg below, if_pos above, down]
    apply transfer_range _ (unclobbered_down hdest hsrc above)
    simp
  · have same : dest = src := by
      apply BitVec.le_antisymm
      · exact BitVec.not_lt.mp above
      · exact BitVec.not_lt.mp below
    rw [if_neg below, if_neg above, same]
    exact ⟨fun _ _ => rfl, fun _ _ => rfl⟩

/-- Every byte is the low byte of its address. -/
def counting : AddressSpace := fun a => .ofNat a.toNat

theorem memmove_moves_example :
    (∀ i < (4 : BitVec 64).toNat, memmove 2 0 4 counting (2 + .ofNat 64 i) =
        counting (0 + .ofNat 64 i)) ∧
      ∀ a, (∀ i < (4 : BitVec 64).toNat, a ≠ 2 + .ofNat 64 i) →
        memmove 2 0 4 counting a = counting a :=
  memmove_moves (by decide) (by decide) counting

end ChefOs
