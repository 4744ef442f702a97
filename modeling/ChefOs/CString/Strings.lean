import ChefOs.CString

/-!
# Building strings

`strlen`, `strcpy` and `strcat` of `lib/string.c`: what they leave in the region, and that they stay
inside it exactly when the string and its terminator fit.
-/

namespace ChefOs

/-- `strlen`. -/
def strlen : List UInt8 → Option ℕ
  | b :: s => if b ≠ 0 then (strlen s).map (· + 1) else some 0
  | [] => none

/-- `strcat`: the first loop finds the terminator, where the second one copies to. -/
def strcat : List UInt8 → List UInt8 → Option (List UInt8)
  | d :: dest, src => if d ≠ 0 then (strcat dest src).map (d :: ·) else strcpy (d :: dest) src
  | [], _ => none

theorem strlen_eq {s : List UInt8} (terminated : 0 ∈ s) : strlen s = some (cstr s).length := by
  induction s with
  | nil => exact absurd terminated List.not_mem_nil
  | cons b s ih =>
    by_cases hb : b = 0
    · subst hb
      rw [strlen, if_neg (by simp), cstr_zero, List.length_nil]
    · rw [strlen, if_pos hb, ih ((List.mem_cons.mp terminated).resolve_left (Ne.symm hb)),
        cstr_cons hb]
      rfl

/-- `strcpy` runs past the end of its region unless the string and its terminator fit. -/
theorem strcpy_eq {dest src : List UInt8} (terminated : 0 ∈ src) :
    strcpy dest src =
      if (cstr src).length < dest.length then
        some (cstr src ++ 0 :: dest.drop ((cstr src).length + 1))
      else none := by
  induction src generalizing dest with
  | nil => exact absurd terminated List.not_mem_nil
  | cons b src ih =>
    cases dest with
    | nil => simp [strcpy]
    | cons d dest =>
      by_cases hb : b = 0
      · subst hb
        simp [strcpy, cstr_zero]
      · rw [strcpy, if_pos hb, ih ((List.mem_cons.mp terminated).resolve_left (Ne.symm hb)),
          cstr_cons hb]
        by_cases fits : (cstr src).length < dest.length
        · simp [fits]
        · simp [fits]

/-- `strcat` appends, in a region in which both strings and a terminator fit. -/
theorem strcat_eq {dest src : List UInt8} (terminated : 0 ∈ dest) (terminated' : 0 ∈ src) :
    strcat dest src =
      if (cstr dest).length + (cstr src).length < dest.length then
        some (cstr dest ++ cstr src ++
          0 :: dest.drop ((cstr dest).length + (cstr src).length + 1))
      else none := by
  induction dest with
  | nil => exact absurd terminated List.not_mem_nil
  | cons d dest ih =>
    by_cases hd : d = 0
    · subst hd
      rw [strcat, if_neg (by simp), strcpy_eq terminated', cstr_zero]
      simp
    · rw [strcat, if_pos hd, ih ((List.mem_cons.mp terminated).resolve_left (Ne.symm hd)),
        cstr_cons hd]
      have length : (d :: cstr dest).length + (cstr src).length =
          (cstr dest).length + (cstr src).length + 1 := by
        simp only [List.length_cons]
        omega
      rw [length, List.length_cons]
      by_cases fits : (cstr dest).length + (cstr src).length < dest.length
      · rw [if_pos fits, if_pos (by omega)]
        simp
      · rw [if_neg fits, if_neg (by omega)]
        rfl

theorem length_cstr_lt {s : List UInt8} (terminated : 0 ∈ s) : (cstr s).length < s.length := by
  obtain ⟨rest, split⟩ := exists_cstr terminated
  have length := congrArg List.length split
  rw [List.length_append, List.length_cons] at length
  omega

/-- The region after `strcpy`. -/
theorem strcpy_region {dest src : List UInt8} (terminated : 0 ∈ src)
    (fits : (cstr src).length < dest.length) :
    ∃ r, strcpy dest src = some r ∧ r.length = dest.length ∧ 0 ∈ r ∧ cstr r = cstr src := by
  rw [strcpy_eq terminated, if_pos fits]
  refine ⟨_, rfl, ?_, by simp, cstr_append_zero (zero_notMem_cstr src) _⟩
  simp only [List.length_append, List.length_cons, List.length_drop]
  omega

/-- The region after `strcat`. -/
theorem strcat_region {dest src : List UInt8} (terminated : 0 ∈ dest) (terminated' : 0 ∈ src)
    (fits : (cstr dest).length + (cstr src).length < dest.length) :
    ∃ r, strcat dest src = some r ∧ r.length = dest.length ∧ 0 ∈ r ∧
      cstr r = cstr dest ++ cstr src := by
  have noNul : 0 ∉ cstr dest ++ cstr src := by simp [zero_notMem_cstr]
  rw [strcat_eq terminated terminated', if_pos fits]
  refine ⟨_, rfl, ?_, by simp, cstr_append_zero noNul _⟩
  simp only [List.length_append, List.length_cons, List.length_drop]
  omega

/-- The region after one string after the other has been appended. -/
theorem foldlM_strcat {srcs : List (List UInt8)} (terminated : ∀ src ∈ srcs, 0 ∈ src)
    {dest : List UInt8} (ready : 0 ∈ dest) :
    if (cstr dest).length + (srcs.flatMap cstr).length < dest.length then
      ∃ r, srcs.foldlM strcat dest = some r ∧ r.length = dest.length ∧ 0 ∈ r ∧
        cstr r = cstr dest ++ srcs.flatMap cstr
    else srcs.foldlM strcat dest = none := by
  induction srcs generalizing dest with
  | nil =>
    rw [List.flatMap_nil, List.length_nil, Nat.add_zero, if_pos (length_cstr_lt ready)]
    exact ⟨dest, rfl, rfl, ready, (List.append_nil _).symm⟩
  | cons src srcs ih =>
    have here := terminated src List.mem_cons_self
    rw [List.foldlM_cons, List.flatMap_cons, List.length_append, ← Nat.add_assoc]
    by_cases fits : (cstr dest).length + (cstr src).length < dest.length
    · obtain ⟨r, region, length, ready', string⟩ := strcat_region ready here fits
      have rest := ih (fun s mem => terminated s (List.mem_cons_of_mem _ mem)) ready'
      rw [string, length, List.length_append, List.append_assoc] at rest
      rw [region]
      exact rest
    · rw [if_neg (by omega), strcat_eq ready here, if_neg fits]
      rfl

/-- Appending one string after the other stays inside the region exactly when they all fit with
their terminator; then the region holds their concatenation, and `strlen` its length. -/
theorem strcat_builds {srcs : List (List UInt8)} (terminated : ∀ src ∈ srcs, 0 ∈ src)
    {dest : List UInt8} (ready : 0 ∈ dest) :
    ((∃ r, srcs.foldlM strcat dest = some r) ↔
        (cstr dest).length + (srcs.flatMap cstr).length < dest.length) ∧
      ∀ r, srcs.foldlM strcat dest = some r →
        r.length = dest.length ∧ cstr r = cstr dest ++ srcs.flatMap cstr ∧
          strlen r = some ((cstr dest).length + (srcs.flatMap cstr).length) := by
  have built := foldlM_strcat terminated ready
  split_ifs at built with fits
  · obtain ⟨r, eq, length, ready', string⟩ := built
    refine ⟨⟨fun _ => fits, fun _ => ⟨r, eq⟩⟩, fun r' eq' => ?_⟩
    obtain rfl := Option.some.inj (eq.symm.trans eq')
    refine ⟨length, string, ?_⟩
    rw [strlen_eq ready', string, List.length_append]
  · constructor
    · exact iff_of_false (by simp [built]) fits
    · intro r eq
      rw [built] at eq
      contradiction

/-- A name in brackets behind a title, in a region it just fits. -/
theorem strcat_builds_example :
    ∃ r, [[0x20, 0x5B, 0], [0x47, 0], [0x5D, 0]].foldlM strcat [0x41, 0, 0, 0, 0, 7] = some r := by
  have terminated : ∀ src ∈ ([[0x20, 0x5B, 0], [0x47, 0], [0x5D, 0]] : List (List UInt8)),
      0 ∈ src := by decide
  have ready : 0 ∈ ([0x41, 0, 0, 0, 0, 7] : List UInt8) := by decide
  exact (strcat_builds terminated ready).1.mpr (by decide)

/-- `strncpy` of at most `n` bytes: what it copies, zeros, and perhaps one more zero. -/
theorem strncpy_padded {dest src : List UInt8} {n : ℕ} (terminated : 0 ∈ src)
    (room : n + 1 ≤ dest.length) :
    ∃ front b, strncpy dest src n = some (front ++ b :: dest.drop (n + 1)) ∧ front.length = n ∧
      (b = 0 ∨ dest[n]? = some b) ∧ ∀ rest, cstr (front ++ 0 :: rest) = (cstr src).take n := by
  obtain ⟨rest, split⟩ := exists_cstr terminated
  have noNul := zero_notMem_cstr src
  generalize cstr src = name at split noNul
  rw [split]
  by_cases short : name.length < n
  · refine ⟨name ++ List.replicate (n - name.length) 0, 0, ?_, ?_, .inl rfl, fun rest => ?_⟩
    · rw [strncpy_short noNul short room, Nat.sub_add_comm short.le, List.replicate_succ']
      simp
    · rw [List.length_append, List.length_replicate]
      omega
    · obtain ⟨k, hk⟩ : ∃ k, n - name.length = k + 1 := ⟨n - name.length - 1, by omega⟩
      rw [hk, List.replicate_succ, List.append_assoc, List.cons_append, cstr_append_zero noNul,
        List.take_of_length_le short.le]
  · have last : dest.drop n = dest[n] :: dest.drop (n + 1) := List.drop_eq_getElem_cons room
    refine ⟨name.take n, dest[n], ?_, ?_, .inr (List.getElem?_eq_getElem room), fun rest => ?_⟩
    · rw [strncpy_long noNul (by omega) (by omega), last]
    · rw [List.length_take]
      omega
    · exact cstr_append_zero (fun mem => noNul (List.mem_of_mem_take mem)) rest

end ChefOs
