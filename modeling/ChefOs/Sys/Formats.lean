import ChefOs.Sys.Kprintf
import ChefOs.User.Shell

/-!
# Format strings

A format string is a list of pieces: characters, and conversions with the argument they take.
`kvprintf` makes the calls of the pieces one after the other.  A `%` at the end of the string is a
piece of its own, at which it leaves the string.
-/

namespace ChefOs

open Kit

/-- A piece of a format string. -/
inductive Piece where
  | literal (c : UInt8)
  | conversion (c : UInt8) (arg : Option (BitVec 64))
  | lone
deriving DecidableEq

/-- The conversions with an argument. -/
abbrev TakesArgument (c : UInt8) : Prop := c ∈ text "csdiuxXp"

/-- The pieces of a string, with the arguments from the given ones on. -/
def formatPieces : List UInt8 → List (BitVec 64) → List Piece
  | [], _ => []
  | c :: fmt, args =>
    if c = ascii '%' then
      match fmt with
      | [] => [.lone]
      | c :: fmt =>
        if TakesArgument c then .conversion c args.head? :: formatPieces fmt args.tail
        else .conversion c none :: formatPieces fmt args
    else .literal c :: formatPieces fmt args

/-- The calls for a piece. -/
def Piece.out (mem : BitVec 64 → List UInt8) : Piece → Option (List Putc)
  | .literal c => some (carriageReturn c ++ putBoth c)
  | .conversion c arg => (ChefOs.conversion mem c arg.toList).map Prod.fst
  | .lone => none

/-- The calls for the pieces. -/
def piecesOut (mem : BitVec 64 → List UInt8) : List Piece → Option (List Putc)
  | [] => some []
  | p :: ps => do
    let out ← p.out mem
    let rest ← piecesOut mem ps
    return out ++ rest

/-- A conversion has the argument it takes, which is a string or `NULL` for `%s`. -/
def Piece.HasArgument (mem : BitVec 64 → List UInt8) : Piece → Prop
  | .conversion c arg =>
    TakesArgument c → ∃ a, arg = some a ∧ (c = ascii 's' → a ≠ 0 → 0 ∈ mem a)
  | _ => True

/-- The arguments match the format string. -/
def Matching (mem : BitVec 64 → List UInt8) (fmt : List UInt8) (args : List (BitVec 64)) : Prop :=
  ∀ p ∈ formatPieces fmt args, p.HasArgument mem

/-! ## Conversions -/

section

variable {mem : BitVec 64 → List UInt8} {c : UInt8} {fmt : List UInt8} {args : List (BitVec 64)}

/-- The calls of a conversion without an argument. -/
def plainOut (c : UInt8) : List Putc :=
  if c = ascii '%' then putBoth (ascii '%')
  else [.serial (ascii '%'), .serial c, .fb (ascii '%'), .fb c]

theorem conversion_plain (plain : ¬ TakesArgument c) (args : List (BitVec 64)) :
    conversion mem c args = some (plainOut c, args) := by
  have other : ∀ b, b ∈ text "csdiuxXp" → c ≠ b := fun b mem same => plain (same ▸ mem)
  rw [conversion, if_neg (other _ (by decide)), if_neg (other _ (by decide)),
    if_neg (not_or.mpr ⟨other _ (by decide), other _ (by decide)⟩), if_neg (other _ (by decide)),
    if_neg (other _ (by decide)), if_neg (other _ (by decide)), if_neg (other _ (by decide)),
    plainOut]
  split_ifs <;> rfl

theorem takesArgument_iff :
    TakesArgument c ↔ c = ascii 'c' ∨ c = ascii 's' ∨ c = ascii 'd' ∨ c = ascii 'i' ∨
      c = ascii 'u' ∨ c = ascii 'x' ∨ c = ascii 'X' ∨ c = ascii 'p' := by
  simp [text, TakesArgument, ascii]

/-- The other conversions do something with one argument. -/
theorem conversion_takes (mem : BitVec 64 → List UInt8) (takes : TakesArgument c) :
    ∃ f, ∀ args, conversion mem c args = vaArg args f := by
  rcases takesArgument_iff.mp takes with rfl | rfl | rfl | rfl | rfl | rfl | rfl | rfl <;>
    exact ⟨_, fun _ => rfl⟩

/-- A conversion takes its own argument only. -/
theorem conversion_head (takes : TakesArgument c) (args : List (BitVec 64)) :
    conversion mem c args =
      ((Piece.conversion c args.head?).out mem).map fun out => (out, args.tail) := by
  obtain ⟨f, conv⟩ := conversion_takes mem takes
  rw [Piece.out, conv, conv]
  cases args with
  | nil => rfl
  | cons a args =>
    change (f a).map _ = (((f a).map _).map _).map _
    cases f a <;> rfl

/-- `kvprintf` makes the calls of the pieces and ends at the terminator, unless the string ends in
a lone `%` and there is something behind it. -/
theorem kvprintf_pieces (noNul : 0 ∉ fmt) (rest : List UInt8)
    (stops : Piece.lone ∈ formatPieces fmt args → rest = []) :
    kvprintf mem (fmt ++ 0 :: rest) args =
      (piecesOut mem (formatPieces fmt args)).map fun out => (out, 0 :: rest) := by
  fun_induction formatPieces fmt args with
  | case1 args =>
    rw [List.nil_append, kvprintf_nul]
    rfl
  | case2 args =>
    -- the character after the `%` is the terminator, and the next one is not there
    rw [stops List.mem_cons_self]
    change kvprintf mem (ascii '%' :: 0 :: []) args = _
    rw [kvprintf_conversion (conversion_plain (by decide) args)]
    rfl
  | case3 args c fmt takes ih =>
    have inner : 0 ∉ fmt := fun mem => noNul (List.mem_cons_of_mem _ (List.mem_cons_of_mem _ mem))
    have tail := ih inner fun mem => stops (List.mem_cons_of_mem _ mem)
    rw [List.cons_append, List.cons_append, kvprintf_percent, conversion_head takes, piecesOut]
    cases (Piece.conversion c args.head?).out mem with
    | none => rfl
    | some out =>
      change (kvprintf mem (fmt ++ 0 :: rest) args.tail).map _ = _
      rw [tail]
      cases piecesOut mem (formatPieces fmt args.tail) <;> rfl
  | case4 args c fmt plain ih =>
    have inner : 0 ∉ fmt := fun mem => noNul (List.mem_cons_of_mem _ (List.mem_cons_of_mem _ mem))
    have tail := ih inner fun mem => stops (List.mem_cons_of_mem _ mem)
    rw [List.cons_append, List.cons_append, kvprintf_conversion (conversion_plain plain args), tail,
      piecesOut, Piece.out, conversion_plain plain]
    cases piecesOut mem (formatPieces fmt args) <;> rfl
  | case5 c fmt args literal ih =>
    have tail := ih (fun mem => noNul (List.mem_cons_of_mem _ mem))
      fun mem => stops (List.mem_cons_of_mem _ mem)
    have notNul : c ≠ 0 := fun same => noNul (same ▸ List.mem_cons_self)
    rw [List.cons_append, kvprintf_literal notNul literal, tail, piecesOut, Piece.out]
    cases piecesOut mem (formatPieces fmt args) <;> rfl

/-! ## The end of the string -/

/-- The number of `%` at the end of a string. -/
def percents (fmt : List UInt8) : ℕ := (fmt.reverse.takeWhile (· = ascii '%')).length

theorem percents_le (fmt : List UInt8) : percents fmt ≤ fmt.length := by
  have le : percents fmt ≤ fmt.reverse.length := (List.takeWhile_prefix _).length_le
  rwa [List.length_reverse] at le

theorem percents_cons (c : UInt8) (fmt : List UInt8) :
    percents (c :: fmt) =
      percents fmt + if percents fmt = fmt.length ∧ c = ascii '%' then 1 else 0 := by
  simp only [percents, List.reverse_cons, List.takeWhile_append, List.length_reverse]
  by_cases all : (fmt.reverse.takeWhile (· = ascii '%')).length = fmt.length
  · by_cases percent : c = ascii '%'
    · simp [all, percent]
    · simp [all, percent]
  · simp [all]

/-- The last `%` of a string is lone just when their number is odd. -/
theorem lone_mem_pieces (fmt : List UInt8) (args : List (BitVec 64)) :
    Piece.lone ∈ formatPieces fmt args ↔ Odd (percents fmt) := by
  have conversion : ∀ c fmt, Odd (percents (ascii '%' :: c :: fmt)) ↔ Odd (percents fmt) := by
    intro c fmt
    have le := percents_le fmt
    rw [percents_cons, percents_cons, List.length_cons, Nat.odd_iff, Nat.odd_iff]
    simp only [and_true]
    split_ifs <;> omega
  fun_induction formatPieces fmt args with
  | case1 args => simp [percents]
  | case2 args => simp [percents]
  | case3 args c fmt takes ih =>
    apply Iff.trans (List.mem_cons.trans (or_iff_right (by simp)))
    exact ih.trans (conversion c fmt).symm
  | case4 args c fmt plain ih =>
    apply Iff.trans (List.mem_cons.trans (or_iff_right (by simp)))
    exact ih.trans (conversion c fmt).symm
  | case5 c fmt args literal ih =>
    rw [percents_cons, if_neg fun h => literal h.2, Nat.add_zero]
    exact (List.mem_cons.trans (or_iff_right (by simp))).trans ih

/-! ## Newlines -/

/-- A `'\r'` before each `'\n'`. -/
def crlf (t : List UInt8) : List UInt8 :=
  t.flatMap fun c => if c = ascii '\n' then [ascii '\r', c] else [c]

/-- A piece that sends a newline to the serial port as it is: `%c` with a newline, or a newline
behind a `%`. -/
def Piece.rawNewline : Piece → Bool
  | .conversion c arg =>
    c = ascii '\n' || (c = ascii 'c' && arg.any fun a => (⟨a.setWidth 8⟩ : UInt8) = ascii '\n')
  | _ => false

/-- The serial port gets the text of the screen with a `'\r'` before each `'\n'` but `raw`. -/
structure SameText (out : List Putc) (raw : ℕ) : Prop where
  length : (serialOf out).length + raw = (crlf (screenOf out)).length
  same : raw = 0 → serialOf out = crlf (screenOf out)

theorem SameText.nil : SameText [] 0 := ⟨rfl, fun _ => rfl⟩

theorem serialOf_append (out₁ out₂ : List Putc) :
    serialOf (out₁ ++ out₂) = serialOf out₁ ++ serialOf out₂ := List.filterMap_append

theorem screenOf_append (out₁ out₂ : List Putc) :
    screenOf (out₁ ++ out₂) = screenOf out₁ ++ screenOf out₂ := List.filterMap_append

theorem SameText.append {out₁ out₂ : List Putc} {raw₁ raw₂ : ℕ} (first : SameText out₁ raw₁)
    (second : SameText out₂ raw₂) : SameText (out₁ ++ out₂) (raw₁ + raw₂) := by
  have screen : crlf (screenOf (out₁ ++ out₂)) = crlf (screenOf out₁) ++ crlf (screenOf out₂) := by
    rw [screenOf_append, crlf, List.flatMap_append]
    rfl
  have length₁ := first.length
  have length₂ := second.length
  constructor
  · rw [serialOf_append, screen, List.length_append, List.length_append]
    omega
  · intro none
    rw [serialOf_append, screen, first.same (by omega), second.same (by omega)]

/-- Calls whose texts agree. -/
theorem SameText.of_eq {out : List Putc} {t : List UInt8} (serial : serialOf out = crlf t)
    (screen : screenOf out = t) : SameText out 0 := by
  rw [← screen] at serial
  exact ⟨by rw [serial, Nat.add_zero], fun _ => serial⟩

theorem SameText.same_iff {out : List Putc} {raw : ℕ} (agree : SameText out raw) :
    serialOf out = crlf (screenOf out) ↔ raw = 0 := by
  refine ⟨fun same => ?_, agree.same⟩
  have length := agree.length
  rw [same] at length
  omega

theorem crlf_eq_self {t : List UInt8} (plain : ascii '\n' ∉ t) : crlf t = t := by
  have each : ∀ c ∈ t, (if c = ascii '\n' then [ascii '\r', c] else [c]) = [c] := by
    intro c hc
    rw [if_neg]
    rintro rfl
    exact plain hc
  rw [crlf, List.flatMap_congr each, List.flatMap_singleton']

/-- A text without newlines, on both outputs. -/
theorem SameText.plain {t : List UInt8} (plain : ascii '\n' ∉ t) :
    SameText (t.flatMap putBoth) 0 := by
  refine .of_eq ?_ (screenOf_putBoth t)
  rw [serialOf_putBoth, crlf_eq_self plain]

/-- A character of the format string. -/
theorem SameText.literal (c : UInt8) : SameText (carriageReturn c ++ putBoth c) 0 := by
  by_cases newline : c = ascii '\n'
  · subst newline
    exact ⟨rfl, fun _ => rfl⟩
  · rw [carriageReturn, if_neg newline, List.nil_append, ← List.flatMap_singleton putBoth c]
    exact .plain fun mem => newline (List.mem_singleton.mp mem).symm

theorem serialPutsCalls_eq {s : List UInt8} (terminated : 0 ∈ s) :
    serialPutsCalls s = some ((cstr s).flatMap fun c => carriageReturn c ++ [.serial c]) := by
  induction s with
  | nil => exact absurd terminated List.not_mem_nil
  | cons c s ih =>
    rw [serialPutsCalls]
    by_cases nul : c = 0
    · rw [if_neg (not_not.mpr nul), nul, cstr_zero]
      rfl
    · have later := (List.mem_cons.mp terminated).resolve_left fun same => nul same.symm
      rw [if_pos nul, ih later, cstr_cons nul, List.flatMap_cons, List.append_assoc]
      rfl

theorem fbPutsCalls_eq {s : List UInt8} (terminated : 0 ∈ s) :
    fbPutsCalls s = some ((cstr s).map .fb) := by
  induction s with
  | nil => exact absurd terminated List.not_mem_nil
  | cons c s ih =>
    rw [fbPutsCalls]
    by_cases nul : c = 0
    · rw [if_neg (not_not.mpr nul), nul, cstr_zero]
      rfl
    · have later := (List.mem_cons.mp terminated).resolve_left fun same => nul same.symm
      rw [if_pos nul, ih later, cstr_cons nul]
      rfl

/-- The calls for a string: first all for the serial port, then all for the screen. -/
def putsOut (t : List UInt8) : List Putc :=
  (t.flatMap fun c => carriageReturn c ++ [.serial c]) ++ t.map .fb

theorem serialOf_putsOut (t : List UInt8) : serialOf (putsOut t) = crlf t := by
  have serial : serialOf (t.flatMap fun c => carriageReturn c ++ [.serial c]) = crlf t := by
    induction t with
    | nil => rfl
    | cons c t ih =>
      rw [List.flatMap_cons, serialOf_append, ih, crlf, crlf, List.flatMap_cons, carriageReturn]
      split_ifs <;> rfl
  have screen : serialOf (t.map .fb) = [] := by simp [serialOf]
  rw [putsOut, serialOf_append, serial, screen, List.append_nil]

theorem screenOf_putsOut (t : List UInt8) : screenOf (putsOut t) = t := by
  have serial : screenOf (t.flatMap fun c => carriageReturn c ++ [.serial c]) = [] := by
    induction t with
    | nil => rfl
    | cons c t ih =>
      rw [List.flatMap_cons, screenOf_append, ih, carriageReturn]
      split_ifs <;> rfl
  have screen : screenOf (t.map .fb) = t := by
    clear serial
    induction t with
    | nil => rfl
    | cons c t ih => exact congrArg (c :: ·) ih
  rw [putsOut, screenOf_append, serial, screen, List.nil_append]

theorem SameText.puts (t : List UInt8) : SameText (putsOut t) 0 :=
  .of_eq (serialOf_putsOut t) (screenOf_putsOut t)

theorem printString_eq {a : BitVec 64} (notNull : a ≠ 0) (terminated : 0 ∈ mem a) :
    printString mem a = some (putsOut (cstr (mem a))) := by
  rw [printString, if_neg notNull, serialPutsCalls_eq terminated, fbPutsCalls_eq terminated]
  rfl

theorem printString_null : printString mem 0 = some (putsOut (text "(null)")) := by
  have terminated : (0 : UInt8) ∈ text "(null)" ++ [0] := by decide
  rw [printString, if_pos rfl, serialPutsCalls_eq terminated, fbPutsCalls_eq terminated]
  rfl

theorem digitChars_ne_newline : ∀ uppercase, ∀ d < 16,
    ascii '\n' ≠ (digitChars uppercase).getD d 0 := by
  decide

theorem newline_notMem_numeral {b : ℕ} (base : HasDigits b) (uppercase : Bool) (n : ℕ) :
    ascii '\n' ∉ (asciiDigits uppercase base).numeral n := by
  intro mem
  obtain ⟨d, small, same⟩ := Alphabet.numeral_digits _ mem
  exact digitChars_ne_newline uppercase d (small.trans_le base.2) same

theorem newline_notMem_signed (z : ℤ) : ascii '\n' ∉ decimal.signed (ascii '-') z := by
  have magnitude := newline_notMem_numeral hasDigits_ten false z.natAbs
  rw [Alphabet.signed]
  split_ifs
  · exact List.not_mem_cons_of_ne_of_not_mem (by decide) magnitude
  · exact magnitude

theorem printNum_sameText {b : ℕ} (base : HasDigits b) (uppercase : Bool) (a : BitVec 64) :
    ∃ out, printNum a b uppercase = some out ∧ SameText out 0 :=
  ⟨_, printNum_eq base uppercase a, .plain (newline_notMem_numeral base uppercase _)⟩

theorem printString_sameText {a : BitVec 64} (string : a ≠ 0 → 0 ∈ mem a) :
    ∃ out, printString mem a = some out ∧ SameText out 0 := by
  by_cases null : a = 0
  · subst null
    exact ⟨_, printString_null, .puts _⟩
  · exact ⟨_, printString_eq null (string null), .puts _⟩

theorem printPointer_sameText (a : BitVec 64) :
    ∃ out, printPointer a = some out ∧ SameText out 0 := by
  have zero : (0 : UInt8) ∈ text "0x" ++ [0] := by decide
  refine ⟨_, ?_, (SameText.puts (text "0x")).append
    (.plain (newline_notMem_numeral hasDigits_sixteen false a.toNat))⟩
  rw [printPointer, serialPutsCalls_eq zero, fbPutsCalls_eq zero, printNum_eq hasDigits_sixteen]
  rfl

theorem putBoth_sameText (c : UInt8) :
    SameText (putBoth c) (decide (c = ascii '\n')).toNat := by
  by_cases newline : c = ascii '\n'
  · subst newline
    exact ⟨rfl, fun h => absurd h (by decide)⟩
  · rw [decide_eq_false newline, ← List.flatMap_singleton putBoth c]
    exact .plain fun mem => newline (List.mem_singleton.mp mem).symm

theorem plainOut_sameText (c : UInt8) :
    SameText (plainOut c) (decide (c = ascii '\n')).toNat := by
  by_cases newline : c = ascii '\n'
  · subst newline
    exact ⟨rfl, fun h => absurd h (by decide)⟩
  · have unchanged : crlf [ascii '%', c] = [ascii '%', c] := by
      apply crlf_eq_self
      intro mem
      apply newline
      simpa [ascii, eq_comm] using mem
    rw [decide_eq_false newline, plainOut]
    split_ifs
    · exact ⟨rfl, fun _ => rfl⟩
    · exact .of_eq unchanged.symm rfl

/-- What the conversions with an argument do with it agrees on all but a raw newline. -/
theorem conversion_sameText (takes : TakesArgument c) {a : BitVec 64}
    (string : c = ascii 's' → a ≠ 0 → 0 ∈ mem a) :
    ∃ f out, (∀ args, conversion mem c args = vaArg args f) ∧ f a = some out ∧
      SameText out (Piece.conversion c (some a)).rawNewline.toNat := by
  obtain rfl | rfl | rfl | rfl | rfl | rfl | rfl | rfl := takesArgument_iff.mp takes
  · exact ⟨_, _, fun _ => rfl, rfl, putBoth_sameText _⟩
  · obtain ⟨out, call, same⟩ := printString_sameText (string rfl)
    exact ⟨_, out, fun _ => rfl, call, same⟩
  · exact ⟨_, _, fun _ => rfl, printSigned_eq a, .plain (newline_notMem_signed _)⟩
  · exact ⟨_, _, fun _ => rfl, printSigned_eq a, .plain (newline_notMem_signed _)⟩
  · obtain ⟨out, call, same⟩ := printNum_sameText hasDigits_ten false a
    exact ⟨_, out, fun _ => rfl, call, same⟩
  · obtain ⟨out, call, same⟩ := printNum_sameText hasDigits_sixteen false a
    exact ⟨_, out, fun _ => rfl, call, same⟩
  · obtain ⟨out, call, same⟩ := printNum_sameText hasDigits_sixteen true a
    exact ⟨_, out, fun _ => rfl, call, same⟩
  · obtain ⟨out, call, same⟩ := printPointer_sameText a
    exact ⟨_, out, fun _ => rfl, call, same⟩

/-- A piece with its argument makes its calls, which agree on all but a raw newline. -/
theorem Piece.sameText {p : Piece} (whole : p ≠ .lone) (has : p.HasArgument mem) :
    ∃ out, p.out mem = some out ∧ SameText out p.rawNewline.toNat := by
  cases p with
  | literal c => exact ⟨_, rfl, .literal c⟩
  | lone => exact absurd rfl whole
  | conversion c arg =>
    by_cases takes : TakesArgument c
    · obtain ⟨a, rfl, string⟩ := has takes
      obtain ⟨f, out, conv, call, same⟩ := conversion_sameText takes string
      refine ⟨out, ?_, same⟩
      rw [Piece.out, conv, Option.toList_some, vaArg, call]
      rfl
    · have notC : c ≠ ascii 'c' := by
        rintro rfl
        exact takes (by decide)
      have raw : (Piece.conversion c arg).rawNewline = decide (c = ascii '\n') := by
        rw [rawNewline, decide_eq_false notC, Bool.false_and, Bool.or_false]
      rw [raw, out, conversion_plain takes]
      exact ⟨_, rfl, plainOut_sameText c⟩

/-- The pieces make their calls, and the raw newlines are those on which the outputs differ. -/
theorem piecesOut_sameText {ps : List Piece} (whole : Piece.lone ∉ ps)
    (has : ∀ p ∈ ps, p.HasArgument mem) :
    ∃ out, piecesOut mem ps = some out ∧ SameText out (ps.countP Piece.rawNewline) := by
  induction ps with
  | nil => exact ⟨[], rfl, .nil⟩
  | cons p ps ih =>
    have here : p ≠ .lone := fun same => whole (same ▸ List.mem_cons_self)
    obtain ⟨out, call, same⟩ := p.sameText here (has p List.mem_cons_self)
    obtain ⟨rest, calls, sameRest⟩ := ih (fun mem => whole (List.mem_cons_of_mem p mem))
      fun q hq => has q (List.mem_cons_of_mem p hq)
    refine ⟨out ++ rest, ?_, ?_⟩
    · rw [piecesOut, call, calls]
      rfl
    · have count : (p :: ps).countP Piece.rawNewline =
          p.rawNewline.toNat + ps.countP Piece.rawNewline := by
        rw [List.countP_cons, Nat.add_comm]
        cases p.rawNewline <;> rfl
      rw [count]
      exact same.append sameRest

end

/-! ## Whole strings -/

section

variable (mem : BitVec 64 → List UInt8) (fmt : List UInt8) (args : List (BitVec 64))

/-- The call makes the calls `out`, whatever is behind the terminator, at which it ends. -/
def EndsWith (out : List Putc) : Prop :=
  ∀ rest, kvprintf mem (fmt ++ 0 :: rest) args = some (out, 0 :: rest)

variable {mem fmt args}

theorem exists_endsWith (noNul : 0 ∉ fmt) (enough : Matching mem fmt args)
    (whole : Even (percents fmt)) :
    ∃ out, EndsWith mem fmt args out ∧
      SameText out ((formatPieces fmt args).countP Piece.rawNewline) := by
  have stops : Piece.lone ∉ formatPieces fmt args := by
    rw [lone_mem_pieces, Nat.not_odd_iff_even]
    exact whole
  obtain ⟨out, calls, same⟩ := piecesOut_sameText stops enough
  refine ⟨out, fun rest => ?_, same⟩
  rw [kvprintf_pieces noNul rest fun lone => absurd lone stops, calls, Option.map_some]

theorem piecesOut_lone {ps : List Piece} (lone : Piece.lone ∈ ps) : piecesOut mem ps = none := by
  induction ps with
  | nil => exact absurd lone List.not_mem_nil
  | cons p ps ih =>
    rw [piecesOut]
    obtain rfl | later := List.mem_cons.mp lone
    · rfl
    · rw [ih later]
      cases p.out mem <;> rfl

/-- `kvprintf` reads the string up to its terminator only, just when the string does not end in a
lone `%`. -/
theorem kvprintf_endsWith_iff (noNul : 0 ∉ fmt) (enough : Matching mem fmt args) :
    (∃ out, EndsWith mem fmt args out) ↔ Even (percents fmt) := by
  constructor
  · rintro ⟨out, ends⟩
    rw [← Nat.not_odd_iff_even, ← lone_mem_pieces fmt args]
    intro lone
    have call := ends []
    rw [kvprintf_pieces noNul [] fun _ => rfl, piecesOut_lone lone] at call
    exact absurd call (by simp)
  · intro whole
    obtain ⟨out, ends, -⟩ := exists_endsWith noNul enough whole
    exact ⟨out, ends⟩

/-- A number and a percent sign. -/
theorem kvprintf_endsWith_example :
    ∃ out, EndsWith (fun _ => []) (text "%d%%") [5] out := by
  have parts : formatPieces (text "%d%%") [5] =
      [.conversion (ascii 'd') (some 5), .conversion (ascii '%') none] := by decide
  have enough : Matching (fun _ => []) (text "%d%%") [5] := by
    intro p hp
    rw [parts] at hp
    obtain rfl | last := List.mem_cons.mp hp
    · exact fun _ => ⟨5, rfl, fun string => absurd string (by decide)⟩
    · obtain rfl := List.mem_singleton.mp last
      exact fun takes => absurd takes (by decide)
  exact (kvprintf_endsWith_iff (by decide) enough).mpr (by decide)

/-- At the end of `%` the terminator is taken for the conversion, and the next byte is read. -/
theorem lone_percent_reads_on :
    ¬ ∀ mem fmt args, 0 ∉ fmt → Matching mem fmt args → ∃ out, EndsWith mem fmt args out := by
  intro claim
  have enough : Matching (fun _ => []) [ascii '%'] [] := fun p hp => by
    obtain rfl := List.mem_singleton.mp hp
    exact trivial
  obtain ⟨out, ends⟩ := claim (fun _ => []) [ascii '%'] [] (by decide) enough
  have call : kvprintf (fun _ => []) [ascii '%', 0] [] = none := by decide
  exact absurd (call.symm.trans (ends [])) (by simp)

/-- The serial port gets the text of the screen, with a `'\r'` before each newline, just when no
newline is raw. -/
theorem kvprintf_sameText_iff (noNul : 0 ∉ fmt) (enough : Matching mem fmt args)
    (whole : Even (percents fmt)) :
    (∃ out, EndsWith mem fmt args out ∧ serialOf out = crlf (screenOf out)) ↔
      ∀ p ∈ formatPieces fmt args, p.rawNewline = false := by
  obtain ⟨out, ends, same⟩ := exists_endsWith noNul enough whole
  have none : (∀ p ∈ formatPieces fmt args, p.rawNewline = false) ↔
      (formatPieces fmt args).countP Piece.rawNewline = 0 := by
    simp [List.countP_eq_zero]
  rw [none, ← same.same_iff]
  constructor
  · rintro ⟨out', ends', same'⟩
    have calls := (ends []).symm.trans (ends' [])
    have eq : out = out' := congrArg Prod.fst (Option.some.inj calls)
    rw [eq]
    exact same'
  · intro same'
    exact ⟨out, ends, same'⟩

/-- A string that ends in a newline. -/
theorem kvprintf_sameText_example :
    ∃ out, EndsWith (fun _ => text "chef" ++ [0]) (text "%s\n") [8] out ∧
      serialOf out = crlf (screenOf out) := by
  have parts : formatPieces (text "%s\n") [8] =
      [.conversion (ascii 's') (some 8), .literal (ascii '\n')] := by decide
  have enough : Matching (fun _ => text "chef" ++ [0]) (text "%s\n") [8] := by
    intro p hp
    rw [parts] at hp
    obtain rfl | last := List.mem_cons.mp hp
    · exact fun _ => ⟨8, rfl, fun _ _ => by decide⟩
    · obtain rfl := List.mem_singleton.mp last
      exact trivial
  exact (kvprintf_sameText_iff (by decide) enough (by decide)).mpr (by decide)

/-- Enter is echoed with `%c`, and the serial port gets no `'\r'`. -/
theorem newline_character_differs :
    ¬ ∀ mem fmt args, 0 ∉ fmt → Matching mem fmt args → Even (percents fmt) →
      ∃ out, EndsWith mem fmt args out ∧ serialOf out = crlf (screenOf out) := by
  intro claim
  have parts : formatPieces (text "%c") [0x0A] = [.conversion (ascii 'c') (some 0x0A)] := by decide
  have enough : Matching (fun _ => []) (text "%c") [0x0A] := by
    intro p hp
    rw [parts] at hp
    obtain rfl := List.mem_singleton.mp hp
    exact fun _ => ⟨_, rfl, fun string => absurd string (by decide)⟩
  obtain ⟨out, ends, same⟩ := claim (fun _ => []) (text "%c") [0x0A] (by decide) enough (by decide)
  have call : kvprintf (fun _ => []) (text "%c" ++ [0]) [0x0A] =
      some (putBoth (ascii '\n'), [0]) := by decide
  have eq : putBoth (ascii '\n') = out :=
    congrArg Prod.fst (Option.some.inj (call.symm.trans (ends [])))
  subst eq
  exact absurd same (by decide)

end

/-! ## The state behind the outputs -/

section

variable (font : Font) (mem : BitVec 64 → List UInt8)

/-- Texts go to the serial port and to the screen. -/
def Kernel.send (s : Kernel) (serial screen : List UInt8) : Kernel where
  fs := { s.fs with serial := s.fs.serial ++ serial }
  gFb := screen.foldl (fun g c => fbPutc font c g) s.gFb

theorem foldl_putcCall (out : List Putc) (s : Kernel) :
    out.foldl (Kernel.putcCall font) s = s.send font (serialOf out) (screenOf out) := by
  induction out generalizing s with
  | nil => simp [Kernel.send, serialOf, screenOf]
  | cons call out ih =>
    rw [List.foldl_cons, ih]
    cases call with
    | serial c => simp [Kernel.send, Kernel.putcCall, Kernel.serialPutc, serialOf, screenOf]
    | fb c => simp [Kernel.send, Kernel.putcCall, serialOf, screenOf]

theorem foldl_printChar (t : List UInt8) (s : Kernel) :
    t.foldl (Kernel.printChar font) s = s.send font (crlf t) t := by
  induction t generalizing s with
  | nil => simp [Kernel.send, crlf]
  | cons c t ih =>
    rw [List.foldl_cons, ih, Kernel.printChar]
    change _ = s.send font ((if c = 0x0A then [ascii '\r', c] else [c]) ++ crlf t) (c :: t)
    split_ifs <;> simp [Kernel.send, Kernel.putc, Kernel.serialPutc, ascii]

/-- Calls whose outputs agree print their text character by character. -/
theorem SameText.foldl_putcCall {out : List Putc} (same : SameText out 0) (s : Kernel) :
    out.foldl (Kernel.putcCall font) s = (screenOf out).foldl (Kernel.printChar font) s := by
  rw [ChefOs.foldl_putcCall, foldl_printChar, same.same rfl]

end

/-! ## The format strings of the repository -/

section

variable (font : Font) (mem : BitVec 64 → List UInt8)

/-- The text before the first conversion. -/
theorem kvprintf_append {t : List UInt8} (noNul : 0 ∉ t) (noPercent : ascii '%' ∉ t)
    (fmt : List UInt8) (args : List (BitVec 64)) :
    kvprintf mem (t ++ fmt) args =
      (kvprintf mem fmt args).map fun r =>
        ((t.flatMap fun c => carriageReturn c ++ putBoth c) ++ r.1, r.2) := by
  induction t with
  | nil => cases h : kvprintf mem fmt args <;> simp [h]
  | cons c t ih =>
    obtain ⟨notNul, noNul⟩ := not_or.mp (mt List.mem_cons.mpr noNul)
    obtain ⟨notPercent, noPercent⟩ := not_or.mp (mt List.mem_cons.mpr noPercent)
    rw [List.cons_append, kvprintf_literal (Ne.symm notNul) (Ne.symm notPercent),
      ih noNul noPercent]
    cases kvprintf mem fmt args <;> simp

theorem foldl_literals (t : List UInt8) (s : Kernel) :
    (t.flatMap fun c => carriageReturn c ++ putBoth c).foldl (Kernel.putcCall font) s =
      t.foldl (Kernel.printChar font) s := by
  rw [List.foldl_flatMap]
  congr 1
  funext s c
  rw [(SameText.literal c).foldl_putcCall, carriageReturn]
  split_ifs <;> rfl

/-- A format string whose text before the first conversion is `t`. -/
theorem Kernel.kprintf_append {t : List UInt8} (noNul : 0 ∉ t) (noPercent : ascii '%' ∉ t)
    (fmt : List UInt8) (args : List (BitVec 64)) (s : Kernel) :
    s.kprintf font mem (t ++ fmt) args =
      (t.foldl (Kernel.printChar font) s).kprintf font mem fmt args := by
  rw [Kernel.kprintf, Kernel.kprintf, kvprintf_append mem noNul noPercent, Option.map_map]
  congr 1
  funext r
  change Kernel.swap (List.foldl _ s (_ ++ r.1)) = _
  rw [List.foldl_append, foldl_literals]

/-- A format string that begins with a conversion. -/
theorem Kernel.kprintf_conversion {c : UInt8} {args rest : List (BitVec 64)} {out : List Putc}
    (conv : conversion mem c args = some (out, rest)) (fmt : List UInt8) (s : Kernel) :
    s.kprintf font mem (ascii '%' :: c :: fmt) args =
      (out.foldl (Kernel.putcCall font) s).kprintf font mem fmt rest := by
  rw [Kernel.kprintf, Kernel.kprintf, ChefOs.kvprintf_conversion conv, Option.map_map]
  congr 1
  funext r
  change Kernel.swap (List.foldl _ s (out ++ r.1)) = _
  rw [List.foldl_append]

theorem Kernel.kprintf_print {t : List UInt8} (noNul : 0 ∉ t) (noPercent : ascii '%' ∉ t)
    (rest : List UInt8) (s : Kernel) :
    s.kprintf font mem (t ++ 0 :: rest) [] = some (s.print font t) := by
  rw [Kernel.kprintf_append font mem noNul noPercent, Kernel.kprintf, kvprintf_nul]
  rfl

theorem Kernel.kprintf_printC (c : BitVec 64) (s : Kernel) :
    s.kprintf font mem (text "%c" ++ [0]) [c] = some (s.printC font ⟨c.setWidth 8⟩) := by
  change s.kprintf font mem (ascii '%' :: ascii 'c' :: [0]) [c] = _
  rw [Kernel.kprintf_conversion font mem rfl, Kernel.kprintf, kvprintf_nul]
  rfl

theorem Kernel.kprintf_printS {before after : List UInt8} {str : BitVec 64}
    (noNul : 0 ∉ before ∧ 0 ∉ after) (noPercent : ascii '%' ∉ before ∧ ascii '%' ∉ after)
    (notNull : str ≠ 0) (terminated : 0 ∈ mem str) (s : Kernel) :
    s.kprintf font mem (before ++ ascii '%' :: ascii 's' :: (after ++ [0])) [str] =
      some (s.printS font before (cstr (mem str)) after) := by
  have call : conversion mem (ascii 's') [str] = some (putsOut (cstr (mem str)), []) := by
    change (printString mem str).map _ = _
    rw [printString_eq notNull terminated]
    rfl
  rw [Kernel.kprintf_append font mem noNul.1 noPercent.1, Kernel.kprintf_conversion font mem call,
    Kernel.kprintf_print font mem noNul.2 noPercent.2, (SameText.puts _).foldl_putcCall,
    screenOf_putsOut]
  rfl

theorem digits10_eq (n : ℕ) : digits10 n = decimal.numeral n := by
  rw [digits10, Alphabet.numeral]
  split_ifs
  · rfl
  · have same : ∀ d < 10, UInt8.ofNat (0x30 + d) = decimal.digit d := by decide
    congr 1
    apply List.map_congr_left
    intro d hd
    exact same d (Nat.digits_lt_base (by norm_num) hd)

/-- The message about an unknown system call, in whose slot the upper half is zero. -/
theorem Kernel.kprintf_printUnknown (num : BitVec 64) (s : Kernel) :
    s.kprintf font mem (text "[SYSCALL] Unknown syscall #%d\n" ++ [0])
      [(num.setWidth 32).setWidth 64] = some (s.printUnknown font num) := by
  have value : ((num.setWidth 32).setWidth 64).toInt = (num.setWidth 32).toNat := by
    have small := (num.setWidth 32).isLt
    rw [BitVec.toInt_eq_toNat_cond, BitVec.toNat_setWidth, Nat.mod_eq_of_lt (by omega)]
    split_ifs <;> omega
  have numeral : decimal.signed (ascii '-') ((num.setWidth 32).setWidth 64).toInt =
      digits10 (num.setWidth 32).toNat := by
    rw [value, Alphabet.signed, if_neg (Int.not_lt.mpr (Int.natCast_nonneg _)),
      Int.natAbs_natCast, digits10_eq]
  have call : conversion mem (ascii 'd') [(num.setWidth 32).setWidth 64] = _ :=
    conversion_signed (.inl rfl) _ []
  rw [numeral] at call
  have split : text "[SYSCALL] Unknown syscall #%d\n" ++ [0] =
      text "[SYSCALL] Unknown syscall #" ++
        ascii '%' :: ascii 'd' :: (text "\n" ++ [0]) := by decide
  have plain : ascii '\n' ∉ digits10 (num.setWidth 32).toNat := by
    rw [← numeral]
    exact newline_notMem_signed _
  rw [split, Kernel.kprintf_append font mem (by decide) (by decide),
    Kernel.kprintf_conversion font mem call, Kernel.kprintf_print font mem (by decide) (by decide),
    (SameText.plain plain).foldl_putcCall, screenOf_putBoth, Kernel.print, Kernel.printUnknown,
    List.foldl_append, List.foldl_append]
  rfl

end

end ChefOs
