import ChefOs.Lib.Numeral
import ChefOs.Sys.Syscall

/-!
# Formatted output

`sys/kprintf.c`.  A call of `kvprintf` is the list of the calls it makes to `serial_putc` and
`fb_putc`, in order.  The arguments are the 64-bit slots that `va_arg` takes one by one, and `mem`
gives the bytes from an address on to the end of their region.
-/

namespace ChefOs

open Kit

/-- A call to one of the two outputs. -/
inductive Putc where
  | serial (c : UInt8)
  | fb (c : UInt8)
deriving DecidableEq

/-- A character literal. -/
def ascii (c : Char) : UInt8 := .ofNat c.toNat

/-- `serial_putc(c); fb_putc(c)`. -/
def putBoth (c : UInt8) : List Putc := [.serial c, .fb c]

/-- A `'\r'` before `'\n'`, on the serial port. -/
def carriageReturn (c : UInt8) : List Putc := if c = ascii '\n' then [.serial (ascii '\r')] else []

/-- The calls of `serial_puts`. -/
def serialPutsCalls : List UInt8 → Option (List Putc)
  | [] => none
  | c :: s =>
    if c ≠ 0 then (serialPutsCalls s).map fun out => carriageReturn c ++ .serial c :: out
    else some []

/-- The calls of `fb_puts`. -/
def fbPutsCalls : List UInt8 → Option (List Putc)
  | [] => none
  | c :: s => if c ≠ 0 then (fbPutsCalls s).map fun out => .fb c :: out else some []

/-! ## `print_num` -/

/-- The string `digits`. -/
def digitChars (uppercase : Bool) : List UInt8 :=
  text (if uppercase then "0123456789ABCDEF" else "0123456789abcdef")

/-- The loop that stores the digits, when `room` bytes of `buf` are left: the bytes it stores. -/
def storeDigits (digits : List UInt8) (base : ℕ) : ℕ → ℕ → Option (List UInt8)
  | _, 0 => some []
  | 0, _ + 1 => none
  | room + 1, num + 1 => do
    let c ← digits[(num + 1) % base]?
    let buf ← storeDigits digits base room ((num + 1) / base)
    return c :: buf

/-- `print_num`. -/
def printNum (num : BitVec 64) (base : ℕ) (uppercase : Bool) : Option (List Putc) :=
  if num = 0 then some (putBoth (ascii '0'))
  else do
    let buf ← storeDigits (digitChars uppercase) base 65 num.toNat
    return buf.reverse.flatMap putBoth

/-! ## `kvprintf` -/

/-- `va_arg`, and what is done with the slot. -/
def vaArg (args : List (BitVec 64)) (f : BitVec 64 → Option (List Putc)) :
    Option (List Putc × List (BitVec 64)) :=
  match args with
  | [] => none
  | a :: args => (f a).map fun out => (out, args)

/-- `case 's'`. -/
def printString (mem : BitVec 64 → List UInt8) (s : BitVec 64) : Option (List Putc) := do
  let s := if s = 0 then text "(null)" ++ [0] else mem s
  let serial ← serialPutsCalls s
  let fb ← fbPutsCalls s
  return serial ++ fb

/-- `case 'd'` and `case 'i'`. -/
def printSigned (val : BitVec 64) : Option (List Putc) :=
  if val.toInt < 0 then (printNum (-val) 10 false).map fun out => putBoth (ascii '-') ++ out
  else printNum val 10 false

/-- `case 'p'`. -/
def printPointer (val : BitVec 64) : Option (List Putc) := do
  let serial ← serialPutsCalls (text "0x" ++ [0])
  let fb ← fbPutsCalls (text "0x" ++ [0])
  let num ← printNum val 16 false
  return serial ++ fb ++ num

/-- `switch (*fmt)`, with the arguments it leaves. -/
def conversion (mem : BitVec 64 → List UInt8) (c : UInt8) (args : List (BitVec 64)) :
    Option (List Putc × List (BitVec 64)) :=
  if c = ascii 'c' then vaArg args fun a => some (putBoth ⟨a.setWidth 8⟩)
  else if c = ascii 's' then vaArg args (printString mem)
  else if c = ascii 'd' ∨ c = ascii 'i' then vaArg args printSigned
  else if c = ascii 'u' then vaArg args fun a => printNum a 10 false
  else if c = ascii 'x' then vaArg args fun a => printNum a 16 false
  else if c = ascii 'X' then vaArg args fun a => printNum a 16 true
  else if c = ascii 'p' then vaArg args printPointer
  else if c = ascii '%' then some (putBoth (ascii '%'), args)
  else some ([.serial (ascii '%'), .serial c, .fb (ascii '%'), .fb c], args)

/-- `kvprintf`, over the bytes from `fmt` on.  The second result are the bytes from the final `fmt`
on. -/
def kvprintf (mem : BitVec 64 → List UInt8) :
    List UInt8 → List (BitVec 64) → Option (List Putc × List UInt8)
  | [], _ => none
  | c :: fmt, args =>
    if c = 0 then some ([], c :: fmt)
    else if c = ascii '%' then
      match fmt with
      | [] => none
      | c :: fmt => do
        let (out, args) ← conversion mem c args
        let (rest, fmt) ← kvprintf mem fmt args
        return (out ++ rest, fmt)
    else do
      let (rest, fmt) ← kvprintf mem fmt args
      return (carriageReturn c ++ putBoth c ++ rest, fmt)

/-- The bytes that go to the serial port. -/
def serialOf (out : List Putc) : List UInt8 :=
  out.filterMap fun call => match call with
    | .serial c => some c
    | .fb _ => none

/-- The characters that go to the screen. -/
def screenOf (out : List Putc) : List UInt8 :=
  out.filterMap fun call => match call with
    | .serial _ => none
    | .fb c => some c

/-- The call of an output. -/
def Kernel.putcCall (font : Font) (s : Kernel) : Putc → Kernel
  | .serial c => s.serialPutc c
  | .fb c => { s with gFb := fbPutc font c s.gFb }

/-- `kprintf`. -/
def Kernel.kprintf (font : Font) (mem : BitVec 64 → List UInt8) (fmt : List UInt8)
    (args : List (BitVec 64)) (s : Kernel) : Option Kernel :=
  (kvprintf mem fmt args).map fun r => (r.1.foldl (Kernel.putcCall font) s).swap

/-! ## Numbers -/

theorem idxOf_digitChars : ∀ uppercase, ∀ d < 16,
    (digitChars uppercase).idxOf? ((digitChars uppercase).getD d 0) = some d := by
  decide

/-- The digit that a character stands for. -/
def digitValue (uppercase : Bool) (b : ℕ) (c : UInt8) : Option ℕ :=
  ((digitChars uppercase).idxOf? c).filter fun d => d < b

/-- The bases that `print_num` has digits for. -/
abbrev HasDigits (b : ℕ) : Prop := 2 ≤ b ∧ b ≤ 16

theorem digitValue_digitChars {b : ℕ} (base : HasDigits b) (uppercase : Bool) (d : ℕ)
    (small : d < b) : digitValue uppercase b ((digitChars uppercase).getD d 0) = some d := by
  rw [digitValue, idxOf_digitChars uppercase d (small.trans_le base.2), Option.filter_some,
    if_pos (decide_eq_true small)]

/-- The digits of `print_num`. -/
def asciiDigits (uppercase : Bool) {b : ℕ} (base : HasDigits b) : Alphabet UInt8 b where
  digit d := (digitChars uppercase).getD d 0
  value := digitValue uppercase b
  base := base.1
  value_digit := digitValue_digitChars base uppercase

theorem hasDigits_ten : HasDigits 10 := by decide

theorem hasDigits_sixteen : HasDigits 16 := by decide

/-- The decimal digits. -/
def decimal : Alphabet UInt8 10 := asciiDigits false hasDigits_ten

section

variable {b : ℕ} (base : HasDigits b) (uppercase : Bool)

include base in
theorem digitChars_getElem {d : ℕ} (small : d < b) :
    (digitChars uppercase)[d]? = some ((asciiDigits uppercase base).digit d) := by
  have length : (digitChars uppercase).length = 16 := by cases uppercase <;> decide
  have inside : d < (digitChars uppercase).length := by omega
  rw [List.getElem?_eq_getElem inside]
  exact congrArg some (List.getElem_eq_getD 0)

/-- The buffer has room for the digits of a number below `b ^ room`. -/
theorem storeDigits_eq {room num : ℕ} (fits : num < b ^ room) :
    storeDigits (digitChars uppercase) b room num =
      some ((Nat.digits b num).map (asciiDigits uppercase base).digit) := by
  induction room generalizing num with
  | zero =>
    obtain rfl : num = 0 := Nat.lt_one_iff.mp fits
    rw [storeDigits, Nat.digits_zero, List.map_nil]
  | succ room ih =>
    cases num with
    | zero => rw [storeDigits, Nat.digits_zero, List.map_nil]
    | succ num =>
      have pos : 0 < b := lt_of_lt_of_le two_pos base.1
      have rest : (num + 1) / b < b ^ room := Nat.div_lt_of_lt_mul (by rwa [← Nat.pow_succ'])
      rw [storeDigits, digitChars_getElem base uppercase (Nat.mod_lt _ pos), ih rest,
        Nat.digits_def' base.1 (Nat.succ_pos num)]
      rfl

include base in
theorem lt_pow_64 (num : BitVec 64) : num.toNat < b ^ 64 :=
  num.isLt.trans_le (Nat.pow_le_pow_left base.1 64)

theorem printNum_eq (num : BitVec 64) :
    printNum num b uppercase =
      some (((asciiDigits uppercase base).numeral num.toNat).flatMap putBoth) := by
  rw [printNum]
  by_cases zero : num = 0
  · subst zero
    cases uppercase <;> rfl
  · have pos : 0 < num.toNat := Nat.pos_of_ne_zero fun h => zero (BitVec.eq_of_toNat_eq h)
    have fits : num.toNat < b ^ 65 :=
      (lt_pow_64 base num).trans_le (Nat.pow_le_pow_right (by omega) (by norm_num))
    rw [if_neg zero, storeDigits_eq base uppercase fits, Alphabet.numeral_pos _ pos]
    rfl

end

theorem printSigned_eq (val : BitVec 64) :
    printSigned val = some ((decimal.signed (ascii '-') val.toInt).flatMap putBoth) := by
  have range := val.isLt
  have int := BitVec.toInt_eq_toNat_cond val
  rw [printSigned, Alphabet.signed]
  split_ifs with negative
  · -- the magnitude of the least value is its own negation
    have magnitude : (-val).toNat = val.toInt.natAbs := by
      rw [BitVec.toNat_neg]
      split_ifs at int <;> omega
    rw [printNum_eq hasDigits_ten false, magnitude]
    rfl
  · have magnitude : val.toNat = val.toInt.natAbs := by
      split_ifs at int <;> omega
    rw [printNum_eq hasDigits_ten false, magnitude]
    rfl

/-! ## Printed numbers -/

@[simp] theorem serialOf_putBoth (t : List UInt8) : serialOf (t.flatMap putBoth) = t := by
  induction t with
  | nil => rfl
  | cons c t ih => exact congrArg (c :: ·) ih

@[simp] theorem screenOf_putBoth (t : List UInt8) : screenOf (t.flatMap putBoth) = t := by
  induction t with
  | nil => rfl
  | cons c t ih => exact congrArg (c :: ·) ih

section

variable (mem : BitVec 64 → List UInt8)

/-- The conversion `c` prints the text `t` for an argument, on both outputs and wherever it
stands. -/
def Prints (c : UInt8) (a : BitVec 64) (t : List UInt8) : Prop :=
  ∀ fmt args, kvprintf mem (ascii '%' :: c :: fmt) (a :: args) =
    (kvprintf mem fmt args).map fun r => (t.flatMap putBoth ++ r.1, r.2)

variable {mem} {c : UInt8} {a : BitVec 64} {t u : List UInt8}

theorem kvprintf_nul (fmt : List UInt8) (args : List (BitVec 64)) :
    kvprintf mem (0 :: fmt) args = some ([], 0 :: fmt) := by
  rw [kvprintf.eq_def]
  exact if_pos rfl

theorem kvprintf_literal (notNul : c ≠ 0) (notPercent : c ≠ ascii '%') (fmt : List UInt8)
    (args : List (BitVec 64)) :
    kvprintf mem (c :: fmt) args =
      (kvprintf mem fmt args).map fun r => (carriageReturn c ++ putBoth c ++ r.1, r.2) := by
  rw [kvprintf.eq_def]
  change (if c = 0 then _ else if c = ascii '%' then _ else _) = _
  rw [if_neg notNul, if_neg notPercent]
  cases kvprintf mem fmt args <;> rfl

theorem kvprintf_percent (c : UInt8) (fmt : List UInt8) (args : List (BitVec 64)) :
    kvprintf mem (ascii '%' :: c :: fmt) args =
      (conversion mem c args).bind fun r =>
        (kvprintf mem fmt r.2).map fun s => (r.1 ++ s.1, s.2) := by
  rw [kvprintf, if_neg (by decide), if_pos rfl]
  cases conversion mem c args with
  | none => rfl
  | some r =>
    simp only [Option.bind_eq_bind, Option.bind_some]
    cases kvprintf mem fmt r.2 <;> rfl

theorem kvprintf_conversion {args rest : List (BitVec 64)} {out : List Putc}
    (conv : conversion mem c args = some (out, rest)) (fmt : List UInt8) :
    kvprintf mem (ascii '%' :: c :: fmt) args =
      (kvprintf mem fmt rest).map fun r => (out ++ r.1, r.2) := by
  rw [kvprintf_percent, conv, Option.bind_some]

theorem Prints.unique (first : Prints mem c a t) (second : Prints mem c a u) : t = u := by
  have same := (first [0] []).symm.trans (second [0] [])
  have calls := congrArg Prod.fst (Option.some.inj same)
  rw [List.append_cancel_right_eq] at calls
  rw [← serialOf_putBoth t, calls, serialOf_putBoth]

theorem conversion_signed (signed : c = ascii 'd' ∨ c = ascii 'i') (v : BitVec 64)
    (args : List (BitVec 64)) :
    conversion mem c (v :: args) =
      some ((decimal.signed (ascii '-') v.toInt).flatMap putBoth, args) := by
  have conv : conversion mem c (v :: args) = vaArg (v :: args) printSigned := by
    obtain rfl | rfl := signed <;> rfl
  rw [conv, vaArg, printSigned_eq]
  rfl

theorem append_toNat (upper n : BitVec 32) :
    (upper ++ n : BitVec 64).toNat = upper.toNat * 2 ^ 32 + n.toNat := by
  rw [BitVec.toNat_append, ← Nat.shiftLeft_add_eq_or_of_lt n.isLt, Nat.shiftLeft_eq]

/-- A slot has the value of its lower half just when the upper half repeats the sign bit. -/
theorem append_toInt_iff (upper n : BitVec 32) :
    (upper ++ n : BitVec 64).toInt = n.toInt ↔ upper = if n.toInt < 0 then -1 else 0 := by
  have slot := BitVec.toInt_eq_toNat_cond (upper ++ n : BitVec 64)
  have low := BitVec.toInt_eq_toNat_cond n
  have hn := n.isLt
  have hu := upper.isLt
  rw [append_toNat] at slot
  have repeats : (upper = if n.toInt < 0 then -1 else 0) ↔
      upper.toNat = if n.toInt < 0 then 2 ^ 32 - 1 else 0 := by
    rw [← BitVec.toNat_inj, apply_ite BitVec.toNat]
    rfl
  rw [repeats]
  split_ifs at slot low ⊢ <;> omega

variable (mem) in
/-- `%d` prints an `int` whose slot has the given upper half just when that half repeats the sign
bit. -/
theorem kvprintf_int_iff (upper n : BitVec 32) :
    Prints mem (ascii 'd') (upper ++ n) (decimal.signed (ascii '-') n.toInt) ↔
      upper = if n.toInt < 0 then -1 else 0 := by
  have printed : Prints mem (ascii 'd') (upper ++ n)
      (decimal.signed (ascii '-') (upper ++ n : BitVec 64).toInt) := fun fmt args =>
    kvprintf_conversion (conversion_signed (.inl rfl) (upper ++ n) args) fmt
  rw [← append_toInt_iff]
  constructor
  · intro own
    have minus : decimal.value (ascii '-') = none := by decide
    exact decimal.signed_injective minus (printed.unique own)
  · intro same
    rwa [same] at printed

/-- An unknown system call number of all ones, in a slot whose upper half is zero. -/
theorem minus_one_not_printed :
    ¬ ∀ mem (upper n : BitVec 32),
      Prints mem (ascii 'd') (upper ++ n) (decimal.signed (ascii '-') n.toInt) := by
  intro claim
  have printed := (claim (fun _ => []) 0 (-1)) [0] []
  exact absurd printed (by decide)

end

end ChefOs
