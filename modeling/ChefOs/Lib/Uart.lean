import ChefOs.Lib.Fuel
import Mathlib.Data.List.ReduceOption

/-!
# A serial line

The transmitter of a 16550, and a receiver at the other end of the line.  Each byte goes over the
line in a frame; between two accesses to the transmitter any number of bits may go out.
-/

namespace Kit.Serial

/-! ## Frames -/

/-- The bits of a frame; the parity is even or odd. -/
structure Format where
  dataBits : ℕ
  parity : Option Bool
  stopBits : ℕ
deriving DecidableEq

/-- The format that the line control register sets. -/
def Format.ofLcr (lcr : BitVec 8) : Format where
  dataBits := 5 + (lcr &&& 3).toNat
  parity := if lcr.getLsbD 3 then some (lcr.getLsbD 4) else none
  stopBits := if lcr.getLsbD 2 then 2 else 1

/-- The data bits of a byte, the lowest first. -/
def Format.data (f : Format) (c : UInt8) : List Bool :=
  (List.range f.dataBits).map c.toBitVec.getLsbD

/-- The bits behind the data. -/
def Format.trailer (f : Format) (c : UInt8) : List Bool :=
  (f.parity.map fun even => (f.data c).foldl Bool.xor (!even)).toList ++
    List.replicate f.stopBits true

/-- What follows the start bit of a frame. -/
def Format.body (f : Format) (c : UInt8) : List Bool := f.data c ++ f.trailer c

/-- The bits of a line: marks, and a start bit before each frame. -/
def Format.wire (f : Format) (segs : List (Option UInt8)) : List Bool :=
  segs.flatMap fun
    | none => [true]
    | some c => false :: f.body c

/-- The bits behind the data, in number. -/
def Format.trailing (f : Format) : ℕ := f.parity.toList.length + f.stopBits

/-- A byte from its bits. -/
def ofBits (bits : List Bool) : UInt8 := .ofNat (bits.foldr (fun b n => b.toNat + 2 * n) 0)

/-- What a receiver makes of the bits of a line; it does not look at the parity. -/
def Format.receive (f : Format) : List Bool → List UInt8
  | [] => []
  | true :: line => f.receive line
  | false :: line =>
    if line.length < f.dataBits + f.trailing then []
    else ofBits (line.take f.dataBits) :: f.receive (line.drop (f.dataBits + f.trailing))
termination_by line => line.length
decreasing_by
  · simp
  · simp only [List.length_drop, List.length_cons]
    omega

section

variable {f : Format} {line shift : List Bool} {segs : List (Option UInt8)}

theorem Format.length_data (f : Format) (c : UInt8) : (f.data c).length = f.dataBits := by
  simp [Format.data]

theorem Format.length_body (f : Format) (c : UInt8) :
    (f.body c).length = f.dataBits + f.trailing := by
  simp only [Format.body, Format.trailer, Format.trailing, List.length_append, f.length_data,
    List.length_replicate]
  cases f.parity <;> simp

/-- Eight data bits are the byte. -/
theorem Format.ofBits_data (bits : f.dataBits = 8) (c : UInt8) : ofBits (f.data c) = c := by
  have all : ∀ n < 256,
      ofBits ((List.range 8).map (UInt8.ofNat n).toBitVec.getLsbD) = .ofNat n := by
    decide +kernel
  have here := all c.toNat c.toNat_lt
  rw [UInt8.ofNat_toNat] at here
  rw [Format.data, bits, here]

theorem Format.wire_cons_some (c : UInt8) :
    f.wire (some c :: segs) = false :: (f.body c ++ f.wire segs) := rfl

theorem Format.wire_cons_none : f.wire (none :: segs) = true :: f.wire segs := rfl

/-- A receiver that has seen a part of the line has a part of the bytes. -/
theorem Format.receive_prefix (bits : f.dataBits = 8) (split : line ++ shift = f.wire segs) :
    f.receive line <+: segs.reduceOption := by
  induction segs generalizing line with
  | nil =>
    have none : line = [] := (List.append_eq_nil_iff.mp split).1
    simp [none, Format.receive]
  | cons seg segs ih =>
    cases line with
    | nil => simp [Format.receive]
    | cons b line =>
      cases seg with
      | none =>
        rw [f.wire_cons_none, List.cons_append] at split
        obtain ⟨rfl, later⟩ := List.cons.inj split
        rw [Format.receive, List.reduceOption_cons_of_none]
        exact ih later
      | some c =>
        rw [f.wire_cons_some, List.cons_append] at split
        obtain ⟨rfl, later⟩ := List.cons.inj split
        rw [Format.receive, List.reduceOption_cons_of_some]
        split_ifs with short
        · exact List.nil_prefix
        · have length := f.length_body c
          have enough : (f.body c).length ≤ line.length := by omega
          have front := congrArg (List.take (f.body c).length) later
          have back := congrArg (List.drop (f.body c).length) later
          rw [List.take_append_of_le_length enough, List.take_left] at front
          rw [List.drop_append_of_le_length enough, List.drop_left] at back
          have data : line.take f.dataBits = f.data c := by
            rw [← List.take_append_drop (f.body c).length line, front, Format.body,
              List.append_assoc, ← f.length_data c, List.take_left]
          rw [data, f.ofBits_data bits, ← length, List.cons_prefix_cons]
          exact ⟨rfl, ih back⟩

/-- A receiver that has seen all of the line has all of the bytes. -/
theorem Format.receive_wire (bits : f.dataBits = 8) :
    f.receive (f.wire segs) = segs.reduceOption := by
  induction segs with
  | nil => simp [Format.wire, Format.receive]
  | cons seg segs ih =>
    cases seg with
    | none => rw [f.wire_cons_none, Format.receive, List.reduceOption_cons_of_none, ih]
    | some c =>
      have length := f.length_body c
      have data : (f.body c ++ f.wire segs).take f.dataBits = f.data c := by
        rw [Format.body, List.append_assoc, ← f.length_data c, List.take_left]
      rw [f.wire_cons_some, Format.receive, List.reduceOption_cons_of_some, data,
        f.ofBits_data bits, ← length, List.drop_left, ih, if_neg]
      rw [List.length_append]
      omega

end

/-! ## The transmitter -/

/-- The transmitter: its registers, the bytes that wait in its queue, the bits of the frame that is
going out, the bits that have gone out, and how many bits go out before each access to come. -/
structure Uart where
  ier : BitVec 8
  fcr : BitVec 8
  lcr : BitVec 8
  mcr : BitVec 8
  divisorLow : BitVec 8
  divisorHigh : BitVec 8
  fifo : List UInt8
  shift : List Bool
  line : List Bool
  waits : ℕ → ℕ

namespace Uart

/-- A bit goes out. -/
def tick (u : Uart) : Uart :=
  match u.shift, u.fifo with
  | b :: shift, _ => { u with shift, line := u.line ++ [b] }
  | [], c :: fifo =>
    { u with shift := (Format.ofLcr u.lcr).body c, fifo, line := u.line ++ [false] }
  | [], [] => { u with line := u.line ++ [true] }

/-- The bits before an access. -/
def wait (u : Uart) : Uart := tick^[u.waits 0] { u with waits := fun n => u.waits (n + 1) }

/-- The queue has room for another byte. -/
def HasRoom (u : Uart) : Prop := u.fifo.length < if u.fcr.getLsbD 0 then 16 else 1

instance (u : Uart) : Decidable u.HasRoom := inferInstanceAs (Decidable (_ < _))

/-- A register is written, by its offset.  A byte for which there is no room is lost. -/
def write (reg : ℕ) (val : UInt8) (u : Uart) : Uart :=
  let u := u.wait
  match reg with
  | 0 =>
    if u.lcr.getLsbD 7 then { u with divisorLow := val.toBitVec }
    else if u.HasRoom then { u with fifo := u.fifo ++ [val] }
    else u
  | 1 =>
    if u.lcr.getLsbD 7 then { u with divisorHigh := val.toBitVec }
    else { u with ier := val.toBitVec }
  | 2 =>
    let clears := val.toBitVec.getLsbD 2 ∨ val.toBitVec.getLsbD 0 ≠ u.fcr.getLsbD 0
    { u with fcr := val.toBitVec, fifo := if clears then [] else u.fifo }
  | 3 => { u with lcr := val.toBitVec }
  | 4 => { u with mcr := val.toBitVec }
  | _ => u

/-- The line status: whether the queue is empty, and whether nothing is going out. -/
def lineStatus (u : Uart) : UInt8 :=
  (if u.fifo = [] then 0x20 else 0) ||| if u.fifo = [] ∧ u.shift = [] then 0x40 else 0

/-- The line status is read. -/
def readStatus (u : Uart) : UInt8 × Uart := (u.wait.lineStatus, u.wait)

/-- The bits that have still to go out. -/
def pending (u : Uart) : ℕ :=
  u.shift.length + (u.fifo.map fun c => ((Format.ofLcr u.lcr).body c).length + 1).sum

/-- Bits keep going out. -/
def Moves (u : Uart) : Prop := ∀ k, ∃ n, k ≤ ∑ i ∈ Finset.range n, u.waits i

/-- The accesses until all bits are out. -/
noncomputable def accesses (u : Uart) : ℕ :=
  sInf {n | u.pending ≤ ∑ i ∈ Finset.range n, u.waits i}

/-- The bytes `sent` have gone out, are going out, or wait in the queue. -/
structure Sends (f : Format) (sent : List UInt8) (u : Uart) : Prop where
  format : Format.ofLcr u.lcr = f
  data : u.lcr.getLsbD 7 = false
  wire : ∃ segs, u.line ++ u.shift = f.wire segs ∧ sent = segs.reduceOption ++ u.fifo

section

variable {f : Format} {sent : List UInt8} {u : Uart}

theorem wire_concat (segs : List (Option UInt8)) (seg : Option UInt8) :
    f.wire (segs ++ [seg]) = f.wire segs ++ f.wire [seg] := by
  simp [Format.wire]

theorem tick_waits (u : Uart) : u.tick.waits = u.waits ∧ u.tick.lcr = u.lcr ∧
    u.tick.fcr = u.fcr ∧ u.tick.divisorLow = u.divisorLow ∧
    u.tick.divisorHigh = u.divisorHigh := by
  unfold tick
  split <;> exact ⟨rfl, rfl, rfl, rfl, rfl⟩

theorem tick_cases (u : Uart) :
    (∃ b shift, u.shift = b :: shift ∧ u.tick = { u with shift, line := u.line ++ [b] }) ∨
      (∃ c fifo, u.shift = [] ∧ u.fifo = c :: fifo ∧ u.tick =
        { u with shift := (Format.ofLcr u.lcr).body c, fifo, line := u.line ++ [false] }) ∨
      u.shift = [] ∧ u.fifo = [] ∧ u.tick = { u with line := u.line ++ [true] } := by
  unfold tick
  rcases u.shift with - | ⟨b, shift⟩
  · rcases u.fifo with - | ⟨c, fifo⟩
    · exact .inr (.inr ⟨rfl, rfl, rfl⟩)
    · exact .inr (.inl ⟨c, fifo, rfl, rfl, rfl⟩)
  · exact .inl ⟨b, shift, rfl, rfl⟩

/-- A bit that goes out is one of those of the bytes, or a mark. -/
theorem Sends.tick (h : Sends f sent u) : Sends f sent u.tick := by
  obtain ⟨format, data, segs, line, queue⟩ := h
  rcases u.tick_cases with ⟨b, shift, going, eq⟩ | ⟨c, fifo, none, next, eq⟩ | ⟨none, empty, eq⟩
  · rw [eq]
    exact ⟨format, data, segs, by simpa [going] using line, queue⟩
  · rw [none, List.append_nil] at line
    rw [eq]
    refine ⟨format, data, segs ++ [some c], ?_, ?_⟩
    · rw [wire_concat, ← line, format, List.append_assoc]
      simp [Format.wire]
    · rw [queue, next, List.reduceOption_append, List.append_assoc]
      rfl
  · rw [none, List.append_nil] at line
    rw [eq]
    refine ⟨format, data, segs ++ [Option.none], ?_, ?_⟩
    · rw [wire_concat, ← line, none, List.append_nil]
      rfl
    · rw [queue, List.reduceOption_append]
      simp

theorem pending_tick (u : Uart) : u.tick.pending = u.pending - 1 := by
  rcases u.tick_cases with ⟨b, shift, going, eq⟩ | ⟨c, fifo, none, next, eq⟩ | ⟨none, empty, eq⟩
  · simp only [eq, pending, going, List.length_cons]
    omega
  · simp only [eq, pending, none, next, List.map_cons, List.sum_cons, List.length_nil]
    omega
  · simp [eq, pending, none, empty]

/-- What the bits that go out leave alone. -/
theorem ticks_keep (u : Uart) (n : ℕ) : (Uart.tick^[n] u).waits = u.waits ∧
    (Uart.tick^[n] u).pending = u.pending - n := by
  induction n with
  | zero => exact ⟨rfl, rfl⟩
  | succ n ih =>
    rw [Function.iterate_succ_apply', pending_tick, ih.2, (tick_waits _).1, ih.1]
    exact ⟨rfl, by omega⟩

theorem Sends.ticks (h : Sends f sent u) (n : ℕ) : Sends f sent (Uart.tick^[n] u) := by
  induction n with
  | zero => exact h
  | succ n ih =>
    rw [Function.iterate_succ_apply']
    exact ih.tick

theorem Sends.wait (h : Sends f sent u) : Sends f sent u.wait := by
  apply Sends.ticks
  exact ⟨h.format, h.data, h.wire⟩

/-- Bits that are waited for are no longer pending. -/
theorem pending_wait (u : Uart) : u.wait.pending = u.pending - u.waits 0 ∧
    u.wait.waits = fun n => u.waits (n + 1) := by
  obtain ⟨waits, pending⟩ := ticks_keep { u with waits := fun n => u.waits (n + 1) } (u.waits 0)
  exact ⟨pending, waits⟩

theorem Moves.wait (moves : u.Moves) : u.wait.Moves := by
  intro k
  obtain ⟨n, enough⟩ := moves (k + u.waits 0)
  refine ⟨n, ?_⟩
  have more := Finset.sum_le_sum_of_subset (f := u.waits) (Finset.range_mono (Nat.le_succ n))
  rw [Finset.sum_range_succ'] at more
  rw [u.pending_wait.2]
  dsimp only
  omega

theorem pending_eq_zero : u.pending = 0 ↔ u.shift = [] ∧ u.fifo = [] := by
  unfold pending
  cases u.fifo <;> simp

/-- As long as bits are pending, an access brings their end closer. -/
theorem accesses_wait (moves : u.Moves) (more : u.wait.pending ≠ 0) :
    u.wait.accesses < u.accesses := by
  obtain ⟨pending, waits⟩ := u.pending_wait
  have enough : u.pending ≤ ∑ i ∈ Finset.range u.accesses, u.waits i :=
    Nat.sInf_mem (s := {n | u.pending ≤ ∑ i ∈ Finset.range n, u.waits i}) (moves u.pending)
  have positive : u.accesses ≠ 0 := by
    intro none
    rw [none, Finset.sum_range_zero] at enough
    omega
  obtain ⟨n, hn⟩ := Nat.exists_eq_succ_of_ne_zero positive
  rw [hn, Finset.sum_range_succ'] at enough
  rw [hn, Nat.lt_succ_iff]
  apply Nat.sInf_le
  change u.wait.pending ≤ ∑ i ∈ Finset.range n, u.wait.waits i
  rw [waits, pending]
  dsimp only
  omega

/-- No bit fills the queue. -/
theorem fifo_wait (empty : u.fifo = []) : u.wait.fifo = [] := by
  have ticks (v : Uart) (none : v.fifo = []) (n : ℕ) : (Uart.tick^[n] v).fifo = [] := by
    induction n with
    | zero => exact none
    | succ n ih =>
      rw [Function.iterate_succ_apply']
      rcases (Uart.tick^[n] v).tick_cases with
        ⟨b, shift, -, eq⟩ | ⟨c, fifo, -, next, -⟩ | ⟨-, -, eq⟩
      · rw [eq]
        exact ih
      · rw [ih] at next
        contradiction
      · rw [eq]
        exact ih
  exact ticks { u with waits := fun n => u.waits (n + 1) } empty (u.waits 0)

theorem write_zero (val : UInt8) (u : Uart) :
    u.write 0 val = if u.wait.lcr.getLsbD 7 then { u.wait with divisorLow := val.toBitVec }
      else if u.wait.HasRoom then { u.wait with fifo := u.wait.fifo ++ [val] } else u.wait := rfl

theorem write_one (val : UInt8) (u : Uart) :
    u.write 1 val = if u.wait.lcr.getLsbD 7 then { u.wait with divisorHigh := val.toBitVec }
      else { u.wait with ier := val.toBitVec } := rfl

theorem write_waits (reg : ℕ) (val : UInt8) (u : Uart) :
    (u.write reg val).waits = u.wait.waits := by
  unfold Uart.write
  dsimp only
  split <;> (try split_ifs) <;> rfl

theorem Moves.write (moves : u.Moves) (reg : ℕ) (val : UInt8) : (u.write reg val).Moves := by
  unfold Moves
  rw [write_waits]
  exact moves.wait

/-- Nothing is going out or waits; the line format and the divisor are set. -/
structure Idle (lcr divisorLow divisorHigh : BitVec 8) (u : Uart) : Prop where
  lcr : u.lcr = lcr
  divisorLow : u.divisorLow = divisorLow
  divisorHigh : u.divisorHigh = divisorHigh
  fifo : u.fifo = []
  shift : u.shift = []
  line : ∃ n, u.line = List.replicate n true

section

variable {lcr low high : BitVec 8}

theorem Idle.wait (h : Idle lcr low high u) : Idle lcr low high u.wait := by
  have ticks (v : Uart) (idle : Idle lcr low high v) (n : ℕ) :
      Idle lcr low high (Uart.tick^[n] v) := by
    induction n with
    | zero => exact idle
    | succ n ih =>
      rw [Function.iterate_succ_apply']
      obtain ⟨lcr, low, high, fifo, shift, k, line⟩ := ih
      rcases (Uart.tick^[n] v).tick_cases with
        ⟨b, shift', going, -⟩ | ⟨c, fifo', -, next, -⟩ | ⟨-, -, eq⟩
      · rw [shift] at going
        contradiction
      · rw [fifo] at next
        contradiction
      · rw [eq]
        exact ⟨lcr, low, high, fifo, shift, k + 1, by rw [line, List.replicate_succ']⟩
  exact ticks { u with waits := fun n => u.waits (n + 1) }
    ⟨h.lcr, h.divisorLow, h.divisorHigh, h.fifo, h.shift, h.line⟩ (u.waits 0)

theorem Idle.writeLcr (h : Idle lcr low high u) (val : UInt8) :
    Idle val.toBitVec low high (u.write 3 val) := by
  obtain ⟨lcr, low, high, fifo, shift, line⟩ := h.wait
  exact ⟨rfl, low, high, fifo, shift, line⟩

/-- With the divisor latch open, the first two registers are the divisor. -/
theorem Idle.writeDivisor (h : Idle lcr low high u) (latch : lcr.getLsbD 7 = true) (val : UInt8) :
    Idle lcr val.toBitVec high (u.write 0 val) ∧ Idle lcr low val.toBitVec (u.write 1 val) := by
  obtain ⟨rfl, low, high, fifo, shift, line⟩ := h.wait
  rw [write_zero, write_one, if_pos latch, if_pos latch]
  exact ⟨⟨rfl, rfl, high, fifo, shift, line⟩, ⟨rfl, low, rfl, fifo, shift, line⟩⟩

/-- The interrupts. -/
theorem Idle.writeIer (h : Idle lcr low high u) (val : UInt8) :
    ∃ high', Idle lcr low high' (u.write 1 val) := by
  obtain ⟨lcr, low, high, fifo, shift, line⟩ := h.wait
  rw [write_one]
  split_ifs
  · exact ⟨_, lcr, low, rfl, fifo, shift, line⟩
  · exact ⟨_, lcr, low, high, fifo, shift, line⟩

/-- The queue and the modem lines. -/
theorem Idle.writeControl (h : Idle lcr low high u) (val : UInt8) :
    Idle lcr low high (u.write 2 val) ∧ Idle lcr low high (u.write 4 val) := by
  obtain ⟨lcr, low, high, fifo, shift, line⟩ := h.wait
  refine ⟨⟨lcr, low, high, ?_, shift, line⟩, ⟨lcr, low, high, fifo, shift, line⟩⟩
  change ite _ [] u.wait.fifo = []
  rw [fifo, ite_self]

/-- An idle transmitter has sent nothing. -/
theorem Idle.sends (h : Idle lcr low high u) (data : lcr.getLsbD 7 = false) :
    Sends (Format.ofLcr lcr) [] u := by
  obtain ⟨rfl, -, -, fifo, shift, n, line⟩ := h
  refine ⟨rfl, data, List.replicate n none, ?_, ?_⟩
  · rw [line, shift, List.append_nil, Format.wire, List.flatMap_replicate]
    simp
  · rw [fifo]
    simp

end

/-- A byte that is written to an empty queue is sent after the others. -/
theorem Sends.write (h : Sends f sent u) (ready : u.fifo = []) (c : UInt8) :
    Sends f (sent ++ [c]) (u.write 0 c) := by
  have empty := fifo_wait ready
  obtain ⟨format, data, segs, line, queue⟩ := h.wait
  have room : u.wait.HasRoom := by
    rw [HasRoom, empty, List.length_nil]
    split_ifs <;> decide
  have eq : u.write 0 c = { u.wait with fifo := u.wait.fifo ++ [c] } := by
    rw [write_zero, if_neg (by rw [data]; exact Bool.false_ne_true), if_pos room]
  rw [eq]
  exact ⟨format, data, segs, line, by rw [queue, List.append_assoc]⟩

/-- What a receiver has so far, and what it has once all bits are out. -/
theorem Sends.receive (h : Sends f sent u) (bits : f.dataBits = 8) :
    f.receive u.line <+: sent ∧ (u.pending = 0 → f.receive u.line = sent) := by
  obtain ⟨-, -, segs, line, queue⟩ := h
  constructor
  · rw [queue]
    exact (f.receive_prefix bits line).trans (List.prefix_append ..)
  · intro out
    obtain ⟨none, empty⟩ := pending_eq_zero.mp out
    rw [none, List.append_nil] at line
    rw [queue, empty, line, f.receive_wire bits, List.append_nil]

end

end Uart

end Kit.Serial
