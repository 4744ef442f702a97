import ChefOs.Lib.Uart
import ChefOs.Sys.Formats

/-!
# The serial console

`sys/serial.c` on a transmitter whose bits go out between the accesses: whatever the timing, what
is printed arrives at the other end of the line, in order and without a loss.
-/

namespace ChefOs

open Kit Serial

/-- `outb`, to the ports from `COM1` on. -/
def comOutb (port : ℕ) (val : UInt8) (u : Uart) : Uart := u.write (port - 0x3F8) val

/-- `serial_init`. -/
def serialInit (u : Uart) : Uart :=
  let com1 := 0x3F8
  let u := comOutb (com1 + 1) 0x00 u
  let u := comOutb (com1 + 3) 0x80 u
  let u := comOutb (com1 + 0) 0x03 u
  let u := comOutb (com1 + 1) 0x00 u
  let u := comOutb (com1 + 3) 0x03 u
  let u := comOutb (com1 + 2) 0xC7 u
  comOutb (com1 + 4) 0x0B u

/-- `is_transmit_empty`. -/
def isTransmitEmpty (u : Uart) : UInt8 × Uart :=
  let (status, u) := u.readStatus
  (status &&& 0x20, u)

/-- `serial_putc`. -/
def serialPutc (fuel : ℕ) (c : UInt8) (u : Uart) : Option Uart :=
  (pollUntil isTransmitEmpty (· ≠ 0) fuel u).map (comOutb 0x3F8 c)

/-- `serial_puts`. -/
def serialPuts (fuel : ℕ) : List UInt8 → Uart → Option Uart
  | [], _ => none
  | c :: s, u =>
    if c = 0 then some u
    else
      (if c = 0x0A then serialPutc fuel 0x0D u else some u).bind fun u =>
        (serialPutc fuel c u).bind (serialPuts fuel s)

/-- A call of one of the two. -/
inductive SerialCall
  | putc (c : UInt8)
  | puts (s : List UInt8)

/-- The calls one after the other. -/
def serialRun (fuel : ℕ) (calls : List SerialCall) (u : Uart) : Option Uart :=
  calls.foldlM (fun u call =>
    match call with
    | .putc c => serialPutc fuel c u
    | .puts s => serialPuts fuel s u) u

/-- The bytes of the calls. -/
def serialBytes (calls : List SerialCall) : List UInt8 :=
  calls.flatMap fun
    | .putc c => [c]
    | .puts s => crlf (cstr s)

/-- The transmitter has sent the bytes, or will. -/
structure Sending (f : Format) (sent : List UInt8) (u : Uart) : Prop where
  sends : u.Sends f sent
  moves : u.Moves

section

variable {f : Format} {sent : List UInt8} {u : Uart}

/-- The poll ends with an empty queue. -/
theorem poll_ends (sending : Sending f sent u) :
    ∃ t, Ends (fun fuel => pollUntil isTransmitEmpty (· ≠ 0) fuel u) t ∧
      Sending f sent t ∧ t.fifo = [] := by
  refine pollUntil_ends Uart.accesses (fun v inv => ?_) sending
  have next : Sending f sent v.wait := ⟨inv.sends.wait, inv.moves.wait⟩
  by_cases empty : v.wait.fifo = []
  · left
    refine ⟨?_, next, empty⟩
    simp only [isTransmitEmpty, Uart.readStatus, Uart.lineStatus, empty, true_and, if_true]
    split_ifs <;> rfl
  · right
    refine ⟨?_, next, v.accesses_wait inv.moves fun out => empty (Uart.pending_eq_zero.mp out).2⟩
    simp [isTransmitEmpty, Uart.readStatus, Uart.lineStatus, empty]

/-- `serial_putc` ends, and its byte is sent after the others. -/
theorem serialPutc_ends (sending : Sending f sent u) (c : UInt8) :
    ∃ t, Ends (fun fuel => serialPutc fuel c u) t ∧ Sending f (sent ++ [c]) t := by
  obtain ⟨t, ends, inv, empty⟩ := poll_ends sending
  exact ⟨comOutb 0x3F8 c t, ends.map (comOutb 0x3F8 c), inv.sends.write empty c,
    inv.moves.write 0 c⟩

/-- `serial_puts` ends, and its string is sent after the other bytes. -/
theorem serialPuts_ends {s : List UInt8} (terminated : 0 ∈ s) (sending : Sending f sent u) :
    ∃ t, Ends (fun fuel => serialPuts fuel s u) t ∧ Sending f (sent ++ crlf (cstr s)) t := by
  induction s generalizing sent u with
  | nil => exact absurd terminated List.not_mem_nil
  | cons c s ih =>
    by_cases nul : c = 0
    · subst nul
      refine ⟨u, ⟨0, fun fuel _ => rfl⟩, ?_⟩
      rw [cstr_zero]
      simpa [crlf] using sending
    have later := (List.mem_cons.mp terminated).resolve_left (Ne.symm nul)
    simp only [serialPuts, if_neg nul]
    rw [cstr_cons nul]
    by_cases newline : c = 0x0A
    · obtain ⟨v, first, sent₁⟩ := serialPutc_ends sending 0x0D
      obtain ⟨w, second, sent₂⟩ := serialPutc_ends sent₁ c
      obtain ⟨t, rest, sent₃⟩ := ih later sent₂
      simp only [if_pos newline]
      refine ⟨t, first.bind (second.bind rest), ?_⟩
      rw [newline] at sent₃
      simpa [crlf, newline, ascii] using sent₃
    · obtain ⟨w, second, sent₂⟩ := serialPutc_ends sending c
      obtain ⟨t, rest, sent₃⟩ := ih later sent₂
      simp only [if_neg newline, Option.bind_some]
      refine ⟨t, second.bind rest, ?_⟩
      have plain : c ≠ ascii '\n' := newline
      simpa [crlf, plain] using sent₃

/-- Calls end, and their bytes are sent one after the other. -/
theorem serialRun_ends {calls : List SerialCall}
    (terminated : ∀ s, .puts s ∈ calls → 0 ∈ s) (sending : Sending f sent u) :
    ∃ t, Ends (fun fuel => serialRun fuel calls u) t ∧
      Sending f (sent ++ serialBytes calls) t := by
  induction calls generalizing sent u with
  | nil => exact ⟨u, ⟨0, fun fuel _ => rfl⟩, by simpa [serialBytes] using sending⟩
  | cons call calls ih =>
    have later := fun s mem => terminated s (List.mem_cons_of_mem call mem)
    cases call with
    | putc c =>
      obtain ⟨v, first, sent₁⟩ := serialPutc_ends sending c
      obtain ⟨t, rest, sent₂⟩ := ih later sent₁
      refine ⟨t, first.bind rest, ?_⟩
      simpa [serialBytes] using sent₂
    | puts s =>
      obtain ⟨v, first, sent₁⟩ := serialPuts_ends (terminated s List.mem_cons_self) sending
      obtain ⟨t, rest, sent₂⟩ := ih later sent₁
      refine ⟨t, first.bind rest, ?_⟩
      simpa [serialBytes] using sent₂

/-- `serial_init` sets eight data bits, no parity, one stop bit and the divisor 3. -/
theorem serialInit_idle {lcr low high : BitVec 8} (idle : u.Idle lcr low high) :
    (serialInit u).Idle 0x03 0x03 0x00 := by
  obtain ⟨high', first⟩ := idle.writeIer 0x00
  have latched := first.writeLcr 0x80
  have divisor := (latched.writeDivisor (by decide) 0x03).1
  have divisor' := (divisor.writeDivisor (by decide) 0x00).2
  have format := divisor'.writeLcr 0x03
  exact (format.writeControl 0xC7).1.writeControl 0x0B |>.2

/-- Whatever is printed after `serial_init`, and however the bits go out between the accesses: the
calls end, a receiver that reads eight data bits without parity has a part of the bytes at any time,
and all of them when the transmitter is empty. -/
theorem serialRun_delivers {lcr low high : BitVec 8} (idle : u.Idle lcr low high)
    (moves : u.Moves) {calls : List SerialCall} (terminated : ∀ s, .puts s ∈ calls → 0 ∈ s) :
    ∃ t, Ends (fun fuel => serialRun fuel calls (serialInit u)) t ∧
      ∀ n, (⟨8, none, 1⟩ : Format).receive (Uart.tick^[n] t).line <+: serialBytes calls ∧
        (t.pending ≤ n →
          (⟨8, none, 1⟩ : Format).receive (Uart.tick^[n] t).line = serialBytes calls) := by
  have sends : (serialInit u).Sends ⟨8, none, 1⟩ [] :=
    (serialInit_idle idle).sends (by decide)
  have moves' : (serialInit u).Moves := by
    have outb (v : Uart) (h : v.Moves) (port : ℕ) (val : UInt8) : (comOutb port val v).Moves :=
      Uart.Moves.write h (port - 0x3F8) val
    exact outb _ (outb _ (outb _ (outb _ (outb _ (outb _ (outb _ moves _ _) _ _) _ _) _ _) _ _)
      _ _) _ _
  obtain ⟨t, ends, sending⟩ := serialRun_ends terminated ⟨sends, moves'⟩
  refine ⟨t, ends, fun n => ?_⟩
  obtain ⟨part, all⟩ := (sending.sends.ticks n).receive rfl
  refine ⟨part, fun out => all ?_⟩
  rw [(t.ticks_keep n).2]
  exact Nat.sub_eq_zero_of_le out

end

/-- A transmitter that sends one bit before each access. -/
def exampleUart : Uart := ⟨0, 0, 0, 0, 1, 0, [], [], [], fun _ => 1⟩

/-- The first line of the log. -/
def firstLines : List SerialCall :=
  [.puts (text "\n[CHEF OS] Kernel Entry Initialized.\n" ++ [0]), .putc 0x30]

theorem serialRun_delivers_example :
    ∃ t, Ends (fun fuel => serialRun fuel firstLines (serialInit exampleUart)) t ∧
      (⟨8, none, 1⟩ : Format).receive (Uart.tick^[t.pending] t).line =
        text "\r\n[CHEF OS] Kernel Entry Initialized.\r\n0" := by
  have idle : exampleUart.Idle 0 1 0 := ⟨rfl, rfl, rfl, rfl, rfl, 0, rfl⟩
  have moves : exampleUart.Moves := fun k => ⟨k, by simp [exampleUart]⟩
  have terminated : ∀ s, .puts s ∈ firstLines → 0 ∈ s := by
    intro s mem
    simp only [firstLines, List.mem_cons, SerialCall.puts.injEq, reduceCtorEq,
      List.not_mem_nil, or_false] at mem
    rw [mem]
    decide
  obtain ⟨t, ends, received⟩ := serialRun_delivers idle moves terminated
  refine ⟨t, ends, ((received t.pending).2 le_rfl).trans ?_⟩
  decide

end ChefOs
