import Mathlib.Tactic

/-!
# A keyboard controller with a mouse

The processor writes to one buffer and reads from another one; when the controller looks at the
first one and fills the second one is left open.  The rules say what the controller has been told,
whenever it looks.
-/

namespace Kit.I8042

/-- A byte for the processor, and whether it is of the mouse. -/
abbrev Byte := UInt8 × Bool

/-- What the controller has been told, and the bytes that it has for the processor. -/
structure Core where
  config : UInt8
  expects : Option UInt8
  received : List UInt8
  queue : List Byte
deriving DecidableEq

/-- The controller takes a command or a data byte: 0xA8 enables the mouse, 0x20 asks for the
configuration, 0x60 announces a new one and 0xD4 a byte for the mouse.  That byte gets there if the
mouse is enabled, and is acknowledged. -/
def Core.take (command : Bool) (v : UInt8) (s : Core) : Core :=
  if command then
    if v = 0xA8 then { s with config := s.config &&& ~~~0x20, expects := none }
    else if v = 0x20 then { s with expects := none, queue := s.queue ++ [(s.config, false)] }
    else { s with expects := some v }
  else
    if s.expects = some 0x60 then { s with config := v, expects := none }
    else if s.expects = some 0xD4 ∧ s.config &&& 0x20 = 0 then
      { s with expects := none, received := s.received ++ [v], queue := s.queue ++ [(0xFA, true)] }
    else { s with expects := none }

/-- The controller takes what is written to its ports. -/
def Core.takeAll (writes : List (UInt16 × UInt8)) (s : Core) : Core :=
  writes.foldl (fun s w => s.take (w.1 = 0x64) w.2) s

theorem Core.takeAll_append (writes later : List (UInt16 × UInt8)) (s : Core) :
    s.takeAll (writes ++ later) = (s.takeAll writes).takeAll later := List.foldl_append

/-- Other bytes come before those that wait. -/
def Core.behind (front : List Byte) (s : Core) : Core := { s with queue := front ++ s.queue }

/-- The first byte that waits has been read. -/
def Core.read (s : Core) : Core := { s with queue := s.queue.tail }

/-- What the controller does by itself. -/
inductive Move
  | take
  | fill
deriving DecidableEq

/-- The controller with its buffers.  `moves n` are its moves behind the `n`-th access from now. -/
structure Controller where
  core : Core
  output : Option Byte
  input : Option (Bool × UInt8)
  last : UInt8
  moves : ℕ → List Move

namespace Controller

/-- A move. -/
def move (c : Controller) : Move → Controller
  | .take =>
    match c.input with
    | some (command, v) => { c with core := c.core.take command v, input := none }
    | none => c
  | .fill =>
    match c.output, c.core.queue with
    | none, b :: queue => { c with output := some b, core := { c.core with queue := queue } }
    | _, _ => c

/-- The moves up to the next access. -/
def pass (c : Controller) : Controller :=
  { (c.moves 0).foldl move c with moves := fun n => c.moves (n + 1) }

/-- The status: the output buffer is full, the input buffer is full, the byte is of the mouse. -/
def status (c : Controller) : UInt8 :=
  (if c.output.isSome then 0x01 else 0) ||| (if c.input.isSome then 0x02 else 0) |||
    if c.output.any Prod.snd then 0x20 else 0

/-- A read from a port.  An empty buffer gives the last byte again. -/
def inb (port : UInt16) (c : Controller) : UInt8 × Controller :=
  if port = 0x64 then (c.status, c.pass)
  else
    match c.output with
    | some b => (b.1, { c with output := none, last := b.1 }.pass)
    | none => (c.last, c.pass)

/-- A write to a port. -/
def outb (port : UInt16) (v : UInt8) (c : Controller) : Controller :=
  { c with input := some (port = 0x64, v) }.pass

/-- The core when the input buffer has been read. -/
def taken (c : Controller) : Core :=
  match c.input with
  | some (command, v) => c.core.take command v
  | none => c.core

/-- What the controller has been told and will send, once it has looked. -/
def told (c : Controller) : Core := c.taken.behind c.output.toList

/-- Both kinds of moves come again in any so many accesses. -/
def Responsive (bound : ℕ) (c : Controller) : Prop :=
  ∀ n move, ∃ k < bound, move ∈ c.moves (n + k)

end Controller

/-! ## What moves change -/

/-- What is taken does not depend on the bytes that wait. -/
theorem Core.take_behind (command : Bool) (v : UInt8) (s : Core) (front : List Byte) :
    (s.behind front).take command v = (s.take command v).behind front := by
  unfold Core.take Core.behind
  split_ifs <;> simp

namespace Controller

section

variable {c : Controller} {m : Move} {bound : ℕ}

/-- Moves change nothing of what the controller has been told. -/
theorem told_move (c : Controller) (m : Move) : (c.move m).told = c.told := by
  cases m with
  | take =>
    cases input : c.input with
    | none => simp [move, input]
    | some written => simp [move, told, taken, input]
  | fill =>
    obtain ⟨⟨config, expects, received, queue⟩, output, input, last, moves⟩ := c
    cases output with
    | some b => rfl
    | none =>
      cases queue with
      | nil => rfl
      | cons b queue =>
        cases input with
        | none => rfl
        | some written =>
          exact (Core.take_behind written.1 written.2 ⟨config, expects, received, queue⟩ [b]).symm

/-- What moves keep, any number of them keeps. -/
theorem foldl_move {I : Controller → Prop} (keeps : ∀ c m, I c → I (c.move m)) (l : List Move)
    (initial : I c) : I (l.foldl move c) := by
  induction l generalizing c with
  | nil => exact initial
  | cons m l ih => exact ih (keeps c m initial)

/-- What one kind of moves reaches is reached when that move is among them. -/
theorem foldl_move_reaches {I J : Controller → Prop} (keeps : ∀ c m, I c → I (c.move m))
    (stays : ∀ c m, J c → J (c.move m)) (makes : ∀ c, I c → J (c.move m)) {l : List Move}
    (mem : m ∈ l) (initial : I c) : J (l.foldl move c) := by
  obtain ⟨l₁, l₂, rfl⟩ := List.append_of_mem mem
  rw [List.foldl_append, List.foldl_cons]
  exact foldl_move stays l₂ (makes _ (foldl_move keeps l₁ initial))

theorem input_move (c : Controller) (m : Move) (h : c.input = none) : (c.move m).input = none := by
  cases m with
  | take => simp [move, h]
  | fill => cases output : c.output <;> cases queue : c.core.queue <;> simp [move, output, queue, h]

theorem input_take (c : Controller) : (c.move .take).input = none := by
  cases input : c.input <;> simp [move, input]

theorem output_move (c : Controller) (m : Move) (h : c.output.isSome) :
    (c.move m).output.isSome := by
  obtain ⟨b, full⟩ := Option.isSome_iff_exists.mp h
  cases m with
  | take => cases input : c.input <;> simp [move, input, full]
  | fill => simp [move, full]

/-- A byte that waits gets into the output buffer. -/
theorem output_fill (c : Controller) (h : c.input = none) (waits : c.told.queue ≠ []) :
    (c.move .fill).output.isSome := by
  cases output : c.output with
  | some b => simp [move, output]
  | none =>
    have queue : c.core.queue ≠ [] := by simpa [told, taken, Core.behind, h, output] using waits
    obtain ⟨b, queue, eq⟩ := List.exists_cons_of_ne_nil queue
    simp [move, output, eq]

/-! ## Up to an access -/

theorem told_pass (c : Controller) : c.pass.told = c.told :=
  foldl_move (I := fun d => d.told = c.told) (fun d m same => (told_move d m).trans same)
    (c.moves 0) rfl

theorem input_pass (h : c.input = none) : c.pass.input = none :=
  foldl_move input_move (c.moves 0) h

theorem output_pass (h : c.output.isSome) : c.pass.output.isSome :=
  foldl_move output_move (c.moves 0) h

theorem told_iterate (c : Controller) (n : ℕ) : (pass^[n] c).told = c.told := by
  induction n generalizing c with
  | zero => rfl
  | succ n ih => rw [Function.iterate_succ_apply, ih, told_pass]

theorem moves_iterate (c : Controller) (n k : ℕ) : (pass^[n] c).moves k = c.moves (k + n) := by
  induction n generalizing c with
  | zero => rfl
  | succ n ih =>
    rw [Function.iterate_succ_apply, ih]
    exact congrArg c.moves (by omega)

theorem input_iterate (h : c.input = none) (n : ℕ) : (pass^[n] c).input = none := by
  induction n generalizing c with
  | zero => exact h
  | succ n ih => exact ih (input_pass h)

theorem Responsive.iterate (responsive : c.Responsive bound) (n : ℕ) :
    (pass^[n] c).Responsive bound := by
  intro k m
  obtain ⟨i, lt, mem⟩ := responsive (k + n) m
  refine ⟨i, lt, ?_⟩
  rw [moves_iterate, show k + i + n = k + n + i by omega]
  exact mem

/-- The input buffer is read in time. -/
theorem Responsive.taken (responsive : c.Responsive bound) :
    ∃ n ≤ bound, (pass^[n] c).input = none := by
  obtain ⟨k, lt, mem⟩ := responsive 0 .take
  refine ⟨k + 1, lt, ?_⟩
  rw [Function.iterate_succ_apply']
  refine foldl_move_reaches (I := fun _ => True) (fun _ _ _ => trivial) input_move
    (fun d _ => input_take d) (m := .take) ?_ trivial
  rw [moves_iterate]
  exact mem

/-- A byte for the processor comes in time. -/
theorem Responsive.filled (responsive : c.Responsive bound) (waits : c.told.queue ≠ []) :
    ∃ n ≤ 2 * bound, (pass^[n] c).output.isSome := by
  obtain ⟨n, le, empty⟩ := responsive.taken
  obtain ⟨k, lt, mem⟩ := responsive n .fill
  refine ⟨n + k + 1, by omega, ?_⟩
  rw [Function.iterate_succ_apply']
  refine foldl_move_reaches (I := fun d => d.input = none ∧ d.told.queue ≠ [])
    (fun d m h => ⟨input_move d m h.1, by rw [told_move]; exact h.2⟩) output_move
    (fun d h => output_fill d h.1 h.2) (m := .fill) ?_ ⟨?_, ?_⟩
  · rw [moves_iterate, Nat.zero_add]
    exact mem
  · rw [Nat.add_comm, Function.iterate_add_apply]
    exact input_iterate empty k
  · rw [told_iterate]
    exact waits

/-! ## Accesses -/

/-- A write to an empty buffer. -/
theorem told_outb (h : c.input = none) (port : UInt16) (v : UInt8) :
    (c.outb port v).told = (c.told.take (port = 0x64) v) := by
  rw [outb, told_pass]
  have before : c.told = c.core.behind c.output.toList := by rw [told, taken, h]
  rw [before, Core.take_behind]
  rfl

/-- A read from a full buffer takes the first byte that waits. -/
theorem inb_output (h : c.output.isSome) :
    (c.inb 0x60).2.told = c.told.read ∧
      ∀ b queue, c.told.queue = b :: queue → (c.inb 0x60).1 = b.1 := by
  obtain ⟨b, full⟩ := Option.isSome_iff_exists.mp h
  have read : c.inb 0x60 = (b.1, { c with output := none, last := b.1 }.pass) := by
    simp [inb, full]
  have waits : c.told.queue = b :: c.taken.queue := by simp [told, Core.behind, full]
  rw [read, told_pass]
  refine ⟨by simp [told, taken, Core.behind, Core.read, full], fun b' queue eq => ?_⟩
  rw [waits] at eq
  rw [(List.cons.inj eq).1]

/-- Where nothing waits, a read changes nothing. -/
theorem inb_empty (h : c.told.queue = []) : (c.inb 0x60).2.told = c.told.read := by
  have empty : c.output = none := by
    cases output : c.output with
    | none => rfl
    | some b => simp [told, Core.behind, output] at h
  have same : c.told.read = c.told := by rw [Core.read, h, List.tail_nil, ← h]
  simp [inb, empty, told_pass, same]

theorem Responsive.pass (responsive : c.Responsive bound) : c.pass.Responsive bound :=
  responsive.iterate 1

theorem Responsive.outb (responsive : c.Responsive bound) (port : UInt16) (v : UInt8) :
    (c.outb port v).Responsive bound := by
  have same : Controller.Responsive bound { c with input := some (port = 0x64, v) } := responsive
  exact same.pass

theorem Responsive.inb (responsive : c.Responsive bound) (port : UInt16) :
    (c.inb port).2.Responsive bound := by
  unfold Controller.inb
  split_ifs
  · exact responsive.pass
  · split
    · rename_i b full
      have same : Controller.Responsive bound { c with output := none, last := b.1 } := responsive
      exact same.pass
    · exact responsive.pass

/-- What the status says. -/
theorem status_bits (c : Controller) :
    (c.status &&& 1 = 1 ↔ c.output.isSome) ∧ (c.status &&& 2 = 0 ↔ c.input = none) := by
  have bits : ∀ full written mouse : Bool,
      (((if full then 0x01 else 0) ||| (if written then 0x02 else 0) |||
        if mouse then 0x20 else 0 : UInt8) &&& 1 = 1 ↔ full) ∧
      (((if full then 0x01 else 0) ||| (if written then 0x02 else 0) |||
        if mouse then 0x20 else 0 : UInt8) &&& 2 = 0 ↔ written = false) := by
    decide
  obtain ⟨output, input⟩ := bits c.output.isSome c.input.isSome (c.output.any Prod.snd)
  refine ⟨output, input.trans ?_⟩
  rw [Option.isSome_eq_false_iff, Option.isNone_iff_eq_none]

end

end Controller

end Kit.I8042
