import ChefOs.Arch.Idt

/-!
# Interrupt entry and exit

`arch/isr_asm.S` between the processor's delivery of an interrupt and `iretq`.
-/

namespace ChefOs

open Kit Cpu

/-! ## The processor -/

/-- The state of the processor. -/
structure Context where
  cpu : Cpu Empty
  rip : BitVec 64
  cs : BitVec 16
  rflags : BitVec 64
  ss : BitVec 16

/-- The state of a processor that runs code: its code segment is loaded. -/
structure Running extends Context where
  loaded : cs ≠ 0

/-- The vectors on which the processor pushes an error code. -/
def PushesErrorCode (v : ℕ) : Prop :=
  v = 8 ∨ 10 ≤ v ∧ v ≤ 14 ∨ v = 17 ∨ v = 21 ∨ v = 29 ∨ v = 30

instance (v : ℕ) : Decidable (PushesErrorCode v) := by
  unfold PushesErrorCode
  infer_instance

/-- The words pushed for an interrupted state, the last one first. -/
def Context.frame (c : Context) : List (BitVec 64) :=
  [c.rip, c.cs.setWidth 64, c.rflags, c.cpu.regs .rsp, c.ss.setWidth 64]

/-- The error code on the vectors that have one. -/
def errorWords (v : ℕ) (errorCode : BitVec 64) : List (BitVec 64) :=
  if PushesErrorCode v then [errorCode] else []

/-- Delivery through an interrupt gate: the stack is the present one, or that of the task state
segment when the privilege changes, at a multiple of 16. -/
def deliver (rsp0 errorCode : BitVec 64) (v : ℕ) (gate : IdtEntry) (c : Context) : Context :=
  let stack := (if c.cs &&& 3 = 0 then c.cpu.regs .rsp else rsp0) &&& ~~~0xF
  { cpu := pushWords (errorWords v errorCode ++ c.frame) (c.cpu.setReg .rsp stack)
    rip := gate.offset
    cs := gate.selector
    rflags := c.rflags &&& ~~~0x34300
    ss := if c.cs &&& 3 = 0 then c.ss else 0 }

/-- `iretq`. -/
def iretq (c : Context) : Context :=
  let a := c.cpu.regs .rsp
  { cpu := c.cpu.setReg .rsp (c.cpu.mem (a + 24))
    rip := c.cpu.mem a
    cs := (c.cpu.mem (a + 8)).setWidth 16
    rflags := c.cpu.mem (a + 16)
    ss := (c.cpu.mem (a + 32)).setWidth 16 }

/-! ## The stubs -/

/-- A line of `isr_asm.S` that makes a stub. -/
inductive StubLine
  | noErrCode (n : Fin 32)
  | errCode (n : Fin 32)
  | irq (n : Fin 16) (intNo : ℕ)
deriving DecidableEq, Repr

/-- The label of a line. -/
def StubLine.label : StubLine → Stub
  | .noErrCode n => .isr n
  | .errCode n => .isr n
  | .irq n _ => .irq n

/-- The code of a line, before its jump to `isr_common_stub`. -/
def StubLine.code : StubLine → List (Instr Empty)
  | .noErrCode n => [.pushImm 0, .pushImm (.ofNat 64 n)]
  | .errCode n => [.pushImm (.ofNat 64 n)]
  | .irq _ intNo => [.pushImm 0, .pushImm (.ofNat 64 intNo)]

/-- The lines of `isr_asm.S`. -/
def stubLines : List StubLine :=
  [.noErrCode 0, .noErrCode 1, .noErrCode 2, .noErrCode 3, .noErrCode 4, .noErrCode 5,
    .noErrCode 6, .noErrCode 7, .errCode 8, .noErrCode 9, .errCode 10, .errCode 11, .errCode 12,
    .errCode 13, .errCode 14, .noErrCode 15, .noErrCode 16, .errCode 17, .noErrCode 18,
    .noErrCode 19, .noErrCode 20, .noErrCode 21, .noErrCode 22, .noErrCode 23, .noErrCode 24,
    .noErrCode 25, .noErrCode 26, .noErrCode 27, .noErrCode 28, .noErrCode 29, .errCode 30,
    .noErrCode 31,
    .irq 0 32, .irq 1 33, .irq 2 34, .irq 3 35, .irq 4 36, .irq 5 37, .irq 6 38, .irq 7 39,
    .irq 8 40, .irq 9 41, .irq 10 42, .irq 11 43, .irq 12 44, .irq 13 45, .irq 14 46, .irq 15 47]

/-- The registers that `isr_common_stub` pushes. -/
def savedRegs : List Reg :=
  [.rax, .rbx, .rcx, .rdx, .rsi, .rdi, .rbp, .r8, .r9, .r10, .r11, .r12, .r13, .r14, .r15]

/-- The registers that `isr_common_stub` pops. -/
def restoredRegs : List Reg :=
  [.r15, .r14, .r13, .r12, .r11, .r10, .r9, .r8, .rbp, .rdi, .rsi, .rdx, .rcx, .rbx, .rax]

/-- `isr_common_stub` up to its call. -/
def commonEntry : List (Instr Empty) := savedRegs.map .push ++ [.mov .rdi .rsp]

/-- `isr_common_stub` from its call to its `iretq`. -/
def commonExit : List (Instr Empty) := restoredRegs.map .pop ++ [.addRsp 16]

/-- Where the linker put the stubs: at different addresses. -/
structure Image where
  address : Stub → BitVec 64
  injective : Function.Injective address

/-- The code at an address. -/
def Image.code (image : Image) (a : BitVec 64) : Option (List (Instr Empty)) :=
  (stubLines.find? fun l => image.address l.label = a).map StubLine.code

/-- The state at the call of `isr_handler`, after the delivery of a vector. -/
def interruptEntry (image : Image) (rsp0 errorCode : BitVec 64) (v : ℕ) (c : Context) :
    Option Context := do
  let d := deliver rsp0 errorCode v (idtInit image.address (.ofNat 8 v)) c
  let code ← image.code d.rip
  return { d with cpu := d.cpu.run (code ++ commonEntry) }

/-- The way back from the call of `isr_handler`. -/
def interruptReturn (c : Context) : Context := iretq { c with cpu := c.cpu.run commonExit }

/-- A call of `isr_handler` that returns: it changes `*regs` as its code says, and anything else
that a compiled function may change. -/
def HandlerCall (sHandlers : ℕ → Option IsrHandler) (s s' : Cpu Empty) : Prop :=
  (isrHandler sHandlers (readRegisters s.mem (s.regs .rdi))).map Prod.fst =
      some (readRegisters s'.mem (s.regs .rdi)) ∧
    SystemV 0 0 s s'

/-- What the handler should see. -/
def Context.registers (c : Context) (v : ℕ) (errorCode : BitVec 64) : Registers where
  r15 := c.cpu.regs .r15
  r14 := c.cpu.regs .r14
  r13 := c.cpu.regs .r13
  r12 := c.cpu.regs .r12
  r11 := c.cpu.regs .r11
  r10 := c.cpu.regs .r10
  r9 := c.cpu.regs .r9
  r8 := c.cpu.regs .r8
  rbp := c.cpu.regs .rbp
  rdi := c.cpu.regs .rdi
  rsi := c.cpu.regs .rsi
  rdx := c.cpu.regs .rdx
  rcx := c.cpu.regs .rcx
  rbx := c.cpu.regs .rbx
  rax := c.cpu.regs .rax
  intNo := .ofNat 64 v
  errCode := if PushesErrorCode v then errorCode else 0
  rip := c.rip
  cs := c.cs.setWidth 64
  rflags := c.rflags
  rsp := c.cpu.regs .rsp
  ss := c.ss.setWidth 64

/-- The state is the interrupted one, memory aside. -/
structure Resumes (c c' : Context) : Prop where
  regs : c'.cpu.regs = c.cpu.regs
  rip : c'.rip = c.rip
  cs : c'.cs = c.cs
  rflags : c'.rflags = c.rflags
  ss : c'.ss = c.ss

/-- The handler sees the interrupted state, and if it leaves it unchanged, then it is resumed. -/
def Transparent (image : Image) (rsp0 errorCode : BitVec 64) (v : ℕ) (c : Context) : Prop :=
  ∃ d, interruptEntry image rsp0 errorCode v c = some d ∧
    readRegisters d.cpu.mem (d.cpu.regs .rdi) = c.registers v errorCode ∧
    ∀ sHandlers s', HandlerCall sHandlers d.cpu s' →
      readRegisters s'.mem (d.cpu.regs .rdi) = c.registers v errorCode →
      Resumes c (interruptReturn { d with cpu := s' })

/-! ## Which stub a vector reaches -/

section

variable {address : Stub → BitVec 64} {k : BitVec 8}

theorem gate_untouched {l : List (BitVec 8 × Stub)} (other : k ∉ l.map Prod.fst)
    (sIdt : BitVec 8 → IdtEntry) :
    l.foldl (fun sIdt g => idtSetGate g.1 (address g.2) 0x08 0x8E sIdt) sIdt k = sIdt k := by
  induction l generalizing sIdt with
  | nil => rfl
  | cons g l ih =>
    rw [List.map_cons, List.mem_cons, not_or] at other
    rw [List.foldl_cons, ih other.2]
    exact Function.update_of_ne other.1 ..

/-- Each gate is left as it was set. -/
theorem gate_offset {l : List (BitVec 8 × Stub)} (distinct : (l.map Prod.fst).Nodup)
    {stub : Stub} (mem : (k, stub) ∈ l) (sIdt : BitVec 8 → IdtEntry) :
    (l.foldl (fun sIdt g => idtSetGate g.1 (address g.2) 0x08 0x8E sIdt) sIdt k).offset =
      address stub := by
  induction l generalizing sIdt with
  | nil => simp at mem
  | cons g l ih =>
    obtain ⟨first, distinct⟩ := List.nodup_cons.mp distinct
    rw [List.foldl_cons]
    rcases List.mem_cons.mp mem with rfl | mem
    · rw [gate_untouched first]
      exact offset_idtSetGate ..
    · exact ih distinct mem _

end

/-- The words that a stub pushes. -/
def StubLine.words : StubLine → List (BitVec 64)
  | .noErrCode n => [.ofNat 64 n, 0]
  | .errCode n => [.ofNat 64 n]
  | .irq _ intNo => [.ofNat 64 intNo, 0]

theorem run_code (line : StubLine) (s : Cpu Empty) : s.run line.code = pushWords line.words s := by
  cases line <;> rfl

theorem gates_distinct : (gates.map Prod.fst).Nodup := by decide

theorem label_mem_gates : ∀ v : Fin stubLines.length,
    (BitVec.ofNat 8 v, (stubLines.get v).label) ∈ gates := by decide

theorem find_label : ∀ v : Fin stubLines.length,
    stubLines.find? (fun l => l.label = (stubLines.get v).label) = some (stubLines.get v) := by
  decide

/-- The vectors reach the lines in their order. -/
theorem code_of_vector (image : Image) (v : Fin stubLines.length) :
    image.code (idtInit image.address (.ofNat 8 v)).offset = some (stubLines.get v).code := by
  have offset : (idtInit image.address (.ofNat 8 v)).offset =
      image.address (stubLines.get v).label :=
    gate_offset gates_distinct (label_mem_gates v) _
  unfold Image.code
  rw [offset]
  simp only [image.injective.eq_iff]
  rw [find_label, Option.map_some]

/-- The words that a stub adds to those of the processor, on the vectors without a slip. -/
theorem words_of_vector : ∀ v : Fin stubLines.length, v.val ≠ 21 → v.val ≠ 29 →
    (stubLines.get v).words = if PushesErrorCode v then [.ofNat 64 v] else [.ofNat 64 v, 0] := by
  decide

/-- On these two the processor pushes an error code, and the stub a dummy one. -/
theorem words_of_slip : ∀ v : Fin stubLines.length, v.val = 21 ∨ v.val = 29 →
    PushesErrorCode v ∧ (stubLines.get v).words = [.ofNat 64 v, 0] := by
  decide

theorem length_errorWords (v : ℕ) (errorCode : BitVec 64) :
    (errorWords v errorCode).length = if PushesErrorCode v then 1 else 0 := by
  unfold errorWords
  split <;> rfl

theorem length_words : ∀ v : Fin stubLines.length,
    2 ≤ (stubLines.get v).words.length + (if PushesErrorCode v then 1 else 0) ∧
      (stubLines.get v).words.length + (if PushesErrorCode v then 1 else 0) ≤ 3 := by
  decide

/-! ## The frame -/

theorem savedRegs_reverse : savedRegs.reverse = restoredRegs := rfl

theorem Context.registers_words (c : Context) (v : ℕ) (errorCode : BitVec 64) :
    (c.registers v errorCode).words = restoredRegs.map c.cpu.regs ++
      (.ofNat 64 v :: (if PushesErrorCode v then errorCode else 0) :: c.frame) := rfl

/-- `isr_common_stub` puts the registers in front of the words on the stack, for its call. -/
theorem commonEntry_spec {s : Cpu Empty} {ws : List (BitVec 64)} (h : s.Top ws)
    (few : ws.length + savedRegs.length < 2 ^ 60) :
    (s.run commonEntry).regs .rdi = (s.run commonEntry).regs .rsp ∧
      (s.run commonEntry).Top (restoredRegs.map s.regs ++ ws) := by
  have top : (s.run (savedRegs.map .push)).Top ((savedRegs.map s.regs).reverse ++ ws) :=
    h.pushAll (by decide) few
  rw [← List.map_reverse, savedRegs_reverse] at top
  unfold commonEntry
  rw [run_append, run_cons, run_nil, exec]
  refine ⟨?_, top.setReg (by decide) _⟩
  rw [setReg_self, setReg_of_ne (by decide)]

/-- The way into the handler, with what is on the stack. -/
theorem interruptEntry_spec (image : Image) (rsp0 errorCode : BitVec 64)
    (v : Fin stubLines.length) (c : Context) :
    ∃ d, interruptEntry image rsp0 errorCode v c = some d ∧
      d.cpu.regs .rdi = d.cpu.regs .rsp ∧
      d.cpu.Top (restoredRegs.map c.cpu.regs ++
        ((stubLines.get v).words ++ (errorWords v errorCode ++ c.frame))) := by
  unfold interruptEntry
  simp only [deliver, code_of_vector]
  refine ⟨_, rfl, ?_⟩
  generalize (if c.cs &&& 3 = 0 then c.cpu.regs .rsp else rsp0) &&& ~~~0xF = stack
  have hstub := length_words v
  have herr := length_errorWords v errorCode
  set words := (stubLines.get v).words ++ (errorWords v errorCode ++ c.frame) with hwords
  have few : words.length + savedRegs.length < 2 ^ 60 := by
    have frame : c.frame.length = 5 := rfl
    have saved : savedRegs.length = 15 := rfl
    rw [hwords, List.length_append, List.length_append, herr]
    omega
  have top : (pushWords words (c.cpu.setReg .rsp stack)).Top words := by
    have empty : (c.cpu.setReg .rsp stack).Top [] := trivial
    have pushed : (pushWords words (c.cpu.setReg .rsp stack)).Top (words ++ []) :=
      empty.pushWords (by rw [List.length_nil]; omega)
    rwa [List.append_nil] at pushed
  have same : restoredRegs.map (pushWords words (c.cpu.setReg .rsp stack)).regs =
      restoredRegs.map c.cpu.regs := by
    apply List.map_congr_left
    intro r hr
    have ne : r ≠ .rsp := ne_of_mem_of_not_mem hr (by decide)
    rw [pushWords_regs ne, setReg_of_ne ne]
  rw [run_append, run_code, ← pushWords_append, ← hwords, ← same]
  exact commonEntry_spec top few

/-- The way back, when `*regs` is as it should be. -/
theorem interruptReturn_spec {c d : Context} {v : ℕ} {errorCode : BitVec 64}
    (h : readRegisters d.cpu.mem (d.cpu.regs .rsp) = c.registers v errorCode) :
    Resumes c (interruptReturn d) := by
  rw [readRegisters_eq_iff, Context.registers_words] at h
  have nodup : restoredRegs.Nodup := by decide
  obtain ⟨top, loaded, -, -, -, -⟩ := Top.popAll nodup (by decide) c.cpu.regs h
  obtain ⟨-, -, rip, cs, rflags, stack, ss, -⟩ := top
  have exit : d.cpu.run commonExit = (d.cpu.run (restoredRegs.map .pop)).setReg .rsp
      ((d.cpu.run (restoredRegs.map .pop)).regs .rsp + 16) := by
    rw [commonExit, run_append]
    rfl
  generalize d.cpu.run (restoredRegs.map .pop) = s at *
  unfold interruptReturn iretq
  simp only [exit, setReg_mem, setReg_self]
  simp only [BitVec.add_assoc, BitVec.reduceAdd] at *
  constructor
  case regs =>
    funext r
    by_cases hr : r = .rsp
    · rw [hr, setReg_self, stack]
    · rw [setReg_of_ne hr, setReg_of_ne hr]
      apply loaded
      cases r <;> first | contradiction | decide
  case rip => exact rip
  case cs => rw [cs, BitVec.setWidth_setWidth_of_le _ (by decide), BitVec.setWidth_eq]
  case rflags => exact rflags
  case ss => rw [ss, BitVec.setWidth_setWidth_of_le _ (by decide), BitVec.setWidth_eq]

/-- What the handler sees, in terms of the words that the stub pushed. -/
theorem transparent_iff (image : Image) (rsp0 errorCode : BitVec 64) (v : Fin stubLines.length)
    (c : Context) :
    Transparent image rsp0 errorCode v c ↔
      .ofNat 64 v :: (if PushesErrorCode v then errorCode else 0) :: c.frame <+:
        (stubLines.get v).words ++ (errorWords v errorCode ++ c.frame) := by
  obtain ⟨d, entry, rdi, top⟩ := interruptEntry_spec image rsp0 errorCode v c
  have sees : readRegisters d.cpu.mem (d.cpu.regs .rdi) = c.registers v errorCode ↔
      .ofNat 64 v :: (if PushesErrorCode v then errorCode else 0) :: c.frame <+:
        (stubLines.get v).words ++ (errorWords v errorCode ++ c.frame) := by
    rw [readRegisters_eq_iff, Context.registers_words, rdi]
    constructor
    · intro h
      have long := length_words v
      rw [← List.prefix_append_right_inj (restoredRegs.map c.cpu.regs)]
      apply h.isPrefix top
      rw [List.length_append, List.length_append, List.length_append, List.length_append,
        length_errorWords, List.length_cons, List.length_cons]
      omega
    · rintro ⟨rest, h⟩
      rw [← h, ← List.append_assoc] at top
      exact top.of_append
  constructor
  · rintro ⟨d', entry', h, -⟩
    obtain rfl := Option.some_inj.mp (entry.symm.trans entry')
    exact sees.mp h
  · intro h
    refine ⟨d, entry, sees.mpr h, fun sHandlers s' call same => ?_⟩
    have rsp : s'.regs .rsp = d.cpu.regs .rsp := call.2.saved .rsp (by decide)
    rw [rdi, ← rsp] at same
    exact interruptReturn_spec same

/-- Interrupt entry and exit preserve the interrupted context on every vector but two: on 21 and 29
the processor pushes an error code that the stub takes for the return address. -/
theorem transparent_iff_vector (image : Image) (rsp0 errorCode : BitVec 64) {v : ℕ} (hv : v < 48)
    (c : Running) : Transparent image rsp0 errorCode v c.toContext ↔ v ≠ 21 ∧ v ≠ 29 := by
  rw [transparent_iff image rsp0 errorCode ⟨v, hv⟩ c.toContext]
  by_cases slip : v = 21 ∨ v = 29
  · obtain ⟨pushes, words⟩ := words_of_slip ⟨v, hv⟩ slip
    refine iff_of_false (fun h => ?_) (by omega)
    simp only [words, errorWords, pushes, if_true, Context.frame, List.cons_append, List.nil_append,
      List.cons_prefix_cons] at h
    obtain ⟨-, err, rip, cs, -⟩ := h
    apply c.loaded
    rw [rip, err] at cs
    have narrow := congrArg (BitVec.setWidth 16) cs
    rwa [BitVec.setWidth_setWidth_of_le _ (by decide), BitVec.setWidth_eq] at narrow
  · have clean : v ≠ 21 ∧ v ≠ 29 := not_or.mp slip
    have words := words_of_vector ⟨v, hv⟩ clean.1 clean.2
    refine iff_of_true ?_ clean
    rw [words]
    unfold errorWords
    split
    · exact List.prefix_refl _
    · exact List.prefix_refl _

/-- Stubs in 16 bytes each. -/
def sampleAddress : Stub → BitVec 64
  | .isr n => .ofNat 64 (0x1000 + 16 * n)
  | .irq n => .ofNat 64 (0x2000 + 16 * n)

theorem sampleAddress_injective : Function.Injective sampleAddress := by
  intro x y h
  unfold sampleAddress at h
  cases x <;> cases y <;> simp only [Stub.isr.injEq, Stub.irq.injEq, reduceCtorEq] <;> bv_omega

def sampleImage : Image := ⟨sampleAddress, sampleAddress_injective⟩

/-- An interrupted user program. -/
def sampleContext : Running where
  cpu := { regs := fun _ => 7, mem := fun _ => 0, globals := nofun }
  rip := 0x400000
  cs := 0x23
  rflags := 0x202
  ss := 0x1B
  loaded := by decide

theorem transparent_iff_vector_example :
    Transparent sampleImage 0x8000 0 14 sampleContext.toContext :=
  (transparent_iff_vector sampleImage 0x8000 0 (by decide) sampleContext).mpr (by decide)

/-- A control protection exception. -/
theorem control_protection_shifted :
    ¬ Transparent sampleImage 0x8000 3 21 sampleContext.toContext := by
  rw [transparent_iff sampleImage 0x8000 3 ⟨21, by decide⟩]
  decide

end ChefOs
