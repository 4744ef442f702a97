import ChefOs.Lib.Cpu

/-!
# The interrupt descriptor table

`arch/idt.h`, `arch/idt.c` and the end of interrupt of `arch/pic.c`.  The addresses of the assembly
stubs are a parameter.
-/

namespace ChefOs

open Kit

/-- The labels of the stubs in `isr_asm.S`. -/
inductive Stub
  | isr (n : Fin 32)
  | irq (n : Fin 16)
deriving DecidableEq, Repr

/-- `idt_entry_t`. -/
structure IdtEntry where
  offsetLow : BitVec 16
  selector : BitVec 16
  ist : BitVec 8
  typeAttributes : BitVec 8
  offsetMid : BitVec 16
  offsetHigh : BitVec 32
  reserved : BitVec 32
deriving DecidableEq

/-- A zeroed entry. -/
def zeroGate : IdtEntry := ⟨0, 0, 0, 0, 0, 0, 0⟩

/-- `idt_set_gate`. -/
def idtSetGate (num : BitVec 8) (base : BitVec 64) (sel : BitVec 16) (flags : BitVec 8)
    (sIdt : BitVec 8 → IdtEntry) : BitVec 8 → IdtEntry :=
  Function.update sIdt num {
    offsetLow := (base &&& 0xFFFF).setWidth 16
    selector := sel
    ist := 0
    typeAttributes := flags
    offsetMid := ((base >>> 16) &&& 0xFFFF).setWidth 16
    offsetHigh := ((base >>> 32) &&& 0xFFFFFFFF).setWidth 32
    reserved := 0 }

/-- The gates of `idt_init`: the exceptions 0 to 31 and the interrupts 32 to 47. -/
def gates : List (BitVec 8 × Stub) :=
  (List.finRange 32).map (fun n => (.ofNat 8 n, .isr n)) ++
    (List.finRange 16).map (fun n => (.ofNat 8 (n + 32), .irq n))

/-- The table that `idt_init` builds. -/
def idtInit (address : Stub → BitVec 64) : BitVec 8 → IdtEntry :=
  gates.foldl (fun sIdt g => idtSetGate g.1 (address g.2) 0x08 0x8E sIdt) fun _ => zeroGate

/-- The handler address that the processor reads from a gate. -/
def IdtEntry.offset (e : IdtEntry) : BitVec 64 :=
  e.offsetHigh.setWidth 64 <<< 32 ||| e.offsetMid.setWidth 64 <<< 16 ||| e.offsetLow.setWidth 64

/-- Masking before a narrowing changes nothing. -/
theorem setWidth_mask {k : ℕ} (hk : k ≤ 64) (x : BitVec 64) :
    (x &&& .ofNat 64 (2 ^ k - 1)).setWidth k = x.setWidth k := by
  have mono : 2 ^ k ≤ 2 ^ 64 := Nat.pow_le_pow_right (by norm_num) hk
  have pos := Nat.two_pow_pos k
  apply BitVec.eq_of_toNat_eq
  rw [BitVec.toNat_setWidth, BitVec.toNat_and, BitVec.toNat_ofNat,
    Nat.mod_eq_of_lt (by omega : 2 ^ k - 1 < 2 ^ 64), Nat.and_two_pow_sub_one_eq_mod,
    Nat.mod_mod, BitVec.toNat_setWidth]

/-- The processor reads the address that was set. -/
theorem offset_idtSetGate (num : BitVec 8) (base : BitVec 64) (sel : BitVec 16) (flags : BitVec 8)
    (sIdt : BitVec 8 → IdtEntry) : (idtSetGate num base sel flags sIdt num).offset = base := by
  have low : (base &&& 0xFFFF).setWidth 16 = base.setWidth 16 :=
    setWidth_mask (by norm_num) base
  have mid : ((base >>> 16) &&& 0xFFFF).setWidth 16 = (base >>> 16).setWidth 16 :=
    setWidth_mask (by norm_num) _
  have high : ((base >>> 32) &&& 0xFFFFFFFF).setWidth 32 = (base >>> 32).setWidth 32 :=
    setWidth_mask (by norm_num) _
  unfold idtSetGate
  rw [Function.update_self, IdtEntry.offset, low, mid, high]
  ext i hi
  simp only [BitVec.getElem_or, BitVec.getElem_shiftLeft, BitVec.getElem_setWidth,
    BitVec.getLsbD_setWidth, BitVec.getLsbD_ushiftRight, BitVec.getLsbD_eq_getElem hi]
  by_cases h : i < 16
  · simp [h, show i < 32 by omega]
  · by_cases h' : i < 32
    · simp [h, h', show 16 + (i - 16) = i by omega, show i - 16 < 16 by omega,
        BitVec.getLsbD_eq_getElem hi]
    · simp [h, h', show 32 + (i - 32) = i by omega, show i - 32 < 32 by omega,
        show ¬ i - 16 < 16 by omega, BitVec.getLsbD_eq_getElem hi]

/-! ## The handler -/

/-- `registers_t`. -/
structure Registers where
  r15 : BitVec 64
  r14 : BitVec 64
  r13 : BitVec 64
  r12 : BitVec 64
  r11 : BitVec 64
  r10 : BitVec 64
  r9 : BitVec 64
  r8 : BitVec 64
  rbp : BitVec 64
  rdi : BitVec 64
  rsi : BitVec 64
  rdx : BitVec 64
  rcx : BitVec 64
  rbx : BitVec 64
  rax : BitVec 64
  intNo : BitVec 64
  errCode : BitVec 64
  rip : BitVec 64
  cs : BitVec 64
  rflags : BitVec 64
  rsp : BitVec 64
  ss : BitVec 64
deriving DecidableEq

/-- `*regs` for a `registers_t *regs`. -/
def readRegisters (mem : BitVec 64 → BitVec 64) (regs : BitVec 64) : Registers where
  r15 := mem regs
  r14 := mem (regs + 8)
  r13 := mem (regs + 16)
  r12 := mem (regs + 24)
  r11 := mem (regs + 32)
  r10 := mem (regs + 40)
  r9 := mem (regs + 48)
  r8 := mem (regs + 56)
  rbp := mem (regs + 64)
  rdi := mem (regs + 72)
  rsi := mem (regs + 80)
  rdx := mem (regs + 88)
  rcx := mem (regs + 96)
  rbx := mem (regs + 104)
  rax := mem (regs + 112)
  intNo := mem (regs + 120)
  errCode := mem (regs + 128)
  rip := mem (regs + 136)
  cs := mem (regs + 144)
  rflags := mem (regs + 152)
  rsp := mem (regs + 160)
  ss := mem (regs + 168)

/-- The words of a `registers_t`. -/
def Registers.words (r : Registers) : List (BitVec 64) :=
  [r.r15, r.r14, r.r13, r.r12, r.r11, r.r10, r.r9, r.r8, r.rbp, r.rdi, r.rsi, r.rdx, r.rcx, r.rbx,
    r.rax, r.intNo, r.errCode, r.rip, r.cs, r.rflags, r.rsp, r.ss]

/-- The structure at an address is given by the words there. -/
theorem readRegisters_eq_iff {mem : BitVec 64 → BitVec 64} {a : BitVec 64} {r : Registers} :
    readRegisters mem a = r ↔ Cpu.WordsAt mem a r.words := by
  cases r
  simp only [readRegisters, Registers.words, Cpu.WordsAt, Registers.mk.injEq, BitVec.add_assoc,
    BitVec.reduceAdd, and_true]
  exact Iff.rfl

/-- `isr_handler_t`: what the function makes of `*regs`, if it returns. -/
abbrev IsrHandler := Registers → Option Registers

/-- `pic_send_eoi`: the ports written with their values. -/
def picSendEoi (irq : BitVec 8) : List (BitVec 16 × BitVec 8) :=
  (if irq ≥ 8 then [(0xA0, 0x20)] else []) ++ [(0x20, 0x20)]

/-- `isr_handler`, with the ports it writes.  It halts in an unhandled exception. -/
def isrHandler (sHandlers : ℕ → Option IsrHandler) (regs : Registers) :
    Option (Registers × List (BitVec 16 × BitVec 8)) := do
  let regs ← match sHandlers regs.intNo.toNat with
    | some handler => handler regs
    | none => if regs.intNo < 32 then none else some regs
  let eoi := if regs.intNo ≥ 32 ∧ regs.intNo < 48 then picSendEoi ((regs.intNo - 32).setWidth 8)
    else []
  return (regs, eoi)

end ChefOs
