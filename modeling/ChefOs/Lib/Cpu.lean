import Mathlib.Tactic

/-!
# A processor with a stack

The moves and stack operations of a 64-bit processor, over a memory of 64-bit words, and the calling
convention of its compiled code.  The rules describe the top of the stack as a list of words: what
is pushed is in front of it, and popping a list of registers loads its words in order.
-/

namespace Kit

/-- The general registers. -/
inductive Reg
  | rax | rbx | rcx | rdx | rsi | rdi | rbp | rsp
  | r8 | r9 | r10 | r11 | r12 | r13 | r14 | r15
deriving DecidableEq, Repr

/-- The registers, the memory by address and the global variables `G` of a program. -/
structure Cpu (G : Type) where
  regs : Reg → BitVec 64
  mem : BitVec 64 → BitVec 64
  globals : G → BitVec 64

/-- An instruction.  The globals are those that the code names. -/
inductive Instr (G : Type)
  | pushImm (v : BitVec 64)
  | push (src : Reg)
  | pushGlobal (g : G)
  | pop (dst : Reg)
  | mov (dst src : Reg)
  | load (dst : Reg) (g : G)
  | store (g : G) (src : Reg)
  | addRsp (n : BitVec 64)

namespace Cpu

section

variable {G : Type}

/-- Write a register. -/
def setReg (r : Reg) (v : BitVec 64) (s : Cpu G) : Cpu G :=
  { s with regs := Function.update s.regs r v }

/-- Push a word. -/
def pushWord (v : BitVec 64) (s : Cpu G) : Cpu G :=
  { s with
    regs := Function.update s.regs .rsp (s.regs .rsp - 8)
    mem := Function.update s.mem (s.regs .rsp - 8) v }

/-- Pop a word into a register. -/
def popReg (dst : Reg) (s : Cpu G) : Cpu G :=
  { s with
    regs := Function.update (Function.update s.regs .rsp (s.regs .rsp + 8)) dst
      (s.mem (s.regs .rsp)) }

/-- The words from an address on. -/
def WordsAt (mem : BitVec 64 → BitVec 64) : BitVec 64 → List (BitVec 64) → Prop
  | _, [] => True
  | a, v :: vs => mem a = v ∧ WordsAt mem (a + 8) vs

/-- The words on top of the stack. -/
def Top (s : Cpu G) (vs : List (BitVec 64)) : Prop := WordsAt s.mem (s.regs .rsp) vs

theorem WordsAt.congr {mem mem' : BitVec 64 → BitVec 64} {a : BitVec 64}
    {vs : List (BitVec 64)} (h : WordsAt mem a vs)
    (same : ∀ i < vs.length, mem' (a + 8 * .ofNat 64 i) = mem (a + 8 * .ofNat 64 i)) :
    WordsAt mem' a vs := by
  induction vs generalizing a with
  | nil => trivial
  | cons w vs ih =>
    refine ⟨?_, ih h.2 fun i hi => ?_⟩
    · have := same 0 (by simp)
      simp only [BitVec.ofNat_eq_ofNat, BitVec.mul_zero, BitVec.add_zero] at this
      rw [this]
      exact h.1
    · have := same (i + 1) (by simpa using hi)
      rwa [show a + 8 + 8 * BitVec.ofNat 64 i = a + 8 * .ofNat 64 (i + 1) by
        rw [BitVec.ofNat_add]
        grind]

theorem WordsAt.of_append {mem : BitVec 64 → BitVec 64} {a : BitVec 64}
    {vs ws : List (BitVec 64)} (h : WordsAt mem a (vs ++ ws)) : WordsAt mem a vs := by
  induction vs generalizing a with
  | nil => trivial
  | cons v vs ih => exact ⟨h.1, ih h.2⟩

/-- What is read at an address is unique. -/
theorem WordsAt.isPrefix {mem : BitVec 64 → BitVec 64} {a : BitVec 64} {vs ws : List (BitVec 64)}
    (hv : WordsAt mem a vs) (hw : WordsAt mem a ws) (le : vs.length ≤ ws.length) : vs <+: ws := by
  induction vs generalizing a ws with
  | nil => exact List.nil_prefix
  | cons v vs ih =>
    cases ws with
    | nil => simp at le
    | cons w ws =>
      rw [List.cons_prefix_cons]
      exact ⟨hv.1.symm.trans hw.1, ih hv.2 hw.2 (by simpa using le)⟩

/-- A store outside of the words keeps them. -/
theorem WordsAt.update {mem : BitVec 64 → BitVec 64} {a b v : BitVec 64}
    {vs : List (BitVec 64)} (h : WordsAt mem a vs)
    (outside : ∀ i < vs.length, a + 8 * .ofNat 64 i ≠ b) :
    WordsAt (Function.update mem b v) a vs :=
  h.congr fun i hi => Function.update_of_ne (outside i hi) ..

@[simp] theorem setReg_self (r : Reg) (v : BitVec 64) (s : Cpu G) : (s.setReg r v).regs r = v :=
  Function.update_self ..

theorem setReg_of_ne {r r' : Reg} (ne : r' ≠ r) (v : BitVec 64) (s : Cpu G) :
    (s.setReg r v).regs r' = s.regs r' :=
  Function.update_of_ne ne ..

@[simp] theorem setReg_mem (r : Reg) (v : BitVec 64) (s : Cpu G) : (s.setReg r v).mem = s.mem := rfl

@[simp] theorem setReg_globals (r : Reg) (v : BitVec 64) (s : Cpu G) :
    (s.setReg r v).globals = s.globals := rfl

/-- Writing another register keeps the stack. -/
theorem Top.setReg {s : Cpu G} {vs : List (BitVec 64)} (h : s.Top vs) {r : Reg} (ne : r ≠ .rsp)
    (v : BitVec 64) : (s.setReg r v).Top vs := by
  unfold Top
  rw [setReg_of_ne ne.symm]
  exact h

theorem pushWord_regs (v : BitVec 64) (s : Cpu G) :
    (s.pushWord v).regs = Function.update s.regs .rsp (s.regs .rsp - 8) := rfl

theorem pushWord_globals (v : BitVec 64) (s : Cpu G) : (s.pushWord v).globals = s.globals := rfl

theorem popReg_regs (dst : Reg) (s : Cpu G) :
    (s.popReg dst).regs = Function.update (Function.update s.regs .rsp (s.regs .rsp + 8)) dst
      (s.mem (s.regs .rsp)) := rfl

/-- A pushed word is on top. -/
theorem Top.push {s : Cpu G} {vs : List (BitVec 64)} (h : s.Top vs) (few : vs.length < 2 ^ 60)
    (v : BitVec 64) : (s.pushWord v).Top (v :: vs) := by
  unfold Top
  rw [pushWord_regs, Function.update_self]
  refine ⟨Function.update_self .., ?_⟩
  rw [BitVec.sub_add_cancel]
  apply WordsAt.update h
  intro i hi
  bv_omega

theorem popReg_of_ne {dst r : Reg} (ne : r ≠ .rsp) (ne' : r ≠ dst) (s : Cpu G) :
    (s.popReg dst).regs r = s.regs r := by
  rw [popReg_regs, Function.update_of_ne ne', Function.update_of_ne ne]

/-- The stack after a word was popped. -/
theorem Top.popReg {s : Cpu G} {v : BitVec 64} {vs : List (BitVec 64)} (h : s.Top (v :: vs))
    {dst : Reg} (ne : dst ≠ .rsp) : (s.popReg dst).Top vs := by
  unfold Top
  rw [popReg_regs, Function.update_of_ne ne.symm, Function.update_self]
  exact h.2

/-- The stack after a word was dropped. -/
theorem Top.drop {s : Cpu G} {v : BitVec 64} {vs : List (BitVec 64)} (h : s.Top (v :: vs)) :
    (s.setReg .rsp (s.regs .rsp + 8)).Top vs := by
  unfold Top
  rw [setReg_self]
  exact h.2

/-- Push words, the last one of the list first. -/
def pushWords (vs : List (BitVec 64)) (s : Cpu G) : Cpu G := vs.foldr pushWord s

theorem pushWords_append (vs ws : List (BitVec 64)) (s : Cpu G) :
    pushWords (vs ++ ws) s = pushWords vs (pushWords ws s) := List.foldr_append

theorem pushWords_regs {r : Reg} (ne : r ≠ .rsp) (vs : List (BitVec 64)) (s : Cpu G) :
    (pushWords vs s).regs r = s.regs r := by
  induction vs with
  | nil => rfl
  | cons v vs ih => exact (Function.update_of_ne ne ..).trans ih

/-- Pushed words are on top, in order. -/
theorem Top.pushWords {s : Cpu G} {vs : List (BitVec 64)} (h : s.Top vs)
    {ws : List (BitVec 64)} (few : ws.length + vs.length < 2 ^ 60) :
    (Cpu.pushWords ws s).Top (ws ++ vs) := by
  induction ws with
  | nil => exact h
  | cons w ws ih =>
    rw [List.length_cons] at few
    exact (ih (by omega)).push (by rw [List.length_append]; omega) w

/-! ## Calls -/

/-- The registers that a called function preserves. -/
def calleeSaved : List Reg := [.rbx, .rbp, .rsp, .r12, .r13, .r14, .r15]

/-- A call has the effect that the System V convention allows.  The stack of the caller has `frame`
words, and the function owns the first `args` of them, its arguments. -/
structure SystemV (args frame : ℕ) (s s' : Cpu G) : Prop where
  saved : ∀ r ∈ calleeSaved, s'.regs r = s.regs r
  kept : ∀ i, args ≤ i → i < frame →
    s'.mem (s.regs .rsp + 8 * .ofNat 64 i) = s.mem (s.regs .rsp + 8 * .ofNat 64 i)

end

section

variable {G : Type} [DecidableEq G]

/-- One instruction.  The arithmetic flags are not kept. -/
def exec (s : Cpu G) : Instr G → Cpu G
  | .pushImm v => s.pushWord v
  | .push src => s.pushWord (s.regs src)
  | .pushGlobal g => s.pushWord (s.globals g)
  | .pop dst => s.popReg dst
  | .mov dst src => s.setReg dst (s.regs src)
  | .load dst g => s.setReg dst (s.globals g)
  | .store g src => { s with globals := Function.update s.globals g (s.regs src) }
  | .addRsp n => s.setReg .rsp (s.regs .rsp + n)

/-- A straight line of code. -/
def run (code : List (Instr G)) (s : Cpu G) : Cpu G := code.foldl exec s

@[simp] theorem run_nil (s : Cpu G) : s.run [] = s := rfl

@[simp] theorem run_cons (i : Instr G) (code : List (Instr G)) (s : Cpu G) :
    s.run (i :: code) = (s.exec i).run code := rfl

theorem run_append (code code' : List (Instr G)) (s : Cpu G) :
    s.run (code ++ code') = (s.run code).run code' := List.foldl_append

/-! ## Saving and restoring registers -/

/-- Pushed registers keep their values; only the stack pointer moves. -/
theorem pushAll_regs (rs : List Reg) (s : Cpu G) :
    (∀ r, r ≠ .rsp → (s.run (rs.map .push)).regs r = s.regs r) ∧
      (s.run (rs.map .push)).regs .rsp = s.regs .rsp - 8 * .ofNat 64 rs.length ∧
      (s.run (rs.map .push)).globals = s.globals := by
  induction rs generalizing s with
  | nil => simp
  | cons r rs ih =>
    obtain ⟨others, rsp, globals⟩ := ih (s.pushWord (s.regs r))
    rw [List.map_cons, run_cons, exec]
    refine ⟨fun r' ne => ?_, ?_, globals⟩
    · rw [others r' ne, pushWord_regs, Function.update_of_ne ne]
    · rw [rsp, pushWord_regs, Function.update_self, List.length_cons, BitVec.ofNat_add]
      grind

/-- The registers of a list are on top, the last one first. -/
theorem Top.pushAll {rs : List Reg} (outside : Reg.rsp ∉ rs) {s : Cpu G}
    {vs : List (BitVec 64)} (h : s.Top vs) (few : vs.length + rs.length < 2 ^ 60) :
    (s.run (rs.map .push)).Top ((rs.map s.regs).reverse ++ vs) := by
  induction rs generalizing s vs with
  | nil => exact h
  | cons r rs ih =>
    rw [List.length_cons] at few
    obtain ⟨ne, outside⟩ := not_or.mp (fun h => outside (List.mem_cons.mpr h))
    have pushed := h.push (by omega) (s.regs r)
    have rest := ih outside pushed (by rw [List.length_cons]; omega)
    have same : rs.map (s.pushWord (s.regs r)).regs = rs.map s.regs := by
      apply List.map_congr_left
      intro r' hr'
      rw [pushWord_regs, Function.update_of_ne (ne_of_mem_of_not_mem hr' outside)]
    rw [same] at rest
    rw [List.map_cons, run_cons, exec, List.map_cons, List.reverse_cons, List.append_assoc]
    exact rest

/-- Popped registers get the words on top, in order. -/
theorem Top.popAll {rs : List Reg} (nodup : rs.Nodup) (outside : Reg.rsp ∉ rs) {s : Cpu G}
    (f : Reg → BitVec 64) {vs : List (BitVec 64)} (h : s.Top (rs.map f ++ vs)) :
    (s.run (rs.map .pop)).Top vs ∧ (∀ r ∈ rs, (s.run (rs.map .pop)).regs r = f r) ∧
      (∀ r, r ∉ rs → r ≠ .rsp → (s.run (rs.map .pop)).regs r = s.regs r) ∧
      (s.run (rs.map .pop)).regs .rsp = s.regs .rsp + 8 * .ofNat 64 rs.length ∧
      (s.run (rs.map .pop)).mem = s.mem ∧ (s.run (rs.map .pop)).globals = s.globals := by
  induction rs generalizing s with
  | nil => simpa using h
  | cons r rs ih =>
    obtain ⟨first, nodup⟩ := List.nodup_cons.mp nodup
    obtain ⟨ne, outside⟩ := not_or.mp (fun h => outside (List.mem_cons.mpr h))
    have popped : (s.popReg r).regs .rsp = s.regs .rsp + 8 := by
      rw [popReg_regs, Function.update_of_ne ne, Function.update_self]
    obtain ⟨top, loaded, others, rsp, mem, globals⟩ := ih nodup outside (h.popReg (Ne.symm ne))
    rw [List.map_cons, run_cons, exec]
    refine ⟨top, List.forall_mem_cons.mpr ⟨?_, loaded⟩, fun r' hr' ne' => ?_, ?_, mem, globals⟩
    · rw [others r first (Ne.symm ne), popReg_regs, Function.update_self]
      exact h.1
    · obtain ⟨other, later⟩ := not_or.mp (fun h => hr' (List.mem_cons.mpr h))
      rw [others r' later ne', popReg_of_ne ne' other]
    · rw [rsp, popped, List.length_cons, BitVec.ofNat_add]
      grind

end

end Cpu

end Kit
