import ChefOs.Lib.Cpu
import ChefOs.Lib.Run

/-!
# System call entry and exit

`arch/syscall_asm.S`, from the `syscall` instruction to `sysret`.  The dispatcher is any function
that keeps to the calling convention.
-/

namespace ChefOs

open Kit Cpu

/-- The global variables of `syscall_asm.S`. -/
inductive SyscallGlobal
  | gKernelSyscallStack
  | gUserSavedRsp
deriving DecidableEq

/-- A processor in user mode.  `rip` is the next instruction. -/
structure UserContext where
  cpu : Cpu SyscallGlobal
  rip : BitVec 64
  rflags : BitVec 64

/-- The registers that `syscall_entry_stub` pushes. -/
def pushedRegs : List Reg := [.rbp, .rbx, .r12, .r13, .r14, .r15, .rcx, .r11]

/-- The registers that `syscall_entry_stub` pops, after the dummy. -/
def poppedRegs : List Reg := [.r11, .rcx, .r15, .r14, .r13, .r12, .rbx, .rbp]

/-- The moves of `syscall_entry_stub`, up to its call. -/
def marshal : List (Instr SyscallGlobal) :=
  [.mov .rcx .rdx, .mov .rdx .rsi, .mov .rsi .rdi, .mov .rdi .rax, .mov .rax .r8, .mov .r8 .r10,
    .push .r9, .mov .r9 .rax]

/-- `syscall_entry_stub` up to its call. -/
def stubEntry : List (Instr SyscallGlobal) :=
  [.store .gUserSavedRsp .rsp, .load .rsp .gKernelSyscallStack] ++ pushedRegs.map .push ++
    [.pushGlobal .gUserSavedRsp] ++ marshal

/-- `syscall_entry_stub` from its call to its `sysret`. -/
def stubExit : List (Instr SyscallGlobal) :=
  [.addRsp 8, .pop .r11] ++ poppedRegs.map .pop ++ [.load .rsp .gUserSavedRsp]

/-- The registers that the `syscall` instruction saves. -/
def UserContext.saved (c : UserContext) : Cpu SyscallGlobal :=
  (c.cpu.setReg .rcx c.rip).setReg .r11 c.rflags

theorem UserContext.saved_rcx (c : UserContext) : c.saved.regs .rcx = c.rip := rfl

theorem UserContext.saved_r11 (c : UserContext) : c.saved.regs .r11 = c.rflags := rfl

theorem UserContext.saved_of_ne (c : UserContext) {r : Reg} (rcx : r ≠ .rcx) (r11 : r ≠ .r11) :
    c.saved.regs r = c.cpu.regs r := by
  unfold saved
  rw [setReg_of_ne r11, setReg_of_ne rcx]

/-- The state at the call of `syscall_dispatch`. -/
def syscallEntry (c : UserContext) : Cpu SyscallGlobal := c.saved.run stubEntry

/-- The state at the `sysret`. -/
def syscallExit (s : Cpu SyscallGlobal) : Cpu SyscallGlobal := s.run stubExit

/-- `sysret`. -/
def sysret (s : Cpu SyscallGlobal) : UserContext where
  cpu := s
  rip := s.regs .rcx
  rflags := s.regs .r11 &&& 0x3C7FD7 ||| 2

theorem sysret_cpu (s : Cpu SyscallGlobal) : (sysret s).cpu = s := rfl

theorem sysret_rip (s : Cpu SyscallGlobal) : (sysret s).rip = s.regs .rcx := rfl

theorem sysret_rflags (s : Cpu SyscallGlobal) :
    (sysret s).rflags = s.regs .r11 &&& 0x3C7FD7 ||| 2 := rfl

/-- A call of `syscall_dispatch`.  Its seventh argument is on the stack; the stub has nine more
words there.  It writes neither of the stub's variables. -/
structure Dispatch (s s' : Cpu SyscallGlobal) : Prop where
  systemV : SystemV 1 10 s s'
  globals : s'.globals = s.globals

/-- What happens in user mode. -/
inductive UserOp
  | compute
  | syscall

/-- User code leaves anything in the registers and in memory, but it cannot write the variables of
the kernel. -/
def UserStep (c : UserContext) : UserOp → UserContext → Prop
  | .compute, c' => c'.cpu.globals = c.cpu.globals
  | .syscall, c' => ∃ s, Dispatch (syscallEntry c) s ∧ c' = sysret (syscallExit s)

/-- `syscall_dispatch(num, a1, a2, a3, a4, a5, a6)` is called for the registers of the user. -/
structure Marshalled (c : UserContext) (s : Cpu SyscallGlobal) : Prop where
  num : s.regs .rdi = c.cpu.regs .rax
  a1 : s.regs .rsi = c.cpu.regs .rdi
  a2 : s.regs .rdx = c.cpu.regs .rsi
  a3 : s.regs .rcx = c.cpu.regs .rdx
  a4 : s.regs .r8 = c.cpu.regs .r10
  a5 : s.regs .r9 = c.cpu.regs .r8
  a6 : s.mem (s.regs .rsp) = c.cpu.regs .r9

/-- The registers that the user gets back, at the `sysret`. -/
structure Restored (c : UserContext) (s : Cpu SyscallGlobal) : Prop where
  rip : s.regs .rcx = c.rip
  rflags : s.regs .r11 = c.rflags
  kept : ∀ r ∈ calleeSaved, s.regs r = c.cpu.regs r

/-! ## The way in -/

/-- The words that the stub keeps on the stack, below the seventh argument. -/
def UserContext.stacked (c : UserContext) : List (BitVec 64) :=
  c.cpu.regs .rsp :: poppedRegs.map c.saved.regs

/-- The pushes put the registers to restore on the kernel stack. -/
theorem pushed_spec (c : UserContext) : ∃ s : Cpu SyscallGlobal,
    syscallEntry c = s.run marshal ∧ s.Top c.stacked ∧
      (∀ r, r ≠ .rsp → s.regs r = c.saved.regs r) ∧
      s.regs .rsp = c.cpu.globals .gKernelSyscallStack - 72 ∧
      s.globals = Function.update c.cpu.globals .gUserSavedRsp (c.cpu.regs .rsp) := by
  let s₁ := c.saved.run [.store .gUserSavedRsp .rsp, .load .rsp .gKernelSyscallStack]
  have regs₁ : ∀ r, r ≠ .rsp → s₁.regs r = c.saved.regs r := fun r ne => setReg_of_ne ne ..
  have globals₁ : s₁.globals =
      Function.update c.cpu.globals .gUserSavedRsp (c.cpu.regs .rsp) := rfl
  have rsp₁ : s₁.regs .rsp = c.cpu.globals .gKernelSyscallStack := rfl
  have empty : s₁.Top [] := trivial
  have top : (s₁.run (pushedRegs.map .push)).Top ((pushedRegs.map s₁.regs).reverse ++ []) :=
    empty.pushAll (by decide) (by decide)
  obtain ⟨regs, rsp, globals⟩ := pushAll_regs pushedRegs s₁
  refine ⟨(s₁.run (pushedRegs.map .push)).pushWord (c.cpu.regs .rsp), ?_, ?_, ?_, ?_, ?_⟩
  · unfold syscallEntry stubEntry
    rw [run_append, run_append, run_append, run_cons, run_nil, exec, globals, globals₁,
      Function.update_self]
  · have same : pushedRegs.map s₁.regs = pushedRegs.map c.saved.regs :=
      List.map_congr_left fun r hr => regs₁ r (ne_of_mem_of_not_mem hr (by decide))
    rw [List.append_nil, same, ← List.map_reverse] at top
    exact top.push (by rw [List.length_map]; decide) _
  · intro r ne
    rw [pushWord_regs, Function.update_of_ne ne, regs r ne, regs₁ r ne]
  · have length : pushedRegs.length = 8 := rfl
    rw [pushWord_regs, Function.update_self, rsp, rsp₁, length]
    grind
  · rw [pushWord_globals, globals, globals₁]

/-- The moves do not disturb the stack below the seventh argument. -/
theorem marshal_spec (s : Cpu SyscallGlobal) {vs : List (BitVec 64)} (top : s.Top vs)
    (few : vs.length < 2 ^ 60) :
    (s.run marshal).Top (s.regs .r9 :: vs) ∧ (s.run marshal).regs .rsp = s.regs .rsp - 8 ∧
      (s.run marshal).globals = s.globals ∧
      (s.run marshal).regs .rdi = s.regs .rax ∧ (s.run marshal).regs .rsi = s.regs .rdi ∧
      (s.run marshal).regs .rdx = s.regs .rsi ∧ (s.run marshal).regs .rcx = s.regs .rdx ∧
      (s.run marshal).regs .r8 = s.regs .r10 ∧ (s.run marshal).regs .r9 = s.regs .r8 := by
  refine ⟨?_, rfl, rfl, rfl, rfl, rfl, rfl, rfl, rfl⟩
  have moved : (s.run (marshal.take 6)).Top vs :=
    ((((((top.setReg (by decide) _).setReg (by decide) _).setReg (by decide) _).setReg
      (by decide) _).setReg (by decide) _).setReg (by decide) _)
  exact (moved.push few _).setReg (by decide) _

/-- What the dispatcher finds. -/
theorem syscallEntry_spec (c : UserContext) :
    Marshalled c (syscallEntry c) ∧
      (syscallEntry c).Top (c.cpu.regs .r9 :: c.stacked) ∧
      (syscallEntry c).regs .rsp = c.cpu.globals .gKernelSyscallStack - 80 ∧
      (syscallEntry c).globals =
        Function.update c.cpu.globals .gUserSavedRsp (c.cpu.regs .rsp) := by
  obtain ⟨s, entry, top, regs, rsp, globals⟩ := pushed_spec c
  have few : c.stacked.length < 2 ^ 60 := show 9 < 2 ^ 60 by decide
  obtain ⟨top', rsp', globals', num, a1, a2, a3, a4, a5⟩ := marshal_spec s top few
  rw [regs _ (by decide)] at top' num a1 a2 a3 a4 a5
  rw [entry]
  refine ⟨?_, top', ?_, globals'.trans globals⟩
  · constructor
    case num => exact num
    case a1 => exact a1
    case a2 => exact a2
    case a3 => exact a3
    case a4 => exact a4
    case a5 => exact a5
    case a6 => exact top'.1
  · rw [rsp', rsp]
    grind

/-! ## The way out -/

/-- The registers that `syscall_entry_stub` leaves as the dispatcher left them. -/
def leftRegs : List Reg := [.rdi, .rsi, .rdx, .r8, .r9, .r10]

theorem mem_poppedRegs : ∀ r ∈ calleeSaved, r ≠ .rsp → r ∈ poppedRegs := by
  decide

theorem not_mem_poppedRegs : ∀ r ∈ .rax :: leftRegs, r ∉ poppedRegs := by
  decide

/-- What the user gets back, when the words of the stub are still on the stack. -/
theorem syscallExit_spec {c : UserContext} {s : Cpu SyscallGlobal} {a6 : BitVec 64}
    (top : s.Top (a6 :: c.stacked)) (globals : s.globals .gUserSavedRsp = c.cpu.regs .rsp) :
    Restored c (syscallExit s) ∧ (syscallExit s).globals = s.globals ∧
      ∀ r ∈ .rax :: leftRegs, (syscallExit s).regs r = s.regs r := by
  obtain ⟨s₁, popped, top₁, regs₁, globals₁⟩ : ∃ s₁ : Cpu SyscallGlobal,
      s.run [.addRsp 8, .pop .r11] = s₁ ∧ s₁.Top (poppedRegs.map c.saved.regs ++ []) ∧
      (∀ r, r ≠ .rsp → r ≠ .r11 → s₁.regs r = s.regs r) ∧ s₁.globals = s.globals := by
    refine ⟨_, rfl, ?_, fun r ne ne' => ?_, rfl⟩
    · rw [List.append_nil]
      exact top.drop.popReg (by decide)
    · rw [run_cons, run_cons, run_nil, exec, exec, popReg_of_ne ne ne', setReg_of_ne ne]
  have nodup : poppedRegs.Nodup := by decide
  obtain ⟨-, loaded, others, -, -, globals₂⟩ := top₁.popAll nodup (by decide)
  have exit : syscallExit s = (s₁.run (poppedRegs.map .pop)).setReg .rsp (c.cpu.regs .rsp) := by
    unfold syscallExit stubExit
    rw [run_append, run_append, run_cons, run_nil, exec, popped, globals₂, globals₁, globals]
  rw [exit]
  refine ⟨?_, ?_, fun r hr => ?_⟩
  · constructor
    case rip =>
      rw [setReg_of_ne (by decide), loaded .rcx (by decide)]
      exact c.saved_rcx
    case rflags =>
      rw [setReg_of_ne (by decide), loaded .r11 (by decide)]
      exact c.saved_r11
    case kept =>
      intro r hr
      by_cases ne : r = .rsp
      · rw [ne, setReg_self]
      · rw [setReg_of_ne ne, loaded r (mem_poppedRegs r hr ne)]
        exact c.saved_of_ne (ne_of_mem_of_not_mem hr (by decide))
          (ne_of_mem_of_not_mem hr (by decide))
  · rw [setReg_globals, globals₂, globals₁]
  · have rsp : r ≠ .rsp := ne_of_mem_of_not_mem hr (by decide)
    have r11 : r ≠ .r11 := ne_of_mem_of_not_mem hr (by decide)
    rw [setReg_of_ne rsp, others r (not_mem_poppedRegs r hr) rsp, regs₁ r rsp r11]

/-- The dispatcher keeps the words of the stub. -/
theorem Dispatch.top {c : UserContext} {s : Cpu SyscallGlobal}
    (call : Dispatch (syscallEntry c) s) :
    s.Top (s.mem (s.regs .rsp) :: c.stacked) := by
  obtain ⟨-, top, -, -⟩ := syscallEntry_spec c
  have rsp : s.regs .rsp = (syscallEntry c).regs .rsp := call.systemV.saved .rsp (by decide)
  refine ⟨rfl, ?_⟩
  rw [rsp]
  apply top.2.congr
  intro i hi
  have kept := call.systemV.kept (i + 1) (by omega) (Nat.succ_lt_succ hi)
  rwa [show (syscallEntry c).regs .rsp + 8 * BitVec.ofNat 64 (i + 1) =
    (syscallEntry c).regs .rsp + 8 + 8 * .ofNat 64 i by rw [BitVec.ofNat_add]; grind] at kept

/-- A system call, from the user to the user. -/
theorem Dispatch.roundTrip {c : UserContext} {s : Cpu SyscallGlobal}
    (call : Dispatch (syscallEntry c) s) :
    Restored c (syscallExit s) ∧
      (syscallExit s).globals .gKernelSyscallStack = c.cpu.globals .gKernelSyscallStack ∧
      ∀ r ∈ .rax :: leftRegs, (syscallExit s).regs r = s.regs r := by
  obtain ⟨-, -, -, globals⟩ := syscallEntry_spec c
  rw [← call.globals] at globals
  have saved : s.globals .gUserSavedRsp = c.cpu.regs .rsp := by
    rw [globals, Function.update_self]
  obtain ⟨restored, globals', left⟩ := syscallExit_spec call.top saved
  refine ⟨restored, ?_, left⟩
  rw [globals', globals, Function.update_of_ne (by decide)]

/-- A step in user mode leaves the kernel stack where it is. -/
theorem userStep_stack {c c' : UserContext} {op : UserOp} (step : UserStep c op c') :
    c'.cpu.globals .gKernelSyscallStack = c.cpu.globals .gKernelSyscallStack := by
  cases op with
  | compute => rw [step]
  | syscall =>
    obtain ⟨s, call, rfl⟩ := step
    exact call.roundTrip.2.1

/-- After any run of user code and system calls, the next system call calls the dispatcher with the
arguments of the user on the same kernel stack, and whatever the dispatcher does, the user gets back
its registers and the value that the dispatcher returned. -/
theorem syscall_marshals {c₀ c : UserContext} {ops : List UserOp} (run : Run UserStep c₀ ops c) :
    Marshalled c (syscallEntry c) ∧
      (syscallEntry c).regs .rsp = c₀.cpu.globals .gKernelSyscallStack - 80 ∧
      ∀ s, Dispatch (syscallEntry c) s →
        Restored c (syscallExit s) ∧ (syscallExit s).regs .rax = s.regs .rax ∧
          (syscallExit s).globals .gKernelSyscallStack =
            c₀.cpu.globals .gKernelSyscallStack := by
  have stack : c.cpu.globals .gKernelSyscallStack = c₀.cpu.globals .gKernelSyscallStack :=
    run.invariant (I := fun c => c.cpu.globals .gKernelSyscallStack =
      c₀.cpu.globals .gKernelSyscallStack) (fun _ _ _ same step => (userStep_stack step).trans same)
      rfl
  obtain ⟨marshalled, -, rsp, -⟩ := syscallEntry_spec c
  rw [stack] at rsp
  refine ⟨marshalled, rsp, fun s call => ?_⟩
  obtain ⟨restored, globals, left⟩ := call.roundTrip
  exact ⟨restored, left .rax (by decide), globals.trans stack⟩

theorem Dispatch.refl (s : Cpu SyscallGlobal) : Dispatch s s where
  systemV := { saved := fun _ _ => rfl, kept := fun _ _ _ => rfl }
  globals := rfl

/-- A dispatcher may leave anything in a register that it need not preserve. -/
theorem Dispatch.setReg (s : Cpu SyscallGlobal) {r : Reg} (scratch : r ∉ calleeSaved)
    (v : BitVec 64) : Dispatch s (s.setReg r v) where
  systemV := {
    saved := fun _ hr => setReg_of_ne (ne_of_mem_of_not_mem hr scratch) ..
    kept := fun _ _ _ => rfl }
  globals := rfl

/-- A user program that asks for its process id. -/
def sampleUser : UserContext where
  cpu := {
    regs := fun r => if r = .rax then 7 else 0x1234
    mem := fun _ => 0
    globals := fun _ => 0xFFFF800000104000 }
  rip := 0x400010
  rflags := 0x202

theorem syscall_marshals_example : ∃ c, Run UserStep sampleUser [.syscall] c ∧
    Marshalled c (syscallEntry c) := by
  have call : Dispatch (syscallEntry sampleUser) ((syscallEntry sampleUser).setReg .rax 1) :=
    .setReg _ (by decide) 1
  have run : Run UserStep sampleUser [.syscall]
      (sysret (syscallExit ((syscallEntry sampleUser).setReg .rax 1))) :=
    .cons ⟨_, call, rfl⟩ (.nil _)
  exact ⟨_, run, (syscall_marshals run).1⟩

/-! ## What the user sees of the dispatcher -/

/-- The registers that a system call may change. -/
def clobbered : List Reg := [.rax, .rcx, .r11]

theorem reg_cases (r : Reg) : r ∈ calleeSaved ∨ r ∈ leftRegs ∨ r ∈ clobbered := by
  cases r <;> decide

theorem not_mem_clobbered : ∀ r ∈ leftRegs, r ∉ clobbered := by
  decide

/-- Two runs of the dispatcher give the user the same registers, and only the documented ones are
changed. -/
structure NoLeak (c : UserContext) (s₁ s₂ : Cpu SyscallGlobal) : Prop where
  regs : (sysret (syscallExit s₁)).cpu.regs = (sysret (syscallExit s₂)).cpu.regs
  rip : (sysret (syscallExit s₁)).rip = (sysret (syscallExit s₂)).rip
  rflags : (sysret (syscallExit s₁)).rflags = (sysret (syscallExit s₂)).rflags
  documented : ∀ r, r ∉ clobbered →
    (sysret (syscallExit s₁)).cpu.regs r = c.cpu.regs r ∧
      (sysret (syscallExit s₂)).cpu.regs r = c.cpu.regs r

/-- Two runs of the dispatcher that return the same value look the same to the user, with only the
documented registers changed, exactly if they leave the user's values in the registers that the stub
does not restore. -/
theorem noLeak_iff {c : UserContext} {s₁ s₂ : Cpu SyscallGlobal}
    (call₁ : Dispatch (syscallEntry c) s₁) (call₂ : Dispatch (syscallEntry c) s₂)
    (same : s₁.regs .rax = s₂.regs .rax) :
    NoLeak c s₁ s₂ ↔
      ∀ r ∈ leftRegs, s₁.regs r = c.cpu.regs r ∧ s₂.regs r = c.cpu.regs r := by
  obtain ⟨restored₁, -, left₁⟩ := call₁.roundTrip
  obtain ⟨restored₂, -, left₂⟩ := call₂.roundTrip
  constructor
  · intro noLeak r hr
    rw [← left₁ r (List.mem_cons_of_mem _ hr), ← left₂ r (List.mem_cons_of_mem _ hr)]
    exact noLeak.documented r (not_mem_clobbered r hr)
  · intro clean
    have documented : ∀ r, r ∉ clobbered →
        (syscallExit s₁).regs r = c.cpu.regs r ∧ (syscallExit s₂).regs r = c.cpu.regs r := by
      intro r hr
      rcases reg_cases r with saved | left | clobber
      · exact ⟨restored₁.kept r saved, restored₂.kept r saved⟩
      · rw [left₁ r (List.mem_cons_of_mem _ left), left₂ r (List.mem_cons_of_mem _ left)]
        exact clean r left
      · contradiction
    constructor
    case regs =>
      funext r
      rw [sysret_cpu, sysret_cpu]
      by_cases hr : r ∈ clobbered
      · simp only [clobbered, List.mem_cons, List.not_mem_nil, or_false] at hr
        rcases hr with rfl | rfl | rfl
        · rw [left₁ _ List.mem_cons_self, left₂ _ List.mem_cons_self, same]
        · rw [restored₁.rip, restored₂.rip]
        · rw [restored₁.rflags, restored₂.rflags]
      · rw [(documented r hr).1, (documented r hr).2]
    case rip => rw [sysret_rip, sysret_rip, restored₁.rip, restored₂.rip]
    case rflags => rw [sysret_rflags, sysret_rflags, restored₁.rflags, restored₂.rflags]
    case documented =>
      intro r hr
      rw [sysret_cpu, sysret_cpu]
      exact documented r hr

/-- A user program with the same value in all registers. -/
def evenUser : UserContext :=
  { sampleUser with cpu := { sampleUser.cpu with regs := fun _ => 7 } }

/-- Two runs of the dispatcher that leave different values in `rcx`. -/
theorem noLeak_iff_example :
    ∃ s₁ s₂, Dispatch (syscallEntry evenUser) s₁ ∧ Dispatch (syscallEntry evenUser) s₂ ∧
      s₁.regs .rcx ≠ s₂.regs .rcx ∧ NoLeak evenUser s₁ s₂ := by
  have call₁ := Dispatch.setReg (syscallEntry evenUser) (by decide : Reg.rcx ∉ calleeSaved) 1
  have call₂ := Dispatch.setReg (syscallEntry evenUser) (by decide : Reg.rcx ∉ calleeSaved) 2
  exact ⟨_, _, call₁, call₂, by decide, (noLeak_iff call₁ call₂ rfl).mpr (by decide)⟩

/-- The dispatcher returns with a kernel pointer in `rdi`, or without it. -/
theorem kernel_pointer_leaks :
    ∃ s₁ s₂, Dispatch (syscallEntry sampleUser) s₁ ∧ Dispatch (syscallEntry sampleUser) s₂ ∧
      s₁.regs .rax = s₂.regs .rax ∧ ¬ NoLeak sampleUser s₁ s₂ := by
  have call₁ := Dispatch.setReg (syscallEntry sampleUser) (by decide : Reg.rdi ∉ calleeSaved)
    0xFFFF800000103000
  have call₂ := Dispatch.setReg (syscallEntry sampleUser) (by decide : Reg.rdi ∉ calleeSaved) 0
  refine ⟨_, _, call₁, call₂, ?_, fun noLeak => ?_⟩
  · rw [setReg_of_ne (by decide), setReg_of_ne (by decide)]
  · have leaked := congrFun noLeak.regs .rdi
    rw [sysret_cpu, sysret_cpu, call₁.roundTrip.2.2 _ (by decide),
      call₂.roundTrip.2.2 _ (by decide), setReg_self, setReg_self] at leaked
    revert leaked
    decide

end ChefOs
