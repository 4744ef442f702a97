import ChefOs.Arch.Isr
import ChefOs.Lib.Protection
import ChefOs.Mm.Clients

/-!
# Kernel mode and user mode

`arch/gdt.c` and `syscall_init` of `sys/syscall.c`: the descriptors, the task state and the model
specific registers that decide how the processor changes between the kernel and the user.
-/

namespace ChefOs

open Kit Protection

/-! ## The tables -/

/-- `gdt_entry_t`. -/
structure GdtEntry where
  limitLow : BitVec 16
  baseLow : BitVec 16
  baseMiddle : BitVec 8
  access : BitVec 8
  granularity : BitVec 8
  baseHigh : BitVec 8
deriving DecidableEq

/-- The bytes of an entry, the first one lowest. -/
def GdtEntry.bytes (e : GdtEntry) : Descriptor :=
  e.baseHigh ++ e.granularity ++ e.access ++ e.baseMiddle ++ e.baseLow ++ e.limitLow

/-- `gdt_set_gate`. -/
def gdtSetGate (num : Fin 7) (base limit : BitVec 32) (access gran : BitVec 8)
    (sGdt : Fin 7 → GdtEntry) : Fin 7 → GdtEntry :=
  Function.update sGdt num {
    baseLow := (base &&& 0xFFFF).setWidth 16
    baseMiddle := ((base >>> 16) &&& 0xFF).setWidth 8
    baseHigh := ((base >>> 24) &&& 0xFF).setWidth 8
    limitLow := (limit &&& 0xFFFF).setWidth 16
    granularity := ((limit >>> 16) &&& 0x0F).setWidth 8 ||| (gran &&& 0xF0)
    access := access }

/-- `tss_t`. -/
structure Tss where
  reserved0 : BitVec 32
  rsp0 : BitVec 64
  rsp1 : BitVec 64
  rsp2 : BitVec 64
  reserved1 : BitVec 64
  ist1 : BitVec 64
  ist2 : BitVec 64
  ist3 : BitVec 64
  ist4 : BitVec 64
  ist5 : BitVec 64
  ist6 : BitVec 64
  ist7 : BitVec 64
  reserved2 : BitVec 64
  reserved3 : BitVec 16
  iomapBase : BitVec 16
deriving DecidableEq

/-- The bytes of a task state, the first one lowest. -/
def Tss.bytes (s : Tss) : BitVec 832 :=
  s.iomapBase ++ s.reserved3 ++ s.reserved2 ++ s.ist7 ++ s.ist6 ++ s.ist5 ++ s.ist4 ++ s.ist3 ++
    s.ist2 ++ s.ist1 ++ s.reserved1 ++ s.rsp2 ++ s.rsp1 ++ s.rsp0 ++ s.reserved0

/-- `sizeof(tss_t)`. -/
def sizeofTss : ℕ := 832 / 8

/-- A zeroed task state. -/
def zeroTss : Tss := ⟨0, 0, 0, 0, 0, 0, 0, 0, 0, 0, 0, 0, 0, 0, 0⟩

/-- The high half of the address in the last descriptor, the first four bytes of `s_gdt[6]`. -/
def setTssHigh (high : BitVec 32) (sGdt : Fin 7 → GdtEntry) : Fin 7 → GdtEntry :=
  Function.update sGdt 6 { sGdt 6 with
    limitLow := high.setWidth 16
    baseLow := (high >>> 16).setWidth 16 }

/-- `tss_flush`: `ltr` marks the segment as busy. -/
def tssFlush (sGdt : Fin 7 → GdtEntry) : Fin 7 → GdtEntry :=
  Function.update sGdt 5 { sGdt 5 with access := (sGdt 5).access ||| 2 }

/-- `gdt_init`, with the address of `s_tss`. -/
def gdtInit (tssBase : BitVec 64) (sGdt : Fin 7 → GdtEntry) : (Fin 7 → GdtEntry) × Tss :=
  let sGdt := gdtSetGate 0 0 0 0 0 sGdt
  let sGdt := gdtSetGate 1 0 0xFFFFF 0x9A 0xA0 sGdt
  let sGdt := gdtSetGate 2 0 0xFFFFF 0x92 0xC0 sGdt
  let sGdt := gdtSetGate 3 0 0xFFFFF 0xF2 0xC0 sGdt
  let sGdt := gdtSetGate 4 0 0xFFFFF 0xFA 0xA0 sGdt
  let sTss := { zeroTss with iomapBase := .ofNat 16 sizeofTss }
  let tssLimit : BitVec 32 := .ofNat 32 (sizeofTss - 1)
  let sGdt := gdtSetGate 5 ((tssBase &&& 0xFFFFFFFF).setWidth 32) tssLimit 0x89 0x00 sGdt
  let sGdt := setTssHigh ((tssBase >>> 32).setWidth 32) sGdt
  (tssFlush sGdt, sTss)

/-- `s_gdt_ptr.limit`. -/
def gdtLimit : ℕ := 8 * 7 - 1

/-- `tss_set_kernel_stack`. -/
def tssSetKernelStack (stack : BitVec 64) (sTss : Tss) : Tss := { sTss with rsp0 := stack }

/-- The model specific registers of `syscall_init`. -/
structure Msrs where
  efer : BitVec 64
  star : BitVec 64
  lstar : BitVec 64
  sfmask : BitVec 64
deriving DecidableEq

/-- `wrmsr`: the value of the register. -/
def wrmsr (val : BitVec 64) : BitVec 64 :=
  let low := (val &&& 0xFFFFFFFF).setWidth 32
  let high := (val >>> 32).setWidth 32
  high ++ low

/-- `g_kernel_syscall_stack`, with the answer of `pmm_alloc_pages(4)`. -/
def kernelSyscallStack (stackPhys hhdmOffset : BitVec 64) : BitVec 64 :=
  stackPhys + hhdmOffset + 4 * 4096 - 16

/-- `syscall_init`, with the answer of `pmm_alloc_pages(4)` and the address of
`syscall_entry_stub`. -/
def syscallInit (hhdmOffset stackPhys entryStub : BitVec 64) (sTss : Tss) (msrs : Msrs) :
    Tss × Msrs :=
  let sTss := tssSetKernelStack (kernelSyscallStack stackPhys hhdmOffset) sTss
  let msrs := { msrs with efer := wrmsr (msrs.efer ||| 1) }
  let star := (0x0010 : BitVec 64) <<< 48 ||| (0x0008 : BitVec 64) <<< 32
  let msrs := { msrs with star := wrmsr star }
  let msrs := { msrs with lstar := wrmsr entryStub }
  (sTss, { msrs with sfmask := wrmsr (0x200 ||| 0x100 ||| 0x400) })

/-! ## The processor after the boot -/

/-- What the boot depends on: the addresses of the stubs, where code can be, of `s_tss` and of the
stack, and what is elsewhere in memory. -/
structure BootPlaces where
  address : Stub → BitVec 64
  address_canonical : ∀ stub, Canonical (address stub)
  tssBase : BitVec 64
  hhdmOffset : BitVec 64
  stackPhys : BitVec 64
  entryStub : BitVec 64
  entryStub_canonical : Canonical entryStub
  msrs : Msrs
  elsewhere : BitVec 64 → BitVec 832

/-- An entry that nothing has been written to. -/
def zeroGdtEntry : GdtEntry := ⟨0, 0, 0, 0, 0, 0⟩

namespace BootPlaces

variable (b : BootPlaces)

/-- `s_gdt` after `gdt_init`. -/
def sGdt : Fin 7 → GdtEntry := (gdtInit b.tssBase fun _ => zeroGdtEntry).1

/-- `s_tss` after `syscall_init`. -/
def sTss : Tss :=
  (syscallInit b.hhdmOffset b.stackPhys b.entryStub (gdtInit b.tssBase fun _ => zeroGdtEntry).2
    b.msrs).1

/-- The task state where the task register points to. -/
def taskState : BitVec 832 :=
  Function.update b.elsewhere b.tssBase b.sTss.bytes
    (systemBase (b.sGdt 5).bytes (b.sGdt 6).bytes)

/-- What the processor finds in the tables. -/
def tables : Tables where
  gdt i := if 8 * i + 7 ≤ gdtLimit then some (b.sGdt (.ofNat 7 i)).bytes else none
  idt v :=
    let e := idtInit b.address v
    ⟨e.offset, e.selector, e.typeAttributes⟩
  levelStack level := b.taskState.extractLsb' (32 + 64 * level.toNat) 64
  star := (syscallInit b.hhdmOffset b.stackPhys b.entryStub zeroTss b.msrs).2.star
  lstar := (syscallInit b.hhdmOffset b.stackPhys b.entryStub zeroTss b.msrs).2.lstar
  sfmask := (syscallInit b.hhdmOffset b.stackPhys b.entryStub zeroTss b.msrs).2.sfmask

end BootPlaces

/-- The processor in the kernel after `gdt_flush`. -/
def afterGdtFlush (rip rflags rsp : BitVec 64) : Processor := ⟨0, 0x08, 0x10, rip, rflags, rsp, []⟩

/-! ## What the processor reads -/

theorem wrmsr_eq (val : BitVec 64) : wrmsr val = val := by
  unfold wrmsr
  apply BitVec.eq_of_getLsbD_eq
  intro i hi
  simp only [BitVec.getLsbD_append, BitVec.getLsbD_setWidth, BitVec.getLsbD_and,
    BitVec.getLsbD_ushiftRight]
  interval_cases i <;> simp

/-- The processor gets the base, the limit and the rights that were set. -/
theorem gdtSetGate_bytes (num : Fin 7) (base limit : BitVec 32) (access gran : BitVec 8)
    (sGdt : Fin 7 → GdtEntry) :
    let d := (gdtSetGate num base limit access gran sGdt num).bytes
    d.base = base ∧ d.limit = limit.setWidth 20 ∧ d.extractLsb' 40 8 = access ∧
      d.extractLsb' 52 4 = gran.extractLsb' 4 4 := by
  unfold gdtSetGate
  rw [Function.update_self]
  unfold GdtEntry.bytes Descriptor.base Descriptor.limit
  refine ⟨?_, ?_, ?_, ?_⟩
  all_goals
    apply BitVec.eq_of_getLsbD_eq
    intro i hi
    simp only [BitVec.getLsbD_append, BitVec.getLsbD_extractLsb', BitVec.getLsbD_setWidth,
      BitVec.getLsbD_and, BitVec.getLsbD_or, BitVec.getLsbD_ushiftRight]
    interval_cases i <;> simp

theorem base_access (e : GdtEntry) (access : BitVec 8) :
    Descriptor.base { e with access := access }.bytes = e.bytes.base := by
  unfold GdtEntry.bytes Descriptor.base
  apply BitVec.eq_of_getLsbD_eq
  intro i hi
  simp only [BitVec.getLsbD_append, BitVec.getLsbD_extractLsb']
  interval_cases i <;> simp

theorem setTssHigh_bytes (high : BitVec 32) (sGdt : Fin 7 → GdtEntry) :
    (setTssHigh high sGdt 6).bytes.setWidth 32 = high := by
  unfold setTssHigh
  rw [Function.update_self]
  unfold GdtEntry.bytes
  apply BitVec.eq_of_getLsbD_eq
  intro i hi
  simp only [BitVec.getLsbD_append, BitVec.getLsbD_setWidth, BitVec.getLsbD_ushiftRight]
  interval_cases i <;> simp

section

variable (b : BootPlaces)

/-- The last two descriptors hold the address of the task state. -/
theorem systemBase_eq : systemBase (b.sGdt 5).bytes (b.sGdt 6).bytes = b.tssBase := by
  have low := (gdtSetGate_bytes 5 ((b.tssBase &&& 0xFFFFFFFF).setWidth 32) 103 0x89 0x00
    fun _ => zeroGdtEntry).1
  have five : (b.sGdt 5).bytes.base = (b.tssBase &&& 0xFFFFFFFF).setWidth 32 := by
    rw [← low]
    exact base_access _ _
  have six : (b.sGdt 6).bytes.setWidth 32 = (b.tssBase >>> 32).setWidth 32 :=
    setTssHigh_bytes ((b.tssBase >>> 32).setWidth 32) fun _ => zeroGdtEntry
  rw [systemBase, five, six]
  exact wrmsr_eq b.tssBase

theorem Tss.bytes_rsp0 (s : Tss) : s.bytes.extractLsb' 32 64 = s.rsp0 := by
  unfold Tss.bytes
  apply BitVec.eq_of_getLsbD_eq
  intro i hi
  have front : 32 + i - 32 = i := by omega
  simp only [BitVec.getLsbD_extractLsb', BitVec.getLsbD_append, hi, decide_true, Bool.true_and]
  rw [if_neg (by omega), if_pos (by omega), front]

/-- The processor finds the stack of the kernel. -/
theorem levelStack_zero :
    b.tables.levelStack 0 = kernelSyscallStack b.stackPhys b.hhdmOffset := by
  have state : b.taskState = b.sTss.bytes := by
    rw [BootPlaces.taskState, systemBase_eq, Function.update_self]
  change b.taskState.extractLsb' 32 64 = _
  rw [state, Tss.bytes_rsp0]
  rfl

/-- The words of `syscall_init` and those of the page allocator are the same. -/
theorem kernelSyscallStack_toNat (stackPhys hhdmOffset : BitVec 64) :
    (kernelSyscallStack stackPhys hhdmOffset).toNat =
      syscallStack stackPhys.toNat hhdmOffset.toNat := by
  have size : 4 * pageSize = 4 * 4096 := rfl
  rw [kernelSyscallStack, syscallStack, size, u64, sub64, BitVec.toNat_sub, BitVec.toNat_add,
    BitVec.toNat_add]
  simp only [BitVec.reduceMul, BitVec.reduceToNat]
  omega

/-- The processor finds the stack of the kernel in the pages that `syscall_init` was given. -/
theorem levelStack_inside {x : Memory} (map : DirectMap x.pmm) (available : Available 4 x.pmm)
    (stackPhys : b.stackPhys.toNat = x.answer 4) (hhdm : b.hhdmOffset.toNat = map.offset) :
    ∀ a ∈ behind map.offset (stackBytes (b.tables.levelStack 0).toNat),
      a / pageSize ∈ x.pages 4 := by
  rw [levelStack_zero, kernelSyscallStack_toNat, stackPhys, hhdm]
  apply syscallStack_inside available
  intro k inside
  have below := Nat.mul_le_mul_right pageSize inside
  have covered := map.fits
  rw [Nat.add_mul] at below
  omega

/-! ## The rights -/

theorem GdtEntry.isCode_bytes (e : GdtEntry) :
    e.bytes.isCode = (e.access.getLsbD 4 && e.access.getLsbD 3) := by
  simp only [GdtEntry.bytes, Descriptor.isCode, BitVec.getLsbD_append]
  rfl

theorem GdtEntry.isStack_bytes (e : GdtEntry) :
    e.bytes.isStack = (e.access.getLsbD 4 && !e.access.getLsbD 3 && e.access.getLsbD 1) := by
  simp only [GdtEntry.bytes, Descriptor.isStack, BitVec.getLsbD_append]
  rfl

theorem GdtEntry.present_bytes (e : GdtEntry) : e.bytes.present = e.access.getLsbD 7 := by
  simp only [GdtEntry.bytes, Descriptor.present, BitVec.getLsbD_append]
  rfl

theorem GdtEntry.isCallGate_bytes (e : GdtEntry) :
    e.bytes.isCallGate = (!e.access.getLsbD 4 && e.access.extractLsb' 0 4 == 0xC) := by
  have type : e.bytes.extractLsb' 40 4 = e.access.extractLsb' 0 4 := by
    apply BitVec.eq_of_getLsbD_eq
    intro i hi
    simp only [GdtEntry.bytes, BitVec.getLsbD_extractLsb', BitVec.getLsbD_append]
    interval_cases i <;> simp
  rw [Descriptor.isCallGate, type]
  simp only [GdtEntry.bytes, BitVec.getLsbD_append]
  rfl

/-- A selector names one of the entries behind the first one. -/
theorem lookup_cases {sel : BitVec 16} {d : Descriptor} (found : b.tables.lookup sel = some d) :
    sel.getLsbD 2 = false ∧ ∃ i : Fin 7, i ≠ 0 ∧ (sel >>> 3).toNat = i ∧ d = (b.sGdt i).bytes := by
  unfold Tables.lookup at found
  split_ifs at found with excluded
  simp only [not_or, Bool.not_eq_true] at excluded
  change (if 8 * (sel >>> 3).toNat + 7 ≤ gdtLimit then _ else none) = some d at found
  split_ifs at found with inside
  obtain rfl := Option.some.inj found
  have small : (sel >>> 3).toNat < 7 := by unfold gdtLimit at inside; omega
  have index : Fin.ofNat 7 (sel >>> 3).toNat = ⟨(sel >>> 3).toNat, small⟩ :=
    Fin.ext (Nat.mod_eq_of_lt small)
  refine ⟨excluded.2, ⟨(sel >>> 3).toNat, small⟩, fun zero => excluded.1 ?_, rfl, ?_⟩
  · have none : (sel >>> 3).toNat = 0 := congrArg Fin.val zero
    exact BitVec.eq_of_toNat_eq none
  · rw [index]

/-- The access bytes. -/
theorem sGdt_access : ∀ i, (b.sGdt i).access = #v[0, 0x9A, 0x92, 0xF2, 0xFA, 0x8B, 0][i] := by
  intro i
  fin_cases i
  case «5» => exact (by decide : (0x89 : BitVec 8) ||| 2 = 0x8B)
  all_goals rfl

/-- The code and data segments. -/
theorem sGdt_bytes :
    (b.sGdt 1).bytes = 0x00AF9A000000FFFF ∧ (b.sGdt 2).bytes = 0x00CF92000000FFFF ∧
      (b.sGdt 3).bytes = 0x00CFF2000000FFFF ∧ (b.sGdt 4).bytes = 0x00AFFA000000FFFF := by
  have kernelCode : b.sGdt 1 = ⟨0xFFFF, 0, 0, 0x9A, 0xAF, 0⟩ := rfl
  have kernelData : b.sGdt 2 = ⟨0xFFFF, 0, 0, 0x92, 0xCF, 0⟩ := rfl
  have userData : b.sGdt 3 = ⟨0xFFFF, 0, 0, 0xF2, 0xCF, 0⟩ := rfl
  have userCode : b.sGdt 4 = ⟨0xFFFF, 0, 0, 0xFA, 0xAF, 0⟩ := rfl
  rw [kernelCode, kernelData, userData, userCode]
  decide

/-- The segments with code are the second and the fifth one. -/
theorem code_cases {sel : BitVec 16} {d : Descriptor} (found : b.tables.lookup sel = some d)
    (code : d.isCode = true) :
    sel.getLsbD 2 = false ∧ ((sel >>> 3).toNat = 1 ∧ d = 0x00AF9A000000FFFF ∨
      (sel >>> 3).toNat = 4 ∧ d = 0x00AFFA000000FFFF) := by
  obtain ⟨table, i, ne, index, rfl⟩ := lookup_cases b found
  refine ⟨table, ?_⟩
  rw [GdtEntry.isCode_bytes, sGdt_access] at code
  fin_cases i
  case «0» => exact absurd rfl ne
  case «1» => exact .inl ⟨index, (sGdt_bytes b).1⟩
  case «4» => exact .inr ⟨index, (sGdt_bytes b).2.2.2⟩
  all_goals exact absurd code (by decide)

/-- The segments with data are the third and the fourth one. -/
theorem data_cases {sel : BitVec 16} {d : Descriptor} (found : b.tables.lookup sel = some d)
    (stack : d.isStack = true) :
    sel.getLsbD 2 = false ∧ ((sel >>> 3).toNat = 2 ∧ d = 0x00CF92000000FFFF ∨
      (sel >>> 3).toNat = 3 ∧ d = 0x00CFF2000000FFFF) := by
  obtain ⟨table, i, ne, index, rfl⟩ := lookup_cases b found
  refine ⟨table, ?_⟩
  rw [GdtEntry.isStack_bytes, sGdt_access] at stack
  fin_cases i
  case «0» => exact absurd rfl ne
  case «2» => exact .inl ⟨index, (sGdt_bytes b).2.1⟩
  case «3» => exact .inr ⟨index, (sGdt_bytes b).2.2.1⟩
  all_goals exact absurd stack (by decide)

/-- The gates of `idt_init` are interrupt gates of the kernel's code, each to one of the stubs. -/
theorem idtInit_cases (address : Stub → BitVec 64) (v : BitVec 8) :
    idtInit address v = zeroGate ∨ (idtInit address v).selector = 0x08 ∧
      (idtInit address v).typeAttributes = 0x8E ∧
      ∃ stub, (idtInit address v).offset = address stub := by
  have fold (l : List (BitVec 8 × Stub)) (sIdt : BitVec 8 → IdtEntry)
      (before : ∀ v, sIdt v = zeroGate ∨ (sIdt v).selector = 0x08 ∧
        (sIdt v).typeAttributes = 0x8E ∧ ∃ stub, (sIdt v).offset = address stub) :
      let after := l.foldl (fun sIdt g => idtSetGate g.1 (address g.2) 0x08 0x8E sIdt) sIdt
      ∀ v, after v = zeroGate ∨ (after v).selector = 0x08 ∧
        (after v).typeAttributes = 0x8E ∧ ∃ stub, (after v).offset = address stub := by
    induction l generalizing sIdt with
    | nil => exact before
    | cons g l ih =>
      apply ih
      intro v
      dsimp only
      by_cases same : v = g.1
      · subst same
        have offset := offset_idtSetGate g.1 (address g.2) 0x08 0x8E sIdt
        refine .inr ⟨?_, ?_, g.2, offset⟩
        · rw [idtSetGate, Function.update_self]
        · rw [idtSetGate, Function.update_self]
      · have other : idtSetGate g.1 (address g.2) 0x08 0x8E sIdt v = sIdt v :=
          Function.update_of_ne same ..
        rw [other]
        exact before v
  exact fold gates (fun _ => zeroGate) (fun _ => .inl rfl) v

/-- The selectors of the registers. -/
theorem tables_selectors : b.tables.kernelCs = 0x08 ∧ b.tables.kernelSs = 0x10 ∧
    b.tables.userCs = 0x23 ∧ b.tables.userSs = 0x1B := by
  have star : b.tables.star = 0x0010000800000000 := by
    change wrmsr _ = _
    rw [wrmsr_eq]
    decide
  unfold Tables.kernelCs Tables.kernelSs Tables.userCs Tables.userSs
  rw [star]
  decide

/-- The segments that the selectors name. -/
theorem tables_segments : b.tables.Code 0 0x08 ∧ b.tables.Stack 0 0x10 ∧ b.tables.Code 3 0x23 ∧
    b.tables.Stack 3 0x1B := by
  obtain ⟨kernelCode, kernelData, userData, userCode⟩ := sGdt_bytes b
  have found (i : Fin 7) (sel : BitVec 16) (ne : sel >>> 3 ≠ 0) (table : sel.getLsbD 2 = false)
      (index : (sel >>> 3).toNat = i) : b.tables.lookup sel = some (b.sGdt i).bytes := by
    have inside : 8 * (i : ℕ) + 7 ≤ gdtLimit := by unfold gdtLimit; omega
    have excluded : ¬ (sel >>> 3 = 0 ∨ sel.getLsbD 2 = true) := by
      rw [table]
      simpa using ne
    unfold Tables.lookup
    rw [if_neg excluded, index]
    change (if 8 * (i : ℕ) + 7 ≤ gdtLimit then some (b.sGdt (Fin.ofNat 7 i)).bytes else none) = _
    rw [if_pos inside, Fin.ofNat_val_eq_self]
  have kernelCs := (found 1 0x08 (by decide) (by decide) rfl).trans (congrArg some kernelCode)
  have kernelSs := (found 2 0x10 (by decide) (by decide) rfl).trans (congrArg some kernelData)
  have userCs := (found 4 0x23 (by decide) (by decide) rfl).trans (congrArg some userCode)
  have userSs := (found 3 0x1B (by decide) (by decide) rfl).trans (congrArg some userData)
  exact ⟨⟨by decide, _, kernelCs, by decide⟩, ⟨by decide, .inr ⟨_, kernelSs, by decide⟩⟩,
    ⟨by decide, _, userCs, by decide⟩, ⟨by decide, .inr ⟨_, userSs, by decide⟩⟩⟩

/-- The tables of the kernel are sound. -/
theorem tables_sound : b.tables.Sound := by
  obtain ⟨kernelCs, kernelSs, userCs, userSs⟩ := tables_selectors b
  obtain ⟨kernelCode, kernelData, userCode, userData⟩ := tables_segments b
  constructor
  case code =>
    intro sel d found code present
    obtain ⟨-, ⟨-, rfl⟩ | ⟨-, rfl⟩⟩ := code_cases b found code
    · decide
    · decide
  case noCallGate =>
    intro sel d found present
    obtain ⟨-, i, -, -, rfl⟩ := lookup_cases b found
    rw [GdtEntry.isCallGate_bytes, sGdt_access]
    fin_cases i
    case «0» | «6» =>
      rw [GdtEntry.present_bytes, sGdt_access] at present
      contradiction
    all_goals decide
  case gates =>
    intro v present
    change (idtInit b.address v).typeAttributes.getLsbD 7 = true at present
    change ((idtInit b.address v).typeAttributes.extractLsb' 0 4 == 0xE) = true ∧
      b.tables.Code 0 (withRpl (idtInit b.address v).selector 0) ∧
      Canonical (idtInit b.address v).offset
    rcases idtInit_cases b.address v with unset | ⟨selector, attributes, stub, offset⟩
    · rw [unset] at present
      contradiction
    · rw [selector, attributes, offset]
      exact ⟨by decide, kernelCode, b.address_canonical stub⟩
  case kernelCs => rw [kernelCs]; exact kernelCode
  case kernelSs => rw [kernelSs]; exact kernelData
  case userCs => rw [userCs]; exact userCode
  case userSs => rw [userSs]; exact userData
  case masked =>
    change (wrmsr _).getLsbD 9 = true
    rw [wrmsr_eq]
    decide
  case lstar =>
    change Canonical (wrmsr b.entryStub)
    rw [wrmsr_eq]
    exact b.entryStub_canonical

/-- The parts of a selector. -/
theorem selector_toNat {sel : BitVec 16} (table : sel.getLsbD 2 = false) :
    sel.toNat = 8 * (sel >>> 3).toNat + (rpl sel).toNat := by
  have low : (rpl sel).toNat = sel.toNat % 4 := BitVec.toNat_setWidth ..
  have high : (sel >>> 3).toNat = sel.toNat / 8 := by
    rw [BitVec.toNat_ushiftRight, Nat.shiftRight_eq_div_pow]
  rw [BitVec.getLsbD, Nat.testBit_eq_decide_div_mod_eq, decide_eq_false_iff_not] at table
  omega

/-- The index and the level make the selector. -/
theorem selector_eq {sel : BitVec 16} {i : ℕ} {level : BitVec 2} (table : sel.getLsbD 2 = false)
    (index : (sel >>> 3).toNat = i) (asked : rpl sel = level) :
    sel = .ofNat 16 (8 * i + level.toNat) := by
  rw [← index, ← asked, ← selector_toNat table, BitVec.ofNat_toNat, BitVec.setWidth_eq]

variable {b} {level : BitVec 2} {sel : BitVec 16}

/-- The only code segments. -/
theorem code_selector (code : b.tables.Code level sel) :
    level = 0 ∧ sel = 0x08 ∨ level = 3 ∧ sel = 0x23 := by
  obtain ⟨rfl, d, found, isCode, -, -, -, dpl⟩ := code
  obtain ⟨table, ⟨index, rfl⟩ | ⟨index, rfl⟩⟩ := code_cases b found isCode
  · have level : rpl sel = 0 := dpl.symm
    exact .inl ⟨level, selector_eq table index level⟩
  · have level : rpl sel = 3 := dpl.symm
    exact .inr ⟨level, selector_eq table index level⟩

/-- The only stacks. -/
theorem stack_selector (stack : b.tables.Stack level sel) :
    level = 0 ∧ sel = 0x10 ∨ level = 3 ∧ sel = 0x1B ∨ level ≠ 3 ∧ sel = level.setWidth 16 := by
  obtain ⟨rfl, ⟨null, inner⟩ | ⟨d, found, isStack, -, dpl⟩⟩ := stack
  · refine .inr (.inr ⟨inner, BitVec.eq_of_toNat_eq ?_⟩)
    have low : (rpl sel).toNat = sel.toNat % 4 := BitVec.toNat_setWidth ..
    have high : (sel >>> 2).toNat = 0 := congrArg BitVec.toNat null
    rw [BitVec.toNat_ushiftRight, Nat.shiftRight_eq_div_pow] at high
    rw [BitVec.toNat_setWidth, low]
    omega
  · obtain ⟨table, ⟨index, rfl⟩ | ⟨index, rfl⟩⟩ := data_cases b found isStack
    · have level : rpl sel = 0 := dpl.symm
      exact .inl ⟨level, selector_eq table index level⟩
    · have level : rpl sel = 3 := dpl.symm
      exact .inr (.inl ⟨level, selector_eq table index level⟩)

end

/-! ## Delivery and return -/

/-- The two models of the processor have the same registers. -/
structure SameRegisters (c : Context) (m : Processor) : Prop where
  rip : c.rip = m.rip
  cs : c.cs = m.cs
  rflags : c.rflags = m.rflags
  rsp : c.cpu.regs .rsp = m.rsp
  ss : c.ss = m.ss

theorem rpl_eq_zero (sel : BitVec 16) : rpl sel = 0 ↔ sel &&& 3 = 0 := by
  have low : (sel &&& 3).toNat = sel.toNat % 4 := by
    rw [BitVec.toNat_and]
    exact Nat.and_two_pow_sub_one_eq_mod sel.toNat 2
  rw [← BitVec.toNat_inj, ← BitVec.toNat_inj, low]
  exact Iff.of_eq (congrArg (· = 0) (BitVec.toNat_setWidth ..))

theorem pushWords_rsp {G : Type} (vs : List (BitVec 64)) (s : Cpu G) :
    (Cpu.pushWords vs s).regs .rsp = s.regs .rsp - 8 * .ofNat 64 vs.length := by
  induction vs with
  | nil => simp [Cpu.pushWords]
  | cons v vs ih =>
    have push : Cpu.pushWords (v :: vs) s = (Cpu.pushWords vs s).pushWord v := rfl
    rw [push, Cpu.pushWord_regs, Function.update_self, ih, List.length_cons, BitVec.ofNat_add]
    grind

/-- The delivery of an interrupt is the processor's, with the frame on the new stack. -/
theorem deliver_interrupt {b : BootPlaces} {c : Context} {m : Processor} (same : SameRegisters c m)
    (sound : m.Sound b.tables) {v : ℕ} (present : (b.tables.idt (.ofNat 8 v)).present = true)
    (errorCode : BitVec 64) :
    let m' := m.interrupt b.tables (b.tables.idt (.ofNat 8 v)) 0
    SameRegisters (deliver (b.tables.levelStack 0) errorCode v (idtInit b.address (.ofNat 8 v)) c)
      { m' with rsp := m'.rsp - 8 * .ofNat 64 (errorWords v errorCode ++ c.frame).length } := by
  have set : (idtInit b.address (.ofNat 8 v)).selector = 0x08 ∧
      (idtInit b.address (.ofNat 8 v)).typeAttributes = 0x8E := by
    rcases idtInit_cases b.address (.ofNat 8 v) with unset | ⟨selector, attributes, -⟩
    · change (idtInit b.address (.ofNat 8 v)).typeAttributes.getLsbD 7 = true at present
      rw [unset] at present
      contradiction
    · exact ⟨selector, attributes⟩
  have level : (0 = m.cpl) = (c.cs &&& 3 = 0) := by
    rw [same.cs, ← rpl_eq_zero, sound.code.1]
    exact propext eq_comm
  have masks : (b.tables.idt (.ofNat 8 v)).masks = true := by
    change ((idtInit b.address (.ofNat 8 v)).typeAttributes.extractLsb' 0 4 == 0xE) = true
    rw [set.2]
    decide
  constructor
  case rip => rfl
  case cs =>
    change (idtInit b.address (.ofNat 8 v)).selector =
      withRpl (idtInit b.address (.ofNat 8 v)).selector 0
    rw [set.1]
    decide
  case rflags =>
    change c.rflags &&& ~~~0x34300 = m.rflags &&& if _ then ~~~0x34300 else ~~~0x34100
    rw [same.rflags, if_pos masks]
  case rsp =>
    unfold deliver Processor.interrupt
    simp only [level]
    rw [pushWords_rsp, Cpu.setReg_self, same.rsp]
  case ss =>
    unfold deliver Processor.interrupt
    simp only [level]
    rw [same.ss]
    rfl

/-- `iretq` with the frame on the stack is the processor's. -/
theorem iretq_iret {c : Context} {f : ReturnFrame} (fs : List ReturnFrame)
    (top : c.cpu.Top [f.rip, f.cs.setWidth 64, f.rflags, f.rsp, f.ss.setWidth 64]) :
    SameRegisters (iretq c) (.iret f fs) := by
  simp only [Cpu.Top, Cpu.WordsAt, BitVec.add_assoc, BitVec.reduceAdd, and_true] at top
  obtain ⟨rip, cs, rflags, rsp, ss⟩ := top
  have narrow (sel : BitVec 16) : (sel.setWidth 64).setWidth 16 = sel := by simp
  constructor
  case rip => exact rip
  case cs => exact (congrArg (BitVec.setWidth 16) cs).trans (narrow f.cs)
  case rflags => exact rflags
  case rsp =>
    change (c.cpu.setReg .rsp _).regs .rsp = f.rsp
    rw [Cpu.setReg_self]
    exact rsp
  case ss => exact (congrArg (BitVec.setWidth 16) ss).trans (narrow f.ss)

/-! ## Runs -/

/-- The segments of the kernel and of the user. -/
inductive Segments : Processor → Prop
  | kernel {m : Processor} (level : m.cpl = 0) (cs : m.cs = 0x08) (ss : m.ss = 0x10 ∨ m.ss = 0) :
      Segments m
  | user {m : Processor} (level : m.cpl = 3) (cs : m.cs = 0x23) (ss : m.ss = 0x1B)
      (nothing : m.frames = []) : Segments m

/-- The kernel is entered at the stub of `syscall` or, with the stack of the task state, at one of
the stubs of the interrupts.  Interrupts are off, and the kernel has nothing but the user to return
to. -/
structure EntersKernel (b : BootPlaces) (m m' : Processor) : Prop where
  segments : m'.cpl = 0 ∧ m'.cs = 0x08
  place : m'.rip = b.entryStub ∨ (∃ stub, m'.rip = b.address stub) ∧
    m'.rsp = kernelSyscallStack b.stackPhys b.hhdmOffset &&& ~~~0xF
  masked : enabled m'.rflags = false
  frames : ∃ fast, m'.frames = [m.frame fast]

/-- With the tables of the boot, whatever user code and the devices do, the processor runs with the
segments of its level, user code gets into the kernel only at the kernel's stubs, and every return
of the kernel passes the processor's checks of the segments and of the address. -/
theorem userMode_confined (b : BootPlaces) {rip rflags rsp : BitVec 64} {es : List Event}
    {m : Processor} (kernel : Canonical rip)
    (run : Run (Step b.tables) (afterGdtFlush rip rflags rsp) es m) :
    Segments m ∧
      (∀ e m', Step b.tables m e m' → m.cpl = 3 → m'.cpl ≠ 3 → EntersKernel b m m') ∧
      ∀ f fs, m.frames = f :: fs →
        b.tables.MayReturn 0 f.cs ∧ b.tables.Stack (rpl f.cs) f.ss ∧ Canonical f.rip := by
  have tables := tables_sound b
  have start : Processor.Sound b.tables (afterGdtFlush rip rflags rsp) :=
    ⟨.inl rfl, (tables_segments b).1, (tables_segments b).2.1, kernel, fun h => absurd rfl h,
      trivial⟩
  obtain ⟨sound, enters, returns⟩ := run_confined tables start run
  refine ⟨?_, fun e m' step user left => ?_, returns⟩
  · have code := code_selector sound.code
    have stack := stack_selector sound.stack
    rcases sound.level with level | ⟨level, nothing⟩
    · rw [level] at code stack
      exact .kernel level (by simpa using code) (by simpa using stack)
    · rw [level] at code stack
      exact .user level (by simpa using code) (by simpa using stack) nothing
  · obtain ⟨place, masked, frames⟩ := enters e m' step user left
    have sound' := step_sound tables sound step
    have level : m'.cpl = 0 := sound'.level.resolve_right fun h => left h.1
    have code := code_selector sound'.code
    rw [level] at code
    refine ⟨⟨level, by simpa using code⟩, ?_, masked, frames⟩
    rcases place with entry | ⟨v, present, rip, rsp⟩
    · exact .inl (entry.trans (wrmsr_eq b.entryStub))
    · refine .inr ⟨?_, by rw [rsp, levelStack_zero]⟩
      rcases idtInit_cases b.address v with unset | ⟨-, -, stub, offset⟩
      · change (idtInit b.address v).typeAttributes.getLsbD 7 = true at present
        rw [unset] at present
        contradiction
      · exact ⟨stub, rip.trans offset⟩

/-- Stubs in the upper half, and the page allocator's answer at 1 MiB. -/
def examplePlaces : BootPlaces where
  address
    | .isr n => 0xFFFFFFFF80001000 + 16 * .ofNat 64 n
    | .irq n => 0xFFFFFFFF80002000 + 16 * .ofNat 64 n
  address_canonical := by
    intro stub
    cases stub with
    | isr n => revert n; decide
    | irq n => revert n; decide
  tssBase := 0xFFFFFFFF80105060
  hhdmOffset := 0xFFFF800000000000
  stackPhys := 0x100000
  entryStub := 0xFFFFFFFF80003000
  entryStub_canonical := by decide
  msrs := ⟨0x500, 0, 0, 0⟩
  elsewhere := fun _ => 0

/-- The kernel enters user mode and a system call enters the kernel. -/
theorem userMode_confined_example : ∃ m m',
    Run (Step examplePlaces.tables) (afterGdtFlush 0xFFFFFFFF80000000 0x2 0x8000)
        [.enter 0x23 0x1B] m ∧
      Step examplePlaces.tables m .syscall m' ∧ Segments m ∧ EntersKernel examplePlaces m m' := by
  obtain ⟨-, -, userCode, userData⟩ := tables_segments examplePlaces
  have enter : Step examplePlaces.tables (afterGdtFlush 0xFFFFFFFF80000000 0x2 0x8000)
      (.enter 0x23 0x1B) ⟨3, 0x23, 0x1B, 0x400000, 0x202, 0x7FFFFFFFEFF0, []⟩ :=
    .enter 0x400000 0x7FFFFFFFEFF0 0x202 rfl rfl userCode.mayReturn userData (by decide)
  have call : Step examplePlaces.tables ⟨3, 0x23, 0x1B, 0x400000, 0x202, 0x7FFFFFFFEFF0, []⟩
      .syscall _ := .syscall rfl
  have run := Run.cons enter (.nil _)
  obtain ⟨segments, enters, -⟩ := userMode_confined examplePlaces (by decide) run
  exact ⟨_, _, run, call, segments, enters _ _ call rfl (by decide)⟩

end ChefOs
