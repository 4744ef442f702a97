import ChefOs.Fs.Tree
import ChefOs.Sys.Syscall

/-!
# Descriptors of system calls

`SYS_OPEN` returns descriptors of the file table, and `SYS_READ` and `SYS_WRITE` know the three of
the console only.
-/

namespace ChefOs

open Kit

/-! ## Descriptors -/

/-- The descriptors that are open after `SYS_OPEN` returned them, with the nodes they are for. -/
@[ext] structure UserSession where
  kernel : Kernel
  handed : List (ℤ × ℕ)

/-- The descriptors after a system call. -/
def UserSession.record (c : Syscall) (value : ℤ) (x : UserSession) : List (ℤ × ℕ) :=
  if c.num = sysOpen then
    match (vfsLookup c.path x.kernel.fs).join with
    | some node => if 0 ≤ value then (value, node) :: x.handed else x.handed
    | none => x.handed
  else if c.num = sysClose then x.handed.filter fun d => d.1 ≠ c.fd
  else x.handed

/-- A system call, with the descriptors. -/
def SyscallStep (font : Font) (x : UserSession) (c : Syscall) (y : UserSession) : Prop :=
  ∃ value buf, syscallDispatch font c x.kernel = some (value, buf, y.kernel) ∧
    y.handed = x.record c value

/-- What `SYS_READ` does if it is `vfs_read`. -/
def asVfsRead (c : Syscall) (s : Kernel) : Option SyscallResult :=
  (vfsRead c.fd (c.buf.map some) c.a3.toNat s.fs).map fun r => (r.1, r.2.1, { s with fs := r.2.2 })

/-- What `SYS_WRITE` does if it is `vfs_write`. -/
def asVfsWrite (c : Syscall) (s : Kernel) : Option SyscallResult :=
  (vfsWrite c.fd c.buf c.a3.toNat s.fs).map fun r => c.returns r.1 { s with fs := r.2 }

/-- A descriptor is for a node, and the system calls on it are those of the file system. -/
structure ActsOn (font : Font) (s : Kernel) (fd : ℤ) (node : ℕ) : Prop where
  node : (fdNode fd s.fs).map Prod.snd = some node
  free : fd ≠ 0 ∧ fd ≠ 1 ∧ fd ≠ 2
  read : ∀ c : Syscall, c.num = sysRead → c.fd = fd →
    syscallDispatch font c s = asVfsRead c s
  write : ∀ c : Syscall, c.num = sysWrite → c.fd = fd →
    syscallDispatch font c s = asVfsWrite c s

/-- The descriptors agree with the file system. -/
def Agree (font : Font) (x : UserSession) : Prop := ∀ d ∈ x.handed, ActsOn font x.kernel d.1 d.2

/-- A system call after which the descriptors agree with the file system. -/
def AgreeingStep (font : Font) (x : UserSession) (c : Syscall) (y : UserSession) : Prop :=
  SyscallStep font x c y ∧ Agree font y

/-- A node that can be neither read nor written. -/
def Inert (s : Fs) (node : ℕ) : Prop :=
  ∃ e, s.nodes[node]? = some e ∧ e.read = none ∧ e.write = none

/-- The slots of the descriptors 0, 1 and 2 are in use. -/
def ConsoleTaken (s : Fs) : Prop := ∀ i : Fin 64, i < 3 → (s.sFdTable i).node.isSome

/-- A system call that opens nothing, or a node that can be neither read nor written while the
descriptors of the console are in use. -/
def SyscallGuard (x : UserSession) (c : Syscall) : Prop :=
  c.num = sysOpen → ∀ node, vfsLookup c.path x.kernel.fs = some (some node) →
    (∀ i, (x.kernel.fs.sFdTable i).node.isSome) ∨ ConsoleTaken x.kernel.fs ∧ Inert x.kernel.fs node

/-- A guarded system call. -/
def GuardedCall (font : Font) (x : UserSession) (c : Syscall) (y : UserSession) : Prop :=
  SyscallStep font x c y ∧ SyscallGuard x c

/-! ## The file table -/

theorem fdNode_eq_some {fd : ℤ} {s : Fs} {i : Fin 64} {node : ℕ} :
    fdNode fd s = some (i, node) ↔ fdSlot fd = some i ∧ (s.sFdTable i).node = some node := by
  simp [fdNode, Option.bind_eq_some_iff]

theorem fdSlot_eq_some {fd : ℤ} {i : Fin 64} : fdSlot fd = some i ↔ fd = i.val := by
  unfold fdSlot
  constructor
  · intro h
    split at h
    · rw [← Option.some.inj h]
      dsimp only
      omega
    · contradiction
  · rintro rfl
    rw [dif_pos (by omega)]
    rfl

theorem Fs.setFd_self (s : Fs) (i : Fin 64) (d : FileDesc) : (s.setFd i d).sFdTable i = d :=
  Function.update_self ..

theorem Fs.setFd_of_ne {i j : Fin 64} (ne : j ≠ i) (s : Fs) (d : FileDesc) :
    (s.setFd i d).sFdTable j = s.sFdTable j :=
  Function.update_of_ne ne ..

/-- The loop of `vfs_open` finds the first free slot. -/
theorem find_slot {s : Fs} {i : Fin 64}
    (found : (List.finRange 64).find? (fun i => (s.sFdTable i).node.isNone) = some i) :
    (s.sFdTable i).node = none ∧ ∀ j < i, (s.sFdTable j).node.isSome := by
  obtain ⟨free, before, after, split, taken⟩ := List.find?_eq_some_iff_append.mp found
  refine ⟨Option.isNone_iff_eq_none.mp free, fun j lt => ?_⟩
  have sorted := List.pairwise_lt_finRange 64
  rw [split, List.pairwise_append, List.pairwise_cons] at sorted
  have mem : j ∈ before ++ i :: after := split ▸ List.mem_finRange j
  rcases List.mem_append.mp mem with earlier | later
  · have := taken j earlier
    simpa [Option.isSome_iff_ne_none] using this
  · rcases List.mem_cons.mp later with rfl | later
    · exact absurd lt (lt_irrefl j)
    · exact absurd lt (lt_asymm (sorted.2.1.1 j later))

/-- `vfs_open` fails, or it takes the first free slot for the node. -/
theorem vfsOpen_cases {path : Option (List UInt8)} {flags value : ℤ} {s t : Fs}
    (call : vfsOpen path flags s = some (value, t)) :
    (value = -1 ∧ t = s ∧
        (vfsLookup path s = some none ∨ ∀ i, (s.sFdTable i).node.isSome)) ∨
      ∃ (node : ℕ) (i : Fin 64), vfsLookup path s = some (some node) ∧
        (s.sFdTable i).node = none ∧ (∀ j < i, (s.sFdTable j).node.isSome) ∧
        value = i.val ∧ t = s.setFd i ⟨some node, 0, flags⟩ := by
  unfold vfsOpen at call
  cases lookup : vfsLookup path s with
  | none => simp [lookup] at call
  | some node =>
    rw [lookup, Option.bind_eq_bind, Option.bind_some] at call
    cases node with
    | none =>
      obtain ⟨rfl, rfl⟩ := call
      exact Or.inl ⟨rfl, rfl, Or.inl rfl⟩
    | some node =>
      dsimp only at call
      split at call
      case h_1 i found =>
        obtain ⟨rfl, rfl⟩ := call
        obtain ⟨free, taken⟩ := find_slot found
        exact Or.inr ⟨node, i, rfl, free, taken, rfl, rfl⟩
      case h_2 full =>
        obtain ⟨rfl, rfl⟩ := call
        refine Or.inl ⟨rfl, rfl, Or.inr fun i => ?_⟩
        have := List.find?_eq_none.mp full i (List.mem_finRange i)
        simpa [Option.isSome_iff_ne_none] using this

/-- `vfs_close` frees the slot. -/
theorem vfsClose_slot (fd : ℤ) (s : Fs) (i : Fin 64) :
    ((vfsClose fd s).sFdTable i).node = if fd = i.val then none else (s.sFdTable i).node := by
  unfold vfsClose
  split
  case h_1 closed =>
    split
    case isTrue here =>
      by_contra open'
      obtain ⟨node, slot⟩ := Option.ne_none_iff_exists'.mp open'
      rw [fdNode_eq_some.mpr ⟨fdSlot_eq_some.mpr here, slot⟩] at closed
      contradiction
    case isFalse => rfl
  case h_2 j node opened =>
    obtain ⟨slot, -⟩ := fdNode_eq_some.mp opened
    rw [fdSlot_eq_some] at slot
    by_cases same : i = j
    · rw [same, Fs.setFd_self, if_pos slot]
    · rw [Fs.setFd_of_ne same, if_neg (by omega)]

theorem vfsClose_nodes (fd : ℤ) (s : Fs) : (vfsClose fd s).nodes = s.nodes := by
  unfold vfsClose
  split <;> rfl

/-! ## Runs -/

/-- A descriptor of a node that can be neither read nor written, beyond those of the console. -/
structure Handed (s : Fs) (fd : ℤ) (node : ℕ) : Prop where
  beyond : 3 ≤ fd
  slot : ∃ i : Fin 64, fd = i.val ∧ (s.sFdTable i).node = some node
  inert : Inert s node

/-- On such a descriptor the calls fail, as those of the file system do. -/
theorem Handed.actsOn {s : Kernel} {fd : ℤ} {node : ℕ} (handed : Handed s.fs fd node)
    (font : Font) : ActsOn font s fd node := by
  obtain ⟨beyond, ⟨i, hfd, slot⟩, e, he, read, write⟩ := handed
  have opened : fdNode fd s.fs = some (i, node) :=
    fdNode_eq_some.mpr ⟨fdSlot_eq_some.mpr hfd, slot⟩
  constructor
  case node => rw [opened, Option.map_some]
  case free => omega
  case read =>
    intro c num hc
    rw [syscallDispatch_read font s num, dispatchRead, if_neg (by omega), asVfsRead, vfsRead, hc,
      opened]
    simp only [he, Option.bind_eq_bind, Option.bind_some, read]
    rfl
  case write =>
    intro c num hc
    rw [syscallDispatch_write font s num, dispatchWrite, if_neg (by omega), asVfsWrite, vfsWrite,
      hc, opened]
    simp only [he, Option.bind_eq_bind, Option.bind_some, write]
    rfl

/-- A change of other slots keeps the descriptor. -/
theorem Handed.congr {s t : Fs} {fd : ℤ} {node : ℕ} (handed : Handed s fd node)
    (nodes : t.nodes = s.nodes)
    (slots : ∀ i : Fin 64, fd = i.val → (t.sFdTable i).node = (s.sFdTable i).node) :
    Handed t fd node := by
  obtain ⟨beyond, ⟨i, hfd, slot⟩, inert⟩ := handed
  refine ⟨beyond, ⟨i, hfd, (slots i hfd).trans slot⟩, ?_⟩
  unfold Inert
  rw [nodes]
  exact inert

/-- All descriptors that were handed out are such. -/
def AllHanded (x : UserSession) : Prop := ∀ d ∈ x.handed, Handed x.kernel.fs d.1 d.2

/-- `SYS_OPEN` hands out nothing, or the first free descriptor for the node. -/
theorem openStep_cases {font : Font} {x y : UserSession} {c : Syscall} (num : c.num = sysOpen)
    (step : SyscallStep font x c y) :
    (y = x ∧ (vfsLookup c.path x.kernel.fs = some none ∨
        ∀ i, (x.kernel.fs.sFdTable i).node.isSome)) ∨
      ∃ (node : ℕ) (i : Fin 64), vfsLookup c.path x.kernel.fs = some (some node) ∧
        (x.kernel.fs.sFdTable i).node = none ∧ (∀ j < i, (x.kernel.fs.sFdTable j).node.isSome) ∧
        y.kernel.fs = x.kernel.fs.setFd i ⟨some node, 0, c.flags⟩ ∧
        y.handed = ((i.val : ℤ), node) :: x.handed := by
  obtain ⟨value, buf, call, handed⟩ := step
  rw [syscallDispatch_open _ _ num] at call
  obtain ⟨⟨value', t⟩, opened, call⟩ := Option.map_eq_some_iff.mp call
  simp only [Syscall.returns, Prod.mk.injEq] at call
  obtain ⟨rfl, -, kernel⟩ := call
  unfold UserSession.record at handed
  rw [if_pos num] at handed
  rcases vfsOpen_cases opened with ⟨rfl, rfl, why⟩ | ⟨node, i, lookup, free, taken, rfl, rfl⟩
  · have same : y.handed = x.handed := by
      rw [handed]
      split <;> rfl
    exact Or.inl ⟨UserSession.ext kernel.symm same, why⟩
  · refine Or.inr ⟨node, i, lookup, free, taken, by rw [← kernel], ?_⟩
    rw [handed, lookup, Option.join_some]
    exact if_pos (by omega)

/-- Opening a node that can be neither read nor written, beyond the console. -/
theorem open_allHanded {font : Font} {x y : UserSession} {c : Syscall} (num : c.num = sysOpen)
    (step : SyscallStep font x c y) (guard : SyscallGuard x c) (all : AllHanded x) :
    AllHanded y := by
  rcases openStep_cases num step with ⟨rfl, -⟩ | ⟨node, i, lookup, free, taken, files, handed⟩
  · exact all
  · have inert : ConsoleTaken x.kernel.fs ∧ Inert x.kernel.fs node := by
      rcases guard num node lookup with full | inert
      · have := full i
        rw [free] at this
        contradiction
      · exact inert
    unfold AllHanded
    rw [files, handed]
    intro d hd
    rcases List.mem_cons.mp hd with rfl | hd
    · refine ⟨?_, ⟨i, rfl, congrArg FileDesc.node (Fs.setFd_self ..)⟩, inert.2⟩
      by_contra below
      have := inert.1 i (by omega)
      rw [free] at this
      contradiction
    · refine (all d hd).congr rfl fun j hj => ?_
      obtain ⟨k, hk, slot⟩ := (all d hd).slot
      obtain rfl : j = k := by omega
      have ne : j ≠ i := by
        rintro rfl
        rw [free] at slot
        contradiction
      exact congrArg FileDesc.node (Fs.setFd_of_ne ne ..)

/-- A guarded system call leaves descriptors that agree with the file system. -/
theorem guardedCall_agrees {font : Font} {x y : UserSession} {c : Syscall} (all : AllHanded x)
    (guarded : GuardedCall font x c y) : AllHanded y ∧ AgreeingStep font x c y := by
  obtain ⟨step, guard⟩ := guarded
  have next : AllHanded y := by
    by_cases isOpen : c.num = sysOpen
    · exact open_allHanded isOpen step guard all
    · obtain ⟨value, buf, call, handed⟩ := step
      unfold UserSession.record at handed
      rw [if_neg isOpen] at handed
      by_cases isClose : c.num = sysClose
      · rw [if_pos isClose] at handed
        rw [syscallDispatch_close _ _ isClose] at call
        simp only [Syscall.returns, Option.some.injEq, Prod.mk.injEq] at call
        obtain ⟨-, -, kernel⟩ := call
        unfold AllHanded
        rw [handed, ← kernel]
        intro d hd
        obtain ⟨hd, ne⟩ := List.mem_filter.mp hd
        refine (all d hd).congr (vfsClose_nodes ..) fun i hi => ?_
        rw [vfsClose_slot, if_neg]
        rw [← hi]
        exact fun same => of_decide_eq_true ne same.symm
      · rw [if_neg isClose] at handed
        obtain ⟨nodes, slots⟩ := syscallDispatch_sameFiles isOpen isClose call
        unfold AllHanded
        rw [handed]
        exact fun d hd => (all d hd).congr nodes fun i _ => by rw [slots]
  exact ⟨next, step, fun d hd => (next d hd).actsOn font⟩

/-! ## What agreement needs -/

/-- A read of zero bytes at the start of a file does not fail. -/
theorem callRead_zero {f : ReadFn} {node : ℕ} {s t : Fs} {value : ℤ} {buf : List (Option UInt8)}
    (call : callRead f node 0 0 [] s = some (value, buf, t)) : value = 0 := by
  cases f with
  | ramfsRead =>
    obtain ⟨r, read, hr⟩ := Option.map_eq_some_iff.mp call
    simp only [ramfsRead, Option.bind_eq_bind, Option.bind_eq_some_iff] at read
    obtain ⟨e, he, read⟩ := read
    have zero : r.1 = 0 := by
      split at read
      · exact (congrArg Prod.fst (Option.some.inj read)).symm
      · have small : ¬ u64 (0 + 0) > e.length := Nat.not_lt_zero _
        rw [if_neg small] at read
        exact (congrArg Prod.fst (Option.some.inj read)).symm
    rw [← zero]
    exact (congrArg Prod.fst hr).symm
  | devZeroRead => exact (congrArg Prod.fst (Option.some.inj call)).symm
  | devKbdRead => exact (congrArg Prod.fst (Option.some.inj call)).symm

/-- Nor does a write. -/
theorem callWrite_zero {f : WriteFn} {node : ℕ} {s t : Fs} {value : ℤ}
    (call : callWrite f node 0 0 [] s = some (value, t)) : value = 0 := by
  cases f with
  | ramfsWrite =>
    simp only [callWrite, ramfsWrite, ramfsGrow, Option.bind_eq_bind, Option.bind_eq_some_iff]
      at call
    obtain ⟨e, -, grown, -, data, -, call⟩ := call
    exact (congrArg Prod.fst (Option.some.inj call)).symm
  | devSerialWrite => exact (congrArg Prod.fst (Option.some.inj call)).symm
  | devNullWrite => exact (congrArg Prod.fst (Option.some.inj call)).symm

/-- If `vfs_read` of zero bytes at the start of a file fails, the node cannot be read. -/
theorem vfsRead_zero {fd : ℤ} {s t : Fs} {i : Fin 64} {node : ℕ} {buf : List (Option UInt8)}
    (opened : fdNode fd s = some (i, node)) (start : (s.sFdTable i).offset = 0)
    (call : vfsRead fd [] 0 s = some (-1, buf, t)) :
    ∃ e, s.nodes[node]? = some e ∧ e.read = none := by
  unfold vfsRead at call
  simp only [opened, Option.bind_eq_bind, Option.bind_eq_some_iff] at call
  obtain ⟨e, he, call⟩ := call
  refine ⟨e, he, ?_⟩
  cases read : e.read with
  | none => rfl
  | some f =>
    simp only [read, start, Option.bind_eq_some_iff] at call
    obtain ⟨⟨bytes, buf', t'⟩, called, call⟩ := call
    have minus : bytes = -1 := congrArg Prod.fst (Option.some.inj call)
    have zero := callRead_zero called
    omega

/-- If `vfs_write` of zero bytes at the start of a file fails, the node cannot be written. -/
theorem vfsWrite_zero {fd : ℤ} {s t : Fs} {i : Fin 64} {node : ℕ}
    (opened : fdNode fd s = some (i, node)) (start : (s.sFdTable i).offset = 0)
    (call : vfsWrite fd [] 0 s = some (-1, t)) :
    ∃ e, s.nodes[node]? = some e ∧ e.write = none := by
  unfold vfsWrite at call
  simp only [opened, Option.bind_eq_bind, Option.bind_eq_some_iff] at call
  obtain ⟨e, he, call⟩ := call
  refine ⟨e, he, ?_⟩
  cases write : e.write with
  | none => rfl
  | some f =>
    simp only [write, start, Option.bind_eq_some_iff] at call
    obtain ⟨⟨bytes, t'⟩, called, call⟩ := call
    have minus : bytes = -1 := congrArg Prod.fst (Option.some.inj call)
    have zero := callWrite_zero called
    omega

/-- The system call with this number, for no bytes. -/
def emptyCall (num : BitVec 64) (i : Fin 64) : Syscall where
  num := num
  a1 := .ofNat 64 i
  a2 := 0
  a3 := 0
  a4 := 0
  a5 := 0
  a6 := 0
  path := none
  buf := []

theorem toInt_slot : ∀ i : Fin 64, ((BitVec.ofNat 64 i).setWidth 32).toInt = i.val := by
  decide

theorem emptyCall_fd (num : BitVec 64) (i : Fin 64) : (emptyCall num i).fd = i.val :=
  toInt_slot i

/-- Agreement on a descriptor that was just opened needs a node that can be neither read nor
written. -/
theorem ActsOn.inert {font : Font} {s : Kernel} {i : Fin 64} {node : ℕ}
    (acts : ActsOn font s i.val node) (start : (s.fs.sFdTable i).offset = 0) :
    Inert s.fs node := by
  obtain ⟨hnode, ⟨ne0, ne1, ne2⟩, read, write⟩ := acts
  obtain ⟨⟨j, n⟩, opened, rfl⟩ := Option.map_eq_some_iff.mp hnode
  obtain rfl : i = j := by
    have := fdSlot_eq_some.mp (fdNode_eq_some.mp opened).1
    omega
  have hread := read (emptyCall sysRead i) rfl (emptyCall_fd ..)
  have hwrite := write (emptyCall sysWrite i) rfl (emptyCall_fd ..)
  rw [syscallDispatch_read font s rfl, dispatchRead, emptyCall_fd, if_neg (by omega), asVfsRead,
    emptyCall_fd] at hread
  rw [syscallDispatch_write font s rfl, dispatchWrite, emptyCall_fd, if_neg (by omega), asVfsWrite,
    emptyCall_fd] at hwrite
  obtain ⟨⟨value, buf, t⟩, failed, hr⟩ := Option.map_eq_some_iff.mp hread.symm
  obtain ⟨⟨value', t'⟩, failed', hr'⟩ := Option.map_eq_some_iff.mp hwrite.symm
  obtain rfl : value = -1 := congrArg Prod.fst hr
  obtain rfl : value' = -1 := congrArg Prod.fst hr'
  obtain ⟨e, he, unreadable⟩ := vfsRead_zero opened start failed
  obtain ⟨e', he', unwritable⟩ := vfsWrite_zero opened start failed'
  obtain rfl := Option.some.inj (he.symm.trans he')
  exact ⟨e, he, unreadable, unwritable⟩

/-- A system call that leaves descriptors that agree with the file system is guarded. -/
theorem agreeingStep_guarded {font : Font} {x y : UserSession} {c : Syscall}
    (step : AgreeingStep font x c y) : GuardedCall font x c y := by
  obtain ⟨step, agree⟩ := step
  refine ⟨step, fun num node lookup => ?_⟩
  rcases openStep_cases num step with
    ⟨-, missing | full⟩ | ⟨node', i, lookup', free, taken, files, handed⟩
  · rw [missing] at lookup
    cases lookup
  · exact Or.inl full
  · obtain rfl : node' = node := by
      rw [lookup'] at lookup
      exact Option.some.inj (Option.some.inj lookup)
    have acts : ActsOn font y.kernel i.val node' :=
      agree (i.val, node') (handed ▸ List.mem_cons_self)
    have inert := acts.inert (by rw [files, Fs.setFd_self])
    obtain ⟨ne0, ne1, ne2⟩ := acts.free
    refine Or.inr ⟨fun j hj => taken j (by omega), ?_⟩
    unfold Inert at inert
    rwa [files] at inert

/-- In a run the descriptors that `SYS_OPEN` returns agree with the file system, after every call,
if and only if every `SYS_OPEN` of the run opens nothing, or a node that can be neither read nor
written while the descriptors of the console are in use. -/
theorem agreeingRun_iff (font : Font) (kernel : Kernel) {calls : List Syscall} {y : UserSession} :
    Run (AgreeingStep font) ⟨kernel, []⟩ calls y ↔ Run (GuardedCall font) ⟨kernel, []⟩ calls y := by
  apply Run.iff_of_step_iff (I := AllHanded)
  · intro x c y all
    exact ⟨agreeingStep_guarded, fun guarded => (guardedCall_agrees all guarded).2⟩
  · intro x c y all agreeing
    exact (guardedCall_agrees all (agreeingStep_guarded agreeing)).1
  · simp [AllHanded]

/-- A screen without pixels. -/
def noScreen : FbInfo where
  frontbuffer := none
  backbuffer _ := 0
  width := 0
  height := 0
  pitch := 0
  cursorX := 0
  cursorY := 0
  fgColor := colorText

/-- `SYS_OPEN` of the file `/f`. -/
def openCall : Syscall where
  num := sysOpen
  a1 := 0x400100
  a2 := 0
  a3 := 0
  a4 := 0
  a5 := 0
  a6 := 0
  path := some (cString ['/', 'f'])
  buf := []

/-- The first file that a program opens gets the number of the keyboard. -/
theorem file_is_keyboard : ∃ s y, bootTree [.createFile 0 [0x66] (some [0x61]) 1] = some s ∧
    Run (SyscallStep fun _ _ => 0) ⟨⟨s, noScreen⟩, []⟩ [openCall] y ∧
    ¬ Agree (fun _ _ => 0) y := by
  have outcome : (bootTree [.createFile 0 [0x66] (some [0x61]) 1]).bind (fun s =>
      (vfsLookup openCall.path s).bind fun node => (vfsOpen openCall.path 0 s).map fun r =>
        (node, r.1)) = some (some 1, 0) := by decide +kernel
  simp only [Option.bind_eq_some_iff, Option.map_eq_some_iff, Prod.mk.injEq] at outcome
  obtain ⟨s, boot, node, lookup, ⟨value, t⟩, opened, rfl, rfl⟩ := outcome
  have call : syscallDispatch (fun _ _ => 0) openCall ⟨s, noScreen⟩ =
      some (openCall.returns 0 ⟨t, noScreen⟩) := by
    have flags : openCall.flags = 0 := by decide
    rw [syscallDispatch_open _ _ rfl, dispatchOpen, flags, opened, Option.map_some]
  have step : SyscallStep (fun _ _ => 0) ⟨⟨s, noScreen⟩, []⟩ openCall
      ⟨⟨t, noScreen⟩, [(0, 1)]⟩ := by
    refine ⟨0, [], call, ?_⟩
    have num : openCall.num = sysOpen := rfl
    rw [UserSession.record, if_pos num, lookup]
    rfl
  exact ⟨s, _, boot, .cons step (.nil _), fun agree =>
    (agree (0, 1) List.mem_cons_self).free.1 rfl⟩

end ChefOs
