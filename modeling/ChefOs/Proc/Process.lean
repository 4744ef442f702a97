import ChefOs.CString.Strings
import ChefOs.Lib.Blocks
import ChefOs.Lib.Linked
import ChefOs.Lib.Run
import ChefOs.Sys.Formats
import ChefOs.User.Shell

/-!
# Processes and services

`proc/process.c` and `proc/init.c`.  Processes are kept by address, on a heap that others use as
well; `ps` prints them from the newest to the oldest.
-/

namespace ChefOs

open Kit

/-- `proc_state_t`. -/
inductive ProcState
  | ready
  | running
  | sleeping
  | zombie
  | stopped
deriving DecidableEq, Repr

/-- `process_t`; the name has 32 bytes. -/
structure Process where
  pid : BitVec 32
  ppid : BitVec 32
  name : List UInt8
  state : ProcState
  memoryUsed : BitVec 64
  next : Option ℕ

/-- What `kzalloc` returns for a process. -/
def zeroProcess : Process := ⟨0, 0, List.replicate 32 0, .ready, 0, none⟩

/-- `sizeof(process_t)`. -/
def sizeofProcess : ℕ := 64

/-- The processes and the static variables of `process.c`. -/
structure ProcTable where
  processes : ℕ → Process
  sProcList : Option ℕ
  sNextPid : BitVec 32

/-- `process_init`. -/
def processInit (s : ProcTable) : ProcTable := { s with sProcList := none, sNextPid := 1 }

/-- `process_create`, with `p` the answer of `kzalloc`. -/
def processCreate (name : List UInt8) (ppid : BitVec 32) (p : Option ℕ) (s : ProcTable) :
    Option (ℕ × ProcTable) := do
  let p ← p
  let pid := s.sNextPid
  let name ← strncpy zeroProcess.name name 31
  let process := { zeroProcess with
    pid, ppid, state := .running, memoryUsed := 16 * 1024, name, next := s.sProcList }
  return (p, ⟨Function.update s.processes p process, some p, pid + 1⟩)

/-! ## Listing -/

/-- `kprintf` of `"  #%d (ppid %d) [%s] %d KB : %s\n"`, of a process. -/
def Process.row (p : Process) : List UInt8 :=
  let stateStr := if p.state = .running then text "RUNNING" else text "READY"
  text "  #" ++ digits10 p.pid.toNat ++ text " (ppid " ++ digits10 p.ppid.toNat ++ text ") [" ++
    stateStr ++ text "] " ++ digits10 ((p.memoryUsed / 1024).setWidth 32).toNat ++ text " KB : " ++
    cstr p.name ++ text "\n"

/-- The two lines above the rows. -/
def Kernel.processHeader (font : Font) (k : Kernel) : Kernel :=
  let k := k.print font (text "  PID   PPID  STATE     MEMORY    NAME\n")
  k.print font (text "  -------------------------------------------\n")

/-- `process_list`. -/
def processList (font : Font) (fuel : ℕ) (s : ProcTable) (k : Kernel) : Option Kernel :=
  walk (fun p => (s.processes p).next) (fun k p => k.print font (s.processes p).row) fuel
    s.sProcList (k.processHeader font)

/-! ## Services -/

/-- `service_t`. -/
structure Service where
  name : List UInt8
  description : List UInt8
  pid : BitVec 32
  active : Bool

/-- `s_services`. -/
def sServices : List Service :=
  [⟨text "klogd" ++ [0], text "Kernel System Logging Daemon" ++ [0], 0, false⟩,
    ⟨text "compositor" ++ [0], text "Chef Native 2D Surface Compositor" ++ [0], 0, false⟩,
    ⟨text "chef-sh" ++ [0], text "Interactive Parchment Shell" ++ [0], 0, false⟩]

/-- The processes, and the calls to the heap. -/
structure ProcWorld where
  table : ProcTable
  log : List HeapEvent

/-- `process_create` on the heap. -/
def ProcWorld.create (heap : Allocator) (name : List UInt8) (ppid : BitVec 32) (w : ProcWorld) :
    Option (ℕ × ProcWorld) :=
  let answer := heap.result w.log sizeofProcess
  (processCreate name ppid answer w.table).map fun (p, table) =>
    (p, ⟨table, .alloc answer :: w.log⟩)

/-- The loop of `init_system_boot`. -/
def startServices (heap : Allocator) : List Service → ProcWorld → Option (List Service × ProcWorld)
  | [], w => some ([], w)
  | service :: services, w => do
    let (svcProc, w) ← w.create heap service.name 1
    let (started, w') ← startServices heap services w
    return ({ service with pid := (w.table.processes svcProc).pid, active := true } :: started, w')

/-- `init_system_boot`. -/
def initSystemBoot (heap : Allocator) (w : ProcWorld) : Option (List Service × ProcWorld) := do
  let (_, w) ← w.create heap (text "init" ++ [0]) 0
  startServices heap sServices w

/-- `kprintf` of `"  %s (%d) [%s] - %s\n"`, of a service. -/
def Service.row (s : Service) : List UInt8 :=
  let status := if s.active then text "ACTIVE  " else text "INACTIVE"
  text "  " ++ cstr s.name ++ text " (" ++ digits10 s.pid.toNat ++ text ") [" ++ status ++
    text "] - " ++ cstr s.description ++ text "\n"

/-- `init_list_services`. -/
def initListServices (font : Font) (services : List Service) (k : Kernel) : Kernel :=
  let k := k.print font (text "  SERVICE       PID    STATUS    DESCRIPTION\n")
  let k := k.print font (text "  --------------------------------------------------------\n")
  services.foldl (fun k s => k.print font s.row) k

/-! ## Runs -/

/-- What is known of a process. -/
structure ProcEntry where
  pid : BitVec 32
  ppid : BitVec 32
  name : List UInt8
deriving DecidableEq

/-- The row of a process that was created as the entry says. -/
def ProcEntry.row (e : ProcEntry) : List UInt8 :=
  text "  #" ++ digits10 e.pid.toNat ++ text " (ppid " ++ digits10 e.ppid.toNat ++
    text ") [RUNNING] 16 KB : " ++ e.name ++ text "\n"

/-- A call of `process_create`, or a call to the heap of somebody else. -/
inductive ProcEvent
  | create (name : List UInt8) (ppid : BitVec 32)
  | alloc (size : ℕ)
  | free (b : ℕ)
deriving DecidableEq

/-- The processes created by an event, the newest first; they are numbered from 1 on. -/
def entriesAfter (entries : List ProcEntry) : ProcEvent → List ProcEntry
  | .create name ppid => ⟨.ofNat 32 (entries.length + 1), ppid, (cstr name).take 31⟩ :: entries
  | _ => entries

/-- The steps of the processes and of the heap, with the blocks of the processes; nobody else
releases these. -/
inductive ProcStep (heap : Allocator) :
    ProcWorld × List ℕ → ProcEvent → ProcWorld × List ℕ → Prop
  | create {w w' : ProcWorld} {blocks : List ℕ} {name : List UInt8} {ppid : BitVec 32} {p : ℕ}
      (string : 0 ∈ name) (call : w.create heap name ppid = some (p, w')) :
      ProcStep heap (w, blocks) (.create name ppid) (w', p :: blocks)
  | alloc {w : ProcWorld} {blocks : List ℕ} {size : ℕ} :
      ProcStep heap (w, blocks) (.alloc size)
        ({ w with log := .alloc (heap.result w.log size) :: w.log }, blocks)
  | free {w : ProcWorld} {blocks : List ℕ} {b : ℕ} (other : b ∉ blocks) :
      ProcStep heap (w, blocks) (.free b) ({ w with log := .free b :: w.log }, blocks)

/-- What is known of a process that runs and has 16 kB. -/
def Process.entry (p : Process) : Option ProcEntry :=
  if p.state = .running ∧ p.memoryUsed = 16 * 1024 then some ⟨p.pid, p.ppid, cstr p.name⟩ else none

/-- The process list holds the entries. -/
structure ProcListed (entries : List ProcEntry) (c : ProcWorld × List ℕ) : Prop where
  linked : Linked (fun p => (c.1.table.processes p).next) c.1.table.sProcList c.2
  rows : c.2.map (fun p => (c.1.table.processes p).entry) = entries.map some
  held : ∀ p ∈ c.2, p ∈ held c.1.log
  next : c.1.table.sNextPid = .ofNat 32 (entries.length + 1)

section

variable {heap : Allocator} {w w' : ProcWorld} {name : List UInt8} {ppid : BitVec 32} {p : ℕ}
  {c c' : ProcWorld × List ℕ} {entries : List ProcEntry} {font : Font}

/-- What `process_create` does. -/
theorem create_cases (string : 0 ∈ name) (call : w.create heap name ppid = some (p, w')) :
    heap.result w.log sizeofProcess = some p ∧ ∃ name', cstr name' = (cstr name).take 31 ∧
      w' = ⟨⟨Function.update w.table.processes p
        ⟨w.table.sNextPid, ppid, name', .running, 16 * 1024, w.table.sProcList⟩,
          some p, w.table.sNextPid + 1⟩, .alloc (some p) :: w.log⟩ := by
  have room : 31 + 1 ≤ zeroProcess.name.length := by decide
  obtain ⟨front, b, copied, -, zero, text⟩ := strncpy_padded string room
  have hb : b = 0 := by
    rcases zero with hb | hb
    · exact hb
    · exact (Option.some.inj hb).symm
  rw [hb] at copied
  rw [ProcWorld.create] at call
  cases answer : heap.result w.log sizeofProcess with
  | none => simp [answer, processCreate] at call
  | some q =>
    simp only [answer, processCreate, Option.bind_eq_bind, Option.bind_some, copied,
      Option.map_some, Option.some.injEq, Prod.mk.injEq, Option.pure_def] at call
    obtain ⟨rfl, rfl⟩ := call
    exact ⟨rfl, _, text _, rfl⟩

/-- Every step keeps the list. -/
theorem procStep_listed {e : ProcEvent} (listed : ProcListed entries c)
    (step : ProcStep heap c e c') : ProcListed (entriesAfter entries e) c' := by
  obtain ⟨linked, rows, blocks, next⟩ := listed
  cases step with
  | @create w w' blocks' name ppid p string call =>
    obtain ⟨answer, name', text, rfl⟩ := create_cases string call
    have fresh : p ∉ blocks' := fun mem => heap.fresh _ _ _ answer (blocks p mem)
    have others : ∀ q ∈ blocks', Function.update w.table.processes p
        ⟨w.table.sNextPid, ppid, name', .running, 16 * 1024, w.table.sProcList⟩ q =
          w.table.processes q := fun q mem =>
      Function.update_of_ne (ne_of_mem_of_not_mem mem fresh) ..
    constructor
    · apply Linked.cons
      simp only [Function.update_self]
      exact linked.congr fun q mem => congrArg Process.next (others q mem)
    · refine congrArg₂ List.cons ?_ (Eq.trans ?_ rows)
      · simpa [Process.entry, text] using next
      · exact List.map_congr_left fun q mem => congrArg Process.entry (others q mem)
    · intro q mem
      rcases List.mem_cons.mp mem with rfl | mem
      · exact List.mem_cons_self
      · exact List.mem_cons_of_mem _ (blocks q mem)
    · simp only [entriesAfter, List.length_cons]
      rw [BitVec.ofNat_add, ← next]
      rfl
  | @alloc w blocks' size =>
    refine ⟨linked, rows, fun q mem => ?_, next⟩
    cases heap.result w.log size with
    | none => exact blocks q mem
    | some b => exact List.mem_cons_of_mem b (blocks q mem)
  | @free w blocks' b other =>
    refine ⟨linked, rows, fun q mem => ?_, next⟩
    exact (List.mem_erase_of_ne (ne_of_mem_of_not_mem mem other)).mpr (blocks q mem)

/-- Every run keeps the list. -/
theorem procRun_listed {es : List ProcEvent} (run : Run (ProcStep heap) c es c')
    (listed : ProcListed entries c) : ProcListed (es.foldl entriesAfter entries) c' := by
  induction run generalizing entries with
  | nil c => exact listed
  | cons first _ ih => exact ih (procStep_listed listed first)

/-- The row of a listed process. -/
theorem row_of_entry {p : Process} {e : ProcEntry} (entry : p.entry = some e) : p.row = e.row := by
  unfold Process.entry at entry
  split_ifs at entry with known
  obtain rfl := Option.some.inj entry
  have kilobytes : digits10 (((16 * 1024 : BitVec 64) / 1024).setWidth 32).toNat = text "16" := by
    decide
  have words : text ") [" ++ text "RUNNING" ++ text "] " ++ text "16" ++ text " KB : " =
      text ") [RUNNING] 16 KB : " := by decide
  rw [Process.row, known.1, known.2, ProcEntry.row]
  simp only [if_true, kilobytes, ← words, List.append_assoc]

theorem rows_of_entries {ps : List Process} (known : ps.map Process.entry = entries.map some) :
    ps.map Process.row = entries.map ProcEntry.row := by
  induction ps generalizing entries with
  | nil =>
    have none : entries = [] := List.map_eq_nil_iff.mp known.symm
    rw [none]
    rfl
  | cons p ps ih =>
    cases entries with
    | nil => simp at known
    | cons e entries =>
      obtain ⟨first, later⟩ := List.cons.inj known
      rw [List.map_cons, List.map_cons, row_of_entry first, ih later]

/-- `ps` prints the rows of the entries. -/
theorem processList_ends (listed : ProcListed entries c) (k : Kernel) :
    Ends (fun fuel => processList font fuel c.1.table k)
      (entries.foldl (fun k e => k.print font e.row) (k.processHeader font)) := by
  obtain ⟨linked, rows, -⟩ := listed
  have ends := linked.walk (fun k p => k.print font (c.1.table.processes p).row)
    (k.processHeader font)
  have printed : (c.2.map c.1.table.processes).map Process.row = entries.map ProcEntry.row :=
    rows_of_entries ((List.map_map ..).trans rows)
  rw [List.map_map] at printed
  have same : c.2.foldl (fun k p => k.print font (c.1.table.processes p).row)
      (k.processHeader font) = (c.2.map (Process.row ∘ c.1.table.processes)).foldl
        (Kernel.print font) (k.processHeader font) := by
    rw [List.foldl_map]
    rfl
  rw [same, printed, List.foldl_map] at ends
  exact ends

theorem listed_processInit (processes : ℕ → Process) (log : List HeapEvent) :
    ProcListed [] (⟨processInit ⟨processes, none, 1⟩, log⟩, []) :=
  ⟨.nil, rfl, by simp, rfl⟩

/-! ## The format strings -/

section

variable (mem : BitVec 64 → List UInt8)

/-- `%d` of a 32-bit value, in whose slot the upper half is zero. -/
theorem kprintf_int (v : BitVec 32) (fmt : List UInt8) (args : List (BitVec 64)) (k : Kernel) :
    k.kprintf font mem (ascii '%' :: ascii 'd' :: fmt) (v.setWidth 64 :: args) =
      ((digits10 v.toNat).foldl (Kernel.printChar font) k).kprintf font mem fmt args := by
  have value : (v.setWidth 64).toInt = v.toNat := by
    have small := v.isLt
    rw [BitVec.toInt_eq_toNat_cond, BitVec.toNat_setWidth, Nat.mod_eq_of_lt (by omega)]
    split_ifs <;> omega
  have numeral : decimal.signed (ascii '-') (v.setWidth 64).toInt = digits10 v.toNat := by
    rw [value, Alphabet.signed, if_neg (Int.not_lt.mpr (Int.natCast_nonneg _)),
      Int.natAbs_natCast, digits10_eq]
  have call : conversion mem (ascii 'd') (v.setWidth 64 :: args) = _ :=
    conversion_signed (.inl rfl) (v.setWidth 64) args
  have plain : ascii '\n' ∉ digits10 v.toNat := by
    rw [← numeral]
    exact newline_notMem_signed _
  rw [numeral] at call
  rw [Kernel.kprintf_conversion font mem call, (SameText.plain plain).foldl_putcCall,
    screenOf_putBoth]

/-- `%s` of a string. -/
theorem kprintf_string {str : BitVec 64} (notNull : str ≠ 0) (terminated : 0 ∈ mem str)
    (fmt : List UInt8) (args : List (BitVec 64)) (k : Kernel) :
    k.kprintf font mem (ascii '%' :: ascii 's' :: fmt) (str :: args) =
      ((cstr (mem str)).foldl (Kernel.printChar font) k).kprintf font mem fmt args := by
  have call : conversion mem (ascii 's') (str :: args) = some (putsOut (cstr (mem str)), args) := by
    change (printString mem str).map _ = _
    rw [printString_eq notNull terminated]
    rfl
  rw [Kernel.kprintf_conversion font mem call, (SameText.puts _).foldl_putcCall, screenOf_putsOut]

/-- `kprintf` prints the row of a process. -/
theorem kprintf_processRow {p : Process} {stateStr name : BitVec 64} (notNull : stateStr ≠ 0)
    (notNull' : name ≠ 0)
    (state : mem stateStr = (if p.state = .running then text "RUNNING" else text "READY") ++ [0])
    (string : mem name = p.name) (terminated : 0 ∈ p.name) (k : Kernel) :
    k.kprintf font mem (text "  #%d (ppid %d) [%s] %d KB : %s\n" ++ [0])
        [p.pid.setWidth 64, p.ppid.setWidth 64, stateStr,
          ((p.memoryUsed / 1024).setWidth 32).setWidth 64, name] =
      some (k.print font p.row) := by
  have split : text "  #%d (ppid %d) [%s] %d KB : %s\n" ++ [0] =
      text "  #" ++ ascii '%' :: ascii 'd' :: (text " (ppid " ++ ascii '%' :: ascii 'd' ::
        (text ") [" ++ ascii '%' :: ascii 's' :: (text "] " ++ ascii '%' :: ascii 'd' ::
          (text " KB : " ++ ascii '%' :: ascii 's' :: (text "\n" ++ [0]))))) := by decide
  have known : cstr (mem stateStr) =
      if p.state = .running then text "RUNNING" else text "READY" := by
    rw [state]
    split_ifs <;> decide
  have ready : 0 ∈ mem stateStr := by
    rw [state]
    exact List.mem_append_right _ List.mem_cons_self
  rw [split, Kernel.kprintf_append font mem (by decide) (by decide), kprintf_int,
    Kernel.kprintf_append font mem (by decide) (by decide), kprintf_int,
    Kernel.kprintf_append font mem (by decide) (by decide), kprintf_string mem notNull ready, known,
    Kernel.kprintf_append font mem (by decide) (by decide), kprintf_int,
    Kernel.kprintf_append font mem (by decide) (by decide),
    kprintf_string mem notNull' (string ▸ terminated), string,
    Kernel.kprintf_print font mem (by decide) (by decide)]
  simp only [Kernel.print, Process.row, List.foldl_append]

/-- `kprintf` prints the row of a service. -/
theorem kprintf_serviceRow {s : Service} {name status description : BitVec 64} (notNull : name ≠ 0)
    (notNull' : status ≠ 0) (notNull'' : description ≠ 0) (strings : mem name = s.name)
    (state : mem status = (if s.active then text "ACTIVE  " else text "INACTIVE") ++ [0])
    (strings' : mem description = s.description) (terminated : 0 ∈ s.name)
    (terminated' : 0 ∈ s.description) (k : Kernel) :
    k.kprintf font mem (text "  %s (%d) [%s] - %s\n" ++ [0])
        [name, s.pid.setWidth 64, status, description] = some (k.print font s.row) := by
  have split : text "  %s (%d) [%s] - %s\n" ++ [0] =
      text "  " ++ ascii '%' :: ascii 's' :: (text " (" ++ ascii '%' :: ascii 'd' ::
        (text ") [" ++ ascii '%' :: ascii 's' :: (text "] - " ++ ascii '%' :: ascii 's' ::
          (text "\n" ++ [0])))) := by decide
  have known : cstr (mem status) = if s.active then text "ACTIVE  " else text "INACTIVE" := by
    rw [state]
    split_ifs <;> decide
  have ready : 0 ∈ mem status := by
    rw [state]
    exact List.mem_append_right _ List.mem_cons_self
  rw [split, Kernel.kprintf_append font mem (by decide) (by decide),
    kprintf_string mem notNull (strings ▸ terminated), strings,
    Kernel.kprintf_append font mem (by decide) (by decide), kprintf_int,
    Kernel.kprintf_append font mem (by decide) (by decide), kprintf_string mem notNull' ready,
    known, Kernel.kprintf_append font mem (by decide) (by decide),
    kprintf_string mem notNull'' (strings' ▸ terminated'), strings',
    Kernel.kprintf_print font mem (by decide) (by decide)]
  simp only [Kernel.print, Service.row, List.foldl_append]

end

variable (font) in
/-- The rows are what `kprintf` prints from the format strings of `process_list` and
`init_list_services`, over a memory with the strings. -/
structure RowsPrinted : Prop where
  process : ∀ mem (p : Process) stateStr name (k : Kernel), stateStr ≠ 0 → name ≠ 0 →
    mem stateStr = (if p.state = .running then text "RUNNING" else text "READY") ++ [0] →
    mem name = p.name → 0 ∈ p.name →
    k.kprintf font mem (text "  #%d (ppid %d) [%s] %d KB : %s\n" ++ [0])
      [p.pid.setWidth 64, p.ppid.setWidth 64, stateStr,
        ((p.memoryUsed / 1024).setWidth 32).setWidth 64, name] = some (k.print font p.row)
  service : ∀ mem (s : Service) name status description (k : Kernel), name ≠ 0 → status ≠ 0 →
    description ≠ 0 → mem name = s.name →
    mem status = (if s.active then text "ACTIVE  " else text "INACTIVE") ++ [0] →
    mem description = s.description → 0 ∈ s.name → 0 ∈ s.description →
    k.kprintf font mem (text "  %s (%d) [%s] - %s\n" ++ [0])
      [name, s.pid.setWidth 64, status, description] = some (k.print font s.row)

theorem rowsPrinted : RowsPrinted font where
  process mem _ _ _ k notNull notNull' state string terminated :=
    kprintf_processRow mem notNull notNull' state string terminated k
  service mem _ _ _ _ k notNull notNull' notNull'' name status description terminated terminated' :=
    kprintf_serviceRow mem notNull notNull' notNull'' name status description terminated terminated'
      k

/-! ## The boot -/

/-- Services that were started as processes from `pid` on. -/
def numbered : BitVec 32 → List Service → List Service
  | _, [] => []
  | pid, s :: services => { s with pid, active := true } :: numbered (pid + 1) services

/-- The loop of `init_system_boot` is a run, and the services get the numbers of their processes. -/
theorem startServices_run {services started : List Service} {blocks : List ℕ}
    (strings : ∀ s ∈ services, 0 ∈ s.name)
    (call : startServices heap services w = some (started, w')) :
    (∃ blocks', Run (ProcStep heap) (w, blocks) (services.map fun s => .create s.name 1)
      (w', blocks')) ∧ started = numbered w.table.sNextPid services := by
  induction services generalizing w started blocks with
  | nil =>
    simp only [startServices, Option.some.injEq, Prod.mk.injEq] at call
    obtain ⟨rfl, rfl⟩ := call
    exact ⟨⟨blocks, .nil _⟩, rfl⟩
  | cons s services ih =>
    obtain ⟨string, later⟩ := List.forall_mem_cons.mp strings
    simp only [startServices, Option.bind_eq_bind, Option.bind_eq_some_iff, Prod.exists,
      Option.pure_def, Option.some.injEq, Prod.mk.injEq] at call
    obtain ⟨p, w₁, create, started', w₂, rest, rfl, rfl⟩ := call
    obtain ⟨-, name', -, eq⟩ := create_cases string create
    obtain ⟨⟨blocks', run⟩, same⟩ := ih later rest
    refine ⟨⟨blocks', .cons (.create string create) run⟩, ?_⟩
    rw [same, eq, numbered]
    simp

/-- The processes of the boot. -/
def bootEntries : List ProcEntry :=
  [⟨4, 1, text "chef-sh"⟩, ⟨3, 1, text "compositor"⟩, ⟨2, 1, text "klogd"⟩, ⟨1, 0, text "init"⟩]

/-- What `init_list_services` prints after the boot. -/
def bootServiceLines : List String :=
  ["  SERVICE       PID    STATUS    DESCRIPTION\n",
    "  --------------------------------------------------------\n",
    "  klogd (2) [ACTIVE  ] - Kernel System Logging Daemon\n",
    "  compositor (3) [ACTIVE  ] - Chef Native 2D Surface Compositor\n",
    "  chef-sh (4) [ACTIVE  ] - Interactive Parchment Shell\n"]

theorem initListServices_boot (k : Kernel) :
    initListServices font (numbered 2 sServices) k =
      (bootServiceLines.map text).foldl (Kernel.print font) k := by
  have rows : (numbered 2 sServices).map Service.row =
      [text "  klogd (2) [ACTIVE  ] - Kernel System Logging Daemon\n",
        text "  compositor (3) [ACTIVE  ] - Chef Native 2D Surface Compositor\n",
        text "  chef-sh (4) [ACTIVE  ] - Interactive Parchment Shell\n"] := by decide
  unfold initListServices
  rw [← List.foldl_map, rows]
  simp only [bootServiceLines, List.map_cons, List.map_nil, List.foldl_cons, List.foldl_nil]

/-- Nothing takes an entry from the list. -/
theorem mem_foldl_entries {es : List ProcEvent} {e : ProcEntry} (mem : e ∈ entries) :
    e ∈ es.foldl entriesAfter entries := by
  induction es generalizing entries with
  | nil => exact mem
  | cons event es ih =>
    apply ih
    cases event with
    | create name ppid => exact List.mem_cons_of_mem _ mem
    | alloc size => exact mem
    | free b => exact mem

/-- After the boot and any other calls `ps` prints the new processes and those of the boot, and each
service is active under the number of its process, which `services` prints. -/
theorem initSystemBoot_lists (font : Font) {processes : ℕ → Process} {log : List HeapEvent}
    {services : List Service}
    (boot : initSystemBoot heap ⟨processInit ⟨processes, none, 1⟩, log⟩ = some (services, w)) :
    services.map Service.name = sServices.map Service.name ∧
      ∃ blocks, Linked (fun p => (w.table.processes p).next) w.table.sProcList blocks ∧
        ∀ es c, Run (ProcStep heap) (w, blocks) es c →
          (∀ k, Ends (fun fuel => processList font fuel c.1.table k)
            ((es.foldl entriesAfter bootEntries).foldl (fun k e => k.print font e.row)
              (k.processHeader font))) ∧
          (∀ s ∈ services, s.active ∧
            ⟨s.pid, 1, cstr s.name⟩ ∈ es.foldl entriesAfter bootEntries) ∧
          (∀ k, initListServices font services k =
            (bootServiceLines.map text).foldl (Kernel.print font) k) ∧ RowsPrinted font := by
  simp only [initSystemBoot, Option.bind_eq_bind, Option.bind_eq_some_iff, Prod.exists] at boot
  obtain ⟨p, w₁, create, start⟩ := boot
  have string : 0 ∈ text "init" ++ [0] := by decide
  have strings : ∀ s ∈ sServices, 0 ∈ s.name := by decide
  obtain ⟨-, name', -, eq⟩ := create_cases string create
  obtain ⟨⟨blocks, run⟩, same⟩ := startServices_run strings start
  have listed := procRun_listed (.cons (.create string create) run)
    (listed_processInit processes log)
  have pid : w₁.table.sNextPid = 2 := by rw [eq]; rfl
  rw [pid] at same
  subst same
  refine ⟨rfl, blocks, listed.linked, fun es c more =>
    ⟨processList_ends (procRun_listed more listed), ?_, initListServices_boot, rowsPrinted⟩⟩
  intro s mem
  have active : ∀ s ∈ numbered 2 sServices, s.active = true ∧
      (⟨s.pid, 1, cstr s.name⟩ : ProcEntry) ∈ bootEntries := by decide
  exact ⟨(active s mem).1, mem_foldl_entries (active s mem).2⟩

end

/-- The start of the heap's log, before the boot. -/
def bootWorld : ProcWorld := ⟨processInit ⟨fun _ => zeroProcess, none, 1⟩, [.alloc (some 7)]⟩

/-- Somebody else uses a block, a process is created behind it, and the block is given back. -/
def eventsAfterBoot : List ProcEvent := [.alloc 100, .create (text "editor" ++ [0]) 4, .free 128]

theorem initSystemBoot_lists_example : ∃ services w c,
    initSystemBoot .above bootWorld = some (services, w) ∧
      Run (ProcStep .above) (w, [64, 32, 16, 8]) eventsAfterBoot c ∧
      (∀ k, Ends (fun fuel => processList (fun _ _ => 0) fuel c.1.table k)
        ((⟨5, 4, text "editor"⟩ :: bootEntries).foldl (fun k e => k.print (fun _ _ => 0) e.row)
          (k.processHeader fun _ _ => 0))) ∧
      (∀ s ∈ services, s.active) ∧
      ∀ k, initListServices (fun _ _ => 0) services k =
        (bootServiceLines.map text).foldl (Kernel.print fun _ _ => 0) k := by
  obtain ⟨services, w, c, boot, linked, run⟩ : ∃ services w c,
      initSystemBoot .above bootWorld = some (services, w) ∧
      Linked (fun p => (w.table.processes p).next) w.table.sProcList [64, 32, 16, 8] ∧
      Run (ProcStep .above) (w, [64, 32, 16, 8]) eventsAfterBoot c :=
    ⟨_, _, _, rfl, .cons (.cons (.cons (.cons .nil))),
      .cons .alloc (.cons (.create (by decide) rfl) (.cons (.free (by decide)) (.nil _)))⟩
  obtain ⟨-, blocks, linked', holds⟩ := initSystemBoot_lists (fun _ _ => 0) boot
  obtain rfl := linked.unique linked'
  obtain ⟨ends, active, printed, -⟩ := holds _ c run
  exact ⟨services, w, c, boot, run, ends, fun s mem => (active s mem).1, printed⟩

end ChefOs
