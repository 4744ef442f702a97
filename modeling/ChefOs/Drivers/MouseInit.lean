import ChefOs.Drivers.Mouse
import ChefOs.Lib.I8042

/-!
# The start of the mouse

`ps2_mouse_init` of `drivers/ps2_mouse.c` on a keyboard controller that looks at its buffers when
it likes.
-/

namespace ChefOs

open Kit I8042

/-! ## The driver -/

/-- The loop of `mouse_wait`. -/
def mouseWaitLoop (type : UInt8) : ℕ → Controller → Controller
  | 0, c => c
  | timeout + 1, c =>
    let (status, c) := c.inb 0x64
    if type = 0 then
      if status &&& 1 = 1 then c else mouseWaitLoop type timeout c
    else
      if status &&& 2 = 0 then c else mouseWaitLoop type timeout c

/-- `mouse_wait`. -/
def mouseWait (type : UInt8) (c : Controller) : Controller := mouseWaitLoop type 100000 c

/-- A write behind `mouse_wait(1)`. -/
def waitOutb (port : UInt16) (v : UInt8) (c : Controller) : Controller :=
  (mouseWait 1 c).outb port v

/-- `mouse_write`, on a controller. -/
def mouseSend (write : UInt8) (c : Controller) : Controller :=
  (mouseWrite write).foldl (fun c w => waitOutb w.1 w.2 c) c

/-- `mouse_read`. -/
def mouseRead (c : Controller) : UInt8 × Controller := (mouseWait 0 c).inb 0x60

/-- `ps2_mouse_init`, on a controller. -/
def ps2MouseStart (screenWidth screenHeight : BitVec 32) (m : Mouse) (c : Controller) :
    Mouse × Controller :=
  let m := { m with
    sMaxX := screenWidth
    sMaxY := screenHeight
    sMouseState := { m.sMouseState with x := screenWidth / 2, y := screenHeight / 2 } }
  let c := waitOutb 0x64 0xA8 c
  let c := waitOutb 0x64 0x20 c
  let (byte, c) := mouseRead c
  let status := byte ||| 2
  let c := waitOutb 0x64 0x60 c
  let c := waitOutb 0x60 status c
  let c := mouseSend 0xF6 c
  let (_, c) := mouseRead c
  let c := mouseSend 0xF4 c
  let (_, c) := mouseRead c
  (m, c)

/-! ## What it should do -/

/-- The mouse is enabled with its interrupt, has got both commands, and nothing waits for the
processor. -/
structure MouseOn (before after : Core) : Prop where
  config : after.config = before.config &&& ~~~0x20 ||| 2
  received : after.received = before.received ++ [0xF6, 0xF4]
  queue : after.queue = []

/-- The byte that `ps2_mouse_init` takes for the configuration. -/
def configByte (s : Core) : UInt8 :=
  match s.queue with
  | b :: _ => b.1
  | [] => s.config &&& ~~~0x20

/-! ## Waiting -/

section

variable {c : Controller} {type : UInt8} {timeout : ℕ}

/-- Polling only lets the controller move. -/
theorem mouseWaitLoop_pass (type : UInt8) (timeout : ℕ) (c : Controller) :
    ∃ n, mouseWaitLoop type timeout c = Controller.pass^[n] c := by
  induction timeout generalizing c with
  | zero => exact ⟨0, rfl⟩
  | succ timeout ih =>
    obtain ⟨n, rest⟩ := ih c.pass
    have poll : c.inb 0x64 = (c.status, c.pass) := rfl
    rw [mouseWaitLoop, poll]
    dsimp only
    split_ifs
    · exact ⟨1, rfl⟩
    · exact ⟨n + 1, rest⟩
    · exact ⟨1, rfl⟩
    · exact ⟨n + 1, rest⟩

/-- What is reached before the timeout is found. -/
theorem mouseWaitLoop_input (taken : ∃ n < timeout, (Controller.pass^[n] c).input = none) :
    (mouseWaitLoop 1 timeout c).input = none := by
  induction timeout generalizing c with
  | zero => obtain ⟨n, lt, -⟩ := taken; omega
  | succ timeout ih =>
    obtain ⟨n, lt, empty⟩ := taken
    have poll : c.inb 0x64 = (c.status, c.pass) := rfl
    rw [mouseWaitLoop, poll]
    dsimp only
    rw [if_neg (by decide)]
    split_ifs with ready
    · exact Controller.input_pass (c.status_bits.2.mp ready)
    · cases n with
      | zero => exact absurd (c.status_bits.2.mpr empty) ready
      | succ n => exact ih ⟨n, by omega, empty⟩

theorem mouseWaitLoop_output (filled : ∃ n < timeout, (Controller.pass^[n] c).output.isSome) :
    (mouseWaitLoop 0 timeout c).output.isSome := by
  induction timeout generalizing c with
  | zero => obtain ⟨n, lt, -⟩ := filled; omega
  | succ timeout ih =>
    obtain ⟨n, lt, full⟩ := filled
    have poll : c.inb 0x64 = (c.status, c.pass) := rfl
    rw [mouseWaitLoop, poll]
    dsimp only
    rw [if_pos rfl]
    split_ifs with ready
    · exact Controller.output_pass (c.status_bits.1.mp ready)
    · cases n with
      | zero => exact absurd (c.status_bits.1.mpr full) ready
      | succ n => exact ih ⟨n, by omega, full⟩

variable (responsive : c.Responsive 40000)

include responsive

theorem mouseWait_spec (type : UInt8) :
    (mouseWait type c).told = c.told ∧ (mouseWait type c).Responsive 40000 := by
  obtain ⟨n, eq⟩ := mouseWaitLoop_pass type 100000 c
  rw [mouseWait, eq]
  exact ⟨c.told_iterate n, responsive.iterate n⟩

/-- A write tells the controller something. -/
theorem waitOutb_spec (port : UInt16) (v : UInt8) :
    (waitOutb port v c).told = c.told.take (port = 0x64) v ∧
      (waitOutb port v c).Responsive 40000 := by
  obtain ⟨told, responsive'⟩ := mouseWait_spec responsive 1
  obtain ⟨n, le, empty⟩ := responsive.taken
  have free : (mouseWait 1 c).input = none := mouseWaitLoop_input ⟨n, by omega, empty⟩
  refine ⟨?_, responsive'.outb port v⟩
  rw [waitOutb, Controller.told_outb free, told]

/-- A read takes the first byte that waits. -/
theorem mouseRead_spec :
    (mouseRead c).2.told = c.told.read ∧ (mouseRead c).2.Responsive 40000 ∧
      ∀ b queue, c.told.queue = b :: queue → (mouseRead c).1 = b.1 := by
  obtain ⟨told, responsive'⟩ := mouseWait_spec responsive 0
  rw [← told]
  by_cases waits : (mouseWait 0 c).told.queue = []
  · refine ⟨Controller.inb_empty waits, responsive'.inb 0x60, fun b queue eq => ?_⟩
    rw [waits] at eq
    contradiction
  · obtain ⟨n, le, full⟩ := responsive.filled (told ▸ waits)
    have ready : (mouseWait 0 c).output.isSome := mouseWaitLoop_output ⟨n, by omega, full⟩
    obtain ⟨left, byte⟩ := Controller.inb_output ready
    exact ⟨left, responsive'.inb 0x60, byte⟩

theorem mouseSend_spec (v : UInt8) :
    (mouseSend v c).told = (c.told.take true 0xD4).take false v ∧
      (mouseSend v c).Responsive 40000 := by
  obtain ⟨first, responsive⟩ := waitOutb_spec responsive 0x64 0xD4
  obtain ⟨second, responsive⟩ := waitOutb_spec responsive 0x60 v
  exact ⟨second.trans (congrArg (·.take false v) first), responsive⟩

end

/-! ## The start -/

/-- The controller is told a byte for the mouse, and its answer is read. -/
def toldMouse (v : UInt8) (s : Core) : Core := (s.takeAll (mouseWrite v)).read

/-- What the controller is told, with the byte taken for the configuration. -/
def startCore (byte : UInt8) (s : Core) : Core :=
  toldMouse 0xF4 (toldMouse 0xF6
    ((((s.take true 0xA8).take true 0x20).read.take true 0x60).take false (byte ||| 2)))

/-- The byte that is read is there. -/
theorem configByte_waits (s : Core) :
    ∃ b queue, ((s.take true 0xA8).take true 0x20).queue = b :: queue ∧ b.1 = configByte s := by
  have all : ((s.take true 0xA8).take true 0x20).queue =
      s.queue ++ [(s.config &&& ~~~0x20, false)] := rfl
  rw [all]
  unfold configByte
  cases s.queue with
  | nil => exact ⟨_, _, rfl, rfl⟩
  | cons b queue => exact ⟨_, _, rfl, rfl⟩

section

variable {c : Controller} (responsive : c.Responsive 40000) (width height : BitVec 32) (m : Mouse)

include responsive

theorem ps2MouseStart_spec :
    (ps2MouseStart width height m c).1 = (ps2MouseInit width height (configByte c.told) m).1 ∧
      (ps2MouseStart width height m c).2.told = startCore (configByte c.told) c.told := by
  obtain ⟨enabled, responsive⟩ := waitOutb_spec responsive 0x64 0xA8
  obtain ⟨asked, responsive⟩ := waitOutb_spec responsive 0x64 0x20
  obtain ⟨answered, responsive, byte⟩ := mouseRead_spec responsive
  obtain ⟨b, queue, waits, config⟩ := configByte_waits c.told
  rw [asked, enabled] at byte
  have value := (byte b queue waits).trans config
  obtain ⟨announced, responsive⟩ := waitOutb_spec responsive 0x64 0x60
  obtain ⟨set, responsive⟩ := waitOutb_spec responsive 0x60 (configByte c.told ||| 2)
  obtain ⟨defaults, responsive⟩ := mouseSend_spec responsive 0xF6
  obtain ⟨read, responsive, -⟩ := mouseRead_spec responsive
  obtain ⟨streams, responsive⟩ := mouseSend_spec responsive 0xF4
  obtain ⟨read', -, -⟩ := mouseRead_spec responsive
  refine ⟨rfl, ?_⟩
  rw [← value] at *
  unfold ps2MouseStart
  dsimp only
  rw [read', streams, read, defaults, set, announced, answered, asked, enabled]
  rfl

end

/-! ## A byte that waits -/

theorem config_enabled (v : UInt8) : (v &&& ~~~0x20 ||| 2) &&& 0x20 = 0 := by
  apply UInt8.eq_of_toBitVec_eq
  ext i hi
  interval_cases i <;> simp

/-- An enabled mouse gets the byte of `mouse_write` and acknowledges it. -/
theorem mouseWrite_enabled {s : Core} (enabled : s.config &&& 0x20 = 0) (v : UInt8) :
    s.takeAll (mouseWrite v) = { s with
      expects := none
      received := s.received ++ [v]
      queue := s.queue ++ [(0xFA, true)] } := by
  have named : s.takeAll (mouseWrite v) = { s with expects := some 0xD4 }.take false v := rfl
  have different : some (0xD4 : UInt8) ≠ some 0x60 := by decide
  rw [named, Core.take, if_neg Bool.false_ne_true, if_neg different, if_pos ⟨rfl, enabled⟩]

theorem toldMouse_enabled {s : Core} (enabled : s.config &&& 0x20 = 0) (v : UInt8) :
    toldMouse v s = { s with
      expects := none
      received := s.received ++ [v]
      queue := (s.queue ++ [(0xFA, true)]).tail } := by
  rw [toldMouse, mouseWrite_enabled enabled]
  rfl

/-- A disabled mouse does not get it. -/
theorem mouseWrite_disabled {s : Core} (disabled : s.config &&& 0x20 ≠ 0) (v : UInt8) :
    s.takeAll (mouseWrite v) = { s with expects := none } := by
  have named : s.takeAll (mouseWrite v) = { s with expects := some 0xD4 }.take false v := rfl
  have different : some (0xD4 : UInt8) ≠ some 0x60 := by decide
  rw [named, Core.take, if_neg Bool.false_ne_true, if_neg different,
    if_neg fun enabled => disabled enabled.2]

/-- No byte for the mouse changes the configuration. -/
theorem toldMouse_config (v : UInt8) (s : Core) : (toldMouse v s).config = s.config := by
  by_cases enabled : s.config &&& 0x20 = 0
  · rw [toldMouse, mouseWrite_enabled enabled]
    rfl
  · rw [toldMouse, mouseWrite_disabled enabled]
    rfl

/-- The writes of `ps2_mouse_init` before those for the mouse. -/
def configure (byte : UInt8) (s : Core) : Core :=
  (((s.take true 0xA8).take true 0x20).take true 0x60).take false (byte ||| 2)

theorem configure_queue (byte : UInt8) (s : Core) :
    (configure byte s).queue = s.queue ++ [(s.config &&& ~~~0x20, false)] := rfl

theorem startCore_read (byte : UInt8) (s : Core) :
    startCore byte s = toldMouse 0xF4 (toldMouse 0xF6 (configure byte s).read) := rfl

/-- The controller is told the writes of `ps2_mouse_init`, and three bytes are read. -/
theorem startCore_eq (byte : UInt8) (width height : BitVec 32) (m : Mouse) (s : Core) :
    startCore byte s = { s.takeAll (ps2MouseInit width height byte m).2 with
      queue := (s.takeAll (ps2MouseInit width height byte m).2).queue.drop 3 } := by
  have start := startCore_read byte s
  have queue := configure_queue byte s
  have writes : s.takeAll (ps2MouseInit width height byte m).2 =
      ((configure byte s).takeAll (mouseWrite 0xF6)).takeAll (mouseWrite 0xF4) := by
    rw [ps2MouseInit, Core.takeAll_append, Core.takeAll_append]
    rfl
  generalize configure byte s = u at start queue writes
  -- a byte is read only behind the one that was just put there
  have behind : ∀ a b : Byte, ((u.queue.tail ++ [a]).tail ++ [b]).tail =
      (u.queue ++ [a] ++ [b]).drop 3 := by
    intro a b
    rw [queue]
    rcases s.queue with _ | ⟨c, _ | ⟨d, l⟩⟩ <;> simp
  rw [start, writes, toldMouse, toldMouse]
  by_cases enabled : u.config &&& 0x20 = 0
  · simp only [mouseWrite_enabled, enabled, Core.read]
    exact congrArg (Core.mk u.config none _) (behind _ _)
  · have three : u.queue.tail.tail.tail = u.queue.drop 3 := by
      simp only [← List.drop_one, List.drop_drop]
    simp only [mouseWrite_disabled, ne_eq, enabled, not_false_eq_true, Core.read, three]

/-- With a byte that waited before, a byte is left over, or the mouse is disabled. -/
theorem startCore_mouseOn (s : Core) :
    MouseOn s (startCore (configByte s) s) ↔ s.queue = [] := by
  obtain ⟨s₁, start, config, queue, received⟩ : ∃ s₁, startCore (configByte s) s =
      toldMouse 0xF4 (toldMouse 0xF6 s₁) ∧ s₁.config = configByte s ||| 2 ∧
      s₁.queue = (s.queue ++ [(s.config &&& ~~~0x20, false)]).tail ∧ s₁.received = s.received :=
    ⟨_, rfl, rfl, rfl, rfl⟩
  have kept : (toldMouse 0xF4 (toldMouse 0xF6 s₁)).config = configByte s ||| 2 := by
    rw [toldMouse_config, toldMouse_config, config]
  rw [start]
  by_cases enabled : s₁.config &&& 0x20 = 0
  · have first := toldMouse_enabled enabled 0xF6
    have second := toldMouse_enabled ((toldMouse_config 0xF6 s₁).symm ▸ enabled) 0xF4
    rw [first] at second
    constructor
    · intro on
      have none := on.queue
      rw [first, second, queue] at none
      cases waiting : s.queue with
      | nil => rfl
      | cons b rest =>
        have length := congrArg List.length none
        rw [waiting] at length
        simp only [List.length_tail, List.length_append, List.length_cons,
          List.length_nil] at length
        omega
    · intro empty
      have byte : configByte s = s.config &&& ~~~0x20 := by rw [configByte, empty]
      constructor
      case config => rw [kept, byte]
      case received => rw [first, second, received]; simp
      case queue => rw [first, second, queue, empty]; rfl
  · refine iff_of_false (fun on => ?_) fun empty => ?_
    · rw [config, ← kept, on.config] at enabled
      exact enabled (config_enabled s.config)
    · rw [config, configByte, empty] at enabled
      exact enabled (config_enabled s.config)

/-- `ps2_mouse_init` takes the first byte that waits for the configuration, makes its writes to the
controller and reads three bytes.  It enables the mouse and leaves nothing behind exactly if no byte
waited. -/
theorem ps2MouseStart_mouseOn {c : Controller} (responsive : c.Responsive 40000)
    (width height : BitVec 32) (m : Mouse) :
    let init := ps2MouseInit width height (configByte c.told) m
    (ps2MouseStart width height m c).1 = init.1 ∧
      (ps2MouseStart width height m c).2.told =
        { c.told.takeAll init.2 with queue := (c.told.takeAll init.2).queue.drop 3 } ∧
      (ps2MouseStart width height m c).2.told.config = configByte c.told ||| 2 ∧
      (MouseOn c.told (ps2MouseStart width height m c).2.told ↔ c.told.queue = []) := by
  obtain ⟨mouse, told⟩ := ps2MouseStart_spec responsive width height m
  refine ⟨mouse, told.trans (startCore_eq _ width height m c.told), ?_, ?_⟩
  · rw [told, startCore, toldMouse_config, toldMouse_config]
    rfl
  · rw [told]
    exact startCore_mouseOn c.told

/-- A controller that looks at its buffers behind every access, with the make code of a key waiting
or not. -/
def startController (waits : Bool) : Controller where
  core := ⟨0x61, none, [], []⟩
  output := if waits then some (0x1E, false) else none
  input := none
  last := 0
  moves := fun _ => [.take, .fill]

theorem ps2MouseStart_mouseOn_example :
    (MouseOn (startController false).told
        (ps2MouseStart 1280 800 Mouse.boot (startController false)).2.told) ∧
      (ps2MouseStart 1280 800 Mouse.boot (startController true)).2.told.config = 0x1E := by
  have responsive (waits : Bool) : (startController waits).Responsive 40000 := by
    intro n move
    refine ⟨0, by decide, ?_⟩
    cases move with
    | take => exact List.mem_cons_self
    | fill => exact List.mem_cons_of_mem _ List.mem_cons_self
  have quiet := ps2MouseStart_mouseOn (responsive false) 1280 800 Mouse.boot
  have key := ps2MouseStart_mouseOn (responsive true) 1280 800 Mouse.boot
  exact ⟨quiet.2.2.2.mpr rfl, key.2.2.1⟩

end ChefOs
