import ChefOs.Lib.Slot
import ChefOs.Sys.Descriptors

/-!
# The keyboard

`drivers/ps2_kbd.c`: the table of characters and the interrupt handler.  The handler and the readers
of the keyboard share one character, so a key that is pressed before the last one was read replaces
it.
-/

namespace ChefOs

open Kit

/-- `kbd_us`. -/
def kbdUs : List UInt8 :=
  [0, 27, 49, 50, 51, 52, 53, 54, 55, 56, 57, 48, 45, 61, 8,
   9, 113, 119, 101, 114, 116, 121, 117, 105, 111, 112, 91, 93, 10,
   0, 97, 115, 100, 102, 103, 104, 106, 107, 108, 59, 39, 96,
   0, 92, 122, 120, 99, 118, 98, 110, 109, 44, 46, 47, 0,
   42, 0, 32, 0, 0, 0, 0, 0, 0, 0, 0, 0, 0,
   0, 0, 0, 0, 0, 0, 0, 0, 0, 0, 0, 0, 0] ++ List.replicate 47 0

/-- `kbd_us[scancode]`, for a make code. -/
def kbdChar (scancode : UInt8) : UInt8 := kbdUs.getD scancode.toNat 0

/-- `kprintf("%c", c)`. -/
def Kernel.printC (font : Font) (c : UInt8) (s : Kernel) : Kernel := (s.putc font c).swap

/-- `keyboard_callback`, with the scancode that `inb(0x60)` returns. -/
def keyboardCallback (font : Font) (scancode : UInt8) (s : Kernel) : Kernel :=
  if scancode &&& 0x80 = 0 then
    let c := kbdChar scancode
    if c ≠ 0 then Kernel.printC font c { s with fs := { s.fs with sLastChar := c } }
    else s
  else s

/-! ## Keys and polls -/

/-- The kernel, the characters typed and the characters that polls returned. -/
structure Typing where
  kernel : Kernel
  typed : List UInt8
  polled : List UInt8

/-- An interrupt of the keyboard, or a poll: by the main loop, `dev_kbd_read` or `SYS_READ`. -/
inductive KbdEvent
  | key (scancode : UInt8)
  | mainLoop
  | devRead (size : ℕ) (buffer : List (Option UInt8))
  | sysRead (c : Syscall)

/-- The event is a poll. -/
def KbdEvent.IsPoll : KbdEvent → Prop
  | .key _ => False
  | _ => True

/-- The character that a poll of the main loop returns, if it is not zero. -/
def nonzero (c : UInt8) : List UInt8 := if c ≠ 0 then [c] else []

/-- The character that a read leaves in its buffer, if it returns one. -/
def received (value : ℤ) (buffer : List (Option UInt8)) : List UInt8 :=
  if value = 1 then buffer.head?.join.toList else []

/-- One event.  The keys are make codes with a character. -/
inductive KbdStep (font : Font) : Typing → KbdEvent → Typing → Prop
  | key {s : Kernel} {typed polled : List UInt8} {scancode : UInt8}
      (make : scancode &&& 0x80 = 0) (char : kbdChar scancode ≠ 0) :
      KbdStep font ⟨s, typed, polled⟩ (.key scancode)
        ⟨keyboardCallback font scancode s, typed ++ [kbdChar scancode], polled⟩
  | mainLoop (s : Kernel) (typed polled : List UInt8) :
      KbdStep font ⟨s, typed, polled⟩ .mainLoop
        ⟨{ s with fs := (keyboardGetLastChar s.fs).2 }, typed,
          polled ++ nonzero (keyboardGetLastChar s.fs).1⟩
  | devRead {s : Kernel} {typed polled : List UInt8} {size : ℕ} {buffer : List (Option UInt8)}
      {value : ℤ} {buffer' : List (Option UInt8)} {fs : Fs} (pos : 0 < size)
      (call : devKbdRead size buffer s.fs = some (value, buffer', fs)) :
      KbdStep font ⟨s, typed, polled⟩ (.devRead size buffer)
        ⟨{ s with fs }, typed, polled ++ received value buffer'⟩
  | sysRead {s s' : Kernel} {typed polled : List UInt8} {c : Syscall} {value : ℤ}
      {buffer' : List (Option UInt8)} (num : c.num = sysRead) (keyboard : c.fd = 0)
      (pos : c.a3 > 0) (call : syscallDispatch font c s = some (value, buffer', s')) :
      KbdStep font ⟨s, typed, polled⟩ (.sysRead c) ⟨s', typed, polled ++ received value buffer'⟩

/-- `s_last_char` as a channel from the keys to the polls. -/
def Typing.slot (x : Typing) : Slot UInt8 where
  content := if x.kernel.fs.sLastChar = 0 then none else some x.kernel.fs.sLastChar
  sent := x.typed
  received := x.polled

/-- What the event does to the channel. -/
def KbdEvent.onSlot : KbdEvent → Slot UInt8 → Slot UInt8
  | .key scancode => Slot.put (kbdChar scancode)
  | _ => Slot.take

theorem keyboardCallback_sLastChar (font : Font) {scancode : UInt8} (s : Kernel)
    (make : scancode &&& 0x80 = 0) (char : kbdChar scancode ≠ 0) :
    (keyboardCallback font scancode s).fs.sLastChar = kbdChar scancode := by
  rw [keyboardCallback, if_pos make]
  dsimp only
  rw [if_pos char]
  rfl

theorem nonzero_eq (c : UInt8) : nonzero c = (if c = 0 then none else some c).toList := by
  rw [nonzero]
  split_ifs with here none <;> first | rfl | contradiction

/-- A poll returns the content of the channel and empties it. -/
theorem slot_take {s s' : Kernel} {typed polled polls : List UInt8}
    (empty : s'.fs.sLastChar = 0) (returned : polls = nonzero s.fs.sLastChar) :
    (⟨s', typed, polled ++ polls⟩ : Typing).slot = (⟨s, typed, polled⟩ : Typing).slot.take := by
  rw [Typing.slot, Typing.slot, Slot.take, Slot.mk.injEq, if_pos empty, returned, nonzero_eq]
  exact ⟨rfl, rfl, rfl⟩

theorem received_memcpy {buffer buffer' : List (Option UInt8)} {c : UInt8}
    (call : memcpy buffer [some c] 1 = some buffer') : received 1 buffer' = [c] := by
  cases buffer with
  | nil => contradiction
  | cons b buffer =>
    rw [memcpy, memcpy, Option.map_some] at call
    obtain rfl := Option.some.inj call
    rfl

/-- The branches of a read hand over the last character. -/
theorem readChar_received {σ : Type} {c : UInt8} {buffer buffer' : List (Option UInt8)} {s s' : σ}
    {value : ℤ} (call : (if c ≠ 0 then (memcpy buffer [some c] 1).map fun buffer => (1, buffer, s)
      else some (0, buffer, s)) = some (value, buffer', s')) :
    s' = s ∧ received value buffer' = nonzero c := by
  rw [nonzero]
  split_ifs at call ⊢
  · obtain ⟨written, copy, result⟩ := Option.map_eq_some_iff.mp call
    obtain ⟨rfl, rfl, rfl⟩ := result
    exact ⟨rfl, received_memcpy copy⟩
  · obtain ⟨rfl, rfl, rfl⟩ := call
    exact ⟨rfl, rfl⟩

/-- Both reads of the keyboard hand over the content of the channel. -/
theorem devKbdRead_received {size : ℕ} (pos : 0 < size) {buffer buffer' : List (Option UInt8)}
    {s s' : Fs} {value : ℤ} (call : devKbdRead size buffer s = some (value, buffer', s')) :
    s'.sLastChar = 0 ∧ received value buffer' = nonzero s.sLastChar := by
  rw [devKbdRead, if_pos pos] at call
  obtain ⟨rfl, returned⟩ := readChar_received call
  exact ⟨rfl, returned⟩

theorem dispatchRead_received {c : Syscall} (keyboard : c.fd = 0) (pos : c.a3 > 0) {s s' : Kernel}
    {value : ℤ} {buffer' : List (Option UInt8)}
    (call : dispatchRead c s = some (value, buffer', s')) :
    s'.fs.sLastChar = 0 ∧ received value buffer' = nonzero s.fs.sLastChar := by
  rw [dispatchRead, if_pos ⟨keyboard, pos⟩] at call
  obtain ⟨rfl, returned⟩ := readChar_received call
  exact ⟨rfl, returned⟩

/-- The events are puts and takes of the channel. -/
theorem kbdStep_slot {font : Font} {x y : Typing} {e : KbdEvent} (step : KbdStep font x e y) :
    y.slot = e.onSlot x.slot := by
  cases step with
  | key make char =>
    rw [KbdEvent.onSlot, Slot.put, Typing.slot, keyboardCallback_sLastChar _ _ make char,
      if_neg char]
    rfl
  | mainLoop s typed polled => exact slot_take rfl rfl
  | devRead pos call =>
    obtain ⟨empty, returned⟩ := devKbdRead_received pos call
    exact slot_take empty returned
  | sysRead num keyboard pos call =>
    rw [syscallDispatch_read _ _ num] at call
    obtain ⟨empty, returned⟩ := dispatchRead_received keyboard pos call
    exact slot_take empty returned

/-! ## Delivery -/

theorem polls_slot {font : Font} {x y : Typing} {es : List KbdEvent}
    (polls : ∀ e ∈ es, e.IsPoll) (run : Run (KbdStep font) x es y) :
    y.slot = Slot.take^[es.length] x.slot := by
  induction run with
  | nil x => rfl
  | @cons x y z e es first _ ih =>
    obtain ⟨poll, polls⟩ := List.forall_mem_cons.mp polls
    have taken : y.slot = x.slot.take := by
      rw [kbdStep_slot first]
      cases e with
      | key scancode => exact poll.elim
      | mainLoop => rfl
      | devRead size buffer => rfl
      | sysRead c => rfl
    rw [ih polls, taken, List.length_cons, Function.iterate_succ_apply]

/-- The main loop can poll any number of times. -/
theorem exists_polls (font : Font) (x : Typing) (n : ℕ) :
    ∃ y, Run (KbdStep font) x (List.replicate n .mainLoop) y := by
  induction n generalizing x with
  | zero => exact ⟨x, .nil x⟩
  | succ n ih =>
    obtain ⟨s, typed, polled⟩ := x
    obtain ⟨y, run⟩ := ih _
    exact ⟨y, .cons (.mainLoop s typed polled) run⟩

/-- The polls returned the beginning of what was typed, and they will have returned all of it once
enough polls follow. -/
def Typing.Delivered (font : Font) (x : Typing) : Prop :=
  x.polled <+: x.typed ∧ ∃ n, ∀ es y, (∀ e ∈ es, KbdEvent.IsPoll e) → n ≤ es.length →
    Run (KbdStep font) x es y → y.polled = x.typed

theorem delivered_iff (font : Font) (x : Typing) : x.Delivered font ↔ x.slot.Faithful := by
  rw [← Slot.delivers_iff]
  constructor
  · rintro ⟨begins, n, all⟩
    refine ⟨begins, n, fun m hm => ?_⟩
    obtain ⟨y, run⟩ := exists_polls font x m
    have polls : ∀ e ∈ List.replicate m KbdEvent.mainLoop, e.IsPoll := by
      intro e he
      rw [List.eq_of_mem_replicate he]
      trivial
    have slot := polls_slot polls run
    rw [List.length_replicate] at slot
    rw [← slot]
    exact all _ y polls (by rwa [List.length_replicate]) run
  · rintro ⟨begins, n, all⟩
    refine ⟨begins, n, fun es y polls long run => ?_⟩
    have := all es.length long
    rwa [← polls_slot polls run] at this

/-- No key is pressed before the one before it was polled. -/
def KbdEvent.Free (x : Typing) : KbdEvent → Prop
  | .key _ => x.kernel.fs.sLastChar = 0
  | _ => True

theorem onSlot_faithful_iff {x : Typing} (faithful : x.slot.Faithful) (e : KbdEvent) :
    (e.onSlot x.slot).Faithful ↔ e.Free x := by
  cases e with
  | key scancode =>
    apply (faithful.put_iff _).trans
    rw [Typing.slot, KbdEvent.Free]
    dsimp only
    split_ifs with empty <;> simp [empty]
  | mainLoop => exact iff_of_true faithful.take trivial
  | devRead size buffer => exact iff_of_true faithful.take trivial
  | sysRead c => exact iff_of_true faithful.take trivial

/-- From an empty channel on, the polls return what is typed in every state of a run just when each
key of the run is pressed after the one before it was polled. -/
theorem keyboardRun_iff (font : Font) {x y : Typing} {es : List KbdEvent}
    (empty : x.kernel.fs.sLastChar = 0) (start : x.polled = x.typed) :
    Run (fun x e y => KbdStep font x e y ∧ y.Delivered font) x es y ↔
      Run (fun x e y => KbdStep font x e y ∧ e.Free x) x es y := by
  have initial : x.slot.Faithful := by
    rw [Slot.Faithful, Typing.slot, if_pos empty, Option.toList_none, List.append_nil]
    exact start.symm
  apply Run.iff_of_step_iff (I := fun x => x.slot.Faithful)
  · intro x e y faithful
    apply and_congr_right
    intro step
    rw [delivered_iff, kbdStep_slot step, onSlot_faithful_iff faithful]
  · rintro x e y - ⟨-, delivered⟩
    exact (delivered_iff font y).mp delivered
  · exact initial

/-- A kernel before the first key. -/
def quietKernel : Kernel where
  fs := bootFs
  gFb := noScreen

/-- `SYS_READ` of one byte of the keyboard. -/
def readCall : Syscall where
  num := sysRead
  a1 := 0
  a2 := 0x400100
  a3 := 1
  a4 := 0
  a5 := 0
  a6 := 0
  path := none
  buf := [0]

/-- The keys of `l` and `s`, each of them polled. -/
theorem keyboardRun_example : ∃ y,
    Run (fun x e y => KbdStep (fun _ _ => 0) x e y ∧ y.Delivered fun _ _ => 0)
      ⟨quietKernel, [], []⟩ [.key 0x26, .mainLoop, .key 0x1F, .sysRead readCall] y ∧
    y.polled = [0x6C, 0x73] := by
  have run : ∃ y, Run (fun x e y => KbdStep (fun _ _ => 0) x e y ∧ e.Free x)
      ⟨quietKernel, [], []⟩ [.key 0x26, .mainLoop, .key 0x1F, .sysRead readCall] y ∧
      y.polled = [0x6C, 0x73] :=
    ⟨_, .cons ⟨.key (by decide) (by decide), rfl⟩ (.cons ⟨.mainLoop .., trivial⟩
      (.cons ⟨.key (by decide) (by decide), rfl⟩
        (.cons ⟨.sysRead rfl (by decide) (by decide) rfl, trivial⟩ (.nil _)))), rfl⟩
  obtain ⟨y, run, polled⟩ := run
  exact ⟨y, (keyboardRun_iff _ rfl rfl).mpr run, polled⟩

/-- The keys of `l` and `s` before a poll: only the second one is read. -/
theorem burst_loses : ∃ y,
    Run (KbdStep fun _ _ => 0) ⟨quietKernel, [], []⟩ [.key 0x26, .key 0x1F, .mainLoop] y ∧
    ¬ y.polled <+: y.typed :=
  ⟨_, .cons (.key (by decide) (by decide)) (.cons (.key (by decide) (by decide))
    (.cons (.mainLoop ..) (.nil _))), by decide⟩

end ChefOs
