import ChefOs.Compositor.Compositor
import ChefOs.Compositor.Tiling
import ChefOs.User.Shell

/-!
# The main loop

The loop of `kmain`: a character from the keyboard is a shortcut of the desktop or goes to the
shell.  The digits from 1 to 4 and the space are shortcuts, so no command that the shell runs has
one of them.  What a command does and what a frame draws are parameters.
-/

namespace ChefOs

open Kit

/-- The characters' pixels, the commands, and `compositor_render_frame`. -/
structure DeskEnv where
  font : Font
  run : ShellCommand → Kernel → Kernel
  renderFrame : Scene → LayoutEngine → FbInfo → Scene × FbInfo

/-- What the main loop works on. -/
structure Desk where
  shell : Shell
  scene : Scene
  sLayout : LayoutEngine

/-- `mouse_state_t`, of the position. -/
structure MouseState where
  x : BitVec 32
  y : BitVec 32

/-- `compositor_render_frame`. -/
def Desk.render (env : DeskEnv) (s : Desk) : Desk :=
  let r := env.renderFrame s.scene s.sLayout s.shell.kernel.gFb
  { s with
    scene := r.1
    shell := { s.shell with kernel := { s.shell.kernel with gFb := r.2 } } }

/-- The branches of the main loop for a character. -/
def Desk.route (env : DeskEnv) (c : UInt8) (s : Desk) : Desk :=
  if 0x31 ≤ c ∧ c ≤ 0x34 then
    { s with scene := compositorSetWorkspace (c - 0x30).toBitVec s.scene }
  else if c = 0x20 then { s with sLayout := layoutCycleMode s.sLayout }
  else if c = 0x09 then { s with scene := compositorCycleFocus s.scene }
  else { s with shell := chefShellHandleChar env.font env.run c s.shell }

/-- `keyboard_get_last_char`. -/
def Desk.poll (s : Desk) : UInt8 × Desk :=
  let r := keyboardGetLastChar s.shell.kernel.fs
  (r.1, { s with shell := { s.shell with kernel := { s.shell.kernel with fs := r.2 } } })

/-- One round of the main loop of `kmain`. -/
def mainLoop (env : DeskEnv) (ms : MouseState) (s : Desk) : Desk :=
  let s := { s with scene := compositorSetMouse ms.x ms.y s.scene }
  let r := s.poll
  if r.1 ≠ 0 then (r.2.route env r.1).render env else r.2

/-- The interrupt of the keyboard. -/
def Desk.press (env : DeskEnv) (scancode : UInt8) (s : Desk) : Desk :=
  { s with shell := { s.shell with
      kernel := keyboardCallback env.font scancode s.shell.kernel } }

/-! ## One key -/

/-- The character belongs to a command line, but the main loop takes it. -/
def Shortcut (c : UInt8) : Prop := (0x31 ≤ c ∧ c ≤ 0x34) ∨ c = 0x20

instance (c : UInt8) : Decidable (Shortcut c) :=
  inferInstanceAs (Decidable ((0x31 ≤ c ∧ c ≤ 0x34) ∨ c = 0x20))

theorem Shortcut.printable {c : UInt8} (shortcut : Shortcut c) : 0x20 ≤ c ∧ c ≤ 0x7E := by
  rcases shortcut with ⟨low, high⟩ | rfl
  · exact ⟨UInt8.le_trans (by decide) low, UInt8.le_trans high (by decide)⟩
  · exact ⟨by decide, by decide⟩

/-- What reaches the shell of one more character. -/
def Typed.passChar (t : Typed) (c : UInt8) : Typed := if Shortcut c then t else t.typeChar c

/-- A control character other than Enter and backspace types nothing. -/
theorem Typed.typeChar_control (t : Typed) {c : UInt8} (control : c < 0x20) (enter : c ≠ 0x0A)
    (back : c ≠ 0x08) : t.typeChar c = t := by
  have unprintable : ¬ (t.line.length < 254 ∧ 0x20 ≤ c ∧ c ≤ 0x7E) := fun printable =>
    absurd control (UInt8.not_lt.mpr printable.2.1)
  rw [typeChar, if_neg enter, editLine, if_neg back, if_neg unprintable]

/-- The zero that a poll returns when no key is waiting types nothing. -/
theorem Typed.passChar_zero (t : Typed) : t.passChar 0 = t := by
  rw [passChar, if_neg (by decide), t.typeChar_control (by decide) (by decide) (by decide)]

/-- A shortcut is typed into a line that has room for it. -/
theorem Typed.passChar_eq_iff {t : Typed} (short : t.line.length ≤ 254) (c : UInt8) :
    t.passChar c = t.typeChar c ↔ (Shortcut c → t.line.length = 254) := by
  rw [passChar]
  by_cases shortcut : Shortcut c
  · have printable := shortcut.printable
    have enter : c ≠ 0x0A := ne_of_printable printable.1 (by decide)
    have back : c ≠ 0x08 := ne_of_printable printable.1 (by decide)
    rw [if_pos shortcut, typeChar, if_neg enter, editLine, if_neg back]
    by_cases room : t.line.length < 254
    · rw [if_pos ⟨room, printable⟩]
      refine iff_of_false (fun same => ?_) (fun full => room.ne (full shortcut))
      have := congrArg (fun t => t.line.length) same
      rw [List.length_append, List.length_singleton] at this
      omega
    · rw [if_neg (fun printable => room printable.1)]
      exact iff_of_true rfl fun _ => le_antisymm short (not_lt.mp room)
  · rw [if_neg shortcut]
    exact iff_of_true rfl fun hc => absurd hc shortcut

section

variable (env : DeskEnv) {s : Desk} {t : Typed}

theorem route_follows (follows : s.shell.Follows t) (c : UInt8) :
    (s.route env c).shell.Follows (t.passChar c) := by
  rw [Desk.route, Typed.passChar]
  by_cases digit : 0x31 ≤ c ∧ c ≤ 0x34
  · rw [if_pos digit, if_pos (show Shortcut c from .inl digit)]
    exact follows
  by_cases space : c = 0x20
  · rw [if_neg digit, if_pos space, if_pos (show Shortcut c from .inr space)]
    exact follows
  rw [if_neg digit, if_neg space, if_neg (show ¬ Shortcut c from not_or.mpr ⟨digit, space⟩)]
  by_cases tab : c = 0x09
  · rw [if_pos tab, tab, t.typeChar_control (by decide) (by decide) (by decide)]
    exact follows
  · rw [if_neg tab]
    exact follows.handleChar env.font env.run c

/-- A round of the main loop hands the waiting character on.  No character is waiting just when it
is zero, which types nothing. -/
theorem mainLoop_follows (follows : s.shell.Follows t) (ms : MouseState) :
    (mainLoop env ms s).shell.Follows (t.passChar s.shell.kernel.fs.sLastChar) := by
  by_cases none : s.shell.kernel.fs.sLastChar = 0
  · rw [mainLoop, Desk.poll, keyboardGetLastChar]
    dsimp only
    rw [if_neg (not_not_intro none), none, t.passChar_zero]
    exact follows.withKernel _
  · rw [mainLoop, Desk.poll, keyboardGetLastChar]
    dsimp only
    rw [if_pos none]
    refine Shell.Follows.withKernel (route_follows env ?_ _) _
    exact follows.withKernel _

/-- A key goes through the main loop. -/
theorem press_follows (follows : s.shell.Follows t) {scancode : UInt8}
    (make : scancode &&& 0x80 = 0) (char : kbdChar scancode ≠ 0) (ms : MouseState) :
    (mainLoop env ms (s.press env scancode)).shell.Follows (t.passChar (kbdChar scancode)) := by
  have last := keyboardCallback_sLastChar env.font s.shell.kernel make char
  have pressed : (s.press env scancode).shell.Follows t := follows.withKernel _
  have loop := mainLoop_follows env pressed ms
  rwa [Desk.press, last] at loop

end

/-! ## Typing -/

/-- The desk, and what was typed. -/
structure DeskSession where
  desk : Desk
  typed : Typed

/-- A key that the main loop polls, or a round of the main loop without a key. -/
inductive DeskEvent
  | key (scancode : UInt8) (ms : MouseState)
  | idle (ms : MouseState)

/-- One event.  The keys are make codes with a character, polled before the next is pressed. -/
inductive DeskStep (env : DeskEnv) : DeskSession → DeskEvent → DeskSession → Prop
  | key {s : Desk} {t : Typed} {scancode : UInt8} (make : scancode &&& 0x80 = 0)
      (char : kbdChar scancode ≠ 0) (ms : MouseState) :
      DeskStep env ⟨s, t⟩ (.key scancode ms)
        ⟨mainLoop env ms (s.press env scancode), t.typeChar (kbdChar scancode)⟩
  | idle {s : Desk} {t : Typed} (none : s.shell.kernel.fs.sLastChar = 0) (ms : MouseState) :
      DeskStep env ⟨s, t⟩ (.idle ms) ⟨mainLoop env ms s, t⟩

/-- The make code of Enter. -/
def enterKey : UInt8 := 0x1C

/-- If Enter is pressed now, the shell will have run the lines that were typed. -/
def DeskSession.RunsTyped (env : DeskEnv) (x : DeskSession) : Prop :=
  ∀ ms, (mainLoop env ms (x.desk.press env enterKey)).shell.handed =
    x.typed.lines ++ [x.typed.line]

/-- A shortcut is pressed only when the line is full. -/
def DeskEvent.Passes (x : DeskSession) : DeskEvent → Prop
  | .key scancode _ => Shortcut (kbdChar scancode) → x.typed.line.length = 254
  | .idle _ => True

/-- What reaches the shell of an event. -/
def DeskEvent.pass (t : Typed) : DeskEvent → Typed
  | .key scancode _ => t.passChar (kbdChar scancode)
  | .idle _ => t

section

variable {env : DeskEnv} {x y : DeskSession} {t : Typed}

theorem deskStep_follows {e : DeskEvent} (follows : x.desk.shell.Follows t)
    (step : DeskStep env x e y) : y.desk.shell.Follows (e.pass t) := by
  cases step with
  | key make char ms => exact press_follows env follows make char ms
  | idle none ms =>
    have loop := mainLoop_follows env follows ms
    rwa [none, t.passChar_zero] at loop

/-- What reached the shell of the events of a run. -/
theorem run_follows {es : List DeskEvent} (follows : x.desk.shell.Follows t)
    (run : Run (DeskStep env) x es y) :
    y.desk.shell.Follows (es.foldl (fun t e => e.pass t) t) := by
  induction run generalizing t with
  | nil x => exact follows
  | cons first rest ih => exact ih (deskStep_follows follows first)

theorem runsTyped_iff (follows : x.desk.shell.Follows t) : x.RunsTyped env ↔ t = x.typed := by
  have enter : ∀ ms, (mainLoop env ms (x.desk.press env enterKey)).shell.handed =
      t.lines ++ [t.line] := fun ms =>
    (press_follows env follows (by decide) (by decide) ms).handed
  constructor
  · intro runs
    have same := (enter ⟨0, 0⟩).symm.trans (runs ⟨0, 0⟩)
    obtain ⟨lines, line⟩ := List.append_inj' same rfl
    cases t
    cases x
    cases List.singleton_injective line
    cases lines
    rfl
  · rintro rfl
    exact enter

theorem deskStep_runsTyped_iff {e : DeskEvent} (follows : x.desk.shell.Follows x.typed)
    (step : DeskStep env x e y) : y.RunsTyped env ↔ e.Passes x := by
  rw [runsTyped_iff (deskStep_follows follows step)]
  cases step with
  | key make char ms => exact Typed.passChar_eq_iff follows.holds.short _
  | idle none ms => exact iff_of_true rfl trivial

/-- The shell runs what is typed in every state of a run just when no shortcut of the run was typed
into its line. -/
theorem deskRun_iff {es : List DeskEvent} (start : x.desk.shell.Follows x.typed) :
    Run (fun x e y => DeskStep env x e y ∧ y.RunsTyped env) x es y ↔
      Run (fun x e y => DeskStep env x e y ∧ e.Passes x) x es y := by
  apply Run.iff_of_step_iff (I := fun x => x.desk.shell.Follows x.typed)
  · intro x e y follows
    apply and_congr_right
    exact deskStep_runsTyped_iff follows
  · rintro x e y follows ⟨step, runs⟩
    have follows' := deskStep_follows follows step
    exact (runsTyped_iff follows').mp runs ▸ follows'
  · exact start

end

/-! ## Command lines -/

/-- A text that the keyboard and the line have room for. -/
structure CommandLine (line : List UInt8) : Prop where
  keys : ∀ c ∈ line, c ∈ kbdUs
  printable : ∀ c ∈ line, 0x20 ≤ c ∧ c ≤ 0x7E
  short : line.length ≤ 254

theorem commandLine_of_all {line : List UInt8}
    (all : (line.all fun c => kbdUs.contains c && (decide (0x20 ≤ c) && decide (c ≤ 0x7E))) = true)
    (short : line.length ≤ 254) : CommandLine line := by
  have char : ∀ c ∈ line, c ∈ kbdUs ∧ 0x20 ≤ c ∧ c ≤ 0x7E := by simpa using all
  exact ⟨fun c hc => (char c hc).1, fun c hc => (char c hc).2, short⟩

/-- The desk before a line is typed. -/
def Desk.session (s : Desk) : DeskSession := ⟨s, ⟨s.shell.handed, []⟩⟩

/-- Some keys make the shell run the line. -/
def CanEnter (env : DeskEnv) (s : Desk) (line : List UInt8) : Prop :=
  ∃ es y, Run (DeskStep env) s.session es y ∧
    y.desk.shell.handed = s.shell.handed ++ [line]

/-- No character of the line is a shortcut. -/
def NoShortcut (line : List UInt8) : Prop := ∀ c ∈ line, ¬ Shortcut c

instance (line : List UInt8) : Decidable (NoShortcut line) :=
  List.decidableBAll (fun c => ¬ Shortcut c) line

/-- No shortcut was typed since the shell had run the first lines. -/
def Typed.Plain (first : List (List UInt8)) (t : Typed) : Prop :=
  (∃ lines, t.lines = first ++ lines ∧ ∀ line ∈ lines, NoShortcut line) ∧ NoShortcut t.line

theorem NoShortcut.editLine {line : List UInt8} (plain : NoShortcut line) {c : UInt8}
    (char : ¬ Shortcut c) : NoShortcut (editLine line c) := by
  rw [ChefOs.editLine]
  split_ifs with back printable
  · exact fun b mem => plain b (List.mem_of_mem_dropLast mem)
  · intro b mem
    rcases List.mem_append.mp mem with old | new
    · exact plain b old
    · exact List.mem_singleton.mp new ▸ char
  · exact plain

theorem Typed.Plain.passChar {first : List (List UInt8)} {t : Typed} (plain : t.Plain first)
    (c : UInt8) : (t.passChar c).Plain first := by
  obtain ⟨⟨lines, split, entered⟩, typing⟩ := plain
  rw [Typed.passChar, Typed.typeChar]
  split_ifs with shortcut enter
  · exact ⟨⟨lines, split, entered⟩, typing⟩
  · refine ⟨⟨lines ++ [t.line], by rw [split, List.append_assoc], fun line mem => ?_⟩,
      fun c mem => absurd mem List.not_mem_nil⟩
    rcases List.mem_append.mp mem with old | new
    · exact entered line old
    · exact List.mem_singleton.mp new ▸ typing
  · exact ⟨⟨lines, split, entered⟩, typing.editLine shortcut⟩

theorem exists_key {c : UInt8} (key : c ∈ kbdUs) :
    ∃ scancode, scancode &&& 0x80 = 0 ∧ kbdChar scancode = c := by
  have length : kbdUs.length = 128 := rfl
  have make : ∀ i : Fin 128, UInt8.ofNat i &&& 0x80 = 0 := by decide +kernel
  obtain ⟨i, bound, rfl⟩ := List.mem_iff_getElem.mp key
  refine ⟨.ofNat i, make ⟨i, length ▸ bound⟩, ?_⟩
  have small : (UInt8.ofNat i).toNat = i :=
    UInt8.toNat_ofNat_of_lt' ((length ▸ bound).trans (by decide))
  rw [kbdChar, small, List.getD_eq_getElem?_getD, List.getElem?_eq_getElem bound, Option.getD_some]

section

variable (env : DeskEnv)

/-- A line is entered by its keys and Enter. -/
theorem exists_enter {x : DeskSession} {lines : List (List UInt8)} {line rest : List UInt8}
    (follows : x.desk.shell.Follows ⟨lines, line⟩) (command : CommandLine rest)
    (room : line.length + rest.length ≤ 254) (plain : NoShortcut rest) :
    ∃ es y, Run (DeskStep env) x es y ∧ y.desk.shell.handed = lines ++ [line ++ rest] := by
  induction rest generalizing x line with
  | nil =>
    have enter := @press_follows env _ _ follows enterKey (by decide) (by decide) ⟨0, 0⟩
    rw [List.append_nil]
    exact ⟨_, _, .cons (.key (by decide) (by decide) ⟨0, 0⟩) (.nil _), enter.handed⟩
  | cons c rest ih =>
    obtain ⟨key, printable, short⟩ := command
    obtain ⟨char, keys⟩ := List.forall_mem_cons.mp key
    obtain ⟨shown, printable⟩ := List.forall_mem_cons.mp printable
    obtain ⟨passed, plain⟩ := List.forall_mem_cons.mp plain
    rw [List.length_cons] at room short
    obtain ⟨scancode, make, pressed⟩ := exists_key char
    have enter : c ≠ 0x0A := ne_of_printable shown.1 (by decide)
    have back : c ≠ 0x08 := ne_of_printable shown.1 (by decide)
    have some : c ≠ 0 := ne_of_printable shown.1 (by decide)
    have next := press_follows env follows make (pressed ▸ some) ⟨0, 0⟩
    rw [pressed, Typed.passChar, if_neg passed, Typed.typeChar, if_neg enter, editLine,
      if_neg back, if_pos ⟨show line.length < 254 by omega, shown⟩] at next
    dsimp only at next
    obtain ⟨es, y, run, handed⟩ := ih (x := ⟨_, x.typed.typeChar (kbdChar scancode)⟩) next
      ⟨keys, printable, by omega⟩ (by rw [List.length_append, List.length_singleton]; omega) plain
    refine ⟨_, y, .cons (.key make (pressed ▸ some) ⟨0, 0⟩) run, ?_⟩
    rw [handed, List.append_assoc, List.singleton_append]

/-- The command lines that can be entered are those without a shortcut. -/
theorem canEnter_iff {s : Desk} {line : List UInt8} (holds : s.shell.Holds [])
    (command : CommandLine line) : CanEnter env s line ↔ NoShortcut line := by
  have start : s.session.desk.shell.Follows s.session.typed := ⟨holds, rfl⟩
  constructor
  · rintro ⟨es, y, run, handed⟩
    have invariant := run.invariant
      (I := fun x => ∃ t, x.desk.shell.Follows t ∧ t.Plain s.shell.handed) ?_
      ⟨_, start, ⟨[], (List.append_nil _).symm, fun _ mem => absurd mem List.not_mem_nil⟩,
        fun _ mem => absurd mem List.not_mem_nil⟩
    · obtain ⟨t, follows, ⟨lines, split, entered⟩, -⟩ := invariant
      have same : lines = [line] := by
        rw [← follows.handed, handed] at split
        exact (List.append_cancel_left split).symm
      exact entered line (same ▸ List.mem_singleton_self line)
    · rintro x e y ⟨t, follows, plain⟩ step
      refine ⟨e.pass t, deskStep_follows follows step, ?_⟩
      cases e with
      | key scancode ms => exact plain.passChar _
      | idle ms => exact plain
  · intro plain
    have room : ([] : List UInt8).length + line.length ≤ 254 := by
      rw [List.length_nil, Nat.zero_add]
      exact command.short
    obtain ⟨es, y, run, handed⟩ := exists_enter env start command room plain
    exact ⟨es, y, run, handed⟩

end

/-- From an empty line on, the shell runs what is typed in every state of a run just when no
shortcut of the run was typed into its line, and the command lines that can be entered are those
without a shortcut. -/
theorem mainLoop_runsTyped_iff (env : DeskEnv) {s : Desk} (holds : s.shell.Holds []) :
    (∀ es y, Run (fun x e y => DeskStep env x e y ∧ y.RunsTyped env) s.session es y ↔
      Run (fun x e y => DeskStep env x e y ∧ e.Passes x) s.session es y) ∧
    ∀ line, CommandLine line → (CanEnter env s line ↔ NoShortcut line) :=
  ⟨fun _ _ => deskRun_iff ⟨holds, rfl⟩, fun _ command => canEnter_iff env holds command⟩

/-- A desk without registered windows and without a framebuffer. -/
def emptyDesk : Desk where
  shell := chefShellInit (fun _ _ => 0) ⟨quietKernel, [], 0, []⟩
  scene := ⟨exampleDesktop, fun _ => [0], compositorInit none⟩
  sLayout := layoutInit

/-- A frame of such a desk draws nothing. -/
def emptyEnv : DeskEnv where
  font _ _ := 0
  run _ s := s
  renderFrame scene _ g := ({ scene with sComp := { scene.sComp with needsRedraw := false } }, g)

/-- The keys of `l` and `s`. -/
theorem mainLoop_runsTyped_example :
    (∃ y, Run (fun x e y => DeskStep emptyEnv x e y ∧ y.RunsTyped emptyEnv) emptyDesk.session
      [.key 0x26 ⟨0, 0⟩, .key 0x1F ⟨5, 5⟩] y ∧ y.typed.line = text "ls") ∧
    CanEnter emptyEnv emptyDesk (text "ls") := by
  have holds : emptyDesk.shell.Holds [] := chefShellInit_holds _ _
  obtain ⟨runs, enters⟩ := mainLoop_runsTyped_iff emptyEnv holds
  constructor
  · have run : ∃ y, Run (fun x e y => DeskStep emptyEnv x e y ∧ e.Passes x) emptyDesk.session
        [.key 0x26 ⟨0, 0⟩, .key 0x1F ⟨5, 5⟩] y ∧ y.typed.line = text "ls" :=
      ⟨_, .cons ⟨.key (by decide) (by decide) _, fun hc => absurd hc (by decide)⟩
        (.cons ⟨.key (by decide) (by decide) _, fun hc => absurd hc (by decide)⟩ (.nil _)),
        by decide⟩
    obtain ⟨y, run, line⟩ := run
    exact ⟨y, (runs _ _).mpr run, line⟩
  · exact (enters _ (commandLine_of_all (by decide) (by decide))).mpr (by decide)

/-- The keys of `cat /etc`. -/
def catKeys : List DeskEvent :=
  [0x2E, 0x1E, 0x14, 0x39, 0x35, 0x12, 0x14, 0x2E].map fun scancode => .key scancode ⟨0, 0⟩

/-- The space of `cat /etc` turns to the next layout, and no keys enter this command. -/
theorem cat_not_entered :
    (∃ y, Run (DeskStep emptyEnv) emptyDesk.session catKeys y ∧
      y.typed.line = text "cat /etc" ∧ ¬ y.RunsTyped emptyEnv) ∧
    ¬ CanEnter emptyEnv emptyDesk (text "cat /etc") := by
  have holds : emptyDesk.shell.Holds [] := chefShellInit_holds _ _
  constructor
  · have run : ∃ y, Run (DeskStep emptyEnv) emptyDesk.session catKeys y ∧
        y.typed = ⟨[], text "cat /etc"⟩ :=
      ⟨_, .cons (.key (by decide) (by decide) _) (.cons (.key (by decide) (by decide) _)
        (.cons (.key (by decide) (by decide) _) (.cons (.key (by decide) (by decide) _)
        (.cons (.key (by decide) (by decide) _) (.cons (.key (by decide) (by decide) _)
        (.cons (.key (by decide) (by decide) _) (.cons (.key (by decide) (by decide) _)
        (.nil _)))))))), by decide⟩
    obtain ⟨y, run, typed⟩ := run
    refine ⟨y, run, congrArg Typed.line typed, fun runs => ?_⟩
    have follows := run_follows (t := ⟨[], []⟩) ⟨holds, rfl⟩ run
    have same := (runsTyped_iff follows).mp runs
    rw [typed] at same
    exact absurd same (by decide)
  · rw [canEnter_iff emptyEnv holds (commandLine_of_all (by decide) (by decide))]
    decide

end ChefOs
