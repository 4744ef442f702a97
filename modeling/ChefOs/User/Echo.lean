import ChefOs.Sys.Formats
import ChefOs.User.Shell
import ChefOs.Video.Console

/-!
# The echo of the line

The shell prints a character that it appends to the line, and a backspace, a space and a backspace
for one that it takes off.  `fb_putc` draws a backspace like any other character, so on the screen
the cursor only moves on.
-/

namespace ChefOs

open Kit

/-! ## The cursor behind a text -/

/-- Where there is room in the line, a character moves the cursor on by a column. -/
theorem fbPutc_cursor (font : Font) {g : FbInfo} {c : UInt8} (notNewline : c ≠ 0x0A)
    (room : (g.cursorX + 8).toNat < sub64 g.width 40) :
    (fbPutc font c g).cursorX = g.cursorX + 8 ∧ (fbPutc font c g).cursorY = g.cursorY := by
  have same : g.wrap = g := if_neg (Nat.not_le.mpr room)
  rw [fbPutc_stores font g notNewline, same]
  exact ⟨rfl, rfl⟩

/-- Elsewhere it moves the cursor to the next line. -/
theorem fbPutc_wraps (font : Font) {g : FbInfo} {c : UInt8} (notNewline : c ≠ 0x0A)
    (full : ¬ (g.cursorX + 8).toNat < sub64 g.width 40) :
    (fbPutc font c g).cursorY = g.cursorY + 18 := by
  have wrapped : g.wrap = g.newLine := if_pos (Nat.not_lt.mp full)
  rw [fbPutc_stores font g notNewline, wrapped]
  rfl

/-- Without a newline the cursor moves on by a column for each character, unless a line is
wrapped. -/
theorem fbPuts_cursor (font : Font) {str : List UInt8} (noNewline : 0x0A ∉ str) (g : FbInfo) :
    ∃ wraps ≤ str.length, (fbPuts font str g).cursorY = g.cursorY + .ofNat 32 (18 * wraps) ∧
      (wraps = 0 → (fbPuts font str g).cursorX = g.cursorX + .ofNat 32 (8 * str.length)) := by
  induction str generalizing g with
  | nil => exact ⟨0, le_rfl, by simp [fbPuts], by simp [fbPuts]⟩
  | cons c str ih =>
    have notNewline : c ≠ 0x0A := (List.ne_of_not_mem_cons noNewline).symm
    obtain ⟨wraps, le, y, x⟩ := ih (List.not_mem_of_not_mem_cons noNewline) (fbPutc font c g)
    have later : fbPuts font (c :: str) g = fbPuts font str (fbPutc font c g) := rfl
    have next (p : BitVec 32) (k n : ℕ) :
        p + .ofNat 32 (k * (n + 1)) = p + .ofNat 32 k + .ofNat 32 (k * n) := by
      rw [Nat.mul_succ, Nat.add_comm, BitVec.ofNat_add, ← BitVec.add_assoc]
    rw [later, List.length_cons]
    by_cases room : (g.cursorX + 8).toNat < sub64 g.width 40
    · obtain ⟨x', y'⟩ := fbPutc_cursor font notNewline room
      rw [x'] at x
      rw [y'] at y
      refine ⟨wraps, Nat.le_succ_of_le le, y, fun none => (x none).trans ?_⟩
      exact (next ..).symm
    · rw [fbPutc_wraps font notNewline room] at y
      refine ⟨wraps + 1, Nat.succ_le_succ le, y.trans ?_, fun none => absurd none (by simp)⟩
      exact (next ..).symm

/-! ## The cursor and the line -/

/-- The cursor is behind the line, when the prompt left it where `prompt` has it. -/
structure Shell.Shows (prompt : FbInfo) (s : Shell) : Prop where
  x : s.kernel.gFb.cursorX = prompt.cursorX + .ofNat 32 (8 * s.sInputLen)
  y : s.kernel.gFb.cursorY = prompt.cursorY

section

variable {font : Font} {run : ShellCommand → Kernel → Kernel} {prompt : FbInfo} {s : Shell}
  {line : List UInt8}

theorem Kernel.print_gFb (t : List UInt8) (s : Kernel) :
    (s.print font t).gFb = fbSwap (fbPuts font t s.gFb) := by
  rw [Kernel.print, foldl_printChar]
  rfl

/-- A call of the line editor other than for Enter leaves the size of the screen. -/
theorem chefShellHandleChar_width {c : UInt8} (notEnter : c ≠ 0x0A) :
    (chefShellHandleChar font run c s).kernel.gFb.width = s.kernel.gFb.width := by
  have size : s.kernel.gFb.Sized s.kernel.gFb.width s.kernel.gFb.height := ⟨rfl, rfl⟩
  rw [chefShellHandleChar, if_neg notEnter]
  split_ifs
  · change (s.kernel.print font _).gFb.width = _
    rw [Kernel.print_gFb]
    exact (size.puts font _).swap.width
  · rfl
  · exact (size.putc font c).swap.width
  · rfl

/-- Behind a line that is shown there is room for one more character, in front of the wrap
column. -/
theorem Shell.Shows.room (shows : s.Shows prompt) (width : s.kernel.gFb.width = prompt.width)
    (fits : prompt.cursorX.toNat + 8 * (s.sInputLen + 1) < sub64 prompt.width 40) :
    (s.kernel.gFb.cursorX + 8).toNat < sub64 s.kernel.gFb.width 40 := by
  rw [shows.x, width, BitVec.toNat_add, BitVec.toNat_add, BitVec.toNat_ofNat]
  apply lt_of_le_of_lt _ fits
  change (_ + 8) % 2 ^ 32 ≤ _
  omega

/-- A character that does not take one off the line is echoed as it should be. -/
theorem Shell.Shows.echo (shows : s.Shows prompt) (holds : s.Holds line)
    (width : s.kernel.gFb.width = prompt.width) {c : UInt8} (notEnter : c ≠ 0x0A)
    (keeps : c = 0x08 → line = [])
    (fits : prompt.cursorX.toNat + 8 * (editLine line c).length < sub64 prompt.width 40) :
    (chefShellHandleChar font run c s).Shows prompt := by
  rw [chefShellHandleChar, if_neg notEnter]
  rw [editLine] at fits
  by_cases back : c = 0x08
  · have len : s.sInputLen = 0 := by rw [holds.len, keeps back, List.length_nil]
    rw [if_pos back, if_neg (by omega)]
    exact shows
  · rw [if_neg back] at fits ⊢
    rw [← holds.len] at fits
    by_cases room : s.sInputLen < 254 ∧ 0x20 ≤ c ∧ c ≤ 0x7E
    · rw [if_pos room] at fits ⊢
      rw [List.length_append, ← holds.len, List.length_singleton] at fits
      obtain ⟨moved, stayed⟩ := fbPutc_cursor font notEnter (shows.room width fits)
      obtain ⟨x, y⟩ := fbSwap_cursor (fbPutc font c s.kernel.gFb)
      constructor
      · apply (x.trans moved).trans
        rw [shows.x, Nat.mul_succ, BitVec.ofNat_add, ← BitVec.add_assoc]
        rfl
      · exact (y.trans stayed).trans shows.y
    · rw [if_neg room]
      exact shows

/-- The echo of a deletion moves the cursor on. -/
theorem Shell.Shows.erase (shows : s.Shows prompt) (holds : s.Holds line) (some : line ≠ []) :
    ¬ (chefShellHandleChar font run 0x08 s).Shows prompt := by
  have pos : s.sInputLen > 0 := by
    rw [holds.len]
    exact List.length_pos_of_ne_nil some
  rw [chefShellHandleChar, if_neg (by decide), if_pos rfl, if_pos pos]
  have noNewline : 0x0A ∉ ([0x08, 0x20, 0x08] : List UInt8) := by decide
  obtain ⟨wraps, le, cursorY, cursorX⟩ := fbPuts_cursor font noNewline s.kernel.gFb
  obtain ⟨swapX, swapY⟩ := fbSwap_cursor (fbPuts font [0x08, 0x20, 0x08] s.kernel.gFb)
  rintro ⟨x, y⟩
  change (s.kernel.print font _).gFb.cursorX = _ + .ofNat 32 (8 * (s.sInputLen - 1)) at x
  change (s.kernel.print font _).gFb.cursorY = _ at y
  rw [Kernel.print_gFb] at x y
  rw [swapX] at x
  rw [swapY, cursorY, shows.y] at y
  have unwrapped : wraps = 0 := by
    have few : wraps ≤ 3 := le
    apply_fun BitVec.toNat at y
    rw [BitVec.toNat_add, BitVec.toNat_ofNat] at y
    omega
  rw [cursorX unwrapped, shows.x, BitVec.add_assoc, BitVec.add_right_inj, ← BitVec.ofNat_add] at x
  apply_fun BitVec.toNat at x
  rw [BitVec.toNat_ofNat, BitVec.toNat_ofNat] at x
  change (_ + 8 * 3) % 2 ^ 32 = _ at x
  omega

end

/-! ## Lines without deletions -/

/-- No backspace finds a character to take off. -/
def NothingErased (cs : List UInt8) : Prop :=
  ∀ before, before ++ [0x08] <+: cs → before.foldl editLine [] = []

theorem NothingErased.of_prefix {cs before : List UInt8} (nothing : NothingErased cs)
    (part : before <+: cs) : NothingErased before := fun _ earlier =>
  nothing _ (earlier.trans part)

theorem editLine_printable {c : UInt8} (printable : 0x20 ≤ c ∧ c ≤ 0x7E) (line : List UInt8) :
    editLine line c ≠ [] := by
  rw [editLine, if_neg (ne_of_printable printable.1 (by decide))]
  split_ifs with room
  · simp
  · rintro rfl
    exact room ⟨by simp, printable⟩

/-- Control characters leave an empty line empty. -/
theorem foldl_editLine_nil {cs : List UInt8} (silent : ∀ c ∈ cs, ¬ (0x20 ≤ c ∧ c ≤ 0x7E)) :
    cs.foldl editLine [] = [] := by
  induction cs with
  | nil => rfl
  | cons c cs ih =>
    obtain ⟨here, later⟩ := List.forall_mem_cons.mp silent
    have empty : editLine [] c = [] := by
      rw [editLine]
      split_ifs with back room
      · rfl
      · exact absurd room.2 here
      · rfl
    rw [List.foldl_cons, empty]
    exact ih later

/-- A line from which nothing is erased is empty only as long as nothing printable is typed. -/
theorem NothingErased.silent {cs : List UInt8} (nothing : NothingErased cs)
    (empty : cs.foldl editLine [] = []) : ∀ c ∈ cs, ¬ (0x20 ≤ c ∧ c ≤ 0x7E) := by
  induction cs using List.reverseRecOn with
  | nil => simp
  | append_singleton cs c ih =>
    rw [List.foldl_append, List.foldl_cons, List.foldl_nil] at empty
    have other : ¬ (0x20 ≤ c ∧ c ≤ 0x7E) := fun printable => editLine_printable printable _ empty
    have before : cs.foldl editLine [] = [] := by
      by_cases back : c = 0x08
      · apply nothing
        rw [back]
      · rwa [editLine, if_neg back, if_neg fun room => other room.2] at empty
    rw [List.forall_mem_append, List.forall_mem_singleton]
    exact ⟨ih (nothing.of_prefix (List.prefix_append ..)) before, other⟩

/-- Nothing is erased just when no backspace comes behind a printable character. -/
theorem nothingErased_iff {cs : List UInt8} :
    NothingErased cs ↔
      ∀ before, before ++ [0x08] <+: cs → ∀ c ∈ before, ¬ (0x20 ≤ c ∧ c ≤ 0x7E) := by
  constructor
  · intro nothing before back
    have earlier := nothing.of_prefix ((List.prefix_append ..).trans back)
    exact earlier.silent (nothing before back)
  · intro silent before back
    exact foldl_editLine_nil (silent before back)

/-! ## Runs after a prompt -/

section

variable {font : Font} {run : ShellCommand → Kernel → Kernel} {s : Shell} {cs : List UInt8}

theorem chefShellRun_holds (font : Font) (run : ShellCommand → Kernel → Kernel)
    (holds : s.Holds []) (notEnter : 0x0A ∉ cs) :
    (chefShellRun font run cs s).Holds (cs.foldl editLine []) := by
  have follows : s.Follows ⟨s.handed, []⟩ := ⟨holds, rfl⟩
  have typed := follows.typed font run cs
  rw [foldl_typeChar notEnter] at typed
  exact typed.holds

theorem chefShellRun_append (before : List UInt8) (c : UInt8) :
    chefShellRun font run (before ++ [c]) s =
      chefShellHandleChar font run c (chefShellRun font run before s) := by
  rw [chefShellRun, List.foldl_append]
  rfl

theorem chefShellRun_width (notEnter : 0x0A ∉ cs) :
    (chefShellRun font run cs s).kernel.gFb.width = s.kernel.gFb.width := by
  induction cs using List.reverseRecOn with
  | nil => rfl
  | append_singleton cs c ih =>
    rw [List.mem_append, not_or, List.mem_singleton] at notEnter
    rw [chefShellRun_append, chefShellHandleChar_width (Ne.symm notEnter.2), ih notEnter.1]

/-- The line does not reach the column at which it would be wrapped. -/
def Shell.LineFits (s : Shell) (cs : List UInt8) : Prop :=
  ∀ before, before <+: cs →
    s.kernel.gFb.cursorX.toNat + 8 * (before.foldl editLine []).length <
      sub64 s.kernel.gFb.width 40

/-- The cursor stays behind the line just when nothing is erased. -/
theorem Shell.Holds.shows_iff (holds : s.Holds []) (notEnter : 0x0A ∉ cs) (fits : s.LineFits cs) :
    (∀ before, before <+: cs → (chefShellRun font run before s).Shows s.kernel.gFb) ↔
      NothingErased cs := by
  constructor
  · intro shows before back
    by_contra some
    have part : before <+: cs := (List.prefix_append ..).trans back
    have held := chefShellRun_holds font run holds fun mem => notEnter (part.subset mem)
    apply (shows before part).erase held some
    rw [← chefShellRun_append]
    exact shows _ back
  · intro nothing before part
    induction before using List.reverseRecOn with
    | nil => exact ⟨by simp [holds.len, chefShellRun], rfl⟩
    | append_singleton before c ih =>
      have earlier : before <+: cs := (List.prefix_append ..).trans part
      have noEnter : 0x0A ∉ before := fun mem => notEnter (earlier.subset mem)
      have held := chefShellRun_holds font run holds noEnter
      rw [chefShellRun_append]
      apply (ih earlier).echo held (chefShellRun_width noEnter)
      · rintro rfl
        exact notEnter (part.subset (by simp))
      · rintro rfl
        exact nothing before part
      · have fits := fits _ part
        rwa [List.foldl_append] at fits

/-- After a prompt, in a line that is not wrapped, the cursor is always 8 pixels for each character
of the line to the right of the prompt's end just when no backspace is typed behind a printable
character.  The characters are printed with `kprintf("%c", c)`. -/
theorem echo_shows_iff (font : Font) (run : ShellCommand → Kernel → Kernel) (start : Shell)
    {history cs : List UInt8} (prompted : history = [] ∨ ∃ b, history = b ++ [0x0A])
    (notEnter : 0x0A ∉ cs)
    (fits : (chefShellRun font run history (chefShellInit font start)).LineFits cs) :
    let s := chefShellRun font run history (chefShellInit font start)
    ((∀ before, before <+: cs → (chefShellRun font run before s).Shows s.kernel.gFb) ↔
      ∀ before, before ++ [0x08] <+: cs → ∀ c ∈ before, ¬ (0x20 ≤ c ∧ c ≤ 0x7E)) ∧
    ∀ mem c (k : Kernel),
      k.kprintf font mem (text "%c" ++ [0]) [c] = some (k.printC font ⟨c.setWidth 8⟩) := by
  intro s
  refine ⟨?_, Kernel.kprintf_printC font⟩
  have typed := ((chefShellInit_follows font start).typed font run history).holds
  have empty := foldl_typeChar_line (t := ⟨start.handed, []⟩) rfl prompted List.not_mem_nil
  rw [List.append_nil] at empty
  rw [empty] at typed
  rw [← nothingErased_iff]
  exact typed.shows_iff notEnter fits

end

/-- A shell before its first prompt, on the smallest screen. -/
def quietShell : Shell := ⟨{ quietKernel with gFb := blankScreen 640 480 }, [], 0, []⟩

/-- A backspace that erases nothing, and two letters. -/
theorem echo_shows_example :
    let s := chefShellRun (fun _ _ => 0) (fun _ s => s) []
      (chefShellInit (fun _ _ => 0) quietShell)
    ∀ before, before <+: [0x08, 0x61, 0x62] →
      (chefShellRun (fun _ _ => 0) (fun _ s => s) before s).Shows s.kernel.gFb := by
  have fits : (chefShellRun (fun _ _ => 0) (fun _ s => s) []
      (chefShellInit (fun _ _ => 0) quietShell)).LineFits [0x08, 0x61, 0x62] := by
    intro before part
    revert before
    simp only [← List.mem_inits]
    decide +kernel
  refine (echo_shows_iff _ _ quietShell (.inl rfl) (by decide) fits).1.mpr fun before part => ?_
  -- the only backspace is the first character
  rcases before with _ | ⟨c, before⟩
  · simp
  · obtain ⟨-, rest⟩ := List.cons_prefix_cons.mp part
    have erases := rest.subset (List.mem_append_right before List.mem_cons_self)
    simp at erases

theorem quietShell_fits :
    (chefShellRun (fun _ _ => 0) (fun _ s => s) []
      (chefShellInit (fun _ _ => 0) quietShell)).LineFits [0x61, 0x08] := by
  intro before part
  revert before
  simp only [← List.mem_inits]
  decide +kernel

/-- After a letter and a backspace the cursor is four columns behind the empty line. -/
theorem backspace_moves_on :
    ¬ ∀ (font : Font) (run : ShellCommand → Kernel → Kernel) (start : Shell)
      (history cs : List UInt8), (history = [] ∨ ∃ b, history = b ++ [0x0A]) → 0x0A ∉ cs →
        (chefShellRun font run history (chefShellInit font start)).LineFits cs →
          let s := chefShellRun font run history (chefShellInit font start)
          (chefShellRun font run cs s).Shows s.kernel.gFb := by
  intro claim
  have shows := claim (fun _ _ => 0) (fun _ s => s) quietShell [] [0x61, 0x08] (.inl rfl)
    (by decide) quietShell_fits
  exact absurd shows.x (by decide +kernel)

end ChefOs
