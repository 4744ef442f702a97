import ChefOs.Drivers.Keyboard

/-!
# The shell

`user/shell.c`: the line editor and the commands.  What the commands do that print more than a fixed
answer is a parameter; none of them touches the line.
-/

namespace ChefOs

/-! ## Commands -/

/-- The branches of `chef_shell_execute_cmd`, with their arguments. -/
inductive ShellCommand
  | help
  | uname
  | clear
  | ls
  | cat (path : List UInt8)
  | ps
  | services
  | mem
  | date
  | echo (arguments : List UInt8)
  | reboot
  | poweroff
  | notFound (cmdline : List UInt8)
deriving DecidableEq

/-- The branch that `chef_shell_execute_cmd` takes for a string. -/
def shellCommand (cmdline : List UInt8) : Option ShellCommand :=
  let cmdline := cmdline.dropWhile (· = 0x20)
  if cmdline = [] then none
  else if cmdline = text "help" then some .help
  else if cmdline = text "uname" then some .uname
  else if cmdline = text "clear" then some .clear
  else if cmdline = text "ls" then some .ls
  else if text "cat " <+: cmdline then some (.cat (cmdline.drop 4))
  else if cmdline = text "ps" then some .ps
  else if cmdline = text "services" then some .services
  else if cmdline = text "mem" then some .mem
  else if cmdline = text "date" then some .date
  else if text "echo " <+: cmdline then some (.echo (cmdline.drop 5))
  else if cmdline = text "reboot" then some .reboot
  else if cmdline = text "poweroff" then some .poweroff
  else some (.notFound cmdline)

/-- `kprintf` of a text without conversions. -/
def Kernel.print (font : Font) (s : Kernel) (t : List UInt8) : Kernel :=
  (t.foldl (Kernel.printChar font) s).swap

/-- `kprintf` of a text with one `%s`. -/
def Kernel.printS (font : Font) (before str after : List UInt8) (s : Kernel) : Kernel :=
  let s := before.foldl (Kernel.printChar font) s
  let s := str.foldl (Kernel.printChar font) s
  (after.foldl (Kernel.printChar font) s).swap

/-- The answer to `help`. -/
def helpLines : List String :=
  ["Available Built-in Commands:\n",
    "  help     - Display this command manual\n",
    "  uname    - Show OS version and system architecture\n",
    "  clear    - Clear the kernel console screen\n",
    "  ls       - List directory contents\n",
    "  cat      - Display contents of a text file\n",
    "  ps       - List running processes and memory footprint\n",
    "  services - List active system services managed by init\n",
    "  mem      - Display physical memory utilization\n",
    "  date     - Show current CMOS real-time clock timestamp\n",
    "  echo     - Print text arguments to console\n",
    "  reboot   - Reboot the machine\n",
    "  poweroff - Shut down system\n"]

/-- The answer to `ls`. -/
def lsLines : List String :=
  ["  Directory of /\n",
    "  drwxr-xr-x   bin\n",
    "  drwxr-xr-x   dev\n",
    "  drwxr-xr-x   etc\n",
    "  drwxr-xr-x   home\n"]

/-- `chef_shell_execute_cmd`, where `run` does what the commands with more than an answer do. -/
def chefShellExecuteCmd (font : Font) (run : ShellCommand → Kernel → Kernel)
    (cmdline : List UInt8) (s : Kernel) : Kernel :=
  match shellCommand cmdline with
  | none => s
  | some .help => (helpLines.map text).foldl (Kernel.print font) s
  | some .uname =>
    s.print font (text "Chef OS 1.0.0-alpha x86_64 Higher-Half (Codename: Warm Parchment)\n")
  | some .ls => (lsLines.map text).foldl (Kernel.print font) s
  | some (.echo arguments) => s.printS font [] arguments (text "\n")
  | some (.notFound cmdline) =>
    s.printS font (text "chef-sh: command not found: ") cmdline
      (text " (type 'help' for commands)\n")
  | some command => run command s

/-! ## The line editor -/

/-- The kernel, the static variables of `shell.c`, and the strings handed to
`chef_shell_execute_cmd` so far. -/
structure Shell where
  kernel : Kernel
  sInputBuf : List UInt8
  sInputLen : ℕ
  handed : List (List UInt8)

/-- `kprintf` of a text without conversions. -/
def Shell.print (font : Font) (t : List UInt8) (s : Shell) : Shell :=
  { s with kernel := s.kernel.print font t }

/-- `chef_shell_init`. -/
def chefShellInit (font : Font) (s : Shell) : Shell :=
  Shell.print font (text "chef-os> ")
    { s with sInputBuf := List.replicate 256 0, sInputLen := 0 }

/-- `chef_shell_handle_char`. -/
def chefShellHandleChar (font : Font) (run : ShellCommand → Kernel → Kernel) (c : UInt8)
    (s : Shell) : Shell :=
  if c = 0x0A then
    let s := s.print font (text "\n")
    let s := { s with sInputBuf := s.sInputBuf.set s.sInputLen 0 }
    let cmdline := cstr s.sInputBuf
    let s := { s with
      kernel := chefShellExecuteCmd font run cmdline s.kernel
      handed := s.handed ++ [cmdline] }
    Shell.print font (text "chef-os> ") { s with sInputLen := 0 }
  else if c = 0x08 then
    if s.sInputLen > 0 then
      Shell.print font [0x08, 0x20, 0x08]
        { s with
          sInputLen := s.sInputLen - 1
          sInputBuf := s.sInputBuf.set (s.sInputLen - 1) 0 }
    else s
  else if s.sInputLen < 254 ∧ 0x20 ≤ c ∧ c ≤ 0x7E then
    { s with
      sInputBuf := s.sInputBuf.set s.sInputLen c
      sInputLen := s.sInputLen + 1
      kernel := s.kernel.printC font c }
  else s

/-! ## The line -/

/-- A line after a character other than Enter. -/
def editLine (line : List UInt8) (c : UInt8) : List UInt8 :=
  if c = 0x08 then line.dropLast
  else if line.length < 254 ∧ 0x20 ≤ c ∧ c ≤ 0x7E then line ++ [c]
  else line

/-- The lines that were entered, and the line that is typed. -/
structure Typed where
  lines : List (List UInt8)
  line : List UInt8
deriving DecidableEq

/-- What is typed after one more character. -/
def Typed.typeChar (t : Typed) (c : UInt8) : Typed :=
  if c = 0x0A then ⟨t.lines ++ [t.line], []⟩ else ⟨t.lines, editLine t.line c⟩

/-- The shell holds a line: it is the first part of the buffer, and has room for a terminator. -/
structure Shell.Holds (s : Shell) (line : List UInt8) : Prop where
  size : s.sInputBuf.length = 256
  len : s.sInputLen = line.length
  short : line.length ≤ 254
  noNul : 0 ∉ line
  begins : s.sInputBuf.take line.length = line

/-- The shell ran the lines that were entered, and holds the line that is typed. -/
structure Shell.Follows (s : Shell) (t : Typed) : Prop where
  holds : s.Holds t.line
  handed : s.handed = t.lines

/-- A printable character is no control character. -/
theorem ne_of_printable {c b : UInt8} (printable : 0x20 ≤ c) (control : b < 0x20) : c ≠ b := by
  rintro rfl
  exact absurd control (UInt8.not_lt.mpr printable)

theorem chefShellInit_holds (font : Font) (s : Shell) : (chefShellInit font s).Holds [] :=
  ⟨List.length_replicate .., rfl, Nat.zero_le _, List.not_mem_nil, rfl⟩

section

variable {s : Shell} {line : List UInt8}

/-- What is written at or behind the end of a line does not change it. -/
theorem Shell.Holds.take_set (holds : s.Holds line) {n i : ℕ} (le : n ≤ line.length)
    (behind : n ≤ i) (b : UInt8) : (s.sInputBuf.set i b).take n = line.take n := by
  rw [List.take_set, List.set_eq_of_length_le ((List.length_take_le ..).trans behind),
    ← holds.begins, List.take_take, min_eq_left le]

/-- A line loses its last character when that is overwritten by the terminator. -/
theorem Shell.Holds.delete (holds : s.Holds line) {t : Shell}
    (buf : t.sInputBuf = s.sInputBuf.set (line.length - 1) 0)
    (len : t.sInputLen = line.length - 1) : t.Holds line.dropLast := by
  refine ⟨?_, ?_, ?_, fun mem => holds.noNul (List.mem_of_mem_dropLast mem), ?_⟩
  · rw [buf, List.length_set, holds.size]
  · rw [List.length_dropLast, len]
  · rw [List.length_dropLast]
    exact (Nat.sub_le ..).trans holds.short
  · rw [buf, List.length_dropLast, holds.take_set (Nat.sub_le ..) le_rfl, List.dropLast_eq_take]

/-- A line gets one more character. -/
theorem Shell.Holds.append (holds : s.Holds line) {t : Shell} {c : UInt8}
    (buf : t.sInputBuf = s.sInputBuf.set line.length c) (len : t.sInputLen = line.length + 1)
    (room : line.length < 254) (char : c ≠ 0) : t.Holds (line ++ [c]) := by
  have size := holds.size
  refine ⟨?_, ?_, ?_, ?_, ?_⟩
  · rw [buf, List.length_set, size]
  · rw [List.length_append, List.length_singleton, len]
  · rw [List.length_append, List.length_singleton]
    exact room
  · simpa using ⟨holds.noNul, char.symm⟩
  · rw [buf, List.length_append, List.length_singleton, List.take_add_one,
      holds.take_set le_rfl le_rfl, List.take_length,
      List.getElem?_set_self (by omega)]
    rfl

/-- Characters other than Enter edit the line, and nothing is handed over. -/
theorem chefShellHandleChar_edit (font : Font) (run : ShellCommand → Kernel → Kernel)
    (holds : s.Holds line) {c : UInt8} (notEnter : c ≠ 0x0A) :
    (chefShellHandleChar font run c s).Holds (editLine line c) ∧
      (chefShellHandleChar font run c s).handed = s.handed := by
  rw [chefShellHandleChar, if_neg notEnter, editLine, holds.len]
  by_cases back : c = 0x08
  · rw [if_pos back, if_pos back]
    by_cases some : line.length > 0
    · rw [if_pos some]
      exact ⟨holds.delete rfl rfl, rfl⟩
    · obtain rfl : line = [] := List.eq_nil_of_length_eq_zero (Nat.eq_zero_of_not_pos some)
      exact ⟨holds, rfl⟩
  · rw [if_neg back, if_neg back]
    by_cases room : line.length < 254 ∧ 0x20 ≤ c ∧ c ≤ 0x7E
    · rw [if_pos room, if_pos room]
      have char : c ≠ 0 := ne_of_printable room.2.1 (by decide)
      exact ⟨holds.append rfl rfl room.1 char, rfl⟩
    · rw [if_neg room, if_neg room]
      exact ⟨holds, rfl⟩

/-- Enter hands the line over. -/
theorem chefShellHandleChar_enter (font : Font) (run : ShellCommand → Kernel → Kernel)
    (holds : s.Holds line) :
    (chefShellHandleChar font run 0x0A s).Holds [] ∧
      (chefShellHandleChar font run 0x0A s).handed = s.handed ++ [line] := by
  have cmdline : cstr (s.sInputBuf.set s.sInputLen 0) = line := by
    have size := holds.size
    have short := holds.short
    have split := List.take_append_drop (line.length + 1) (s.sInputBuf.set line.length 0)
    rw [List.take_add_one, holds.take_set le_rfl le_rfl, List.take_length,
      List.getElem?_set_self (by omega), List.append_assoc] at split
    rw [holds.len, ← split]
    exact cstr_append_zero holds.noNul _
  rw [chefShellHandleChar, if_pos rfl]
  refine ⟨⟨?_, rfl, Nat.zero_le _, List.not_mem_nil, rfl⟩, ?_⟩
  · exact (List.length_set ..).trans holds.size
  · exact congrArg (s.handed ++ [·]) cmdline

/-- The shell does not look at the kernel. -/
theorem Shell.Follows.withKernel {t : Typed} (follows : s.Follows t)
    (kernel : Kernel) : ({ s with kernel } : Shell).Follows t :=
  ⟨⟨follows.holds.size, follows.holds.len, follows.holds.short, follows.holds.noNul,
    follows.holds.begins⟩, follows.handed⟩

/-- The shell keeps up with what is typed. -/
theorem Shell.Follows.handleChar (font : Font) (run : ShellCommand → Kernel → Kernel) {t : Typed}
    (follows : s.Follows t) (c : UInt8) :
    (chefShellHandleChar font run c s).Follows (t.typeChar c) := by
  rw [Typed.typeChar]
  by_cases enter : c = 0x0A
  · obtain ⟨holds, handed⟩ := chefShellHandleChar_enter font run follows.holds
    rw [if_pos enter, enter]
    exact ⟨holds, handed.trans (by rw [follows.handed])⟩
  · obtain ⟨holds, handed⟩ := chefShellHandleChar_edit font run follows.holds enter
    rw [if_neg enter]
    exact ⟨holds, handed.trans follows.handed⟩

end

/-! ## Runs of the line editor -/

/-- `chef_shell_handle_char` for one character after the other. -/
def chefShellRun (font : Font) (run : ShellCommand → Kernel → Kernel) (chars : List UInt8)
    (s : Shell) : Shell := chars.foldl (fun s c => chefShellHandleChar font run c s) s

/-- The index in `s_input_buf` that `chef_shell_handle_char` writes at. -/
def Shell.writeIndex (s : Shell) (c : UInt8) : Option ℕ :=
  if c = 0x0A then some s.sInputLen
  else if c = 0x08 then if s.sInputLen > 0 then some (s.sInputLen - 1) else none
  else if s.sInputLen < 254 ∧ 0x20 ≤ c ∧ c ≤ 0x7E then some s.sInputLen
  else none

/-- The line editor after the characters since `chef_shell_init`: the length is bounded, the next
character is written inside the buffer or not at all, and only Enter hands a string over, which is
what the characters since the Enter before make up. -/
structure Shell.Exact (font : Font) (run : ShellCommand → Kernel → Kernel) (chars : List UInt8)
    (s : Shell) : Prop where
  short : s.sInputLen ≤ 254
  size : s.sInputBuf.length = 256
  written : ∀ c, ∃ b, (chefShellHandleChar font run c s).sInputBuf =
    (s.writeIndex c).elim s.sInputBuf fun i => s.sInputBuf.set i b
  inside : ∀ c i, s.writeIndex c = some i → i < 256
  silent : ∀ c, c ≠ 0x0A → (chefShellHandleChar font run c s).handed = s.handed
  handed : ∀ before line, chars = before ++ line → (before = [] ∨ ∃ b, before = b ++ [0x0A]) →
    0x0A ∉ line →
    (chefShellHandleChar font run 0x0A s).handed = s.handed ++ [line.foldl editLine []]

section

variable {font : Font} {run : ShellCommand → Kernel → Kernel} {s : Shell} {t : Typed}

theorem chefShellInit_follows (font : Font) (s : Shell) :
    (chefShellInit font s).Follows ⟨s.handed, []⟩ := ⟨chefShellInit_holds font s, rfl⟩

theorem Shell.Follows.typed (font : Font) (run : ShellCommand → Kernel → Kernel)
    (follows : s.Follows t) (chars : List UInt8) :
    (chefShellRun font run chars s).Follows (chars.foldl Typed.typeChar t) := by
  induction chars generalizing s t with
  | nil => exact follows
  | cons c chars ih => exact ih (follows.handleChar font run c)

/-- Characters other than Enter edit the line. -/
theorem foldl_typeChar {line : List UInt8} (notEnter : 0x0A ∉ line) (t : Typed) :
    line.foldl Typed.typeChar t = ⟨t.lines, line.foldl editLine t.line⟩ := by
  induction line generalizing t with
  | nil => rfl
  | cons c line ih =>
    obtain ⟨here, later⟩ := not_or.mp (mt List.mem_cons.mpr notEnter)
    have step : t.typeChar c = ⟨t.lines, editLine t.line c⟩ := if_neg (Ne.symm here)
    rw [List.foldl_cons, step, ih later]
    rfl

/-- After Enter the line is empty. -/
theorem foldl_typeChar_line {before line : List UInt8} {t : Typed} (empty : t.line = [])
    (entered : before = [] ∨ ∃ b, before = b ++ [0x0A]) (notEnter : 0x0A ∉ line) :
    ((before ++ line).foldl Typed.typeChar t).line = line.foldl editLine [] := by
  have start : (before.foldl Typed.typeChar t).line = [] := by
    obtain rfl | ⟨b, rfl⟩ := entered
    · exact empty
    · rw [List.foldl_append]
      rfl
  rw [List.foldl_append, foldl_typeChar notEnter, start]

theorem Shell.Holds.exact {line chars : List UInt8} (holds : s.Holds line)
    (typed : ∀ before last, chars = before ++ last → (before = [] ∨ ∃ b, before = b ++ [0x0A]) →
      0x0A ∉ last → line = last.foldl editLine []) : s.Exact font run chars where
  short := by
    rw [holds.len]
    exact holds.short
  size := holds.size
  written c := by
    rw [chefShellHandleChar, Shell.writeIndex]
    split_ifs
    · exact ⟨0, rfl⟩
    · exact ⟨0, rfl⟩
    · exact ⟨0, rfl⟩
    · exact ⟨c, rfl⟩
    · exact ⟨0, rfl⟩
  inside c i index := by
    have short := holds.short
    rw [← holds.len] at short
    rw [Shell.writeIndex] at index
    split_ifs at index <;> cases index <;> omega
  silent c notEnter := (chefShellHandleChar_edit font run holds notEnter).2
  handed before last split entered notEnter := by
    rw [(chefShellHandleChar_enter font run holds).2, typed before last split entered notEnter]

/-- The line editor is exact after every sequence of characters. -/
theorem chefShellRun_exact (font : Font) (run : ShellCommand → Kernel → Kernel) (s : Shell)
    (chars : List UInt8) :
    (chefShellRun font run chars (chefShellInit font s)).Exact font run chars := by
  have follows := (chefShellInit_follows font s).typed font run chars
  apply follows.holds.exact
  rintro before last rfl entered notEnter
  exact foldl_typeChar_line rfl entered notEnter

end

end ChefOs
