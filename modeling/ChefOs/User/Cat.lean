import ChefOs.CString.Order
import ChefOs.Sys.FileTable
import ChefOs.Sys.Formats

/-!
# The command `cat`

The branch of `chef_shell_execute_cmd` for `cat`: it opens the path, reads once into a buffer of 512
bytes, closes the descriptor and prints what the buffer holds.
-/

namespace ChefOs

open Kit

/-- `O_RDONLY`. -/
def oRdonly : ℤ := 0

/-- The bytes of `buf` after `memset`. -/
def catBuffer : List (Option UInt8) := List.replicate 512 (some 0)

/-- The branch for `cat`; a string is printed from bytes with values only. -/
def catCommand (font : Font) (path : List UInt8) (s : Kernel) : Option Kernel := do
  let (fd, fs) ← vfsOpen (some (path ++ [0])) oRdonly s.fs
  if fd ≥ 0 then
    let (n, buf, fs) ← vfsRead fd catBuffer 511 fs
    let s := { s with fs := vfsClose fd fs }
    if n > 0 then
      let buf ← buf.mapM id
      return s.printS font [] (cstr buf) (text "\n")
    else return s
  else
    return Kernel.printS font (text "cat: ") path (text ": No such file or directory\n")
      { s with fs }

/-- What the commands do, with `cat` among them. -/
def runCat (font : Font) (other : ShellCommand → Kernel → Kernel) :
    ShellCommand → Kernel → Kernel
  | .cat path, s => (catCommand font path s).getD s
  | command, s => other command s

/-- The nodes and positions of the open descriptors. -/
def Fs.cursors (s : Fs) (i : Fin 64) : Option (ℕ × ℕ) :=
  (s.sFdTable i).node.map fun n => (n, (s.sFdTable i).offset)

/-- A text was printed, and the open descriptors are as before. -/
structure Shows (font : Font) (t : List UInt8) (before after : Kernel) : Prop where
  serial : after.fs.serial = before.fs.serial ++ crlf t
  screen : after.gFb = fbSwap (fbPuts font t before.gFb)
  cursors : after.fs.cursors = before.fs.cursors

/-! ## Opening, reading and closing -/

section

variable {s : Fs} {path : Option (List UInt8)} {node : ℕ} {e : RamfsEntry} {content : List UInt8}

/-- A path that resolves is opened when a slot is free. -/
theorem vfsOpen_free (lookup : vfsLookup path s = some (some node))
    (free : ∃ i, (s.sFdTable i).node = none) (flags : ℤ) :
    ∃ i : Fin 64, (s.sFdTable i).node = none ∧
      vfsOpen path flags s = some ((i.val : ℤ), s.setFd i ⟨some node, 0, flags⟩) := by
  obtain ⟨j, unused⟩ := free
  have exists_free : ((List.finRange 64).find? fun i => (s.sFdTable i).node.isNone).isSome := by
    apply List.find?_isSome.mpr
    exact ⟨j, List.mem_finRange j, by rw [unused]; rfl⟩
  obtain ⟨i, found⟩ := Option.isSome_iff_exists.mp exists_free
  refine ⟨i, (find_slot found).1, ?_⟩
  simp only [vfsOpen, lookup, found, Option.bind_eq_bind, Option.bind_some]
  rfl

/-- A read of at most 511 bytes from a file that was just opened. -/
theorem vfsRead_opened (entry : s.nodes[node]? = some e) (file : IsFile e)
    (holds : HoldsBytes e content) (i : Fin 64) (flags : ℤ) :
    vfsRead i.val catBuffer 511 (s.setFd i ⟨some node, 0, flags⟩) =
      some (((content.take 511).length : ℤ),
        (content.take 511).map some ++ catBuffer.drop (content.take 511).length,
        advance i (content.take 511).length (s.setFd i ⟨some node, 0, flags⟩)) := by
  have slot : fdNode i.val (s.setFd i ⟨some node, 0, flags⟩) = some (i, node) := by
    apply fdNode_eq_some.mpr
    exact ⟨fdSlot_eq_some.mpr rfl, by rw [Fs.setFd_self]⟩
  have room : 511 ≤ catBuffer.length := by
    rw [catBuffer, List.length_replicate]
    omega
  have entry' : (s.setFd i ⟨some node, 0, flags⟩).nodes[node]? = some e := entry
  have read := ramfsRead_spec entry' holds (by omega : 0 + 511 < 2 ^ 63) room
  rw [Files.readAt, List.drop_zero] at read
  rw [vfsRead, slot]
  simp only [entry', file.2.2.1, Fs.setFd_self, callRead, read, Option.bind_eq_bind,
    Option.bind_some, Option.map_some]
  rfl

/-- Opening, moving and closing leave no trace among the open descriptors. -/
theorem cursors_closed {i : Fin 64} (unused : (s.sFdTable i).node = none) (d : FileDesc)
    (bytes : ℤ) : (vfsClose i.val (advance i bytes (s.setFd i d))).cursors = s.cursors := by
  have slot : fdSlot i.val = some i := fdSlot_eq_some.mpr rfl
  have own : OwnSlot (s.setFd i d) i.val (advance i bytes (s.setFd i d)) := .advance slot bytes rfl
  funext j
  by_cases here : j = i
  · have closed := vfsClose_slot i.val (advance i bytes (s.setFd i d)) i
    rw [if_pos rfl] at closed
    rw [here, Fs.cursors, Fs.cursors, closed, unused]
    rfl
  · have other : (j.val : ℤ) ≠ i.val := fun same => here (Fin.ext (by omega))
    rw [Fs.cursors, vfsClose_other other, own.other j other, Fs.setFd_of_ne here]
    rfl

end

theorem advance_serial (i : Fin 64) (bytes : ℤ) (s : Fs) :
    (advance i bytes s).serial = s.serial := by
  unfold advance
  split_ifs <;> rfl

theorem vfsClose_serial (fd : ℤ) (s : Fs) : (vfsClose fd s).serial = s.serial := by
  unfold vfsClose
  split <;> rfl

/-! ## Printing -/

theorem crlf_append (t u : List UInt8) : crlf (t ++ u) = crlf t ++ crlf u := List.flatMap_append

theorem crlf_ne_nil {t : List UInt8} (nonempty : t ≠ []) : crlf t ≠ [] := by
  obtain ⟨c, t, rfl⟩ := List.exists_cons_of_ne_nil nonempty
  rw [crlf, List.flatMap_cons]
  split_ifs <;> simp

/-- A string with a newline behind it. -/
theorem Kernel.printS_line (font : Font) (str : List UInt8) (s : Kernel) :
    s.printS font [] str (text "\n") =
      (s.send font (crlf (str ++ text "\n")) (str ++ text "\n")).swap := by
  rw [← foldl_printChar, List.foldl_append]
  rfl

/-- The string in the buffer of `cat`. -/
theorem cstr_catBuffer {str : List UInt8} (noNul : 0 ∉ str) (short : str.length ≤ 511) :
    ((str.map some ++ catBuffer.drop str.length).mapM id).map cstr = some str := by
  have rest : catBuffer.drop str.length = (0 :: List.replicate (511 - str.length) 0).map some := by
    rw [catBuffer, List.drop_replicate, ← List.replicate_succ, List.map_replicate]
    congr 1
    omega
  have values : ∀ l : List UInt8, (l.map some).mapM id = some l := by
    intro l
    induction l with
    | nil => rfl
    | cons b l ih => rw [List.map_cons, List.mapM_cons, ih]; rfl
  rw [rest, ← List.map_append, values, Option.map_some, cstr_append_zero noNul]

section

variable (font : Font) {s : Kernel} {path content : List UInt8} {node : ℕ} {e : RamfsEntry}

/-- `cat` prints the bytes of a file that fit into its buffer. -/
theorem catCommand_file (lookup : vfsLookup (some (path ++ [0])) s.fs = some (some node))
    (entry : s.fs.nodes[node]? = some e) (file : IsFile e) (holds : HoldsBytes e content)
    (nonempty : content ≠ []) (noNul : 0 ∉ content) (free : ∃ i, (s.fs.sFdTable i).node = none) :
    ∃ fs : Fs, fs.serial = s.fs.serial ∧ fs.cursors = s.fs.cursors ∧
      catCommand font path s =
        some (Kernel.printS font [] (content.take 511) (text "\n") { s with fs }) := by
  obtain ⟨i, unused, opened⟩ := vfsOpen_free lookup free oRdonly
  have read := vfsRead_opened entry file holds i oRdonly
  have some_bytes : ((content.take 511).length : ℤ) > 0 := by
    have := List.length_pos_iff.mpr nonempty
    rw [List.length_take]
    omega
  have clean : 0 ∉ content.take 511 := fun mem => noNul (List.mem_of_mem_take mem)
  obtain ⟨buf, values, string⟩ := Option.map_eq_some_iff.mp
    (cstr_catBuffer clean (List.length_take_le 511 content))
  refine ⟨_, ?_, cursors_closed unused ⟨some node, 0, oRdonly⟩ (content.take 511).length, ?_⟩
  · rw [vfsClose_serial, advance_serial]
    rfl
  · have valid : (i.val : ℤ) ≥ 0 := Int.natCast_nonneg _
    simp only [catCommand, opened, read, values, string, if_pos valid, if_pos some_bytes,
      Option.bind_eq_bind, Option.bind_some]
    rfl

/-- A line that was printed. -/
theorem shows_printS {fs : Fs} (serial : fs.serial = s.fs.serial)
    (cursors : fs.cursors = s.fs.cursors) (str : List UInt8) :
    Shows font (str ++ text "\n") s (Kernel.printS font [] str (text "\n") { s with fs }) := by
  rw [Kernel.printS_line]
  refine ⟨?_, rfl, cursors⟩
  rw [← serial]
  rfl

/-- A shorter text is another text. -/
theorem Shows.not_longer {font : Font} {t u v : List UInt8} {after : Kernel}
    (shown : Shows font (t ++ v) s after)
    (whole : Shows font (t ++ u ++ v) s after) : u = [] := by
  by_contra nonempty
  have same : crlf (t ++ v) = crlf (t ++ u ++ v) :=
    List.append_cancel_left (shown.serial.symm.trans whole.serial)
  have length := congrArg List.length same
  have longer := List.length_pos_iff.mpr (crlf_ne_nil nonempty)
  simp only [crlf_append, List.length_append] at length
  omega

/-- What `cat` prints of a file is the whole of it, just when it fits into the buffer. -/
theorem catCommand_whole (lookup : vfsLookup (some (path ++ [0])) s.fs = some (some node))
    (entry : s.fs.nodes[node]? = some e) (file : IsFile e) (holds : HoldsBytes e content)
    (nonempty : content ≠ []) (noNul : 0 ∉ content) (free : ∃ i, (s.fs.sFdTable i).node = none) :
    ∃ t, catCommand font path s = some t ∧
      (Shows font (content ++ text "\n") s t ↔ content.length ≤ 511) := by
  obtain ⟨fs, serial, cursors, run⟩ := catCommand_file font lookup entry file holds nonempty noNul
    free
  have shown := shows_printS font serial cursors (content.take 511)
  refine ⟨_, run, fun whole => ?_, fun short => ?_⟩
  · have behind : content.drop 511 = [] := by
      apply shown.not_longer
      rwa [List.take_append_drop]
    exact List.drop_eq_nil_iff.mp behind
  · have all : content.take 511 = content := List.take_of_length_le short
    rwa [all] at shown ⊢

/-- A command line of `cat` and a path. -/
theorem shellCommand_cat (path : List UInt8) :
    shellCommand (text "cat " ++ path) = some (.cat path) := by
  have letters : text "cat " = [0x63, 0x61, 0x74, 0x20] := by decide
  have before : text "help" = [0x68, 0x65, 0x6C, 0x70] ∧
      text "uname" = [0x75, 0x6E, 0x61, 0x6D, 0x65] ∧
      text "clear" = [0x63, 0x6C, 0x65, 0x61, 0x72] ∧ text "ls" = [0x6C, 0x73] := by decide
  simp [shellCommand, letters, before]

theorem chefShellExecuteCmd_cat {font : Font} (other : ShellCommand → Kernel → Kernel)
    {t : Kernel} (run : catCommand font path s = some t) :
    chefShellExecuteCmd font (runCat font other) (text "cat " ++ path) s = t := by
  rw [chefShellExecuteCmd, shellCommand_cat]
  change (catCommand font path s).getD s = t
  rw [run]
  rfl

/-- The command `cat` and a path that resolves to a file print the file and a newline, just when the
file has at most 511 bytes.  `strncmp` finds the command, and the string in the buffer is printed
with `kprintf("%s\n", buf)`. -/
theorem cat_shows_iff (other : ShellCommand → Kernel → Kernel)
    (lookup : vfsLookup (some (path ++ [0])) s.fs = some (some node))
    (entry : s.fs.nodes[node]? = some e) (file : IsFile e) (holds : HoldsBytes e content)
    (nonempty : content ≠ []) (noNul : 0 ∉ content) (free : ∃ i, (s.fs.sFdTable i).node = none) :
    ((∃ t, catCommand font path s = some t ∧
        chefShellExecuteCmd font (runCat font other) (text "cat " ++ path) s = t ∧
        Shows font (content ++ text "\n") s t) ↔
      content.length ≤ 511) ∧
    (∀ cmdline p q, 0 ∉ cmdline → (strncmp (cmdline ++ 0 :: p) (text "cat " ++ 0 :: q) 4 = some 0 ↔
      text "cat " <+: cmdline)) ∧
    ∀ mem buf (s : Kernel), buf ≠ 0 → 0 ∈ mem buf →
      s.kprintf font mem (text "%s\n" ++ [0]) [buf] =
        some (s.printS font [] (cstr (mem buf)) (text "\n")) := by
  refine ⟨?_, fun cmdline p q noNul => strncmp_zero_iff noNul (by decide) p q,
    fun mem buf s notNull terminated =>
      @Kernel.kprintf_printS font mem [] _ _ (by decide) (by decide) notNull terminated s⟩
  obtain ⟨t, run, whole⟩ := catCommand_whole font lookup entry file holds nonempty noNul free
  rw [← whole]
  constructor
  · rintro ⟨u, run', -, shown⟩
    have same : t = u := Option.some.inj (run.symm.trans run')
    rwa [same]
  · intro shown
    exact ⟨t, run, chefShellExecuteCmd_cat other run, shown⟩

end

/-- The calls that make a file system with the file `/f`. -/
def makeFile (content : List UInt8) : List TreeOp :=
  [.createFile 0 [0x66] (some content) content.length]

/-- What `cat` finds there. -/
def fileFound (content : List UInt8) :
    Option (Option (Option ℕ) × Option RamfsEntry × Bool) :=
  (bootTree (makeFile content)).map fun s =>
    (vfsLookup (some (cString ['/', 'f'])) s, s.nodes[1]?,
      (List.finRange 64).any fun i => (s.sFdTable i).node.isNone)

theorem exists_file {content : List UInt8} (found : fileFound content =
      some (some (some 1), some (fileEntry (nameField [0x66]) content), true)) :
    ∃ s, bootTree (makeFile content) = some s ∧
      vfsLookup (some (text "/f" ++ [0])) s = some (some 1) ∧
      s.nodes[1]? = some (fileEntry (nameField [0x66]) content) ∧
      ∃ i, (s.sFdTable i).node = none := by
  simp only [fileFound, Option.map_eq_some_iff, Prod.mk.injEq] at found
  obtain ⟨s, boot, lookup, entry, unused⟩ := found
  obtain ⟨i, -, free⟩ := List.any_eq_true.mp unused
  exact ⟨s, boot, lookup, entry, i, Option.isNone_iff_eq_none.mp free⟩

/-- A file of two bytes. -/
theorem cat_shows_example : ∃ s, bootTree (makeFile (text "ok")) = some s ∧
    ∃ t, catCommand (fun _ _ => 0) (text "/f") ⟨s, noScreen⟩ = some t ∧
      chefShellExecuteCmd (fun _ _ => 0) (runCat (fun _ _ => 0) fun _ s => s)
        (text "cat " ++ text "/f") ⟨s, noScreen⟩ = t ∧
      Shows (fun _ _ => 0) (text "ok" ++ text "\n") ⟨s, noScreen⟩ t := by
  have found : fileFound (text "ok") =
      some (some (some 1), some (fileEntry (nameField [0x66]) (text "ok")), true) := by
    decide +kernel
  obtain ⟨s, boot, lookup, entry, free⟩ := exists_file found
  exact ⟨s, boot, (cat_shows_iff _ _ lookup entry ⟨rfl, rfl, rfl, rfl, rfl⟩
    (holdsBytes_fileEntry _ _) (by decide) (by decide) free).1.mpr (by decide)⟩

/-- The last byte of a file of 512 bytes is missing. -/
theorem long_file_is_cut : ∃ s e content, bootTree (makeFile content) = some s ∧
    vfsLookup (some (text "/f" ++ [0])) s = some (some 1) ∧ s.nodes[1]? = some e ∧ IsFile e ∧
    HoldsBytes e content ∧ content ≠ [] ∧ 0 ∉ content ∧ (∃ i, (s.sFdTable i).node = none) ∧
    ¬ ∃ t, catCommand (fun _ _ => 0) (text "/f") ⟨s, noScreen⟩ = some t ∧
      chefShellExecuteCmd (fun _ _ => 0) (runCat (fun _ _ => 0) fun _ s => s)
        (text "cat " ++ text "/f") ⟨s, noScreen⟩ = t ∧
      Shows (fun _ _ => 0) (content ++ text "\n") ⟨s, noScreen⟩ t := by
  have found : fileFound (List.replicate 512 0x61) = some (some (some 1),
      some (fileEntry (nameField [0x66]) (List.replicate 512 0x61)), true) := by
    decide +kernel
  obtain ⟨s, boot, lookup, entry, free⟩ := exists_file found
  have size : (List.replicate 512 (0x61 : UInt8)).length = 512 := List.length_replicate
  generalize hcontent : List.replicate 512 (0x61 : UInt8) = content at *
  have nonempty : content ≠ [] := by
    apply List.ne_nil_of_length_pos
    omega
  have letters : 0 ∉ content := by
    rw [← hcontent, List.mem_replicate]
    exact fun same => absurd same.2 (by decide)
  have file : IsFile (fileEntry (nameField [0x66]) content) := ⟨rfl, rfl, rfl, rfl, rfl⟩
  have holds := holdsBytes_fileEntry (nameField [0x66]) content
  have lookup' : vfsLookup (some (text "/f" ++ [0])) (Kernel.mk s noScreen).fs = some (some 1) :=
    lookup
  obtain ⟨t, run, whole⟩ := catCommand_whole (fun _ _ => 0) lookup' entry file holds nonempty
    letters free
  refine ⟨s, _, content, boot, lookup, entry, file, holds, nonempty, letters, free, ?_⟩
  rintro ⟨u, run', -, shown⟩
  have same : t = u := Option.some.inj (run.symm.trans run')
  rw [← same, whole] at shown
  omega

end ChefOs
