import ChefOs.Fs.Vfs
import ChefOs.Lib.Run
import ChefOs.Video.Fb

/-!
# System calls

`syscall_dispatch` of `sys/syscall.c`, over the file system, the framebuffer and the serial port.
-/

namespace ChefOs

open Kit

/-- `SYS_READ`. -/
def sysRead : BitVec 64 := 3

/-- `SYS_WRITE`. -/
def sysWrite : BitVec 64 := 4

/-- `SYS_OPEN`. -/
def sysOpen : BitVec 64 := 5

/-- `SYS_CLOSE`. -/
def sysClose : BitVec 64 := 6

/-- `SYS_GETPID`. -/
def sysGetpid : BitVec 64 := 7

/-- `SYS_YIELD`. -/
def sysYield : BitVec 64 := 8

/-- `SYS_DRAW_RECT`. -/
def sysDrawRect : BitVec 64 := 11

/-- `SYS_SWAP_BUFFERS`. -/
def sysSwapBuffers : BitVec 64 := 12

/-- The state behind the system calls.  The serial port is in the file system. -/
structure Kernel where
  fs : Fs
  gFb : FbInfo

/-- The arguments of `syscall_dispatch`, with the string at `a1`, if that is not `NULL`, and the
bytes from `a2` on. -/
structure Syscall where
  num : BitVec 64
  a1 : BitVec 64
  a2 : BitVec 64
  a3 : BitVec 64
  a4 : BitVec 64
  a5 : BitVec 64
  a6 : BitVec 64
  path : Option (List UInt8)
  buf : List UInt8

/-- The return value, the bytes from `a2` on and the state after a system call. -/
abbrev SyscallResult := ℤ × List (Option UInt8) × Kernel

/-- `(int)a1`. -/
def Syscall.fd (c : Syscall) : ℤ := (c.a1.setWidth 32).toInt

/-- `(int)a2`. -/
def Syscall.flags (c : Syscall) : ℤ := (c.a2.setWidth 32).toInt

/-- The return of a value, when the buffer is not written. -/
def Syscall.returns (c : Syscall) (value : ℤ) (s : Kernel) : SyscallResult :=
  (value, c.buf.map some, s)

/-! ## The console -/

/-- `serial_putc`. -/
def Kernel.serialPutc (c : UInt8) (s : Kernel) : Kernel :=
  { s with fs := { s.fs with serial := s.fs.serial ++ [c] } }

/-- `serial_putc` and `fb_putc`. -/
def Kernel.putc (font : Font) (s : Kernel) (c : UInt8) : Kernel :=
  { s.serialPutc c with gFb := fbPutc font c s.gFb }

/-- `fb_swap`. -/
def Kernel.swap (s : Kernel) : Kernel := { s with gFb := fbSwap s.gFb }

/-- A character of a format string. -/
def Kernel.printChar (font : Font) (s : Kernel) (c : UInt8) : Kernel :=
  Kernel.putc font (if c = 0x0A then s.serialPutc 0x0D else s) c

/-- The text of a string literal. -/
def text (s : String) : List UInt8 := s.toList.map fun c => .ofNat c.toNat

/-- `print_num` in base 10. -/
def digits10 (num : ℕ) : List UInt8 :=
  if num = 0 then [0x30] else ((Nat.digits 10 num).map fun d => UInt8.ofNat (0x30 + d)).reverse

/-- `kprintf("[SYSCALL] Unknown syscall #%d\n", (int)num)`.  The upper half of the argument, which
the format reads, is zero. -/
def Kernel.printUnknown (font : Font) (num : BitVec 64) (s : Kernel) : Kernel :=
  ((text "[SYSCALL] Unknown syscall #" ++ digits10 (num.setWidth 32).toNat ++ [0x0A]).foldl
    (Kernel.printChar font) s).swap

/-! ## The dispatcher -/

/-- `case SYS_WRITE`. -/
def dispatchWrite (font : Font) (c : Syscall) (s : Kernel) : Option SyscallResult :=
  if c.fd = 1 ∨ c.fd = 2 then
    if c.a3.toNat ≤ c.buf.length then
      let s := (c.buf.take c.a3.toNat).foldl (Kernel.putc font) s
      some (c.returns (i64 c.a3.toNat) s.swap)
    else none
  else some (c.returns (-1) s)

/-- `case SYS_READ`. -/
def dispatchRead (c : Syscall) (s : Kernel) : Option SyscallResult :=
  if c.fd = 0 ∧ c.a3 > 0 then
    let last := keyboardGetLastChar s.fs
    if last.1 ≠ 0 then
      (memcpy (c.buf.map some) [some last.1] 1).map fun buf => (1, buf, { s with fs := last.2 })
    else some (c.returns 0 { s with fs := last.2 })
  else some (c.returns (-1) s)

/-- `case SYS_OPEN`. -/
def dispatchOpen (c : Syscall) (s : Kernel) : Option SyscallResult :=
  (vfsOpen c.path c.flags s.fs).map fun r => c.returns r.1 { s with fs := r.2 }

/-- `syscall_dispatch`. -/
def syscallDispatch (font : Font) (c : Syscall) (s : Kernel) : Option SyscallResult :=
  if c.num = sysWrite then dispatchWrite font c s
  else if c.num = sysRead then dispatchRead c s
  else if c.num = sysOpen then dispatchOpen c s
  else if c.num = sysClose then some (c.returns 0 { s with fs := vfsClose c.fd s.fs })
  else if c.num = sysGetpid then some (c.returns 1 s)
  else if c.num = sysYield then some (c.returns 0 s)
  else if c.num = sysDrawRect then
    let g := fbDrawRect (c.a1.setWidth 32) (c.a2.setWidth 32) (c.a3.setWidth 32)
      (c.a4.setWidth 32) (c.a5.setWidth 32) s.gFb
    some (c.returns 0 { s with gFb := g })
  else if c.num = sysSwapBuffers then some (c.returns 0 s.swap)
  else some (c.returns (-1) (s.printUnknown font c.num))

section

variable (font : Font) {c : Syscall} (s : Kernel)

theorem syscallDispatch_write (num : c.num = sysWrite) :
    syscallDispatch font c s = dispatchWrite font c s := by
  unfold syscallDispatch
  rw [if_pos num]

theorem syscallDispatch_read (num : c.num = sysRead) :
    syscallDispatch font c s = dispatchRead c s := by
  unfold syscallDispatch
  rw [num, if_neg (by decide), if_pos rfl]

theorem syscallDispatch_open (num : c.num = sysOpen) :
    syscallDispatch font c s = dispatchOpen c s := by
  unfold syscallDispatch
  rw [num, if_neg (by decide), if_neg (by decide), if_pos rfl]

theorem syscallDispatch_close (num : c.num = sysClose) :
    syscallDispatch font c s = some (c.returns 0 { s with fs := vfsClose c.fd s.fs }) := by
  unfold syscallDispatch
  rw [num, if_neg (by decide), if_neg (by decide), if_neg (by decide), if_pos rfl]

/-- The calls other than `SYS_WRITE`, `SYS_READ` and `SYS_OPEN` use no bytes. -/
theorem syscallDispatch_other (write : c.num ≠ sysWrite) (read : c.num ≠ sysRead)
    (opens : c.num ≠ sysOpen) :
    ∃ value t, ∀ path buf, syscallDispatch font { c with path, buf } s =
      some (Syscall.returns { c with path, buf } value t) := by
  simp only [syscallDispatch, Syscall.fd, if_neg write, if_neg read, if_neg opens]
  split_ifs <;> exact ⟨_, _, fun _ _ => rfl⟩

end

/-! ## Effects -/

/-- The nodes and the open files are the same. -/
def SameFiles (s t : Kernel) : Prop :=
  t.fs.nodes = s.fs.nodes ∧ t.fs.sFdTable = s.fs.sFdTable

theorem SameFiles.refl (s : Kernel) : SameFiles s s := ⟨rfl, rfl⟩

theorem SameFiles.trans {s t u : Kernel} (first : SameFiles s t) (second : SameFiles t u) :
    SameFiles s u :=
  ⟨second.1.trans first.1, second.2.trans first.2⟩

/-- What a step of a loop keeps, the loop keeps. -/
theorem SameFiles.foldl {f : Kernel → UInt8 → Kernel} (step : ∀ s c, SameFiles s (f s c))
    (cs : List UInt8) (s : Kernel) : SameFiles s (cs.foldl f s) := by
  induction cs generalizing s with
  | nil => exact .refl s
  | cons c cs ih => exact (step s c).trans (ih (f s c))

theorem sameFiles_putc (font : Font) (s : Kernel) (c : UInt8) : SameFiles s (s.putc font c) :=
  ⟨rfl, rfl⟩

theorem sameFiles_swap (s : Kernel) : SameFiles s s.swap := ⟨rfl, rfl⟩

theorem sameFiles_printChar (font : Font) (s : Kernel) (c : UInt8) :
    SameFiles s (s.printChar font c) := by
  unfold Kernel.printChar
  split <;> exact ⟨rfl, rfl⟩

theorem sameFiles_printUnknown (font : Font) (num : BitVec 64) (s : Kernel) :
    SameFiles s (s.printUnknown font num) :=
  (SameFiles.foldl (sameFiles_printChar font) _ s).trans (sameFiles_swap _)

theorem sameFiles_dispatchWrite {font : Font} {c : Syscall} {s t : Kernel} {value : ℤ}
    {buf : List (Option UInt8)} (call : dispatchWrite font c s = some (value, buf, t)) :
    SameFiles s t := by
  unfold dispatchWrite at call
  split at call
  · split at call
    · obtain ⟨-, -, rfl⟩ := call
      exact (SameFiles.foldl (sameFiles_putc font) _ s).trans (sameFiles_swap _)
    · contradiction
  · obtain ⟨-, -, rfl⟩ := call
    exact .refl s

theorem sameFiles_dispatchRead {c : Syscall} {s t : Kernel} {value : ℤ}
    {buf : List (Option UInt8)} (call : dispatchRead c s = some (value, buf, t)) :
    SameFiles s t := by
  unfold dispatchRead at call
  split at call
  · dsimp only at call
    split at call
    · obtain ⟨_, -, call⟩ := Option.map_eq_some_iff.mp call
      obtain ⟨-, -, rfl⟩ := call
      exact ⟨rfl, rfl⟩
    · obtain ⟨-, -, rfl⟩ := call
      exact ⟨rfl, rfl⟩
  · obtain ⟨-, -, rfl⟩ := call
    exact .refl s

/-- Only `SYS_OPEN` and `SYS_CLOSE` change the open files. -/
theorem syscallDispatch_sameFiles {font : Font} {c : Syscall} {s t : Kernel} {value : ℤ}
    {buf : List (Option UInt8)} (notOpen : c.num ≠ sysOpen) (notClose : c.num ≠ sysClose)
    (call : syscallDispatch font c s = some (value, buf, t)) : SameFiles s t := by
  unfold syscallDispatch at call
  rw [if_neg notOpen, if_neg notClose] at call
  split_ifs at call
  · exact sameFiles_dispatchWrite call
  · exact sameFiles_dispatchRead call
  all_goals
    simp only [Syscall.returns, Option.some.injEq, Prod.mk.injEq] at call
    obtain ⟨-, -, rfl⟩ := call
  · exact .refl s
  · exact .refl s
  · exact ⟨rfl, rfl⟩
  · exact ⟨rfl, rfl⟩
  · exact sameFiles_printUnknown font c.num s

end ChefOs
