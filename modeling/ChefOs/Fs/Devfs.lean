import ChefOs.Fs.Ramfs

/-!
# The device nodes

`fs/devfs.c`: the callbacks of the four character devices and the function that creates them.
-/

namespace ChefOs

open Kit

/-- `keyboard_get_last_char`. -/
def keyboardGetLastChar (s : Fs) : UInt8 × Fs := (s.sLastChar, { s with sLastChar := 0 })

/-- `dev_serial_write`: the bytes go to the serial port. -/
def devSerialWrite (size : ℕ) (buffer : List UInt8) (s : Fs) : Option (ℤ × Fs) :=
  if size ≤ buffer.length then
    some (i64 size, { s with serial := s.serial ++ buffer.take size })
  else none

/-- `dev_null_write`. -/
def devNullWrite (size : ℕ) (s : Fs) : Option (ℤ × Fs) := some (i64 size, s)

/-- `dev_zero_read`. -/
def devZeroRead (size : ℕ) (buffer : List (Option UInt8)) : Option (ℤ × List (Option UInt8)) := do
  let buffer ← memcpy buffer (List.replicate size (some 0)) size
  return (i64 size, buffer)

/-- `dev_kbd_read`. -/
def devKbdRead (size : ℕ) (buffer : List (Option UInt8)) (s : Fs) :
    Option (ℤ × List (Option UInt8) × Fs) :=
  if size > 0 then
    let (c, s) := keyboardGetLastChar s
    if c ≠ 0 then (memcpy buffer [some c] 1).map fun buffer => (1, buffer, s)
    else some (0, buffer, s)
  else some (0, buffer, s)

/-- One device of `devfs_init`: a file whose flags and callback are overwritten. -/
def devfsCreate (devDir : ℕ) (name : List UInt8) (device : RamfsEntry → RamfsEntry) (s : Fs) :
    Option Fs := do
  let (node, s) ← ramfsCreateFile (some devDir) name none 0 s
  match node with
  | some node =>
    let entry ← s.nodes[node]?
    return s.setNode node (device { entry with flags := fsChardevice })
  | none => return s

/-- `devfs_init`. -/
def devfsInit (devDir : Option ℕ) (s : Fs) : Option Fs :=
  match devDir with
  | none => some s
  | some devDir => do
    let s ← devfsCreate devDir (cString ['s', 'e', 'r', 'i', 'a', 'l'])
      (fun e => { e with write := some .devSerialWrite }) s
    let s ← devfsCreate devDir (cString ['n', 'u', 'l', 'l'])
      (fun e => { e with write := some .devNullWrite }) s
    let s ← devfsCreate devDir (cString ['z', 'e', 'r', 'o'])
      (fun e => { e with read := some .devZeroRead }) s
    devfsCreate devDir (cString ['k', 'b', 'd'])
      (fun e => { e with read := some .devKbdRead }) s

end ChefOs
