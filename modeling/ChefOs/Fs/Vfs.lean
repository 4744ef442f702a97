import ChefOs.Fs.Devfs

/-!
# The virtual file system

`fs/vfs.c`: path lookup and the table of open files.
-/

namespace ChefOs

open Kit

/-- The byte `'/'`. -/
def slash : UInt8 := 0x2F

/-- `vfs_init`. -/
def vfsInit (s : Fs) : Fs := { s with sFdTable := fun _ => ⟨none, 0, 0⟩ }

/-! ## Lookup -/

/-- The inner loop of `vfs_lookup`: up to `room` bytes go to the component. -/
def copyComponent : ℕ → List UInt8 → Option (List UInt8 × List UInt8)
  | _, [] => none
  | 0, b :: path => some ([], b :: path)
  | room + 1, b :: path =>
    if b ≠ 0 ∧ b ≠ slash then (copyComponent room path).map fun r => (b :: r.1, r.2)
    else some ([], b :: path)

/-- `if (*path == '/') path++`. -/
def skipSlash : List UInt8 → List UInt8
  | [] => []
  | b :: path => if b = slash then path else b :: path

/-- The outer loop of `vfs_lookup`. -/
def lookupLoop (s : Fs) : ℕ → ℕ → List UInt8 → Option (Option ℕ)
  | 0, _, _ => none
  | fuel + 1, curr, path => do
    let c ← path.head?
    if c = 0 then return some curr
    let (component, path) ← copyComponent 127 path
    let path := skipSlash path
    let node ← s.nodes[curr]?
    match node.finddir with
    | none => return none
    | some .ramfsFinddir =>
      match ← ramfsFinddir curr (component ++ [0]) s with
      | none => return none
      | some next => lookupLoop s fuel next path

/-- `vfs_lookup`. -/
def vfsLookup (path : Option (List UInt8)) (s : Fs) : Option (Option ℕ) :=
  match path, s.gVfsRoot with
  | some path, some root => do
    let d ← strcmp path (cString ['/'])
    if d = 0 then return some root
    lookupLoop s path.length root (skipSlash path)
  | _, _ => some none

/-! ## Open files -/

/-- The table slot of a descriptor in range. -/
def fdSlot (fd : ℤ) : Option (Fin 64) :=
  if h : 0 ≤ fd ∧ fd < 64 then some ⟨fd.toNat, by omega⟩ else none

/-- The node and the slot of an open descriptor. -/
def fdNode (fd : ℤ) (s : Fs) : Option (Fin 64 × ℕ) := do
  let i ← fdSlot fd
  let node ← (s.sFdTable i).node
  return (i, node)

/-- `s_fd_table[i] = d`. -/
def Fs.setFd (s : Fs) (i : Fin 64) (d : FileDesc) : Fs :=
  { s with sFdTable := Function.update s.sFdTable i d }

/-- `if (bytes > 0) s_fd_table[fd].offset += bytes`. -/
def advance (i : Fin 64) (bytes : ℤ) (s : Fs) : Fs :=
  if bytes > 0 then
    s.setFd i { s.sFdTable i with offset := u64 ((s.sFdTable i).offset + bytes.toNat) }
  else s

/-- `vfs_open`. -/
def vfsOpen (path : Option (List UInt8)) (flags : ℤ) (s : Fs) : Option (ℤ × Fs) := do
  match ← vfsLookup path s with
  | none => return (-1, s)
  | some node =>
    match (List.finRange 64).find? fun i => (s.sFdTable i).node.isNone with
    | some i => return (i, s.setFd i ⟨some node, 0, flags⟩)
    | none => return (-1, s)

/-- `vfs_close`. -/
def vfsClose (fd : ℤ) (s : Fs) : Fs :=
  match fdNode fd s with
  | none => s
  | some (i, _) => s.setFd i { s.sFdTable i with node := none }

/-- `node->read(node, offset, size, buffer)`. -/
def callRead (f : ReadFn) (node offset size : ℕ) (buffer : List (Option UInt8)) (s : Fs) :
    Option (ℤ × List (Option UInt8) × Fs) :=
  match f with
  | .ramfsRead => (ramfsRead node offset size buffer s).map fun r => (r.1, r.2, s)
  | .devZeroRead => (devZeroRead size buffer).map fun r => (r.1, r.2, s)
  | .devKbdRead => devKbdRead size buffer s

/-- `node->write(node, offset, size, buffer)`. -/
def callWrite (f : WriteFn) (node offset size : ℕ) (buffer : List UInt8) (s : Fs) :
    Option (ℤ × Fs) :=
  match f with
  | .ramfsWrite => ramfsWrite node offset size buffer s
  | .devSerialWrite => devSerialWrite size buffer s
  | .devNullWrite => devNullWrite size s

/-- `vfs_read`, into the bytes of `buffer`. -/
def vfsRead (fd : ℤ) (buffer : List (Option UInt8)) (count : ℕ) (s : Fs) :
    Option (ℤ × List (Option UInt8) × Fs) :=
  match fdNode fd s with
  | none => some (-1, buffer, s)
  | some (i, node) => do
    let entry ← s.nodes[node]?
    match entry.read with
    | none => return (-1, buffer, s)
    | some read =>
      let (bytes, buffer, s) ← callRead read node (s.sFdTable i).offset count buffer s
      return (bytes, buffer, advance i bytes s)

/-- `vfs_write`. -/
def vfsWrite (fd : ℤ) (buffer : List UInt8) (count : ℕ) (s : Fs) : Option (ℤ × Fs) :=
  match fdNode fd s with
  | none => some (-1, s)
  | some (i, node) => do
    let entry ← s.nodes[node]?
    match entry.write with
    | none => return (-1, s)
    | some write =>
      let (bytes, s) ← callWrite write node (s.sFdTable i).offset count buffer s
      return (bytes, advance i bytes s)

end ChefOs
