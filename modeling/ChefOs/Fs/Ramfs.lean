import ChefOs.Lib.Word
import ChefOs.CString

/-!
# The in-memory file system

The node types of `vfs.h` and `fs/ramfs.c`.  Nodes lie in an arena and a `vfs_node_t *` is an index
into it.  A data buffer belongs to one node; its bytes are `none` until they are written.  A call
that dereferences `NULL` or leaves a region has no result.
-/

namespace ChefOs

open Kit

/-- `FS_FILE`. -/
def fsFile : ℕ := 0x01

/-- `FS_DIRECTORY`. -/
def fsDirectory : ℕ := 0x02

/-- `FS_CHARDEVICE`. -/
def fsChardevice : ℕ := 0x03

/-- The functions `vfs_read_t` pointers point to. -/
inductive ReadFn where
  | ramfsRead
  | devZeroRead
  | devKbdRead
deriving DecidableEq, Repr

/-- The functions `vfs_write_t` pointers point to. -/
inductive WriteFn where
  | ramfsWrite
  | devSerialWrite
  | devNullWrite
deriving DecidableEq, Repr

/-- The functions `vfs_finddir_t` pointers point to. -/
inductive FinddirFn where
  | ramfsFinddir
deriving DecidableEq, Repr

/-- `ramfs_entry_t`, with its `vfs_node_t` inlined.  `children` are the first `child_count` slots of
the array, and no function ever sets `open` or `close`. -/
structure RamfsEntry where
  name : List UInt8
  flags : ℕ
  length : ℕ
  read : Option ReadFn
  write : Option WriteFn
  openFn : Option Empty
  closeFn : Option Empty
  finddir : Option FinddirFn
  data : Option (List (Option UInt8))
  capacity : ℕ
  children : List ℕ
deriving DecidableEq, Repr

/-- What `kzalloc` returns for a node. -/
def zeroEntry : RamfsEntry where
  name := List.replicate 128 0
  flags := 0
  length := 0
  read := none
  write := none
  openFn := none
  closeFn := none
  finddir := none
  data := none
  capacity := 0
  children := []

/-- `file_desc_t`. -/
structure FileDesc where
  node : Option ℕ
  offset : ℕ
  flags : ℤ
deriving DecidableEq, Repr

/-- The file system: the nodes, the statics of `vfs.c`, the device state behind the `devfs` nodes,
and the outcome of each heap allocation with the number of allocations made. -/
structure Fs where
  nodes : List RamfsEntry
  gVfsRoot : Option ℕ
  sFdTable : Fin 64 → FileDesc
  sLastChar : UInt8
  serial : List UInt8
  kmallocOk : ℕ → Bool
  allocs : ℕ

/-- Change the node at `node`. -/
def Fs.setNode (s : Fs) (node : ℕ) (entry : RamfsEntry) : Fs :=
  { s with nodes := s.nodes.set node entry }

/-- One more allocation was made. -/
def Fs.countAlloc (s : Fs) : Fs := { s with allocs := s.allocs + 1 }

/-- `kmalloc` for a data buffer. -/
def Fs.kmalloc (s : Fs) (size : ℕ) : Option (List (Option UInt8)) × Fs :=
  (if s.kmallocOk s.allocs then some (List.replicate size none) else none, s.countAlloc)

/-- `kzalloc` for a node; the callers write through the result at once. -/
def Fs.kzalloc (s : Fs) : Option (RamfsEntry × Fs) :=
  if s.kmallocOk s.allocs then some (zeroEntry, s.countAlloc) else none

/-- The bytes from `data + offset` on. -/
def bytesFrom (data : Option (List (Option UInt8))) (offset : ℕ) : List (Option UInt8) :=
  (data.getD []).drop offset

/-- `memcpy(data + offset, src, size)`. -/
def memcpyTo (data : Option (List (Option UInt8))) (offset : ℕ) (src : List (Option UInt8))
    (size : ℕ) : Option (Option (List (Option UInt8))) :=
  match data with
  | none => if size = 0 then some none else none
  | some buf => (memcpy (buf.drop offset) src size).map fun tail => some (buf.take offset ++ tail)

/-! ## Files -/

/-- `ramfs_read`, into the bytes of `buffer`. -/
def ramfsRead (node offset size : ℕ) (buffer : List (Option UInt8)) (s : Fs) :
    Option (ℤ × List (Option UInt8)) := do
  let entry ← s.nodes[node]?
  if entry.length ≤ offset then return (0, buffer)
  let size := if u64 (offset + size) > entry.length then sub64 entry.length offset else size
  let buffer ← memcpy buffer (bytesFrom entry.data offset) size
  return (i64 size, buffer)

/-- The first half of `ramfs_write`: a buffer of at least `offset + size` bytes. -/
def ramfsGrow (entry : RamfsEntry) (offset size : ℕ) (s : Fs) : Option (RamfsEntry × Fs) :=
  if u64 (offset + size) > entry.capacity then do
    let newCap := u64 (offset + size + 511) &&& not64 511
    let (newData, s) := s.kmalloc newCap
    let newData ←
      match entry.data with
      | some data => memcpyTo newData 0 data entry.length
      | none => some newData
    return ({ entry with data := newData, capacity := newCap }, s)
  else some (entry, s)

/-- `ramfs_write`. -/
def ramfsWrite (node offset size : ℕ) (buffer : List UInt8) (s : Fs) : Option (ℤ × Fs) := do
  let entry ← s.nodes[node]?
  let (entry, s) ← ramfsGrow entry offset size s
  let data ← memcpyTo entry.data offset (buffer.map some) size
  let length := if u64 (offset + size) > entry.length then u64 (offset + size) else entry.length
  return (i64 size, s.setNode node { entry with data := data, length := length })

/-! ## Directories -/

/-- The loop of `ramfs_finddir` over the children. -/
def finddirLoop (nodes : List RamfsEntry) (name : List UInt8) : List ℕ → Option (Option ℕ)
  | [] => some none
  | child :: children => do
    let entry ← nodes[child]?
    let d ← strcmp entry.name name
    if d = 0 then return some child
    finddirLoop nodes name children

/-- `ramfs_finddir`. -/
def ramfsFinddir (node : ℕ) (name : List UInt8) (s : Fs) : Option (Option ℕ) := do
  let entry ← s.nodes[node]?
  finddirLoop s.nodes name entry.children

/-- `ramfs_create_root`. -/
def ramfsCreateRoot (s : Fs) : Option (ℕ × Fs) := do
  let (root, s) ← s.kzalloc
  let name ← strcpy root.name (cString ['/'])
  let root := { root with name := name, flags := fsDirectory, finddir := some .ramfsFinddir }
  return (s.nodes.length, { s with nodes := s.nodes ++ [root] })

/-- `p->children[p->child_count++] = entry`. -/
def Fs.attach (s : Fs) (parent : ℕ) (p entry : RamfsEntry) : Fs :=
  { s with
    nodes := s.nodes.set parent { p with children := p.children ++ [s.nodes.length] } ++ [entry] }

/-- The part the two creators share: the checks of the parent, the name of the new node, and its
link; `fill` sets the other fields. -/
def createUnder (parent : Option ℕ) (name : List UInt8)
    (fill : RamfsEntry → Fs → Option (RamfsEntry × Fs)) (s : Fs) : Option (Option ℕ × Fs) :=
  match parent with
  | none => some (none, s)
  | some parent => do
    let p ← s.nodes[parent]?
    if p.flags &&& fsDirectory = 0 then return (none, s)
    if 32 ≤ p.children.length then return (none, s)
    let (entry, s) ← s.kzalloc
    let name ← strncpy entry.name name 127
    let (entry, s) ← fill { entry with name := name } s
    return (some s.nodes.length, s.attach parent p entry)

/-- `ramfs_create_dir`. -/
def ramfsCreateDir (parent : Option ℕ) (name : List UInt8) (s : Fs) : Option (Option ℕ × Fs) :=
  createUnder parent name
    (fun dir s => some ({ dir with flags := fsDirectory, finddir := some .ramfsFinddir }, s)) s

/-- The fields `ramfs_create_file` sets. -/
def fillFile (content : Option (List UInt8)) (size : ℕ) (file : RamfsEntry) (s : Fs) :
    Option (RamfsEntry × Fs) :=
  let file := { file with flags := fsFile, read := some .ramfsRead, write := some .ramfsWrite }
  match content with
  | some content =>
    if size > 0 then do
      let (data, s) := s.kmalloc size
      let data ← memcpyTo data 0 (content.map some) size
      return ({ file with data := data, capacity := size, length := size }, s)
    else some (file, s)
  | none => some (file, s)

/-- `ramfs_create_file`. -/
def ramfsCreateFile (parent : Option ℕ) (name : List UInt8) (content : Option (List UInt8))
    (size : ℕ) (s : Fs) : Option (Option ℕ × Fs) :=
  createUnder parent name (fillFile content size) s

end ChefOs
