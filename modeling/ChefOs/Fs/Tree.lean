import ChefOs.Lib.Run
import ChefOs.Fs.Vfs

/-!
# Trees of nodes

What the creators of `ramfs.c` do to the arena, and the shape of every tree they build: names are
terminated and at most 127 bytes long, children are nodes, and a node is a directory or a file.
-/

namespace ChefOs

open Kit

/-- A node after `kzalloc` and `strncpy`. -/
def namedEntry (stored : List UInt8) : RamfsEntry := { zeroEntry with name := stored }

/-- The node `ramfs_create_dir` links. -/
def dirEntry (stored : List UInt8) : RamfsEntry :=
  { namedEntry stored with flags := fsDirectory, finddir := some .ramfsFinddir }

/-- The bytes a file starts with. -/
def initialBytes (content : Option (List UInt8)) (size : ℕ) : List UInt8 :=
  (content.getD []).take size

/-- The node `ramfs_create_file` links. -/
def fileEntry (stored bytes : List UInt8) : RamfsEntry :=
  { namedEntry stored with
    flags := fsFile
    read := some .ramfsRead
    write := some .ramfsWrite
    data := if bytes = [] then none else some (bytes.map some)
    capacity := bytes.length
    length := bytes.length }

/-- The same state but for the number of allocations made. -/
def Fs.withAllocs (s : Fs) (allocs : ℕ) : Fs := { s with allocs := allocs }

/-! ## The creators -/

/-- A creator does nothing, or links a new node under a directory that has room. -/
theorem createUnder_cases {parent : ℕ} {name : List UInt8}
    {fill : RamfsEntry → Fs → Option (RamfsEntry × Fs)} {s t : Fs} {r : Option ℕ}
    (call : createUnder (some parent) name fill s = some (r, t)) :
    (∃ p, s.nodes[parent]? = some p ∧ (p.flags &&& fsDirectory = 0 ∨ 32 ≤ p.children.length) ∧
        r = none ∧ t = s) ∨
      ∃ p stored entry s', s.nodes[parent]? = some p ∧ p.flags &&& fsDirectory ≠ 0 ∧
        p.children.length < 32 ∧ strncpy (List.replicate 128 0) name 127 = some stored ∧
        fill (namedEntry stored) s.countAlloc = some (entry, s') ∧
        r = some s'.nodes.length ∧ t = s'.attach parent p entry := by
  simp only [createUnder, Option.bind_eq_bind, Option.bind_eq_some_iff] at call
  obtain ⟨p, hp, call⟩ := call
  split_ifs at call with dir room
  · obtain ⟨rfl, rfl⟩ := Prod.ext_iff.mp (Option.some.inj call)
    exact Or.inl ⟨p, hp, Or.inl dir, rfl, rfl⟩
  · obtain ⟨rfl, rfl⟩ := Prod.ext_iff.mp (Option.some.inj call)
    exact Or.inl ⟨p, hp, Or.inr room, rfl, rfl⟩
  · simp only [Option.bind_eq_some_iff] at call
    obtain ⟨⟨e, u⟩, alloc, stored, hstored, ⟨entry, s'⟩, filled, call⟩ := call
    obtain ⟨rfl, rfl⟩ := Prod.ext_iff.mp (Option.some.inj call)
    rw [Fs.kzalloc] at alloc
    split_ifs at alloc
    obtain ⟨rfl, rfl⟩ := Prod.ext_iff.mp (Option.some.inj alloc)
    exact Or.inr ⟨p, stored, entry, s', hp, dir, by omega, hstored, filled, rfl, rfl⟩

theorem fillFile_some {content : Option (List UInt8)} {size : ℕ} {stored : List UInt8} {s s' : Fs}
    {entry : RamfsEntry} (h : fillFile content size (namedEntry stored) s = some (entry, s')) :
    entry = fileEntry stored (initialBytes content size) ∧
      ∃ allocs, s' = s.withAllocs allocs := by
  have empty : fillFile none 0 (namedEntry stored) s = some (fileEntry stored [], s) := rfl
  cases content with
  | none =>
    obtain ⟨rfl, rfl⟩ := Prod.ext_iff.mp (Option.some.inj (empty.symm.trans h))
    exact ⟨by simp [initialBytes], _, rfl⟩
  | some content =>
    by_cases pos : size > 0
    · simp only [fillFile, if_pos pos, Option.bind_eq_bind, Option.bind_eq_some_iff] at h
      obtain ⟨data, copied, h⟩ := h
      obtain ⟨rfl, rfl⟩ := Prod.ext_iff.mp (Option.some.inj h)
      refine ⟨?_, _, rfl⟩
      rw [Fs.kmalloc] at copied
      cases ok : s.kmallocOk s.allocs with
      | false => simp [memcpyTo, ok, pos.ne'] at copied
      | true =>
        simp only [ok, if_true, memcpyTo, Option.map_eq_some_iff] at copied
        obtain ⟨bytes, copied, rfl⟩ := copied
        obtain ⟨-, fits⟩ := memcpy_some copied
        rw [memcpy_eq (by simp) fits] at copied
        rw [List.length_map] at fits
        obtain rfl := Option.some.inj copied
        have hlen : (initialBytes (some content) size).length = size := by
          simp [initialBytes, fits]
        have hne : initialBytes (some content) size ≠ [] := fun h => by
          rw [h] at hlen
          exact pos.ne hlen
        rw [fileEntry, if_neg hne, hlen]
        simp [initialBytes, List.map_take]
    · obtain rfl : size = 0 := by omega
      obtain ⟨rfl, rfl⟩ := Prod.ext_iff.mp (Option.some.inj (empty.symm.trans h))
      refine ⟨?_, _, rfl⟩
      simp [initialBytes]

/-- The effect of linking a node, with `k` allocations made. -/
def Fs.linked (s : Fs) (parent : ℕ) (p entry : RamfsEntry) (k : ℕ) : Fs :=
  (s.withAllocs k).attach parent p entry

/-- `ramfs_create_dir` does nothing or links a directory. -/
theorem ramfsCreateDir_cases {parent : ℕ} {name : List UInt8} {s t : Fs} {r : Option ℕ}
    (call : ramfsCreateDir (some parent) name s = some (r, t)) :
    (∃ p, s.nodes[parent]? = some p ∧ (p.flags &&& fsDirectory = 0 ∨ 32 ≤ p.children.length) ∧
        r = none ∧ t = s) ∨
      ∃ p stored k, s.nodes[parent]? = some p ∧ p.flags &&& fsDirectory ≠ 0 ∧
        strncpy (List.replicate 128 0) name 127 = some stored ∧ r = some s.nodes.length ∧
        t = s.linked parent p (dirEntry stored) k := by
  rcases createUnder_cases call with skip | ⟨p, stored, entry, s', hp, dir, -, hname, fill, hr, ht⟩
  · exact Or.inl skip
  · obtain ⟨rfl, rfl⟩ := Prod.ext_iff.mp (Option.some.inj fill)
    exact Or.inr ⟨p, stored, _, hp, dir, hname, hr, ht⟩

/-- `ramfs_create_file` does nothing or links a file with its initial bytes. -/
theorem ramfsCreateFile_cases {parent size : ℕ} {name : List UInt8}
    {content : Option (List UInt8)} {s t : Fs} {r : Option ℕ}
    (call : ramfsCreateFile (some parent) name content size s = some (r, t)) :
    (∃ p, s.nodes[parent]? = some p ∧ (p.flags &&& fsDirectory = 0 ∨ 32 ≤ p.children.length) ∧
        r = none ∧ t = s) ∨
      ∃ p stored k, s.nodes[parent]? = some p ∧ p.flags &&& fsDirectory ≠ 0 ∧
        strncpy (List.replicate 128 0) name 127 = some stored ∧ r = some s.nodes.length ∧
        t = s.linked parent p (fileEntry stored (initialBytes content size)) k := by
  rcases createUnder_cases call with skip | ⟨p, stored, entry, s', hp, dir, -, hname, fill, hr, ht⟩
  · exact Or.inl skip
  · obtain ⟨rfl, k, rfl⟩ := fillFile_some fill
    exact Or.inr ⟨p, stored, k, hp, dir, hname, hr, ht⟩

/-! ## Linking -/

@[simp] theorem length_linked (s : Fs) (parent : ℕ) (p entry : RamfsEntry) (k : ℕ) :
    (s.linked parent p entry k).nodes.length = s.nodes.length + 1 := by
  simp [Fs.linked, Fs.attach, Fs.withAllocs]

/-- The nodes after a link: the parent has one more child, the new node is the last one. -/
theorem getElem?_linked {s : Fs} {parent : ℕ} {p : RamfsEntry} (hp : s.nodes[parent]? = some p)
    (entry : RamfsEntry) (k n : ℕ) :
    (s.linked parent p entry k).nodes[n]? =
      if n = s.nodes.length then some entry
      else if n = parent then some { p with children := p.children ++ [s.nodes.length] }
      else s.nodes[n]? := by
  have hlt : parent < s.nodes.length := (List.getElem?_eq_some_iff.mp hp).1
  change (s.nodes.set parent { p with children := p.children ++ [s.nodes.length] } ++
    [entry])[n]? = _
  rw [List.getElem?_append, List.length_set, List.getElem?_set, List.getElem?_singleton]
  by_cases last : n = s.nodes.length
  · simp [last]
  · by_cases here : parent = n
    · simp [here, last, here ▸ hlt]
    · have other : n ≠ parent := fun h => here h.symm
      by_cases old : n < s.nodes.length
      · simp [last, here, other, old]
      · have beyond : n - s.nodes.length ≠ 0 := by omega
        simp [last, other, old, beyond]

/-! ## Building a tree -/

/-- `g_vfs_root = ramfs_create_root()`. -/
def mountRoot (s : Fs) : Option Fs := do
  let (root, s) ← ramfsCreateRoot s
  return { s with gVfsRoot := some root }

/-- A call that builds the tree; names are given without their terminator. -/
inductive TreeOp where
  | createDir (parent : ℕ) (name : List UInt8)
  | createFile (parent : ℕ) (name : List UInt8) (content : Option (List UInt8)) (size : ℕ)
deriving DecidableEq, Repr

/-- The call with the node it returns. -/
def TreeOp.call : TreeOp → Fs → Option (Option ℕ × Fs)
  | .createDir parent name, s => ramfsCreateDir (some parent) (name ++ [0]) s
  | .createFile parent name content size, s =>
    ramfsCreateFile (some parent) (name ++ [0]) content size s

/-- A call in a run. -/
def TreeStep (s : Fs) (op : TreeOp) (t : Fs) : Prop := ∃ r, op.call s = some (r, t)

/-- A tree as the creators build it from a root. -/
def Built (s : Fs) : Prop :=
  ∃ boot mounted ops, boot.nodes = [] ∧ mountRoot boot = some mounted ∧ Run TreeStep mounted ops s

/-- The calls one after the other. -/
def runTree : List TreeOp → Fs → Option Fs
  | [], s => some s
  | op :: ops, s => do
    let (_, s) ← op.call s
    runTree ops s

theorem run_of_runTree {ops : List TreeOp} {s t : Fs} (h : runTree ops s = some t) :
    Run TreeStep s ops t := by
  induction ops generalizing s with
  | nil =>
    obtain rfl := Option.some.inj h
    exact .nil s
  | cons op ops ih =>
    simp only [runTree, Option.bind_eq_bind, Option.bind_eq_some_iff] at h
    obtain ⟨⟨r, u⟩, call, h⟩ := h
    exact .cons ⟨r, call⟩ (ih h)

/-- The state at boot, when all allocations succeed. -/
def bootFs : Fs where
  nodes := []
  gVfsRoot := none
  sFdTable := fun _ => ⟨none, 0, 0⟩
  sLastChar := 0
  serial := []
  kmallocOk := fun _ => true
  allocs := 0

/-- The tree that calls build from boot. -/
def bootTree (ops : List TreeOp) : Option Fs := (mountRoot bootFs).bind (runTree ops)

theorem built_of_bootTree {ops : List TreeOp} {s : Fs} (h : bootTree ops = some s) : Built s := by
  obtain ⟨mounted, call, rest⟩ := Option.bind_eq_some_iff.mp h
  exact ⟨bootFs, mounted, ops, rfl, call, run_of_runTree rest⟩

/-- The parent a call names. -/
def TreeOp.parent : TreeOp → ℕ
  | .createDir parent _ => parent
  | .createFile parent _ _ _ => parent

/-- The name a call gives. -/
def TreeOp.name : TreeOp → List UInt8
  | .createDir _ name => name
  | .createFile _ name _ _ => name

/-- The name field of a new node. -/
def nameField (name : List UInt8) : List UInt8 :=
  (cstr (name ++ [0])).take 127 ++
    List.replicate (128 - ((cstr (name ++ [0])).take 127).length) 0

/-- The node a call links. -/
def TreeOp.entry : TreeOp → RamfsEntry
  | .createDir _ name => dirEntry (nameField name)
  | .createFile _ name content size => fileEntry (nameField name) (initialBytes content size)

theorem TreeOp.call_cases {op : TreeOp} {s t : Fs} {r : Option ℕ}
    (call : op.call s = some (r, t)) :
    (∃ p, s.nodes[op.parent]? = some p ∧
        (p.flags &&& fsDirectory = 0 ∨ 32 ≤ p.children.length) ∧ r = none ∧ t = s) ∨
      ∃ p k, s.nodes[op.parent]? = some p ∧ p.flags &&& fsDirectory ≠ 0 ∧
        r = some s.nodes.length ∧ t = s.linked op.parent p op.entry k := by
  have stored : ∀ name : List UInt8, strncpy (List.replicate 128 0) (name ++ [0]) 127 =
      some (nameField name) := fun name => strncpy_name (by simp)
  cases op with
  | createDir parent name =>
    rcases ramfsCreateDir_cases call with skip | ⟨p, _, k, hp, dir, hname, hr, ht⟩
    · exact Or.inl skip
    · obtain rfl := Option.some.inj ((stored name).symm.trans hname)
      exact Or.inr ⟨p, k, hp, dir, hr, ht⟩
  | createFile parent name content size =>
    rcases ramfsCreateFile_cases call with skip | ⟨p, _, k, hp, dir, hname, hr, ht⟩
    · exact Or.inl skip
    · obtain rfl := Option.some.inj ((stored name).symm.trans hname)
      exact Or.inr ⟨p, k, hp, dir, hr, ht⟩

theorem mountRoot_eq {boot s : Fs} (empty : boot.nodes = []) (call : mountRoot boot = some s) :
    s.nodes = [dirEntry (0x2F :: List.replicate 127 0)] ∧ s.gVfsRoot = some 0 ∧
      s.sFdTable = boot.sFdTable ∧ s.kmallocOk = boot.kmallocOk := by
  simp only [mountRoot, ramfsCreateRoot, Option.bind_eq_bind, Option.bind_eq_some_iff] at call
  obtain ⟨⟨root, u⟩, ⟨⟨e, v⟩, alloc, name, hname, call⟩, mounted⟩ := call
  obtain ⟨rfl, rfl⟩ := Prod.ext_iff.mp (Option.some.inj call)
  obtain rfl := Option.some.inj mounted
  rw [Fs.kzalloc] at alloc
  split_ifs at alloc
  obtain ⟨rfl, rfl⟩ := Prod.ext_iff.mp (Option.some.inj alloc)
  have hroot : name = 0x2F :: List.replicate 127 0 := by
    have : strcpy zeroEntry.name (cString ['/']) = some (0x2F :: List.replicate 127 0) := by
      decide
    exact Option.some.inj (hname.symm.trans this)
  change boot.nodes ++ [_] = _ ∧ some boot.nodes.length = _ ∧ _
  rw [empty, hroot]
  exact ⟨rfl, rfl, rfl, rfl⟩

/-! ## The shape of a tree -/

/-- A node as `ramfs_create_dir` makes it, whatever its children. -/
def IsDir (e : RamfsEntry) : Prop :=
  e.flags = fsDirectory ∧ e.finddir = some .ramfsFinddir ∧ e.read = none ∧ e.write = none

/-- A node as `ramfs_create_file` makes it. -/
def IsFile (e : RamfsEntry) : Prop :=
  e.flags = fsFile ∧ e.finddir = none ∧ e.read = some .ramfsRead ∧ e.write = some .ramfsWrite ∧
    e.children = []

/-- What holds of each node of an arena of `total` nodes. -/
structure EntryOk (total : ℕ) (e : RamfsEntry) : Prop where
  terminated : 0 ∈ e.name
  short : (cstr e.name).length ≤ 127
  closed : ∀ k ∈ e.children, k < total
  kind : IsDir e ∨ IsFile e

/-- The shape of every tree that the creators build. -/
structure TreeInv (s : Fs) : Prop where
  root : s.gVfsRoot = some 0
  rooted : 0 < s.nodes.length
  entry : ∀ (n : ℕ) (e : RamfsEntry), s.nodes[n]? = some e → EntryOk s.nodes.length e

/-- What the lookup of a name relies on in a node. -/
structure EntryNamed (total : ℕ) (e : RamfsEntry) : Prop where
  terminated : 0 ∈ e.name
  short : (cstr e.name).length ≤ 127
  closed : ∀ k ∈ e.children, k < total

/-- Every node has a name that can be compared and children that are nodes. -/
def Named (s : Fs) : Prop :=
  ∀ (n : ℕ) (e : RamfsEntry), s.nodes[n]? = some e → EntryNamed s.nodes.length e

theorem TreeInv.named {s : Fs} (inv : TreeInv s) : Named s := by
  intro n e he
  have ok := inv.entry n e he
  exact ⟨ok.terminated, ok.short, ok.closed⟩

theorem cstr_nameField (name : List UInt8) :
    cstr (nameField name) = (cstr (name ++ [0])).take 127 := by
  have pad : 128 - ((cstr (name ++ [0])).take 127).length =
      127 - ((cstr (name ++ [0])).take 127).length + 1 := by
    have := List.length_take_le 127 (cstr (name ++ [0]))
    omega
  rw [nameField, pad, List.replicate_succ]
  exact cstr_append_zero (fun h => zero_notMem_cstr _ (List.mem_of_mem_take h)) _

theorem zero_mem_nameField (name : List UInt8) : 0 ∈ nameField name := by
  have := List.length_take_le 127 (cstr (name ++ [0]))
  rw [nameField, List.mem_append, List.mem_replicate]
  exact Or.inr ⟨by omega, rfl⟩

theorem TreeOp.entry_ok (op : TreeOp) (total : ℕ) : EntryOk total op.entry := by
  have short : ∀ name, (cstr (nameField name)).length ≤ 127 := fun name => by
    rw [cstr_nameField]
    exact List.length_take_le _ _
  cases op with
  | createDir parent name =>
    exact ⟨zero_mem_nameField name, short name, by simp [TreeOp.entry, dirEntry, namedEntry,
      zeroEntry], Or.inl ⟨rfl, rfl, rfl, rfl⟩⟩
  | createFile parent name content size =>
    exact ⟨zero_mem_nameField name, short name, by simp [TreeOp.entry, fileEntry, namedEntry,
      zeroEntry], Or.inr ⟨rfl, rfl, rfl, rfl, rfl⟩⟩

/-- A directory stays well formed under a link to the node behind the last one. -/
theorem EntryOk.link {total : ℕ} {p : RamfsEntry} (ok : EntryOk total p)
    (dir : p.flags &&& fsDirectory ≠ 0) :
    EntryOk (total + 1) { p with children := p.children ++ [total] } := by
  refine ⟨ok.terminated, ok.short, fun k hk => ?_, ?_⟩
  · rcases List.mem_append.mp hk with hk | hk
    · have := ok.closed k hk
      omega
    · rw [List.mem_singleton.mp hk]
      omega
  · rcases ok.kind with isDir | ⟨flags, -⟩
    · exact Or.inl isDir
    · rw [flags] at dir
      exact absurd rfl dir

theorem EntryOk.mono {m n : ℕ} {e : RamfsEntry} (ok : EntryOk m e) (h : m ≤ n) : EntryOk n e :=
  ⟨ok.terminated, ok.short, fun k hk => (ok.closed k hk).trans_le h, ok.kind⟩

theorem treeStep_inv {s t : Fs} {op : TreeOp} (inv : TreeInv s) (step : TreeStep s op t) :
    TreeInv t := by
  obtain ⟨r, call⟩ := step
  rcases op.call_cases call with ⟨-, -, -, -, rfl⟩ | ⟨p, k, hp, dir, -, rfl⟩
  · exact inv
  · refine ⟨inv.root, by simp, fun n e he => ?_⟩
    rw [length_linked]
    rw [getElem?_linked hp] at he
    split_ifs at he with last here
    · obtain rfl := Option.some.inj he
      exact op.entry_ok _
    · obtain rfl := Option.some.inj he
      exact (inv.entry _ p hp).link dir
    · exact (inv.entry n e he).mono (by omega)

theorem mountRoot_inv {boot s : Fs} (empty : boot.nodes = []) (call : mountRoot boot = some s) :
    TreeInv s := by
  obtain ⟨nodes, root, -⟩ := mountRoot_eq empty call
  refine ⟨root, by rw [nodes]; simp, fun n e he => ?_⟩
  rw [nodes, List.getElem?_singleton] at he
  split_ifs at he
  obtain rfl := Option.some.inj he
  exact ⟨by simp [dirEntry, namedEntry], by decide, by simp [dirEntry, namedEntry, zeroEntry],
    Or.inl ⟨rfl, rfl, rfl, rfl⟩⟩

theorem Built.inv {s : Fs} (built : Built s) : TreeInv s := by
  obtain ⟨boot, mounted, ops, empty, call, run⟩ := built
  exact run.invariant (I := TreeInv) (fun _ _ _ inv step => treeStep_inv inv step)
    (mountRoot_inv empty call)

end ChefOs
