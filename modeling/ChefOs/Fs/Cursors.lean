import ChefOs.Lib.Files
import ChefOs.Fs.Lookup

/-!
# Descriptors are cursors

Over a tree of `ramfs` nodes, the calls on open files behave as independent cursors on byte
strings.  The nodes' buffers hold the strings, with room behind them that is never read, and every
descriptor stays inside its file.
-/

namespace ChefOs

open Kit

/-- The strings and cursors a file system stands for. -/
abbrev VfsFiles := Files ℕ (Fin 64) UInt8

/-! ## Building files -/

/-- The contents a call gives to the node it returns. -/
def TreeOp.record : TreeOp → Option ℕ → (ℕ → Option (List UInt8)) → ℕ → Option (List UInt8)
  | .createFile _ _ content size, some n, bytes =>
    Function.update bytes n (some (initialBytes content size))
  | _, _, bytes => bytes

/-- A call that builds the tree, with the contents of the files. -/
def FileStep (x : Fs × (ℕ → Option (List UInt8))) (op : TreeOp)
    (y : Fs × (ℕ → Option (List UInt8))) : Prop :=
  ∃ r, op.call x.1 = some (r, y.1) ∧ y.2 = op.record r x.2

/-! ## Calls on open files -/

/-- A call on open files; a path is given without its terminator. -/
inductive VfsOp where
  | openPath (path : Option (List UInt8)) (flags : ℤ)
  | closeFd (fd : ℤ)
  | readFd (fd : ℤ) (buffer : List (Option UInt8)) (count : ℕ)
  | writeFd (fd : ℤ) (buffer : List UInt8) (count : ℕ)
deriving DecidableEq, Repr

/-- What a call returns, with the buffer of a read. -/
abbrev VfsResult := ℤ × List (Option UInt8)

/-- The call with its result. -/
def VfsOp.call : VfsOp → Fs → Option (VfsResult × Fs)
  | .openPath path flags, s =>
    (vfsOpen (path.map (· ++ [0])) flags s).map fun r => ((r.1, []), r.2)
  | .closeFd fd, s => some ((0, []), vfsClose fd s)
  | .readFd fd buffer count, s => (vfsRead fd buffer count s).map fun r => ((r.1, r.2.1), r.2.2)
  | .writeFd fd buffer count, s => (vfsWrite fd buffer count s).map fun r => ((r.1, []), r.2)

/-- The calls one after the other. -/
def vfsRun : List VfsOp → Fs → Option (List VfsResult × Fs)
  | [], s => some ([], s)
  | op :: ops, s => do
    let (result, s) ← op.call s
    let (results, s) ← vfsRun ops s
    return (result :: results, s)

/-- The node a path names in a tree. -/
def resolveIn (s : Fs) (path : Option (List UInt8)) : Option ℕ :=
  (vfsLookup (path.map (· ++ [0])) s).join

/-- A descriptor open on a file: its slot, node, position and contents. -/
def openFile (fd : ℤ) (f : VfsFiles) : Option (Fin 64 × ℕ × ℕ × List UInt8) := do
  let i ← fdSlot fd
  let (n, o) ← f.cursor i
  let bs ← f.bytes n
  return (i, n, o, bs)

/-- What a call should do to strings and cursors. -/
def VfsOp.spec (resolve : Option (List UInt8) → Option ℕ) : VfsOp → VfsFiles → VfsResult × VfsFiles
  | .openPath path _, f =>
    match resolve path, (List.finRange 64).find? fun i => (f.cursor i).isNone with
    | some n, some i => ((i, []), f.seek i (some (n, 0)))
    | _, _ => ((-1, []), f)
  | .closeFd fd, f =>
    match fdSlot fd with
    | some i => ((0, []), f.seek i none)
    | none => ((0, []), f)
  | .readFd fd buffer count, f =>
    match openFile fd f with
    | some (i, n, o, bs) =>
      (((Files.readAt bs o count).length,
        (Files.readAt bs o count).map some ++ buffer.drop (Files.readAt bs o count).length),
        f.read i n o bs count)
    | none => ((-1, buffer), f)
  | .writeFd fd buffer count, f =>
    match openFile fd f with
    | some (i, n, o, bs) => ((count, []), f.write i n o bs (buffer.take count))
    | none => ((-1, []), f)

/-- The results the calls should have, and the strings and cursors they should leave. -/
def specRun (resolve : Option (List UInt8) → Option ℕ) :
    List VfsOp → VfsFiles → List VfsResult × VfsFiles
  | [], f => ([], f)
  | op :: ops, f =>
    ((op.spec resolve f).1 :: (specRun resolve ops (op.spec resolve f).2).1,
      (specRun resolve ops (op.spec resolve f).2).2)

/-- The caller's buffer has `count` bytes, and position and count stay below `2 ^ 63`. -/
def VfsOp.Allowed : VfsOp → VfsFiles → Prop
  | .readFd fd buffer count, f =>
    count ≤ buffer.length ∧ ∀ i n o bs, openFile fd f = some (i, n, o, bs) → o + count < 2 ^ 63
  | .writeFd fd buffer count, f =>
    count ≤ buffer.length ∧ ∀ i n o bs, openFile fd f = some (i, n, o, bs) → o + count < 2 ^ 63
  | _, _ => True

/-- All calls of a run are allowed. -/
def AllAllowed (resolve : Option (List UInt8) → Option ℕ) : List VfsOp → VfsFiles → Prop
  | [], _ => True
  | op :: ops, f => op.Allowed f ∧ AllAllowed resolve ops (op.spec resolve f).2

/-! ## Representation -/

/-- The buffer of a node holds these bytes, with room behind them. -/
structure HoldsBytes (e : RamfsEntry) (bs : List UInt8) : Prop where
  length : e.length = bs.length
  capacity : bs.length ≤ e.capacity
  buffer : (e.data.getD []).length = e.capacity
  bytes : (e.data.getD []).take bs.length = bs.map some

/-- A file holds its contents; a directory has none. -/
def NodeHolds (e : RamfsEntry) (contents : Option (List UInt8)) : Prop :=
  (IsDir e ∧ contents = none) ∨ (IsFile e ∧ ∃ bs, contents = some bs ∧ HoldsBytes e bs)

/-- The nodes hold the contents of the files. -/
structure Contents (s : Fs) (bytes : ℕ → Option (List UInt8)) : Prop where
  tree : TreeInv s
  node : ∀ (n : ℕ) (e : RamfsEntry), s.nodes[n]? = some e → NodeHolds e (bytes n)
  beyond : ∀ n, s.nodes.length ≤ n → bytes n = none

/-- A state stands for these strings and cursors. -/
structure Represents (s : Fs) (f : VfsFiles) : Prop where
  contents : Contents s f.bytes
  cursor : ∀ i, f.cursor i = (s.sFdTable i).node.map fun n => (n, (s.sFdTable i).offset)
  live : ∀ i n o, f.cursor i = some (n, o) → n < s.nodes.length
  within : f.Within

/-! ## Buffers -/

/-- A new file holds its initial bytes. -/
theorem holdsBytes_fileEntry (stored bytes : List UInt8) :
    HoldsBytes (fileEntry stored bytes) bytes := by
  refine ⟨rfl, le_rfl, ?_, ?_⟩
  · by_cases empty : bytes = []
    · simp [fileEntry, empty]
    · simp [fileEntry, empty]
  · by_cases empty : bytes = []
    · simp [fileEntry, empty]
    · simp [fileEntry, empty]

/-- Bytes inside the length of a file are copied as they are. -/
theorem memcpy_bytesFrom {e : RamfsEntry} {bs : List UInt8} (holds : HoldsBytes e bs) {o k : ℕ}
    (inside : o + k ≤ bs.length) {buffer : List (Option UInt8)} (room : k ≤ buffer.length) :
    memcpy buffer (bytesFrom e.data o) k =
      some ((Files.readAt bs o k).map some ++ buffer.drop k) := by
  have hbuffer := holds.buffer
  have hcapacity := holds.capacity
  have same : (bytesFrom e.data o).take k = (Files.readAt bs o k).map some := by
    rw [Files.readAt, List.map_take, List.map_drop, ← holds.bytes, List.drop_take, List.take_take,
      min_eq_left (by omega)]
    rfl
  rw [memcpy_eq room, same]
  rw [bytesFrom, List.length_drop]
  omega

/-- `ramfs_read` returns the bytes at the cursor. -/
theorem ramfsRead_spec {s : Fs} {n o size : ℕ} {e : RamfsEntry} {bs : List UInt8}
    {buffer : List (Option UInt8)} (he : s.nodes[n]? = some e) (holds : HoldsBytes e bs)
    (bounded : o + size < 2 ^ 63) (room : size ≤ buffer.length) :
    ramfsRead n o size buffer s = some (((Files.readAt bs o size).length : ℤ),
      (Files.readAt bs o size).map some ++ buffer.drop (Files.readAt bs o size).length) := by
  have hlen : (Files.readAt bs o size).length = min size (bs.length - o) := by
    rw [Files.readAt, List.length_take, List.length_drop]
  simp only [ramfsRead, he, Option.bind_eq_bind, Option.bind_some, holds.length]
  by_cases atEnd : bs.length ≤ o
  · have none : Files.readAt bs o size = [] := List.eq_nil_of_length_eq_zero (by omega)
    rw [if_pos atEnd, none]
    rfl
  · -- the count is cut to what the file has left
    obtain ⟨k, cut, hk⟩ : ∃ k,
        (if u64 (o + size) > bs.length then sub64 bs.length o else size) = k ∧
          k = (Files.readAt bs o size).length := by
      rw [u64_of_lt (by omega), hlen]
      split_ifs with beyond
      · exact ⟨_, rfl, by rw [sub64_of_le (by omega) (by omega)]; omega⟩
      · exact ⟨_, rfl, by omega⟩
    have same : Files.readAt bs o size = Files.readAt bs o k := by
      rw [hk, hlen, Files.readAt, Files.readAt, ← List.length_drop, ← List.take_eq_take_min]
    rw [if_neg atEnd, cut, memcpy_bytesFrom holds (by omega) (by omega), ← same, hk]
    simp only [Option.bind_some]
    rw [i64, if_pos (by omega)]
    rfl

/-- The growing half of `ramfs_write` keeps the bytes and makes room. -/
theorem ramfsGrow_spec {s : Fs} {o size : ℕ} {e : RamfsEntry} {bs : List UInt8}
    (holds : HoldsBytes e bs) (bounded : o + size < 2 ^ 63) (ok : s.kmallocOk s.allocs = true) :
    ∃ data capacity k, ramfsGrow e o size s =
        some ({ e with data := data, capacity := capacity }, s.withAllocs k) ∧
      HoldsBytes { e with data := data, capacity := capacity } bs ∧ o + size ≤ capacity := by
  rw [ramfsGrow, u64_of_lt (by omega)]
  by_cases grow : o + size > e.capacity
  · have round : u64 (o + size + 511) &&& not64 511 = (o + size + 511) / 512 * 512 :=
      roundUp_mask (k := 9) (by norm_num) (by omega)
    have hlength := holds.length
    have hcapacity := holds.capacity
    have hbuffer := holds.buffer
    simp only [if_pos grow, round, Fs.kmalloc, ok, if_true]
    generalize hcap : (o + size + 511) / 512 * 512 = newCap
    have room : o + size ≤ newCap := by omega
    have enough : bs.length ≤ newCap := by omega
    cases hdata : e.data with
    | none =>
      rw [hdata] at hbuffer
      have empty : bs = [] := by simpa [hdata] using holds.bytes.symm
      refine ⟨_, newCap, s.allocs + 1, rfl, ⟨hlength, enough, by simp, by simp [empty]⟩, room⟩
    | some data =>
      have hbytes := holds.bytes
      rw [hdata] at hbuffer hbytes
      simp only [Option.getD_some] at hbuffer hbytes
      have copied : memcpyTo (some (List.replicate newCap none)) 0 data e.length =
          some (some (bs.map some ++ (List.replicate newCap none).drop bs.length)) := by
        rw [memcpyTo, List.drop_zero, memcpy_eq (by simp; omega) (by omega), hlength, hbytes]
        rfl
      simp only [copied, Option.bind_eq_bind, Option.bind_some]
      refine ⟨_, newCap, s.allocs + 1, rfl, ⟨hlength, enough, ?_, ?_⟩, room⟩
      · simp
        omega
      · simp
  · exact ⟨e.data, e.capacity, s.allocs, if_neg grow, holds, by omega⟩

/-- Writing into a buffer with room splices its bytes. -/
theorem memcpyTo_spec {e : RamfsEntry} {bs buffer : List UInt8} {o size : ℕ}
    (holds : HoldsBytes e bs) (inside : o ≤ bs.length) (fits : o + size ≤ e.capacity)
    (room : size ≤ buffer.length) :
    ∃ data, memcpyTo e.data o (buffer.map some) size = some data ∧
      (data.getD []).length = e.capacity ∧
      (data.getD []).take (max bs.length (o + size)) =
        (splice bs o (buffer.take size)).map some := by
  have hbuffer := holds.buffer
  have hbytes := holds.bytes
  cases hdata : e.data with
  | none =>
    rw [hdata] at hbuffer hbytes
    have zero : size = 0 := by
      rw [Option.getD_none, List.length_nil] at hbuffer
      omega
    have empty : bs = [] := by simpa using hbytes.symm
    refine ⟨none, by rw [memcpyTo, if_pos zero], hbuffer, ?_⟩
    simp [zero, empty]
  | some data =>
    rw [hdata] at hbuffer hbytes
    simp only [Option.getD_some] at hbuffer hbytes
    have hlen : ((buffer.map some).take size).length = size := by simp [room]
    have spliced : data.take o ++ ((buffer.map some).take size ++ (data.drop o).drop size) =
        splice data o ((buffer.map some).take size) := by
      rw [splice, hlen, List.drop_drop, List.append_assoc]
    refine ⟨some (splice data o ((buffer.map some).take size)), ?_, ?_, ?_⟩
    · rw [memcpyTo, memcpy_eq (by rw [List.length_drop]; omega) (by simpa using room),
        Option.map_some, spliced]
    · rw [Option.getD_some, length_splice (by omega), hlen]
      omega
    · have room' : o + ((buffer.map some).take size).length ≤ data.length := by
        rw [hlen]
        omega
      have := take_splice inside room'
      rw [hlen, hbytes] at this
      rw [Option.getD_some, this, map_splice, List.map_take]

/-- `ramfs_write` splices the bytes in at the cursor. -/
theorem ramfsWrite_spec {s : Fs} {n o size : ℕ} {e : RamfsEntry} {bs : List UInt8}
    {buffer : List UInt8} (he : s.nodes[n]? = some e) (holds : HoldsBytes e bs)
    (inside : o ≤ bs.length) (bounded : o + size < 2 ^ 63) (room : size ≤ buffer.length)
    (ok : s.kmallocOk s.allocs = true) :
    ∃ e' k, ramfsWrite n o size buffer s = some ((size : ℤ), (s.withAllocs k).setNode n e') ∧
      HoldsBytes e' (splice bs o (buffer.take size)) ∧
      ∃ data capacity length, e' =
        { e with data := data, capacity := capacity, length := length } := by
  obtain ⟨data, capacity, k, grow, holds', fits⟩ := ramfsGrow_spec holds bounded ok
  obtain ⟨data', copied, hbuffer, hbytes⟩ := memcpyTo_spec holds' inside fits room
  have hlen : (splice bs o (buffer.take size)).length = max bs.length (o + size) := by
    rw [length_splice inside, List.length_take, min_eq_left room]
  have hcapacity := holds'.capacity
  have hlength : (if u64 (o + size) > e.length then u64 (o + size) else e.length) =
      max bs.length (o + size) := by
    rw [u64_of_lt (by omega), holds.length]
    split_ifs <;> omega
  simp only [ramfsWrite, he, Option.bind_eq_bind, Option.bind_some, grow, copied]
  refine ⟨{ e with data := data', capacity := capacity, length := max bs.length (o + size) }, k,
    ?_, ⟨hlen.symm, ?_, hbuffer, ?_⟩, _, _, _, rfl⟩
  · rw [hlength, i64, if_pos (by omega)]
    rfl
  · rw [hlen]
    exact max_le hcapacity fits
  · rw [hlen]
    exact hbytes

/-! ## Building files keeps the contents -/

theorem EntryOk.isDir {total : ℕ} {e : RamfsEntry} (ok : EntryOk total e)
    (dir : e.flags &&& fsDirectory ≠ 0) : IsDir e := by
  apply ok.kind.resolve_right
  intro file
  rw [file.1] at dir
  exact dir rfl

/-- A directory holds no contents. -/
theorem NodeHolds.of_isDir {e : RamfsEntry} {contents : Option (List UInt8)}
    (holds : NodeHolds e contents) (dir : IsDir e) : contents = none := by
  rcases holds with ⟨-, none⟩ | ⟨file, -⟩
  · exact none
  · have := dir.1.symm.trans file.1
    exact absurd this (by decide)

theorem contents_step {x y : Fs × (ℕ → Option (List UInt8))} {op : TreeOp}
    (contents : Contents x.1 x.2) (step : FileStep x op y) : Contents y.1 y.2 := by
  obtain ⟨s, bytes⟩ := x
  obtain ⟨t, bytes'⟩ := y
  obtain ⟨r, call, record⟩ := step
  dsimp only at call record contents ⊢
  have tree := treeStep_inv contents.tree ⟨r, call⟩
  rcases op.call_cases call with ⟨-, -, -, rfl, rfl⟩ | ⟨p, k, hp, dir, rfl, rfl⟩
  · have same : op.record none bytes = bytes := by cases op <;> rfl
    rw [record, same]
    exact contents
  · have isDir := (contents.tree.entry _ p hp).isDir dir
    have hlt : op.parent < s.nodes.length := (List.getElem?_eq_some_iff.mp hp).1
    -- the contents of the new node, and those of the others
    have fresh : NodeHolds op.entry (bytes' s.nodes.length) := by
      rw [record]
      cases op with
      | createDir parent name => exact Or.inl ⟨⟨rfl, rfl, rfl, rfl⟩, contents.beyond _ le_rfl⟩
      | createFile parent name content size =>
        refine Or.inr ⟨⟨rfl, rfl, rfl, rfl, rfl⟩, initialBytes content size, ?_,
          holdsBytes_fileEntry _ _⟩
        exact Function.update_self _ _ _
    have old : ∀ n, n ≠ s.nodes.length → bytes' n = bytes n := by
      intro n hn
      rw [record]
      cases op with
      | createDir parent name => rfl
      | createFile parent name content size => exact Function.update_of_ne hn _ _
    refine ⟨tree, fun n e he => ?_, fun n hn => ?_⟩
    · rw [getElem?_linked hp] at he
      split_ifs at he with last here
      · rw [last, ← Option.some.inj he]
        exact fresh
      · rw [← Option.some.inj he, old n last, here]
        exact Or.inl ⟨isDir, (contents.node _ p hp).of_isDir isDir⟩
      · rw [old n last]
        exact contents.node n e he
    · rw [length_linked] at hn
      rw [old n (by omega), contents.beyond n (by omega)]

/-- Building the tree leaves the table of open files and the outcome of allocations alone. -/
theorem fdTable_step {x y : Fs × (ℕ → Option (List UInt8))} {op : TreeOp}
    (step : FileStep x op y) :
    y.1.sFdTable = x.1.sFdTable ∧ y.1.kmallocOk = x.1.kmallocOk := by
  obtain ⟨r, call, -⟩ := step
  rcases op.call_cases call with ⟨-, -, -, -, same⟩ | ⟨p, k, -, -, -, linked⟩
  · rw [same]
    exact ⟨rfl, rfl⟩
  · rw [linked]
    exact ⟨rfl, rfl⟩

/-- A tree after `vfs_init` stands for its files and no open descriptor. -/
theorem represents_built {boot mounted s : Fs} {ops : List TreeOp}
    {bytes : ℕ → Option (List UInt8)} (empty : boot.nodes = [])
    (mount : mountRoot (vfsInit boot) = some mounted)
    (built : Run FileStep (mounted, fun _ => none) ops (s, bytes)) :
    Represents s ⟨bytes, fun _ => none⟩ ∧ s.kmallocOk = boot.kmallocOk := by
  have empty : (vfsInit boot).nodes = [] := empty
  obtain ⟨nodes, -, table, alloc⟩ := mountRoot_eq empty mount
  have initial : Contents mounted fun _ => none := by
    refine ⟨mountRoot_inv empty mount, fun n e he => ?_, fun _ _ => rfl⟩
    rw [nodes, List.getElem?_singleton] at he
    split_ifs at he
    rw [← Option.some.inj he]
    exact Or.inl ⟨⟨rfl, rfl, rfl, rfl⟩, rfl⟩
  have contents : Contents s bytes := built.invariant (I := fun x => Contents x.1 x.2)
    (fun _ _ _ contents step => contents_step contents step) initial
  obtain ⟨closed, alloc⟩ : s.sFdTable = (fun _ => ⟨none, 0, 0⟩) ∧ s.kmallocOk = boot.kmallocOk :=
    built.invariant
      (I := fun x => x.1.sFdTable = (fun _ => ⟨none, 0, 0⟩) ∧ x.1.kmallocOk = boot.kmallocOk)
      (fun _ _ _ same step => ⟨(fdTable_step step).1.trans same.1,
        (fdTable_step step).2.trans same.2⟩) ⟨table, alloc⟩
  refine ⟨⟨contents, fun i => by rw [closed]; rfl, fun i n o h => ?_, fun d n o bs h => ?_⟩, alloc⟩
  · exact absurd h (by simp)
  · exact absurd h (by simp)

/-! ## Lookup does not depend on the contents -/

/-- What lookup reads of a node. -/
def RamfsEntry.shape (e : RamfsEntry) : List UInt8 × Option FinddirFn × List ℕ :=
  (e.name, e.finddir, e.children)

/-- Two states with the same tree. -/
structure SameTree (s t : Fs) : Prop where
  root : s.gVfsRoot = t.gVfsRoot
  shape : ∀ n : ℕ, (s.nodes[n]?).map RamfsEntry.shape = (t.nodes[n]?).map RamfsEntry.shape

theorem SameTree.refl (s : Fs) : SameTree s s := ⟨rfl, fun _ => rfl⟩

theorem SameTree.trans {s t u : Fs} (h : SameTree s t) (h' : SameTree t u) : SameTree s u :=
  ⟨h.root.trans h'.root, fun n => (h.shape n).trans (h'.shape n)⟩

/-- A pointer is wild in both, or leads to nodes that lookup cannot tell apart. -/
theorem SameTree.entry {s t : Fs} (same : SameTree s t) (n : ℕ) :
    (s.nodes[n]? = none ∧ t.nodes[n]? = none) ∨ ∃ e e', s.nodes[n]? = some e ∧
      t.nodes[n]? = some e' ∧ e'.name = e.name ∧ e'.finddir = e.finddir ∧
      e'.children = e.children := by
  have shape := same.shape n
  cases hs : s.nodes[n]? with
  | none =>
    rw [hs, Option.map_none, eq_comm, Option.map_eq_none_iff] at shape
    exact Or.inl ⟨rfl, shape⟩
  | some e =>
    rw [hs, Option.map_some, eq_comm, Option.map_eq_some_iff] at shape
    obtain ⟨e', ht, hshape⟩ := shape
    simp only [RamfsEntry.shape, Prod.mk.injEq] at hshape
    exact Or.inr ⟨e, e', rfl, ht, hshape⟩

theorem finddirLoop_congr {s t : Fs} (same : SameTree s t) (name : List UInt8)
    (children : List ℕ) :
    finddirLoop s.nodes name children = finddirLoop t.nodes name children := by
  induction children with
  | nil => rfl
  | cons child children ih =>
    rw [finddirLoop, finddirLoop, ih]
    rcases same.entry child with ⟨hs, ht⟩ | ⟨e, e', hs, ht, name', -⟩
    · rw [hs, ht]
    · simp only [hs, ht, Option.bind_eq_bind, Option.bind_some, name']

theorem lookupLoop_congr {s t : Fs} (same : SameTree s t) (fuel n : ℕ) (path : List UInt8) :
    lookupLoop s fuel n path = lookupLoop t fuel n path := by
  induction fuel generalizing n path with
  | zero => rfl
  | succ fuel ih =>
    rcases same.entry n with ⟨hs, ht⟩ | ⟨e, e', hs, ht, -, finddir, children⟩
    · simp only [lookupLoop, hs, ht, Option.bind_eq_bind, Option.bind_none]
    · have find : ∀ component, ramfsFinddir n component s = ramfsFinddir n component t := by
        intro component
        simp only [ramfsFinddir, hs, ht, Option.bind_eq_bind, Option.bind_some, children,
          finddirLoop_congr same]
      simp only [lookupLoop, hs, ht, Option.bind_eq_bind, Option.bind_some, finddir, find, ih]

theorem vfsLookup_congr {s t : Fs} (same : SameTree s t) (path : Option (List UInt8)) :
    vfsLookup path s = vfsLookup path t := by
  cases path with
  | none => rfl
  | some path => simp only [vfsLookup, same.root, lookupLoop_congr same]

/-! ## Lookup always answers -/

/-- The inner loop splits the path, and what is left still has its terminator. -/
theorem copyComponent_total {path : List UInt8} (terminated : 0 ∈ path) (room : ℕ) :
    ∃ c path', copyComponent room path = some (c, path') ∧ path = c ++ path' ∧ 0 ∉ c := by
  induction path generalizing room with
  | nil => exact absurd terminated List.not_mem_nil
  | cons b path ih =>
    cases room with
    | zero => exact ⟨[], b :: path, rfl, rfl, List.not_mem_nil⟩
    | succ room =>
      rw [copyComponent]
      split_ifs with more
      · have later : 0 ∈ path := (List.mem_cons.mp terminated).resolve_left fun h => more.1 h.symm
        obtain ⟨c, path', copy, split, noNul⟩ := ih later room
        refine ⟨b :: c, path', by rw [copy]; rfl, by rw [split, List.cons_append], ?_⟩
        simpa using ⟨fun h => more.1 h.symm, noNul⟩
      · exact ⟨[], b :: path, rfl, rfl, List.not_mem_nil⟩

theorem mem_skipSlash {path : List UInt8} (terminated : 0 ∈ path) : 0 ∈ skipSlash path := by
  cases path with
  | nil => exact terminated
  | cons b path =>
    rw [skipSlash]
    split_ifs with h
    · exact (List.mem_cons.mp terminated).resolve_left fun h' => by
        rw [h] at h'
        exact absurd h' (by decide)
    · exact terminated

/-- A round of the outer loop shortens the path. -/
theorem skipSlash_lt {b : UInt8} {path c path' : List UInt8} (more : b ≠ 0)
    (copy : copyComponent 127 (b :: path) = some (c, path')) (split : b :: path = c ++ path') :
    (skipSlash path').length < (b :: path).length := by
  cases c with
  | cons x c =>
    have := length_skipSlash_le path'
    rw [split]
    simp only [List.length_append, List.length_cons]
    omega
  | nil =>
    -- nothing was copied, so the path starts with the slash that is skipped
    have isSlash : b = slash := by
      by_contra other
      rw [copyComponent, if_pos ⟨more, other⟩, Option.map_eq_some_iff] at copy
      obtain ⟨r, -, h⟩ := copy
      exact absurd (Prod.ext_iff.mp h).1 (by simp)
    rw [List.nil_append] at split
    rw [← split, skipSlash, if_pos isSlash]
    simp

theorem lookupLoop_total {s : Fs} (inv : TreeInv s) {fuel n : ℕ} (hn : n < s.nodes.length)
    {path : List UInt8} (terminated : 0 ∈ path) (enough : path.length ≤ fuel) :
    ∃ r, lookupLoop s fuel n path = some r ∧ ∀ m, r = some m → m < s.nodes.length := by
  induction fuel generalizing n path with
  | zero =>
    obtain rfl := List.eq_nil_of_length_eq_zero (Nat.le_zero.mp enough)
    exact absurd terminated List.not_mem_nil
  | succ fuel ih =>
    obtain ⟨b, path, rfl⟩ := List.exists_cons_of_ne_nil (List.ne_nil_of_mem terminated)
    simp only [lookupLoop, List.head?_cons, Option.bind_eq_bind, Option.bind_some]
    split_ifs with done
    · exact ⟨some n, rfl, fun m h => by rwa [← Option.some.inj h]⟩
    obtain ⟨c, path', copy, split, noNul⟩ := copyComponent_total terminated 127
    have hentry := List.getElem?_eq_getElem hn
    simp only [copy, hentry, Option.bind_some]
    cases s.nodes[n].finddir with
    | none => exact ⟨none, rfl, by simp⟩
    | some find =>
      cases find
      obtain ⟨r, call, hr⟩ := ramfsFinddir_spec inv.named hn (by simp : 0 ∈ c ++ [0])
      simp only [call, Option.bind_some]
      cases r with
      | none => exact ⟨none, rfl, by simp⟩
      | some k =>
        have later : 0 ∈ path' := by
          rw [split] at terminated
          exact (List.mem_append.mp terminated).resolve_left noNul
        have shorter := skipSlash_lt done copy split
        exact ih ((hr k).mp rfl).lt (mem_skipSlash later) (by omega)

theorem vfsLookup_total {s : Fs} (inv : TreeInv s) (path : Option (List UInt8)) :
    ∃ r, vfsLookup (path.map (· ++ [0])) s = some r ∧ ∀ m, r = some m → m < s.nodes.length := by
  cases path with
  | none => exact ⟨none, rfl, by simp⟩
  | some path =>
    have terminated : 0 ∈ path ++ [0] := by simp
    obtain ⟨d, cmp, -⟩ := strcmp_spec terminated (by decide : 0 ∈ cString ['/'])
    simp only [Option.map_some, vfsLookup, inv.root, cmp, Option.bind_eq_bind, Option.bind_some]
    split_ifs
    · exact ⟨some 0, rfl, fun m h => by rw [← Option.some.inj h]; exact inv.rooted⟩
    · exact lookupLoop_total inv inv.rooted (mem_skipSlash terminated) (length_skipSlash_le _)

/-! ## One call -/

theorem sameTree_setNode {s : Fs} {n : ℕ} {e e' : RamfsEntry} (k : ℕ)
    (he : s.nodes[n]? = some e) (shape : e'.shape = e.shape) :
    SameTree s ((s.withAllocs k).setNode n e') := by
  refine ⟨rfl, fun m => ?_⟩
  change _ = ((s.nodes.set n e')[m]?).map RamfsEntry.shape
  rw [List.getElem?_set]
  by_cases here : n = m
  · have hlt : n < s.nodes.length := (List.getElem?_eq_some_iff.mp he).1
    rw [if_pos here, if_pos hlt, ← here, he, Option.map_some, Option.map_some, shape]
  · rw [if_neg here]

/-- Overwriting the buffer of a file changes its contents and nothing else. -/
theorem contents_setNode {s : Fs} {bytes : ℕ → Option (List UInt8)} {n : ℕ} {e e' : RamfsEntry}
    {bs : List UInt8} (contents : Contents s bytes) (he : s.nodes[n]? = some e)
    (ok : EntryOk s.nodes.length e') (file : IsFile e') (holds : HoldsBytes e' bs) (k : ℕ) :
    Contents ((s.withAllocs k).setNode n e') (Function.update bytes n (some bs)) := by
  have hlt : n < s.nodes.length := (List.getElem?_eq_some_iff.mp he).1
  have hlen : ((s.withAllocs k).setNode n e').nodes.length = s.nodes.length := List.length_set
  have nodes : ∀ m : ℕ, ((s.withAllocs k).setNode n e').nodes[m]? =
      if m = n then some e' else s.nodes[m]? := by
    intro m
    change (s.nodes.set n e')[m]? = _
    rw [List.getElem?_set]
    by_cases here : n = m
    · simp [here, here ▸ hlt]
    · have : m ≠ n := fun h => here h.symm
      simp [here, this]
  refine ⟨⟨contents.tree.root, by rw [hlen]; exact contents.tree.rooted, fun m e₁ he₁ => ?_⟩,
    fun m e₁ he₁ => ?_, fun m hm => ?_⟩
  · rw [hlen]
    rw [nodes] at he₁
    split_ifs at he₁
    · rw [← Option.some.inj he₁]
      exact ok
    · exact contents.tree.entry m e₁ he₁
  · rw [nodes] at he₁
    split_ifs at he₁ with here
    · rw [← Option.some.inj he₁, here, Function.update_self]
      exact Or.inr ⟨file, bs, rfl, holds⟩
    · rw [Function.update_of_ne here]
      exact contents.node m e₁ he₁
  · rw [hlen] at hm
    rw [Function.update_of_ne (by omega), contents.beyond m hm]

/-- Changing a slot of the table is moving a descriptor. -/
theorem represents_setFd {s : Fs} {f : VfsFiles} (rep : Represents s f) (i : Fin 64)
    (d : FileDesc) (live : ∀ n, d.node = some n → n < s.nodes.length)
    (inside : ∀ n bs, d.node = some n → f.bytes n = some bs → d.offset ≤ bs.length) :
    Represents (s.setFd i d) (f.seek i (d.node.map fun n => (n, d.offset))) := by
  refine ⟨⟨⟨rep.contents.tree.root, rep.contents.tree.rooted, rep.contents.tree.entry⟩,
    rep.contents.node, rep.contents.beyond⟩, fun j => ?_, fun j n o h => ?_,
    rep.within.seek fun n o bs h hb => ?_⟩
  · simp only [Files.seek, Fs.setFd, Function.update_apply]
    split_ifs
    · rfl
    · exact rep.cursor j
  · simp only [Files.seek, Function.update_apply] at h
    split_ifs at h
    · rw [Option.map_eq_some_iff] at h
      obtain ⟨m, hm, h⟩ := h
      obtain ⟨rfl, -⟩ := Prod.ext_iff.mp h
      exact live m hm
    · exact rep.live j n o h
  · rw [Option.map_eq_some_iff] at h
    obtain ⟨m, hm, h⟩ := h
    obtain ⟨rfl, rfl⟩ := Prod.ext_iff.mp h
    exact inside m bs hm hb

/-- `s_fd_table[fd].offset += bytes` moves the descriptor. -/
theorem represents_advance {s : Fs} {f : VfsFiles} (rep : Represents s f) {i : Fin 64} {n k : ℕ}
    {bs : List UInt8} (node : (s.sFdTable i).node = some n) (contents : f.bytes n = some bs)
    (inside : (s.sFdTable i).offset + k ≤ bs.length)
    (bounded : (s.sFdTable i).offset + k < 2 ^ 64) :
    Represents (advance i k s) (f.seek i (some (n, (s.sFdTable i).offset + k))) := by
  have cursor := rep.cursor i
  rw [node, Option.map_some] at cursor
  unfold advance
  split_ifs with moved
  · have hoffset : u64 ((s.sFdTable i).offset + (k : ℤ).toNat) = (s.sFdTable i).offset + k := by
      rw [Int.toNat_natCast, u64_of_lt bounded]
    have move := represents_setFd rep i
      { s.sFdTable i with offset := (s.sFdTable i).offset + k }
      (fun m hm => by
        obtain rfl := Option.some.inj (node.symm.trans hm)
        exact rep.live i n _ cursor)
      (fun m cs hm hcs => by
        obtain rfl := Option.some.inj (node.symm.trans hm)
        obtain rfl := Option.some.inj (contents.symm.trans hcs)
        exact inside)
    rw [node] at move
    rw [hoffset]
    exact move
  · have zero : k = 0 := by omega
    have same : f.seek i (some (n, (s.sFdTable i).offset + k)) = f := by
      rw [zero, Nat.add_zero, ← cursor, Files.seek, Function.update_eq_self]
    rw [same]
    exact rep

/-- What a descriptor number leads to. -/
theorem fdNode_cases {s : Fs} {f : VfsFiles} (rep : Represents s f) (fd : ℤ) :
    (fdNode fd s = none ∧ openFile fd f = none) ∨
      ∃ i n e, fdNode fd s = some (i, n) ∧ (s.sFdTable i).node = some n ∧ s.nodes[n]? = some e ∧
        ((IsDir e ∧ openFile fd f = none) ∨
          IsFile e ∧ ∃ bs, f.bytes n = some bs ∧ HoldsBytes e bs ∧
            (s.sFdTable i).offset ≤ bs.length ∧
            openFile fd f = some (i, n, (s.sFdTable i).offset, bs)) := by
  cases slot : fdSlot fd with
  | none => exact Or.inl ⟨by simp [fdNode, slot], by simp [openFile, slot]⟩
  | some i =>
    have cursor := rep.cursor i
    cases node : (s.sFdTable i).node with
    | none =>
      rw [node, Option.map_none] at cursor
      exact Or.inl ⟨by simp [fdNode, slot, node], by simp [openFile, slot, cursor]⟩
    | some n =>
      rw [node, Option.map_some] at cursor
      have hn := rep.live i n _ cursor
      have he := List.getElem?_eq_getElem hn
      refine Or.inr ⟨i, n, s.nodes[n], by simp [fdNode, slot, node], node, he, ?_⟩
      rcases rep.contents.node n _ he with ⟨dir, none⟩ | ⟨file, bs, contents, holds⟩
      · exact Or.inl ⟨dir, by simp [openFile, slot, cursor, none]⟩
      · exact Or.inr ⟨file, bs, contents, holds, rep.within i n _ bs cursor contents,
          by simp [openFile, slot, cursor, contents]⟩

/-- A call has the specified result and leaves what it should; it neither changes the tree nor the
outcome of allocations. -/
def Refined (resolve : Option (List UInt8) → Option ℕ) (op : VfsOp) (s : Fs) (f : VfsFiles) :
    Prop :=
  ∃ t, op.call s = some ((op.spec resolve f).1, t) ∧ Represents t (op.spec resolve f).2 ∧
    SameTree s t ∧ t.kmallocOk = s.kmallocOk

theorem sameTree_advance (i : Fin 64) (bytes : ℤ) (s : Fs) : SameTree s (advance i bytes s) := by
  unfold advance
  split_ifs
  · exact ⟨rfl, fun _ => rfl⟩
  · exact .refl s

theorem kmallocOk_advance (i : Fin 64) (bytes : ℤ) (s : Fs) :
    (advance i bytes s).kmallocOk = s.kmallocOk := by
  unfold advance
  split_ifs
  · rfl
  · rfl

/-! ## What calls leave alone -/

/-- The effect of a callback on everything but the bytes: none. -/
structure KeepsTree (s t : Fs) : Prop extends SameTree s t where
  table : t.sFdTable = s.sFdTable

/-- A call on a descriptor does nothing, or it is a callback on the node and moves the offset. -/
def Through (fd : ℤ) (s t : Fs) : Prop :=
  t = s ∨ ∃ i node bytes u, fdNode fd s = some (i, node) ∧ KeepsTree s u ∧ t = advance i bytes u

section Frame

variable {s t : Fs} {fd value : ℤ}

theorem KeepsTree.refl (s : Fs) : KeepsTree s s := ⟨.refl s, rfl⟩

/-- A write that grows the buffer of a node leaves its name, kind and children. -/
theorem ramfsGrow_keepsTree {e e' : RamfsEntry} {offset size : ℕ}
    (call : ramfsGrow e offset size s = some (e', t)) :
    e'.shape = e.shape ∧ ∃ k, t = s.withAllocs k := by
  rw [ramfsGrow] at call
  split_ifs at call
  · cases data : e.data with
    | none =>
      rw [data] at call
      cases call
      exact ⟨rfl, _, rfl⟩
    | some d =>
      simp only [data, Option.bind_eq_bind, Option.bind_eq_some_iff] at call
      obtain ⟨_, -, eq⟩ := call
      cases eq
      exact ⟨rfl, _, rfl⟩
  · cases call
    exact ⟨rfl, s.allocs, rfl⟩

theorem ramfsWrite_keepsTree {node offset size : ℕ} {buffer : List UInt8}
    (call : ramfsWrite node offset size buffer s = some (value, t)) : KeepsTree s t := by
  rw [ramfsWrite] at call
  simp only [Option.bind_eq_bind, Option.bind_eq_some_iff] at call
  obtain ⟨e, he, ⟨e', u⟩, grow, _, -, eq⟩ := call
  obtain ⟨shape, k, rfl⟩ := ramfsGrow_keepsTree grow
  cases eq
  exact ⟨sameTree_setNode k he shape, rfl⟩

theorem callRead_keepsTree {f : ReadFn} {node offset size : ℕ}
    {buffer out : List (Option UInt8)}
    (call : callRead f node offset size buffer s = some (value, out, t)) : KeepsTree s t := by
  cases f with
  | ramfsRead =>
    obtain ⟨_, -, eq⟩ := Option.map_eq_some_iff.mp call
    cases eq
    exact .refl s
  | devZeroRead =>
    obtain ⟨_, -, eq⟩ := Option.map_eq_some_iff.mp call
    cases eq
    exact .refl s
  | devKbdRead =>
    simp only [callRead, devKbdRead] at call
    split_ifs at call
    · obtain ⟨_, -, eq⟩ := Option.map_eq_some_iff.mp call
      cases eq
      exact ⟨⟨rfl, fun _ => rfl⟩, rfl⟩
    · cases call
      exact ⟨⟨rfl, fun _ => rfl⟩, rfl⟩
    · cases call
      exact .refl s

theorem callWrite_keepsTree {f : WriteFn} {node offset size : ℕ} {buffer : List UInt8}
    (call : callWrite f node offset size buffer s = some (value, t)) : KeepsTree s t := by
  cases f with
  | ramfsWrite => exact ramfsWrite_keepsTree call
  | devSerialWrite =>
    simp only [callWrite, devSerialWrite] at call
    split_ifs at call
    cases call
    exact ⟨⟨rfl, fun _ => rfl⟩, rfl⟩
  | devNullWrite =>
    cases call
    exact .refl s

theorem vfsRead_through {buffer out : List (Option UInt8)} {count : ℕ}
    (call : vfsRead fd buffer count s = some (value, out, t)) : Through fd s t := by
  rw [vfsRead] at call
  split at call
  case h_1 =>
    cases call
    exact Or.inl rfl
  case h_2 i node opened =>
    simp only [Option.bind_eq_bind, Option.bind_eq_some_iff] at call
    obtain ⟨entry, -, call⟩ := call
    split at call
    case h_1 =>
      cases call
      exact Or.inl rfl
    case h_2 read _ =>
      simp only [Option.bind_eq_some_iff] at call
      obtain ⟨⟨bytes, out', u⟩, called, eq⟩ := call
      cases eq
      exact Or.inr ⟨i, node, bytes, u, opened, callRead_keepsTree called, rfl⟩

theorem vfsWrite_through {buffer : List UInt8} {count : ℕ}
    (call : vfsWrite fd buffer count s = some (value, t)) : Through fd s t := by
  rw [vfsWrite] at call
  split at call
  case h_1 =>
    cases call
    exact Or.inl rfl
  case h_2 i node opened =>
    simp only [Option.bind_eq_bind, Option.bind_eq_some_iff] at call
    obtain ⟨entry, -, call⟩ := call
    split at call
    case h_1 =>
      cases call
      exact Or.inl rfl
    case h_2 write _ =>
      simp only [Option.bind_eq_some_iff] at call
      obtain ⟨⟨bytes, u⟩, called, eq⟩ := call
      cases eq
      exact Or.inr ⟨i, node, bytes, u, opened, callWrite_keepsTree called, rfl⟩

/-- No call on open files changes the tree. -/
theorem VfsOp.sameTree {op : VfsOp} {r : VfsResult} (call : op.call s = some (r, t)) :
    SameTree s t := by
  have through : ∀ {fd : ℤ}, Through fd s t → SameTree s t := by
    intro fd effect
    rcases effect with rfl | ⟨i, node, bytes, u, -, keeps, rfl⟩
    · exact .refl t
    · exact keeps.toSameTree.trans (sameTree_advance i bytes u)
  cases op with
  | openPath path flags =>
    obtain ⟨⟨value, u⟩, opened, eq⟩ := Option.map_eq_some_iff.mp call
    cases eq
    simp only [vfsOpen, Option.bind_eq_bind, Option.bind_eq_some_iff] at opened
    obtain ⟨found, -, opened⟩ := opened
    split at opened
    · cases opened
      exact .refl s
    · split at opened
      · cases opened
        exact ⟨rfl, fun _ => rfl⟩
      · cases opened
        exact .refl s
  | closeFd fd =>
    cases call
    rw [vfsClose]
    split
    · exact .refl s
    · exact ⟨rfl, fun _ => rfl⟩
  | readFd fd buffer count =>
    obtain ⟨⟨value, out, u⟩, called, eq⟩ := Option.map_eq_some_iff.mp call
    cases eq
    exact through (vfsRead_through called)
  | writeFd fd buffer count =>
    obtain ⟨⟨value, u⟩, called, eq⟩ := Option.map_eq_some_iff.mp call
    cases eq
    exact through (vfsWrite_through called)

end Frame

section Calls

variable {s : Fs} {f : VfsFiles} {resolve : Option (List UInt8) → Option ℕ}
  (rep : Represents s f)

include rep

theorem open_refined (resolves : ∀ path, vfsLookup (path.map (· ++ [0])) s = some (resolve path))
    (path : Option (List UInt8)) (flags : ℤ) : Refined resolve (.openPath path flags) s f := by
  have free : ((List.finRange 64).find? fun i => (s.sFdTable i).node.isNone) =
      (List.finRange 64).find? fun i => (f.cursor i).isNone := by
    congr 1
    funext i
    rw [rep.cursor i, Option.isNone_map]
  obtain ⟨r, total, live⟩ := vfsLookup_total rep.contents.tree path
  obtain rfl := Option.some.inj (total.symm.trans (resolves path))
  rw [Refined, VfsOp.call, VfsOp.spec, vfsOpen, resolves path]
  cases found : resolve path with
  | none => exact ⟨s, rfl, rep, .refl s, rfl⟩
  | some n =>
    simp only [Option.bind_eq_bind, Option.bind_some, free]
    cases (List.finRange 64).find? fun i => (f.cursor i).isNone with
    | none => exact ⟨s, rfl, rep, .refl s, rfl⟩
    | some i =>
      refine ⟨s.setFd i ⟨some n, 0, flags⟩, rfl, ?_, ⟨rfl, fun _ => rfl⟩, rfl⟩
      exact represents_setFd rep i ⟨some n, 0, flags⟩ (fun m h => live m (found.trans h))
        fun _ bs _ _ => Nat.zero_le bs.length

theorem close_refined (fd : ℤ) : Refined resolve (.closeFd fd) s f := by
  rw [Refined, VfsOp.call, VfsOp.spec, vfsClose, fdNode]
  cases slot : fdSlot fd with
  | none => exact ⟨s, rfl, rep, .refl s, rfl⟩
  | some i =>
    cases node : (s.sFdTable i).node with
    | none =>
      have cursor := rep.cursor i
      rw [node, Option.map_none] at cursor
      have same : f.seek i none = f := by
        rw [← cursor, Files.seek, Function.update_eq_self]
      refine ⟨s, by simp [node], ?_, .refl s, rfl⟩
      simp only [same]
      exact rep
    | some n =>
      refine ⟨s.setFd i { s.sFdTable i with node := none }, by simp [node], ?_,
        ⟨rfl, fun _ => rfl⟩, rfl⟩
      exact represents_setFd rep i { s.sFdTable i with node := none } (by simp) (by simp)

theorem read_refined (fd : ℤ) (buffer : List (Option UInt8)) (count : ℕ)
    (allowed : (VfsOp.readFd fd buffer count).Allowed f) :
    Refined resolve (.readFd fd buffer count) s f := by
  rw [Refined, VfsOp.call, VfsOp.spec, vfsRead]
  rcases fdNode_cases rep fd with ⟨closed, none⟩ | ⟨i, n, e, opened, node, he, kind⟩
  · rw [closed, none]
    exact ⟨s, rfl, rep, .refl s, rfl⟩
  · rcases kind with ⟨dir, none⟩ | ⟨file, bs, contents, holds, inside, isOpen⟩
    · simp only [opened, none, he, Option.bind_eq_bind, Option.bind_some, dir.2.2.1]
      exact ⟨s, rfl, rep, .refl s, rfl⟩
    · have hlen : (Files.readAt bs (s.sFdTable i).offset count).length =
          min count (bs.length - (s.sFdTable i).offset) := by
        rw [Files.readAt, List.length_take, List.length_drop]
      have bounded := allowed.2 _ _ _ _ isOpen
      have call := ramfsRead_spec he holds bounded allowed.1
      simp only [opened, isOpen, he, Option.bind_eq_bind, Option.bind_some, file.2.2.1, callRead,
        call, Option.map_some]
      exact ⟨_, rfl, represents_advance rep node contents (by omega) (by omega),
        sameTree_advance _ _ _, kmallocOk_advance _ _ _⟩

theorem write_refined (ok : ∀ k, s.kmallocOk k = true) (fd : ℤ) (buffer : List UInt8)
    (count : ℕ) (allowed : (VfsOp.writeFd fd buffer count).Allowed f) :
    Refined resolve (.writeFd fd buffer count) s f := by
  rw [Refined, VfsOp.call, VfsOp.spec, vfsWrite]
  rcases fdNode_cases rep fd with ⟨closed, none⟩ | ⟨i, n, e, opened, node, he, kind⟩
  · rw [closed, none]
    exact ⟨s, rfl, rep, .refl s, rfl⟩
  · rcases kind with ⟨dir, none⟩ | ⟨file, bs, contents, holds, inside, isOpen⟩
    · simp only [opened, none, he, Option.bind_eq_bind, Option.bind_some, dir.2.2.2]
      exact ⟨s, rfl, rep, .refl s, rfl⟩
    · have bounded := allowed.2 _ _ _ _ isOpen
      obtain ⟨e', k, call, holds', data, capacity, length, he'⟩ :=
        ramfsWrite_spec he holds inside bounded allowed.1 (ok _)
      have hws : (buffer.take count).length = count := by
        rw [List.length_take, min_eq_left allowed.1]
      have hlen : (splice _ _ (buffer.take count)).length = _ := length_splice inside
      have entry := rep.contents.tree.entry n e he
      have entry' : EntryOk s.nodes.length e' := by
        rw [he']
        exact ⟨entry.terminated, entry.short, entry.closed, Or.inr file⟩
      have file' : IsFile e' := by
        rw [he']
        exact file
      have written : Represents ((s.withAllocs k).setNode n e')
          (f.put n (splice bs (s.sFdTable i).offset (buffer.take count))) := by
        refine ⟨contents_setNode rep.contents he entry' file' holds' k, rep.cursor,
          fun j m o h => ?_, rep.within.put contents (by omega)⟩
        have := rep.live j m o h
        simpa [Fs.setNode, Fs.withAllocs] using this
      have same : SameTree s ((s.withAllocs k).setNode n e') :=
        sameTree_setNode k he (by rw [he']; rfl)
      simp only [opened, isOpen, he, Option.bind_eq_bind, Option.bind_some, file.2.2.2.1, callWrite,
        call, Files.write, hws]
      refine ⟨_, rfl, represents_advance written node (Function.update_self _ _ _) ?_ ?_,
        same.trans (sameTree_advance _ _ _), kmallocOk_advance _ _ _⟩
      · rw [hlen, hws]
        exact le_max_right _ _
      · change (s.sFdTable i).offset + _ < _
        omega

end Calls

/-! ## Runs -/

theorem vfsOp_refined {s : Fs} {f : VfsFiles} {resolve : Option (List UInt8) → Option ℕ}
    (rep : Represents s f) (ok : ∀ k, s.kmallocOk k = true)
    (resolves : ∀ path, vfsLookup (path.map (· ++ [0])) s = some (resolve path)) {op : VfsOp}
    (allowed : op.Allowed f) : Refined resolve op s f := by
  cases op with
  | openPath path flags => exact open_refined rep resolves path flags
  | closeFd fd => exact close_refined rep fd
  | readFd fd buffer count => exact read_refined rep fd buffer count allowed
  | writeFd fd buffer count => exact write_refined rep ok fd buffer count allowed

theorem vfsRun_represents {s : Fs} {f : VfsFiles} {resolve : Option (List UInt8) → Option ℕ}
    (rep : Represents s f) (ok : ∀ k, s.kmallocOk k = true)
    (resolves : ∀ path, vfsLookup (path.map (· ++ [0])) s = some (resolve path))
    {calls : List VfsOp} (allowed : AllAllowed resolve calls f) :
    ∃ t, vfsRun calls s = some ((specRun resolve calls f).1, t) ∧
      Represents t (specRun resolve calls f).2 := by
  induction calls generalizing s f with
  | nil => exact ⟨s, rfl, rep⟩
  | cons op calls ih =>
    obtain ⟨t, call, rep', same, ok'⟩ := vfsOp_refined rep ok resolves allowed.1
    have resolves' : ∀ path, vfsLookup (path.map (· ++ [0])) t = some (resolve path) := by
      intro path
      rw [← vfsLookup_congr same, resolves]
    obtain ⟨u, run, rep''⟩ := ih rep' (fun k => by rw [ok', ok]) resolves' allowed.2
    refine ⟨u, ?_, rep''⟩
    simp only [vfsRun, call, Option.bind_eq_bind, Option.bind_some, run]
    rfl

/-- Descriptors over a built tree are cursors on byte strings: every allowed sequence of calls has
the specified results, and leaves the specified contents and cursors. -/
theorem vfsRun_refines {boot mounted s : Fs} {ops : List TreeOp}
    {bytes : ℕ → Option (List UInt8)} (empty : boot.nodes = [])
    (mount : mountRoot (vfsInit boot) = some mounted)
    (built : Run FileStep (mounted, fun _ => none) ops (s, bytes))
    (ok : ∀ k, boot.kmallocOk k = true) {calls : List VfsOp}
    (allowed : AllAllowed (resolveIn s) calls ⟨bytes, fun _ => none⟩) :
    ∃ t, vfsRun calls s = some ((specRun (resolveIn s) calls ⟨bytes, fun _ => none⟩).1, t) ∧
      Represents t (specRun (resolveIn s) calls ⟨bytes, fun _ => none⟩).2 := by
  obtain ⟨rep, alloc⟩ := represents_built empty mount built
  refine vfsRun_represents rep (fun k => by rw [alloc, ok]) (fun path => ?_) allowed
  obtain ⟨r, total, -⟩ := vfsLookup_total rep.contents.tree path
  rw [resolveIn, total]
  rfl

/-- A file is opened and its first two bytes are overwritten. -/
theorem vfsRun_refines_example : ∃ s bytes t,
    vfsRun [.openPath (some [0x66]) 0, .writeFd 0 [7, 8] 2] s = some ((specRun (resolveIn s)
      [.openPath (some [0x66]) 0, .writeFd 0 [7, 8] 2] ⟨bytes, fun _ => none⟩).1, t) := by
  let op : TreeOp := .createFile 0 [0x66] (some [1, 2, 3]) 3
  obtain ⟨mounted, mount⟩ := Option.isSome_iff_exists.mp
    (by decide +kernel : (mountRoot (vfsInit bootFs)).isSome)
  obtain ⟨⟨r, s⟩, call⟩ := Option.isSome_iff_exists.mp
    (by decide +kernel : ((mountRoot (vfsInit bootFs)).bind op.call).isSome)
  rw [mount, Option.bind_some] at call
  have built : Run FileStep (mounted, fun _ => none) [op] (s, op.record r fun _ => none) :=
    .cons ⟨r, call, rfl⟩ (.nil _)
  have allowed : AllAllowed (resolveIn s) [.openPath (some [0x66]) 0, .writeFd 0 [7, 8] 2]
      ⟨op.record r fun _ => none, fun _ => none⟩ := by
    refine ⟨trivial, ⟨by decide, fun i n o bs h => ?_⟩, trivial⟩
    -- the only open descriptor is at position 0
    simp only [openFile, Option.bind_eq_bind, Option.bind_eq_some_iff] at h
    obtain ⟨j, -, ⟨m, p⟩, cursor, cs, -, h⟩ := h
    obtain ⟨-, -, rfl, -⟩ := by simpa using h
    rw [VfsOp.spec] at cursor
    split at cursor
    · simp only [Files.seek, Function.update_apply] at cursor
      split_ifs at cursor
      · obtain ⟨-, rfl⟩ := by simpa using cursor
        norm_num
    · exact absurd cursor (by simp)
  obtain ⟨t, run, -⟩ := vfsRun_refines rfl mount built (fun _ => rfl) allowed
  exact ⟨s, _, t, run⟩

end ChefOs
