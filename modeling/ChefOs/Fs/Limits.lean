import ChefOs.Fs.Tree

/-!
# Requests at the limits

`ramfs_read` and `ramfs_write` add an offset and a size that may leave the 64-bit range, and
`ramfs_write` and the creators use the results of `kmalloc` and `kzalloc` as they are.
-/

namespace ChefOs

open Kit

/-- The capacity that `ramfs_write` grows to. -/
def grownCapacity (offset size : ℕ) : ℕ := u64 (offset + size + 511) &&& not64 511

/-- A file whose buffer has the size that the file records, at least its length. -/
structure Sized (e : RamfsEntry) : Prop where
  length : e.length ≤ e.capacity
  buffer : (e.data.getD []).length = e.capacity
  small : e.capacity < 2 ^ 64

section

variable {s t : Fs} {e e' : RamfsEntry} {node offset size : ℕ} {buffer : List UInt8} {value : ℤ}

theorem grownCapacity_eq (inside : offset + size + 511 < 2 ^ 64) :
    grownCapacity offset size = (offset + size + 511) / 512 * 512 :=
  roundUp_mask (k := 9) (by norm_num) inside

theorem grownCapacity_wrapped (below : offset + size < 2 ^ 64)
    (beyond : 2 ^ 64 ≤ offset + size + 511) : grownCapacity offset size = 0 := by
  have small : u64 (offset + size + 511) < 2 ^ 9 := by
    unfold u64
    omega
  have mask := and_not64 (k := 9) (u64_lt (offset + size + 511)) (by norm_num)
  rw [Nat.div_eq_of_lt small, Nat.zero_mul] at mask
  exact mask

theorem grownCapacity_lt (offset size : ℕ) : grownCapacity offset size < 2 ^ 64 :=
  Nat.and_le_left.trans_lt (u64_lt _)

/-- The new buffer with the old bytes. -/
def Fs.regrown (s : Fs) (e : RamfsEntry) (capacity : ℕ) : Option (Option (List (Option UInt8))) :=
  match e.data with
  | none => some (s.kmalloc capacity).1
  | some data => memcpyTo (s.kmalloc capacity).1 0 data e.length

theorem ramfsGrow_keeps (fits : u64 (offset + size) ≤ e.capacity) :
    ramfsGrow e offset size s = some (e, s) := if_neg (Nat.not_lt.mpr fits)

theorem ramfsGrow_grows (grows : e.capacity < u64 (offset + size)) :
    ramfsGrow e offset size s = (s.regrown e (grownCapacity offset size)).map fun data =>
      ({ e with data := data, capacity := grownCapacity offset size }, s.countAlloc) := by
  rw [ramfsGrow, if_pos grows, Fs.regrown]
  cases data : e.data with
  | none => rfl
  | some d => exact (Option.map_eq_bind ..).symm

/-- What a write that returns does. -/
theorem ramfsWrite_inv (he : s.nodes[node]? = some e)
    (call : ramfsWrite node offset size buffer s = some (value, t)) :
    ∃ grown u data, ramfsGrow e offset size s = some (grown, u) ∧
      memcpyTo grown.data offset (buffer.map some) size = some data ∧ value = i64 size ∧
      t = u.setNode node { grown with
        data := data
        length := max grown.length (u64 (offset + size)) } := by
  rw [ramfsWrite, he] at call
  simp only [Option.bind_eq_bind, Option.bind_some, Option.bind_eq_some_iff] at call
  obtain ⟨⟨grown, u⟩, grow, data, copy, eq⟩ := call
  have length : (if u64 (offset + size) > grown.length then u64 (offset + size)
      else grown.length) = max grown.length (u64 (offset + size)) := by
    split_ifs <;> omega
  simp only [length] at eq
  cases eq
  exact ⟨grown, u, data, grow, copy, rfl, rfl⟩

/-- A copy that ends stays inside the buffer, whose size it keeps. -/
theorem memcpyTo_length {data data' : Option (List (Option UInt8))} {src : List (Option UInt8)}
    (copy : memcpyTo data offset src size = some data') :
    (data'.getD []).length = (data.getD []).length ∧
      (size = 0 ∨ offset + size ≤ (data.getD []).length) := by
  cases data with
  | none =>
    rw [memcpyTo] at copy
    split_ifs at copy with zero
    cases copy
    exact ⟨rfl, .inl zero⟩
  | some buf =>
    obtain ⟨tail, copied, rfl⟩ := Option.map_eq_some_iff.mp copy
    obtain ⟨room, enough⟩ := memcpy_some copied
    rw [memcpy_eq room enough] at copied
    cases copied
    rw [List.length_drop] at room
    simp only [Option.getD_some, List.length_append, List.length_take, List.length_drop]
    omega

theorem exists_memcpyTo {data : Option (List (Option UInt8))} {src : List (Option UInt8)}
    (enough : size ≤ src.length) (fits : size = 0 ∨ offset + size ≤ (data.getD []).length) :
    ∃ data', memcpyTo data offset src size = some data' := by
  cases data with
  | none =>
    have zero : size = 0 := by
      rw [Option.getD_none, List.length_nil] at fits
      omega
    exact ⟨none, if_pos zero⟩
  | some buf =>
    rw [Option.getD_some] at fits
    rw [memcpyTo, memcpy_eq (by rw [List.length_drop]; omega) enough]
    exact ⟨_, rfl⟩

/-- The size of a new buffer. -/
theorem kmalloc_length (s : Fs) (capacity : ℕ) :
    ((s.kmalloc capacity).1.getD []).length =
      if s.kmallocOk s.allocs then capacity else 0 := by
  rw [Fs.kmalloc]
  split_ifs
  · exact List.length_replicate
  · rfl

theorem regrown_length {capacity : ℕ} {data : Option (List (Option UInt8))}
    (grown : s.regrown e capacity = some data) :
    (data.getD []).length = if s.kmallocOk s.allocs then capacity else 0 := by
  rw [← kmalloc_length s capacity]
  rw [Fs.regrown] at grown
  split at grown
  · cases grown
    rfl
  · exact (memcpyTo_length grown).1

theorem exists_regrown (sized : Sized e) {capacity : ℕ} (fits : e.length ≤ capacity)
    (ok : s.kmallocOk s.allocs = true) : ∃ data, s.regrown e capacity = some data := by
  rw [Fs.regrown]
  cases data : e.data with
  | none => exact ⟨_, rfl⟩
  | some d =>
    have buffer := sized.buffer
    rw [data, Option.getD_some] at buffer
    have length := kmalloc_length s capacity
    rw [if_pos ok] at length
    have room := sized.length
    exact exists_memcpyTo (by omega) (.inr (by omega))

/-- `ramfs_write` leaves the file with a buffer that has the bytes it wrote in it. -/
def WriteInBounds (s : Fs) (node offset size : ℕ) (buffer : List UInt8) : Prop :=
  ∃ value t e', ramfsWrite node offset size buffer s = some (value, t) ∧
    t.nodes[node]? = some e' ∧ (e'.data.getD []).length = e'.capacity ∧
    (0 ≤ value → offset + size ≤ e'.capacity)

/-- What a write leaves the file with. -/
theorem WriteInBounds.capacity (he : s.nodes[node]? = some e)
    (inBounds : WriteInBounds s node offset size buffer) :
    ∃ grown u, ramfsGrow e offset size s = some (grown, u) ∧ offset + size ≤ grown.capacity ∧
      (grown.data.getD []).length = grown.capacity := by
  obtain ⟨value, t, e', call, he', buffered, success⟩ := inBounds
  obtain ⟨grown, u, data, grow, copy, rfl, rfl⟩ := ramfsWrite_inv he call
  obtain ⟨length, inside⟩ := memcpyTo_length copy
  rw [Fs.setNode, List.getElem?_set_self'] at he'
  obtain ⟨_, -, rfl⟩ := Option.map_eq_some_iff.mp he'
  change (data.getD []).length = grown.capacity at buffered
  refine ⟨grown, u, grow, ?_, by omega⟩
  obtain zero | inside := inside
  · apply success
    rw [zero]
    decide
  · omega

/-- A write stays in bounds if the buffer is large enough or can be replaced by such a one. -/
theorem writeInBounds_of_grow (he : s.nodes[node]? = some e) {grown : RamfsEntry} {u : Fs}
    (grow : ramfsGrow e offset size s = some (grown, u)) (nodes : u.nodes = s.nodes)
    (buffered : (grown.data.getD []).length = grown.capacity)
    (fits : offset + size ≤ grown.capacity) (room : size ≤ buffer.length) :
    WriteInBounds s node offset size buffer := by
  have enough : size ≤ (buffer.map some).length := by rwa [List.length_map]
  have inside : offset + size ≤ (grown.data.getD []).length := by omega
  obtain ⟨data, copy⟩ := exists_memcpyTo enough (.inr inside)
  let e' : RamfsEntry := { grown with
    data := data
    length := if u64 (offset + size) > grown.length then u64 (offset + size) else grown.length }
  refine ⟨i64 size, u.setNode node e', e', ?_, ?_, ?_, fun _ => fits⟩
  · simp only [ramfsWrite, he, grow, copy, Option.bind_eq_bind, Option.bind_some]
    rfl
  · rw [Fs.setNode, nodes]
    exact List.getElem?_set_self (List.getElem?_eq_some_iff.mp he).1
  · exact (memcpyTo_length copy).1.trans buffered

/-- A write stays in bounds just when the bytes fit into the buffer, or the size of a new one does
not wrap around and it can be allocated. -/
theorem ramfsWrite_inBounds_iff (he : s.nodes[node]? = some e) (sized : Sized e)
    (room : size ≤ buffer.length) :
    WriteInBounds s node offset size buffer ↔
      offset + size ≤ e.capacity ∨
        offset + size + 511 < 2 ^ 64 ∧ s.kmallocOk s.allocs = true := by
  have small := sized.small
  constructor
  · intro inBounds
    obtain ⟨grown, u, grow, fits, buffered⟩ := inBounds.capacity he
    by_cases keeps : u64 (offset + size) ≤ e.capacity
    · rw [ramfsGrow_keeps keeps] at grow
      cases grow
      exact .inl fits
    · rw [ramfsGrow_grows (Nat.lt_of_not_le keeps)] at grow
      obtain ⟨data, regrown, eq⟩ := Option.map_eq_some_iff.mp grow
      cases eq
      have length := regrown_length regrown
      have below := grownCapacity_lt offset size
      change (data.getD []).length = grownCapacity offset size at buffered
      change offset + size ≤ grownCapacity offset size at fits
      by_cases here : offset + size ≤ e.capacity
      · exact .inl here
      · right
        have inside : offset + size + 511 < 2 ^ 64 := by
          by_contra beyond
          have below : offset + size < 2 ^ 64 := by omega
          have := grownCapacity_wrapped below (Nat.le_of_not_lt beyond)
          omega
        refine ⟨inside, ?_⟩
        by_contra failed
        rw [if_neg failed] at length
        omega
  · rintro (fits | ⟨inside, ok⟩)
    · have keeps : u64 (offset + size) ≤ e.capacity := by rwa [u64_of_lt (by omega)]
      exact writeInBounds_of_grow he (ramfsGrow_keeps keeps) rfl sized.buffer fits room
    · by_cases fits : offset + size ≤ e.capacity
      · have keeps : u64 (offset + size) ≤ e.capacity := by rwa [u64_of_lt (by omega)]
        exact writeInBounds_of_grow he (ramfsGrow_keeps keeps) rfl sized.buffer fits room
      · have grows : e.capacity < u64 (offset + size) := by rw [u64_of_lt (by omega)]; omega
        have capacity := grownCapacity_eq inside
        have kept : e.length ≤ grownCapacity offset size := by
          have := sized.length
          omega
        obtain ⟨data, regrown⟩ := exists_regrown sized kept ok
        have length := regrown_length regrown
        rw [if_pos ok] at length
        have grow : ramfsGrow e offset size s = some ({ e with
            data := data, capacity := grownCapacity offset size }, s.countAlloc) := by
          rw [ramfsGrow_grows grows, regrown, Option.map_some]
        refine writeInBounds_of_grow he grow rfl length ?_ room
        change offset + size ≤ grownCapacity offset size
        omega

/-! ## Reads -/

/-- The number of bytes from `offset` up to `offset + size` or the end of the file. -/
def available (e : RamfsEntry) (offset size : ℕ) : ℕ := min (offset + size) e.length - offset

/-- `ramfs_read` copies the bytes that are available, and returns their number. -/
def ReadExact (s : Fs) (e : RamfsEntry) (node offset size : ℕ) : Prop :=
  ∀ out : List (Option UInt8), available e offset size ≤ out.length →
    ramfsRead node offset size out s = some ((available e offset size : ℤ),
      (bytesFrom e.data offset).take (available e offset size) ++
        out.drop (available e offset size))

/-- The copy that `ramfs_read` makes if the sum does not wrap around. -/
theorem ramfsRead_inside (he : s.nodes[node]? = some e) (sized : Sized e)
    (before : offset < e.length) (inside : offset + size < 2 ^ 64) {out : List (Option UInt8)}
    (room : available e offset size ≤ out.length) :
    ramfsRead node offset size out s = some (i64 (available e offset size),
      (bytesFrom e.data offset).take (available e offset size) ++
        out.drop (available e offset size)) := by
  have length := sized.length
  have small := sized.small
  have cut : (if u64 (offset + size) > e.length then sub64 e.length offset else size) =
      available e offset size := by
    rw [u64_of_lt inside, available]
    split_ifs
    · rw [sub64_of_le (by omega) (by omega)]
      omega
    · omega
  have enough : available e offset size ≤ (bytesFrom e.data offset).length := by
    rw [bytesFrom, List.length_drop, sized.buffer, available]
    omega
  simp only [ramfsRead, he, Option.bind_eq_bind, Option.bind_some, if_neg (Nat.not_le.mpr before),
    cut, memcpy_eq room enough]
  rfl

/-- If the sum wraps around, the size is not cut and the copy leaves the buffer. -/
theorem ramfsRead_wrapped (he : s.nodes[node]? = some e) (sized : Sized e)
    (before : offset < e.length) (hsize : size < 2 ^ 64) (wraps : 2 ^ 64 ≤ offset + size)
    (out : List (Option UInt8)) : ramfsRead node offset size out s = none := by
  have length := sized.length
  have small := sized.small
  have uncut : (if u64 (offset + size) > e.length then sub64 e.length offset else size) = size := by
    rw [if_neg]
    unfold u64
    omega
  have outside : memcpy out (bytesFrom e.data offset) size = none := by
    by_contra copied
    obtain ⟨r, copied⟩ := Option.ne_none_iff_exists'.mp copied
    have enough := (memcpy_some copied).2
    rw [bytesFrom, List.length_drop, sized.buffer] at enough
    omega
  simp only [ramfsRead, he, Option.bind_eq_bind, Option.bind_some, if_neg (Nat.not_le.mpr before),
    uncut, outside]
  rfl

/-- A read is exact just when it begins at the end of the file or beyond, or its end does not wrap
around and the number of bytes is a non-negative `int64_t`. -/
theorem ramfsRead_exact_iff (he : s.nodes[node]? = some e) (sized : Sized e)
    (hsize : size < 2 ^ 64) :
    ReadExact s e node offset size ↔
      e.length ≤ offset ∨ offset + size < 2 ^ 64 ∧ available e offset size < 2 ^ 63 := by
  by_cases atEnd : e.length ≤ offset
  · have none : available e offset size = 0 := by
      rw [available]
      omega
    apply iff_of_true
    · intro out _
      simp only [ramfsRead, he, Option.bind_eq_bind, Option.bind_some, if_pos atEnd, none]
      rfl
    · exact .inl atEnd
  · rw [or_iff_right atEnd]
    by_cases wraps : offset + size < 2 ^ 64
    · rw [and_iff_right wraps]
      constructor
      · intro exact'
        have call := exact' (List.replicate (available e offset size) none) (by simp)
        rw [ramfsRead_inside he sized (by omega) wraps (by simp)] at call
        have value := congrArg Prod.fst (Option.some.inj call)
        simp only [i64] at value
        split_ifs at value <;> omega
      · intro positive out room
        rw [ramfsRead_inside he sized (by omega) wraps room, i64, if_pos positive]
    · apply iff_of_false
      · intro exact'
        have call := exact' (List.replicate (available e offset size) none) (by simp)
        rw [ramfsRead_wrapped he sized (by omega) hsize (by omega)] at call
        exact absurd call (by simp)
      · exact fun h => wraps h.1

/-- Reads are exact and writes in bounds just under their conditions. -/
theorem transfers_inBounds_iff (s : Fs) (e : RamfsEntry) (node : ℕ) (offset size : BitVec 64)
    (buffer : List UInt8) (he : s.nodes[node]? = some e) (sized : Sized e)
    (room : size.toNat ≤ buffer.length) :
    (ReadExact s e node offset.toNat size.toNat ↔
        e.length ≤ offset.toNat ∨
          offset.toNat + size.toNat < 2 ^ 64 ∧ available e offset.toNat size.toNat < 2 ^ 63) ∧
      (WriteInBounds s node offset.toNat size.toNat buffer ↔
        offset.toNat + size.toNat ≤ e.capacity ∨
          offset.toNat + size.toNat + 511 < 2 ^ 64 ∧ s.kmallocOk s.allocs = true) :=
  ⟨ramfsRead_exact_iff he sized size.isLt, ramfsWrite_inBounds_iff he sized room⟩

end

/-- A file of three bytes. -/
def threeBytes : RamfsEntry :=
  { zeroEntry with length := 3, data := some [some 1, some 2, some 3], capacity := 3 }

/-- A file system with this file only. -/
def threeBytesFs : Fs := { bootFs with nodes := [threeBytes] }

theorem threeBytes_sized : Sized threeBytes := ⟨by decide, by decide, by decide⟩

/-- Two bytes from the second one on. -/
theorem transfers_inBounds_example :
    ReadExact threeBytesFs threeBytes 0 1 2 ∧ WriteInBounds threeBytesFs 0 1 2 [7, 8] := by
  obtain ⟨read, write⟩ := transfers_inBounds_iff threeBytesFs threeBytes 0 1 2 [7, 8] rfl
    threeBytes_sized (by decide)
  exact ⟨read.mpr (.inr ⟨by decide, by decide⟩), write.mpr (.inl (by decide))⟩

/-- A read of all ones bytes, and a write whose end is 0 modulo `2 ^ 64`. -/
theorem wrapped_transfers :
    threeBytesFs.nodes[0]? = some threeBytes ∧ Sized threeBytes ∧
      ¬ ReadExact threeBytesFs threeBytes 0 1 (2 ^ 64 - 1) ∧
      ¬ WriteInBounds threeBytesFs 0 (2 ^ 64 - 1) 1 [7] := by
  refine ⟨rfl, threeBytes_sized, fun exact' => ?_, fun inBounds => ?_⟩
  · have call := exact' [none, none] (by decide)
    rw [ramfsRead_wrapped rfl threeBytes_sized (by decide) (by decide) (by decide)] at call
    exact absurd call (by simp)
  · obtain ⟨value, t, e', call, -⟩ := inBounds
    have none : (ramfsWrite 0 (2 ^ 64 - 1) 1 [7] threeBytesFs).isNone := by decide
    rw [call] at none
    exact absurd none (by simp)

/-! ## Allocations that fail -/

/-- The operations on the tree that allocate. -/
inductive FileOp where
  | write (node : ℕ) (offset size : BitVec 64) (buffer : List UInt8)
  | createDir (parent : Option ℕ) (name : List UInt8)
  | createFile (parent : Option ℕ) (name : List UInt8) (content : Option (List UInt8)) (size : ℕ)

/-- The call.  The first result tells whether it reports a failure. -/
def FileOp.call : FileOp → Fs → Option (Bool × Fs)
  | .write node offset size buffer, s =>
    (ramfsWrite node offset.toNat size.toNat buffer s).map fun r => (r.1 ≤ 0, r.2)
  | .createDir parent name, s => (ramfsCreateDir parent name s).map fun r => (r.1.isNone, r.2)
  | .createFile parent name content size, s =>
    (ramfsCreateFile parent name content size s).map fun r => (r.1.isNone, r.2)

/-- The creators go on to the allocation of a node. -/
def Accepts (parent : Option ℕ) (s : Fs) : Prop :=
  ∃ n p, parent = some n ∧ s.nodes[n]? = some p ∧ p.flags &&& fsDirectory ≠ 0 ∧
    p.children.length < 32

/-- A call to `kmalloc` or `kzalloc` inside the operation returns `NULL`. -/
def FileOp.Starved : FileOp → Fs → Prop
  | .write node offset size _, s =>
    ∃ e, s.nodes[node]? = some e ∧ e.capacity < u64 (offset.toNat + size.toNat) ∧
      s.kmallocOk s.allocs = false
  | .createDir parent _, s => Accepts parent s ∧ s.kmallocOk s.allocs = false
  | .createFile parent _ content size, s =>
    Accepts parent s ∧ (s.kmallocOk s.allocs = false ∨
      content.isSome ∧ 0 < size ∧ s.kmallocOk (s.allocs + 1) = false)

/-- The operation reports the failure and leaves the tree as it is. -/
def FileOp.FailsCleanly (op : FileOp) (s : Fs) : Prop :=
  ∃ t, op.call s = some (true, t) ∧ t.nodes = s.nodes

/-- A write of no bytes inside the length of a file that has no buffer and no capacity, at an offset
that is rounded up to 0. -/
def FileOp.Idle : FileOp → Fs → Prop
  | .write node offset size _, s =>
    size = 0 ∧ 2 ^ 64 - 511 ≤ offset.toNat ∧
      ∃ e, s.nodes[node]? = some e ∧ e.data = none ∧ e.capacity = 0 ∧ offset.toNat ≤ e.length
  | _, _ => False

section

variable {s t : Fs} {parent : Option ℕ} {name : List UInt8}
  {fill : RamfsEntry → Fs → Option (RamfsEntry × Fs)}

/-- A creator that accepts its parent has no result if the first allocation fails or what sets the
fields after it has none. -/
theorem Accepts.createUnder_none (accepts : Accepts parent s)
    (starved : s.kmallocOk s.allocs = false ∨ ∀ e, fill e s.countAlloc = none) :
    createUnder parent name fill s = none := by
  obtain ⟨n, p, rfl, hp, directory, room⟩ := accepts
  simp only [createUnder, hp, Option.bind_eq_bind, Option.bind_some, if_neg directory,
    if_neg (Nat.not_le.mpr room)]
  obtain failed | noFields := starved
  · rw [Fs.kzalloc, failed]
    rfl
  · rw [Fs.kzalloc]
    split_ifs
    · simp only [Option.bind_some]
      cases strncpy zeroEntry.name name 127 with
      | none => rfl
      | some name => simp only [Option.bind_some, noFields, Option.bind_none]
    · rfl

theorem fillFile_starved {content : Option (List UInt8)} {size : ℕ} (some' : content.isSome)
    (pos : 0 < size) (failed : s.kmallocOk s.allocs = false) (e : RamfsEntry) :
    fillFile content size e s = none := by
  obtain ⟨content, rfl⟩ := Option.isSome_iff_exists.mp some'
  have copy : memcpyTo (s.kmalloc size).1 0 (content.map some) size = none := by
    rw [Fs.kmalloc, failed]
    exact if_neg pos.ne'
  simp only [fillFile, if_pos pos, copy]
  rfl

/-- The buffer is gone after an allocation that fails. -/
theorem regrown_starved {e : RamfsEntry} {capacity : ℕ} {data : Option (List (Option UInt8))}
    (failed : s.kmallocOk s.allocs = false) (grown : s.regrown e capacity = some data) :
    data = none := by
  have null : (s.kmalloc capacity).1 = none := by
    rw [Fs.kmalloc, failed]
    rfl
  rw [Fs.regrown, null] at grown
  split at grown
  · exact (Option.some.inj grown).symm
  · rw [memcpyTo] at grown
    split_ifs at grown
    exact (Option.some.inj grown).symm

section

variable {node : ℕ} {offset size : BitVec 64} {buffer : List UInt8}

/-- A starved write that changes nothing has nothing to copy and no buffer to lose. -/
theorem FileOp.FailsCleanly.idle (clean : (FileOp.write node offset size buffer).FailsCleanly s)
    (starved : (FileOp.write node offset size buffer).Starved s) :
    (FileOp.write node offset size buffer).Idle s := by
  obtain ⟨e, he, grows, failed⟩ := starved
  have hoffset := offset.isLt
  obtain ⟨t, call, nodes⟩ := clean
  obtain ⟨⟨value, u⟩, wrote, eq⟩ := Option.map_eq_some_iff.mp call
  obtain rfl : u = t := congrArg Prod.snd eq
  obtain ⟨grown, v, data', grow, copy, rfl, rfl⟩ := ramfsWrite_inv he wrote
  rw [ramfsGrow_grows grows] at grow
  obtain ⟨data, regrown, eq⟩ := Option.map_eq_some_iff.mp grow
  cases eq
  obtain rfl := regrown_starved failed regrown
  -- nothing can be copied into the missing buffer
  have zero : size.toNat = 0 := by
    have inside := (memcpyTo_length copy).2
    change size.toNat = 0 ∨ offset.toNat + size.toNat ≤ 0 at inside
    omega
  have noData : data' = none := by
    change (if size.toNat = 0 then some none else none) = some data' at copy
    rw [if_pos zero] at copy
    exact (Option.some.inj copy).symm
  -- the file is as it was
  have same := congrArg (fun nodes : List RamfsEntry => nodes[node]?) nodes
  simp only [Fs.setNode, Fs.countAlloc, List.getElem?_set_self', he] at same
  have same := Option.some.inj same
  have noBuffer : data' = e.data := congrArg RamfsEntry.data same
  have capacity : grownCapacity offset.toNat size.toNat = e.capacity :=
    congrArg RamfsEntry.capacity same
  have length : max e.length (u64 (offset.toNat + size.toNat)) = e.length :=
    congrArg RamfsEntry.length same
  rw [zero, Nat.add_zero, u64_of_lt hoffset] at grows length
  rw [zero] at capacity
  have high : 2 ^ 64 - 511 ≤ offset.toNat := by
    by_contra low
    have := @grownCapacity_eq offset.toNat 0 (by omega)
    omega
  have wrapped := @grownCapacity_wrapped offset.toNat 0 hoffset (by omega)
  exact ⟨BitVec.eq_of_toNat_eq zero, high, e, he, noBuffer.symm.trans noData, by omega, by omega⟩

/-- An idle write finds the file as it would leave it. -/
theorem FileOp.Idle.failsCleanly (idle : (FileOp.write node offset size buffer).Idle s)
    (starved : (FileOp.write node offset size buffer).Starved s) :
    (FileOp.write node offset size buffer).FailsCleanly s := by
  obtain ⟨e, he, grows, failed⟩ := starved
  obtain ⟨rfl, high, e', he', noBuffer, noCapacity, inside⟩ := idle
  obtain rfl : e = e' := Option.some.inj (he.symm.trans he')
  have hoffset := offset.isLt
  have wrapped := @grownCapacity_wrapped offset.toNat 0 hoffset (by omega)
  have regrown : s.regrown e 0 = some none := by
    rw [Fs.regrown, noBuffer, Fs.kmalloc, failed]
    rfl
  have unchanged : { e with data := none, capacity := 0 } = e := by
    rw [← noBuffer, ← noCapacity]
  have grow : ramfsGrow e offset.toNat 0 s = some (e, s.countAlloc) := by
    have grows : e.capacity < u64 (offset.toNat + 0) := grows
    rw [ramfsGrow_grows grows, wrapped, regrown, Option.map_some, unchanged]
  have length : (if u64 (offset.toNat + 0) > e.length then u64 (offset.toNat + 0)
      else e.length) = e.length := by
    rw [Nat.add_zero, u64_of_lt hoffset, if_neg (Nat.not_lt.mpr inside)]
  have call : ramfsWrite node offset.toNat 0 buffer s =
      some (0, s.countAlloc.setNode node { e with data := none, length := e.length }) := by
    simp only [ramfsWrite, he, grow, noBuffer, Option.bind_eq_bind, Option.bind_some, length]
    rfl
  refine ⟨_, congrArg (Option.map _) call, ?_⟩
  have entry : { e with data := none, length := e.length } = e := by rw [← noBuffer]
  rw [entry]
  obtain ⟨lt, eq⟩ := List.getElem?_eq_some_iff.mp he
  change s.nodes.set node e = s.nodes
  rw [← eq]
  exact List.set_getElem_self lt

end

/-- A starved operation fails cleanly just when it is idle. -/
theorem failsCleanly_iff (s : Fs) (op : FileOp) :
    (op.Starved s → op.FailsCleanly s) ↔ ¬ op.Starved s ∨ op.Idle s := by
  by_cases starved : op.Starved s
  · rw [imp_iff_right starved, or_iff_right (not_not.mpr starved)]
    cases op with
    | write node offset size buffer =>
      exact ⟨fun clean => clean.idle starved, fun idle => idle.failsCleanly starved⟩
    | createDir parent name =>
      have call : (FileOp.createDir parent name).call s = none := by
        rw [FileOp.call, ramfsCreateDir, starved.1.createUnder_none (.inl starved.2)]
        rfl
      apply iff_of_false _ id
      rintro ⟨t, clean, -⟩
      rw [call] at clean
      exact absurd clean (by simp)
    | createFile parent name content size =>
      have fields : s.kmallocOk s.allocs = false ∨
          ∀ e, fillFile content size e s.countAlloc = none :=
        starved.2.imp_right fun h e => fillFile_starved h.1 h.2.1 h.2.2 e
      have call : (FileOp.createFile parent name content size).call s = none := by
        rw [FileOp.call, ramfsCreateFile, starved.1.createUnder_none fields]
        rfl
      apply iff_of_false _ id
      rintro ⟨t, clean, -⟩
      rw [call] at clean
      exact absurd clean (by simp)
  · exact iff_of_true (fun h => absurd h starved) (.inl starved)

end

/-- The file system without memory. -/
def starvedFs : Fs :=
  { threeBytesFs with nodes := [threeBytes, zeroEntry, { zeroEntry with flags := fsDirectory }]
                      kmallocOk := fun _ => false }

/-- A byte is written behind the end of a file; no byte is written behind the end of an empty one;
a directory is created. -/
theorem starved_operations :
    ((FileOp.write 0 3 1 [7]).Starved starvedFs ∧
        ¬ (FileOp.write 0 3 1 [7]).FailsCleanly starvedFs) ∧
      ((FileOp.write 1 5 0 []).Starved starvedFs ∧
        ¬ (FileOp.write 1 5 0 []).FailsCleanly starvedFs) ∧
      (FileOp.createDir (some 2) [0x61, 0]).Starved starvedFs ∧
        ¬ (FileOp.createDir (some 2) [0x61, 0]).FailsCleanly starvedFs := by
  have byte : (FileOp.write 0 3 1 [7]).Starved starvedFs := ⟨threeBytes, rfl, by decide, rfl⟩
  have noByte : (FileOp.write 1 5 0 []).Starved starvedFs := ⟨zeroEntry, rfl, by decide, rfl⟩
  refine ⟨⟨byte, fun clean => ?_⟩, ⟨noByte, fun clean => ?_⟩,
    ⟨⟨2, _, rfl, rfl, by decide, by decide⟩, rfl⟩, fun clean => ?_⟩
  · exact absurd (clean.idle byte).1 (by decide)
  · exact absurd (clean.idle noByte).2.1 (by decide)
  · obtain ⟨t, call, -⟩ := clean
    have none : ((FileOp.createDir (some 2) [0x61, 0]).call starvedFs).isNone := by decide
    rw [call] at none
    exact absurd none (by simp)

end ChefOs
