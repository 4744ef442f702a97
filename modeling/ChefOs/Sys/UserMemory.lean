import ChefOs.Drivers.Keyboard
import ChefOs.Sys.Formats

/-!
# User memory and kernel memory

`syscall_dispatch` over a memory: a program passes registers, and the call reads and writes bytes
where they point to.  It checks no address.  A run whose calls use only user memory tells nothing of
the kernel's bytes and leaves them as they are.
-/

namespace ChefOs

open Kit

/-! ## Calls with more bytes

A call that ends on some bytes ends in the same way when more bytes are behind them. -/

theorem strcmp_append {s1 s2 : List UInt8} {d : ℤ} (call : strcmp s1 s2 = some d)
    (q : List UInt8) : strcmp (s1 ++ q) s2 = some d := by
  induction s1 generalizing s2 with
  | nil => contradiction
  | cons a s1 ih =>
    cases s2 with
    | nil => contradiction
    | cons b s2 =>
      rw [strcmp] at call
      rw [List.cons_append, strcmp]
      split_ifs at call ⊢ with more
      · exact ih call
      · exact call

theorem copyComponent_append {room : ℕ} {path : List UInt8} {r : List UInt8 × List UInt8}
    (call : copyComponent room path = some r) (q : List UInt8) :
    copyComponent room (path ++ q) = some (r.1, r.2 ++ q) ∧ r.2 ≠ [] := by
  induction path generalizing room r with
  | nil => cases room <;> contradiction
  | cons b path ih =>
    cases room with
    | zero =>
      obtain rfl := Option.some.inj call
      exact ⟨rfl, List.cons_ne_nil b path⟩
    | succ room =>
      rw [copyComponent] at call
      rw [List.cons_append, copyComponent]
      split_ifs at call ⊢ with more
      · obtain ⟨r', copy, rfl⟩ := Option.map_eq_some_iff.mp call
        obtain ⟨copy, nonempty⟩ := ih copy
        rw [copy]
        exact ⟨rfl, nonempty⟩
      · obtain rfl := Option.some.inj call
        exact ⟨rfl, List.cons_ne_nil b path⟩

theorem skipSlash_append {path : List UInt8} (nonempty : path ≠ []) (q : List UInt8) :
    skipSlash (path ++ q) = skipSlash path ++ q := by
  cases path with
  | nil => contradiction
  | cons b path =>
    rw [List.cons_append, skipSlash, skipSlash]
    split_ifs <;> rfl

theorem lookupLoop_append {s : Fs} {fuel curr : ℕ} {path : List UInt8} {r : Option ℕ}
    (call : lookupLoop s fuel curr path = some r) (k : ℕ) (q : List UInt8) :
    lookupLoop s (fuel + k) curr (path ++ q) = some r := by
  induction fuel generalizing curr path with
  | zero => contradiction
  | succ fuel ih =>
    cases path with
    | nil => contradiction
    | cons b path =>
      rw [Nat.add_right_comm, lookupLoop, List.cons_append, List.head?_cons, Option.bind_eq_bind,
        Option.bind_some]
      rw [lookupLoop, List.head?_cons, Option.bind_eq_bind, Option.bind_some] at call
      split_ifs at call ⊢ with done
      · exact call
      · obtain ⟨⟨component, rest⟩, copy, call⟩ := Option.bind_eq_some_iff.mp call
        obtain ⟨node, entry, call⟩ := Option.bind_eq_some_iff.mp call
        obtain ⟨copy, nonempty⟩ := copyComponent_append copy q
        rw [List.cons_append] at copy
        simp only [copy, entry, Option.bind_eq_bind, Option.bind_some,
          skipSlash_append nonempty]
        cases finddir : node.finddir with
        | none =>
          rw [finddir] at call
          exact call
        | some f =>
          simp only [finddir, Option.bind_eq_bind] at call
          obtain ⟨found, find, call⟩ := Option.bind_eq_some_iff.mp call
          simp only [find, Option.bind_some]
          cases found with
          | none => exact call
          | some next => exact ih call

/-- A lookup does not look behind the end of its path. -/
theorem vfsLookup_append {path : Option (List UInt8)} {s : Fs} {r : Option ℕ}
    (call : vfsLookup path s = some r) (q : List UInt8) :
    vfsLookup (path.map (· ++ q)) s = some r := by
  cases path with
  | none => exact call
  | some path =>
    cases root : s.gVfsRoot with
    | none =>
      simp only [vfsLookup, root, Option.map_some] at call ⊢
      exact call
    | some n =>
      simp only [vfsLookup, root, Option.map_some, Option.bind_eq_bind] at call ⊢
      obtain ⟨d, compare, call⟩ := Option.bind_eq_some_iff.mp call
      have nonempty : path ≠ [] := by
        rintro rfl
        contradiction
      rw [strcmp_append compare q, Option.bind_some]
      split_ifs at call ⊢ with same
      · exact call
      · rw [skipSlash_append nonempty, List.length_append]
        exact lookupLoop_append call q.length q

/-- The call with more bytes behind its string and its buffer. -/
def Syscall.extend (c : Syscall) (q e : List UInt8) : Syscall :=
  { c with path := c.path.map (· ++ q), buf := c.buf ++ e }

/-- The result with more bytes behind the buffer. -/
def extendResult (e : List UInt8) (r : SyscallResult) : SyscallResult :=
  (r.1, r.2.1 ++ e.map some, r.2.2)

section

variable {font : Font} {c : Syscall} {s : Kernel} {r : SyscallResult} (q e : List UInt8)

theorem returns_extend (c : Syscall) (value : ℤ) (s : Kernel) :
    (c.extend q e).returns value s = extendResult e (c.returns value s) := by
  rw [Syscall.returns, Syscall.returns, extendResult, Syscall.extend, List.map_append]

theorem dispatchWrite_extend (call : dispatchWrite font c s = some r) :
    dispatchWrite font (c.extend q e) s = some (extendResult e r) := by
  rw [dispatchWrite] at call ⊢
  by_cases console : c.fd = 1 ∨ c.fd = 2
  · rw [if_pos console] at call
    rw [if_pos (show (c.extend q e).fd = 1 ∨ (c.extend q e).fd = 2 from console)]
    split at call
    · obtain rfl := Option.some.inj call
      rename_i room
      have room' : (c.extend q e).a3.toNat ≤ (c.extend q e).buf.length := by
        rw [Syscall.extend, List.length_append]
        exact room.trans (Nat.le_add_right ..)
      have chars : (c.extend q e).buf.take c.a3.toNat = c.buf.take c.a3.toNat :=
        List.take_append_of_le_length room
      rw [if_pos room']
      dsimp only
      rw [returns_extend]
      exact congrArg (fun chars => some (extendResult e (c.returns (i64 c.a3.toNat)
        (chars.foldl (Kernel.putc font) s).swap))) chars
    · contradiction
  · rw [if_neg console] at call
    rw [if_neg (show ¬ ((c.extend q e).fd = 1 ∨ (c.extend q e).fd = 2) from console),
      returns_extend]
    obtain rfl := Option.some.inj call
    rfl

theorem dispatchRead_extend (call : dispatchRead c s = some r) :
    dispatchRead (c.extend q e) s = some (extendResult e r) := by
  rw [dispatchRead] at call ⊢
  by_cases keyboard : c.fd = 0 ∧ c.a3 > 0
  · rw [if_pos keyboard] at call
    rw [if_pos (show (c.extend q e).fd = 0 ∧ (c.extend q e).a3 > 0 from keyboard)]
    dsimp only at call ⊢
    split_ifs at call ⊢ with waits
    · obtain ⟨buf, copy, rfl⟩ := Option.map_eq_some_iff.mp call
      obtain ⟨room, -⟩ := memcpy_some copy
      rw [memcpy_eq room le_rfl, Option.some.injEq] at copy
      obtain rfl := copy
      have room' : 1 ≤ ((c.buf ++ e).map some).length := by
        rw [List.map_append, List.length_append]
        exact room.trans (Nat.le_add_right ..)
      rw [Syscall.extend, memcpy_eq room' le_rfl, Option.map_some, List.map_append,
        List.drop_append_of_le_length room, ← List.append_assoc]
      rfl
    · obtain rfl := Option.some.inj call
      rw [returns_extend]
  · rw [if_neg keyboard] at call
    rw [if_neg (show ¬ ((c.extend q e).fd = 0 ∧ (c.extend q e).a3 > 0) from keyboard),
      returns_extend]
    obtain rfl := Option.some.inj call
    rfl

theorem dispatchOpen_extend (call : dispatchOpen c s = some r) :
    dispatchOpen (c.extend q e) s = some (extendResult e r) := by
  obtain ⟨opened, opening, rfl⟩ := Option.map_eq_some_iff.mp call
  have again : vfsOpen (c.extend q e).path (c.extend q e).flags s.fs = some opened := by
    obtain ⟨node, lookup, rest⟩ := Option.bind_eq_some_iff.mp opening
    rw [vfsOpen, Syscall.extend, vfsLookup_append lookup q]
    exact rest
  rw [dispatchOpen, again, Option.map_some, returns_extend]

/-- A system call does not look behind the bytes it uses. -/
theorem syscallDispatch_extend (call : syscallDispatch font c s = some r) :
    syscallDispatch font (c.extend q e) s = some (extendResult e r) := by
  by_cases write : c.num = sysWrite
  · rw [syscallDispatch_write _ _ write] at call
    rw [syscallDispatch_write font (c := c.extend q e) s write]
    exact dispatchWrite_extend q e call
  by_cases read : c.num = sysRead
  · rw [syscallDispatch_read _ _ read] at call
    rw [syscallDispatch_read font (c := c.extend q e) s read]
    exact dispatchRead_extend q e call
  by_cases opens : c.num = sysOpen
  · rw [syscallDispatch_open _ _ opens] at call
    rw [syscallDispatch_open font (c := c.extend q e) s opens]
    exact dispatchOpen_extend q e call
  obtain ⟨value, t, returns⟩ := syscallDispatch_other font s write read opens
  obtain rfl := Option.some.inj ((returns c.path c.buf).symm.trans call)
  exact (returns _ _).trans (congrArg some (returns_extend q e c value t))

end

section

variable {font : Font} {c : Syscall} {s : Kernel} {r : SyscallResult}

theorem dispatchRead_length (call : dispatchRead c s = some r) :
    r.2.1.length = c.buf.length := by
  rw [dispatchRead] at call
  dsimp only at call
  split_ifs at call with keyboard waits
  · obtain ⟨buf, copy, rfl⟩ := Option.map_eq_some_iff.mp call
    obtain ⟨room, -⟩ := memcpy_some copy
    rw [memcpy_eq room le_rfl, Option.some.injEq] at copy
    obtain rfl := copy
    rw [List.length_map] at room
    rw [List.length_append, List.length_drop, List.length_map, List.take_one, List.head?_cons,
      Option.toList_some, List.length_singleton, Nat.add_sub_cancel' room]
  all_goals
    obtain rfl := Option.some.inj call
    exact List.length_map ..

theorem dispatchWrite_length (call : dispatchWrite font c s = some r) :
    r.2.1.length = c.buf.length := by
  rw [dispatchWrite] at call
  split_ifs at call with console room
  all_goals
    obtain rfl := Option.some.inj call
    exact List.length_map ..

/-- A system call returns as many bytes as its buffer has. -/
theorem syscallDispatch_length (call : syscallDispatch font c s = some r) :
    r.2.1.length = c.buf.length := by
  by_cases write : c.num = sysWrite
  · rw [syscallDispatch_write _ _ write] at call
    exact dispatchWrite_length call
  by_cases read : c.num = sysRead
  · rw [syscallDispatch_read _ _ read] at call
    exact dispatchRead_length call
  by_cases opens : c.num = sysOpen
  · rw [syscallDispatch_open _ _ opens] at call
    obtain ⟨opened, -, rfl⟩ := Option.map_eq_some_iff.mp call
    exact List.length_map ..
  obtain ⟨value, t, returns⟩ := syscallDispatch_other font s write read opens
  obtain rfl := Option.some.inj ((returns c.path c.buf).symm.trans call)
  exact List.length_map ..

end

/-- The number of bytes from `a2` on that the call reads or writes. -/
def Syscall.used (c : Syscall) (s : Kernel) : ℕ :=
  if c.num = sysWrite ∧ (c.fd = 1 ∨ c.fd = 2) then c.a3.toNat
  else if c.num = sysRead ∧ (c.fd = 0 ∧ c.a3 > 0) ∧ s.fs.sLastChar ≠ 0 then 1
  else 0

/-- A system call ends on the bytes that it uses. -/
theorem syscallDispatch_total (font : Font) {c : Syscall} {s : Kernel}
    (buffer : c.used s ≤ c.buf.length) (string : c.num = sysOpen → vfsLookup c.path s.fs ≠ none) :
    ∃ r, syscallDispatch font c s = some r := by
  rw [Syscall.used] at buffer
  by_cases write : c.num = sysWrite
  · rw [syscallDispatch_write _ _ write, dispatchWrite]
    split_ifs with console room
    · exact ⟨_, rfl⟩
    · rw [if_pos ⟨write, console⟩] at buffer
      exact absurd buffer room
    · exact ⟨_, rfl⟩
  by_cases read : c.num = sysRead
  · rw [syscallDispatch_read _ _ read, dispatchRead]
    dsimp only
    split_ifs with keyboard waits
    · rw [if_neg fun other => write other.1, if_pos ⟨read, keyboard, waits⟩,
        ← List.length_map (some : UInt8 → Option UInt8)] at buffer
      have copy : ∃ bytes, memcpy (c.buf.map some) [some s.fs.sLastChar] 1 = some bytes :=
        ⟨_, memcpy_eq buffer le_rfl⟩
      obtain ⟨bytes, copy⟩ := copy
      exact ⟨_, congrArg (Option.map _) copy⟩
    · exact ⟨_, rfl⟩
    · exact ⟨_, rfl⟩
  by_cases opens : c.num = sysOpen
  · obtain ⟨node, found⟩ := Option.ne_none_iff_exists'.mp (string opens)
    rw [syscallDispatch_open _ _ opens, dispatchOpen, vfsOpen, found]
    dsimp only [Option.bind_eq_bind, Option.bind_some]
    cases node with
    | none => exact ⟨_, rfl⟩
    | some node =>
      dsimp only
      split <;> exact ⟨_, rfl⟩
  obtain ⟨value, t, returns⟩ := syscallDispatch_other font s write read opens
  exact ⟨_, returns c.path c.buf⟩

/-! ## Memory -/

/-- The bytes at all addresses. -/
abbrev ByteMemory := BitVec 64 → UInt8

/-- The higher half, with the direct map of the memory and the kernel, begins here. -/
def KernelAddress (a : BitVec 64) : Prop := 0xFFFF800000000000 ≤ a

instance (a : BitVec 64) : Decidable (KernelAddress a) :=
  inferInstanceAs (Decidable (0xFFFF800000000000 ≤ a))

/-- The `n` bytes from an address on are user memory. -/
def UserRange (a : BitVec 64) (n : ℕ) : Prop := ∀ i < n, ¬ KernelAddress (a + .ofNat 64 i)

instance (a : BitVec 64) (n : ℕ) : Decidable (UserRange a n) :=
  inferInstanceAs (Decidable (∀ i < n, ¬ KernelAddress (a + .ofNat 64 i)))

/-- The `n` bytes from an address on. -/
def ByteMemory.fetch (m : ByteMemory) (a : BitVec 64) (n : ℕ) : List UInt8 :=
  (List.range n).map fun i => m (a + .ofNat 64 i)

/-- The memory after bytes were stored from an address on. -/
def ByteMemory.store (m : ByteMemory) (a : BitVec 64) (bytes : List (Option UInt8)) : ByteMemory :=
  fun b => (bytes[(b - a).toNat]?).join.getD (m b)

section

variable (m : ByteMemory) {m' : ByteMemory} {a b : BitVec 64} {n : ℕ}

theorem fetch_length (a : BitVec 64) (n : ℕ) : (m.fetch a n).length = n := by
  rw [ByteMemory.fetch, List.length_map, List.length_range]

theorem fetch_add (a : BitVec 64) (n k : ℕ) :
    m.fetch a (n + k) = m.fetch a n ++ m.fetch (a + .ofNat 64 n) k := by
  rw [ByteMemory.fetch, List.range_add, List.map_append, List.map_map]
  refine congrArg (m.fetch a n ++ ·) (List.map_congr_left fun i _ => ?_)
  rw [Function.comp_apply, BitVec.ofNat_add, BitVec.add_assoc]

theorem fetch_congr (same : ∀ a, ¬ KernelAddress a → m' a = m a) (range : UserRange a n) :
    m'.fetch a n = m.fetch a n :=
  List.map_congr_left fun i hi => same _ (range i (List.mem_range.mp hi))

/-- The address is that many bytes behind the start. -/
theorem add_offset (a b : BitVec 64) : a + .ofNat 64 (b - a).toNat = b := by
  rw [BitVec.ofNat_toNat, BitVec.setWidth_eq, BitVec.add_comm, BitVec.sub_add_cancel]

theorem userRange_one (user : ¬ KernelAddress a) : UserRange a 1 := by
  intro i hi
  rw [Nat.lt_one_iff.mp hi, BitVec.add_zero]
  exact user

/-- What is stored in user memory leaves the kernel's as it is. -/
theorem store_kernel {bytes : List (Option UInt8)} (range : UserRange a bytes.length)
    (kernel : KernelAddress b) : m.store a bytes b = m b := by
  have outside : bytes.length ≤ (b - a).toNat := by
    by_contra inside
    exact range _ (not_le.mp inside) ((add_offset a b).symm ▸ kernel)
  rw [ByteMemory.store, List.getElem?_eq_none outside]
  rfl

/-- Bytes that are stored where they were fetched change nothing. -/
theorem store_append_fetch {bytes : List (Option UInt8)} (length : bytes.length = n) (k : ℕ) :
    m.store a (bytes ++ (m.fetch (a + .ofNat 64 n) k).map some) = m.store a bytes := by
  funext b
  rw [ByteMemory.store, ByteMemory.store]
  by_cases inside : (b - a).toNat < bytes.length
  · rw [List.getElem?_append_left inside]
  · have behind := not_lt.mp inside
    rw [List.getElem?_append_right behind, List.getElem?_eq_none behind, List.getElem?_map]
    by_cases within : (b - a).toNat - bytes.length < k
    · have address : a + .ofNat 64 n + .ofNat 64 ((b - a).toNat - bytes.length) = b := by
        rw [BitVec.add_assoc, ← BitVec.ofNat_add, length, Nat.add_sub_cancel' (length ▸ behind),
          add_offset]
      rw [ByteMemory.fetch, List.getElem?_map, List.getElem?_range within, Option.map_some,
        Option.map_some, address]
      rfl
    · rw [List.getElem?_eq_none (by rw [fetch_length]; exact not_lt.mp within)]
      rfl

end

/-! ## Calls from ring 3 -/

/-- The arguments of `syscall_dispatch`, as a program passes them. -/
structure CallRegisters where
  num : BitVec 64
  a1 : BitVec 64
  a2 : BitVec 64
  a3 : BitVec 64
  a4 : BitVec 64
  a5 : BitVec 64
  a6 : BitVec 64

/-- The string at `a1`, of which the memory is read for `p` bytes. -/
def CallRegisters.path (r : CallRegisters) (m : ByteMemory) (p : ℕ) : Option (List UInt8) :=
  if r.a1 = 0 then none else some (m.fetch r.a1 p)

/-- The call, with `p` bytes from `a1` on and `b` bytes from `a2` on. -/
def CallRegisters.call (r : CallRegisters) (m : ByteMemory) (p b : ℕ) : Syscall where
  num := r.num
  a1 := r.a1
  a2 := r.a2
  a3 := r.a3
  a4 := r.a4
  a5 := r.a5
  a6 := r.a6
  path := r.path m p
  buf := m.fetch r.a2 b

/-- The kernel, the memory at the addresses that a program can pass, and the values returned. -/
structure Machine where
  kernel : Kernel
  memory : ByteMemory
  returned : List ℤ

/-- A program stores a byte of its own memory, a key is pressed, or the program makes a call. -/
inductive UserEvent
  | store (a : BitVec 64) (b : UInt8)
  | key (scancode : UInt8)
  | call (r : CallRegisters)

/-- One event.  A call reads as many bytes as it needs. -/
inductive MachineStep (font : Font) : Machine → UserEvent → Machine → Prop
  | store {k : Kernel} {m : ByteMemory} {vs : List ℤ} {a : BitVec 64} {b : UInt8}
      (user : ¬ KernelAddress a) :
      MachineStep font ⟨k, m, vs⟩ (.store a b) ⟨k, m.store a [some b], vs⟩
  | key (k : Kernel) (m : ByteMemory) (vs : List ℤ) (scancode : UInt8) :
      MachineStep font ⟨k, m, vs⟩ (.key scancode) ⟨keyboardCallback font scancode k, m, vs⟩
  | call {k k' : Kernel} {m : ByteMemory} {vs : List ℤ} {r : CallRegisters} {p b : ℕ} {value : ℤ}
      {bytes : List (Option UInt8)}
      (call : syscallDispatch font (r.call m p b) k = some (value, bytes, k')) :
      MachineStep font ⟨k, m, vs⟩ (.call r) ⟨k', m.store r.a2 bytes, vs ++ [value]⟩

/-- What the call reads and writes through its arguments is user memory. -/
structure CallRegisters.Confined (r : CallRegisters) (x : Machine) : Prop where
  buffer : UserRange r.a2 ((r.call x.memory 0 0).used x.kernel)
  string : r.num = sysOpen →
    ∃ p, UserRange r.a1 p ∧ vfsLookup (r.path x.memory p) x.kernel.fs ≠ none

/-- The calls are confined. -/
def UserEvent.Confined (x : Machine) : UserEvent → Prop
  | .call r => r.Confined x
  | _ => True

section

variable {font : Font} {k : Kernel} {m m' : ByteMemory} {r : CallRegisters} {p b : ℕ}

theorem call_add (r : CallRegisters) (m : ByteMemory) (p b p' b' : ℕ) :
    r.call m (p + p') (b + b') = (r.call m p b).extend (m.fetch (r.a1 + .ofNat 64 p) p')
      (m.fetch (r.a2 + .ofNat 64 b) b') := by
  have path : r.path m (p + p') =
      (r.path m p).map (· ++ m.fetch (r.a1 + .ofNat 64 p) p') := by
    rw [CallRegisters.path, CallRegisters.path]
    split_ifs
    · rfl
    · rw [fetch_add, Option.map_some]
  rw [CallRegisters.call, path, fetch_add]
  rfl

/-- A call that uses more bytes than it needs has the same outcome. -/
theorem syscallDispatch_add {value : ℤ} {bytes : List (Option UInt8)} {k' : Kernel}
    (call : syscallDispatch font (r.call m p b) k = some (value, bytes, k')) (p' b' : ℕ) :
    ∃ bytes', syscallDispatch font (r.call m (p + p') (b + b')) k = some (value, bytes', k') ∧
      m.store r.a2 bytes' = m.store r.a2 bytes := by
  refine ⟨_, (call_add r m p b p' b').symm ▸ syscallDispatch_extend _ _ call, ?_⟩
  have length : bytes.length = b := (syscallDispatch_length call).trans (fetch_length ..)
  exact store_append_fetch m length b'

/-- The outcome of a call does not depend on how many bytes are read. -/
theorem machineStep_unique {x y : Machine} {value : ℤ} {bytes : List (Option UInt8)} {k' : Kernel}
    (step : MachineStep font x (.call r) y)
    (call : syscallDispatch font (r.call x.memory p b) x.kernel = some (value, bytes, k')) :
    y = ⟨k', x.memory.store r.a2 bytes, x.returned ++ [value]⟩ := by
  cases step with
  | @call k k₁ m vs _ p₁ b₁ value₁ bytes₁ call₁ =>
    obtain ⟨both, left, store⟩ := syscallDispatch_add call p₁ b₁
    obtain ⟨both₁, right, store₁⟩ := syscallDispatch_add call₁ p b
    rw [Nat.add_comm p₁, Nat.add_comm b₁] at right
    have same := Option.some.inj (left.symm.trans right)
    simp only [Prod.mk.injEq] at same
    obtain ⟨rfl, rfl, rfl⟩ := same
    rw [← store₁, ← store]

/-- A confined call ends on user memory. -/
theorem exists_userBytes {x : Machine} (font : Font) (confined : r.Confined x) :
    ∃ p b value bytes k, UserRange r.a1 p ∧ UserRange r.a2 b ∧
      syscallDispatch font (r.call x.memory p b) x.kernel = some (value, bytes, k) := by
  obtain ⟨buffer, string⟩ := confined
  have ends : ∀ p, (r.num = sysOpen → vfsLookup (r.path x.memory p) x.kernel.fs ≠ none) →
      ∃ result, syscallDispatch font
        (r.call x.memory p ((r.call x.memory 0 0).used x.kernel)) x.kernel = some result :=
    fun p found => syscallDispatch_total font (fetch_length ..).ge found
  by_cases opening : r.num = sysOpen
  · obtain ⟨p, range, found⟩ := string opening
    obtain ⟨result, call⟩ := ends p fun _ => found
    exact ⟨p, _, _, _, _, range, buffer, call⟩
  · obtain ⟨result, call⟩ := ends 0 fun other => absurd other opening
    exact ⟨0, _, _, _, _, fun i hi => absurd hi (Nat.not_lt_zero i), buffer, call⟩

end

/-! ## Two runs -/

/-- Two machines that differ only in the kernel's memory, which is what it was. -/
structure Isolated (m m' : ByteMemory) (x x' : Machine) : Prop where
  kernel : x'.kernel = x.kernel
  returned : x'.returned = x.returned
  user : ∀ a, ¬ KernelAddress a → x'.memory a = x.memory a
  kept : ∀ a, KernelAddress a → x.memory a = m a
  kept' : ∀ a, KernelAddress a → x'.memory a = m' a

section

variable {font : Font} {m m' : ByteMemory} {x x' y : Machine}

theorem Isolated.store (isolated : Isolated m m' x x') {a : BitVec 64}
    {bytes : List (Option UInt8)} (range : UserRange a bytes.length) (k : Kernel)
    (values : List ℤ) :
    Isolated m m' ⟨k, x.memory.store a bytes, values⟩ ⟨k, x'.memory.store a bytes, values⟩ := by
  refine ⟨rfl, rfl, fun b user => ?_, fun b kernel => ?_, fun b kernel => ?_⟩
  · exact congrArg (fun c => (bytes[(b - a).toNat]?).join.getD c) (isolated.user b user)
  · exact (store_kernel x.memory range kernel).trans (isolated.kept b kernel)
  · exact (store_kernel x'.memory range kernel).trans (isolated.kept' b kernel)

/-- A call in both machines. -/
theorem Isolated.call (isolated : Isolated m m' x x') {r : CallRegisters}
    (step : MachineStep font x (.call r) y) (confined : r.Confined x) :
    (∃ y', MachineStep font x' (.call r) y') ∧
      ∀ y', MachineStep font x' (.call r) y' → Isolated m m' y y' := by
  obtain ⟨p, b, value, bytes, k, string, buffer, call⟩ := exists_userBytes font confined
  have same : r.call x'.memory p b = r.call x.memory p b := by
    rw [CallRegisters.call, CallRegisters.path, fetch_congr _ isolated.user string,
      fetch_congr _ isolated.user buffer]
    rfl
  have call' : syscallDispatch font (r.call x'.memory p b) x'.kernel = some (value, bytes, k) := by
    rw [same, isolated.kernel, call]
  have length : bytes.length = b := (syscallDispatch_length call).trans (fetch_length ..)
  refine ⟨⟨_, .call call'⟩, fun y' step' => ?_⟩
  rw [machineStep_unique step call, machineStep_unique step' call', isolated.returned]
  exact isolated.store (length.symm ▸ buffer) k _

theorem Isolated.step (isolated : Isolated m m' x x') {e : UserEvent}
    (step : MachineStep font x e y) (confined : e.Confined x) :
    (∃ y', MachineStep font x' e y') ∧ ∀ y', MachineStep font x' e y' → Isolated m m' y y' := by
  cases e with
  | call r => exact isolated.call step confined
  | store a b =>
    cases step with
    | @store k _ vs _ _ user =>
      refine ⟨⟨_, .store user⟩, fun y' step' => ?_⟩
      cases step' with
      | store =>
        obtain rfl : k = _ := isolated.kernel.symm
        obtain rfl : vs = _ := isolated.returned.symm
        have range : UserRange a [some b].length := userRange_one user
        exact isolated.store range k vs
  | key scancode =>
    cases step
    refine ⟨⟨_, .key ..⟩, fun y' step' => ?_⟩
    cases step'
    exact ⟨congrArg (keyboardCallback font scancode) isolated.kernel, isolated.returned,
      isolated.user, isolated.kept, isolated.kept'⟩

/-- In a run whose calls use only user memory, the values returned, the kernel and the user memory
do not depend on the kernel's memory, and no byte of the kernel's memory changes.  The run can be
repeated over any other kernel's memory.  The message about an unknown call depends on its number
only: it is what `kprintf` prints over any memory. -/
theorem machineRun_isolated (font : Font) {es : List UserEvent} (kernel : x'.kernel = x.kernel)
    (returned : x'.returned = x.returned)
    (user : ∀ a, ¬ KernelAddress a → x'.memory a = x.memory a)
    (run : Run (fun x e y => MachineStep font x e y ∧ e.Confined x) x es y) :
    (∃ y', Run (MachineStep font) x' es y') ∧
      (∀ y', Run (MachineStep font) x' es y' → Isolated x.memory x'.memory y y') ∧
      ∀ mem num (s : Kernel), s.kprintf font mem (text "[SYSCALL] Unknown syscall #%d\n" ++ [0])
        [(num.setWidth 32).setWidth 64] = some (s.printUnknown font num) := by
  have start : Isolated x.memory x'.memory x x' :=
    ⟨kernel, returned, user, fun _ _ => rfl, fun _ _ => rfl⟩
  obtain ⟨repeats, isolated⟩ := run.lockstep (R := Isolated x.memory x'.memory)
    (fun _ _ _ _ isolated step => isolated.step step.1 step.2) start
  exact ⟨repeats, isolated, Kernel.kprintf_printUnknown font⟩

end

/-- `SYS_WRITE` to the console, of `count` bytes from `buf` on. -/
def consoleWrite (buf count : BitVec 64) : CallRegisters where
  num := sysWrite
  a1 := 1
  a2 := buf
  a3 := count
  a4 := 0
  a5 := 0
  a6 := 0

/-- `SYS_READ` of the keyboard, of one byte to `buf`. -/
def keyboardRead (buf : BitVec 64) : CallRegisters where
  num := sysRead
  a1 := 0
  a2 := buf
  a3 := 1
  a4 := 0
  a5 := 0
  a6 := 0

/-- The kernel's memory is filled with a byte. -/
def filledMemory (secret : UInt8) : ByteMemory := fun a => if KernelAddress a then secret else 0

/-- A program stores a byte, writes it, and reads a key. -/
def exampleEvents : List UserEvent :=
  [.store 0x400100 0x41, .call (consoleWrite 0x400100 2), .key 0x26,
    .call (keyboardRead 0x400100)]

theorem machineRun_isolated_example : ∃ y y',
    Run (MachineStep fun _ _ => 0) ⟨quietKernel, filledMemory 1, []⟩ exampleEvents y ∧
    Run (MachineStep fun _ _ => 0) ⟨quietKernel, filledMemory 2, []⟩ exampleEvents y' ∧
    y'.returned = [2, 1] ∧ y'.kernel.fs.serial = y.kernel.fs.serial ∧
    y'.memory 0xFFFF800000000000 = 2 := by
  have run : ∃ y, Run (fun x e y => MachineStep (fun _ _ => 0) x e y ∧ e.Confined x)
      ⟨quietKernel, filledMemory 1, []⟩ exampleEvents y ∧ y.returned = [2, 1] := by
    refine ⟨_, .cons ⟨.store (by decide), trivial⟩
      (.cons ⟨.call (p := 0) (b := 2) rfl, ⟨?_, ?_⟩⟩ (.cons ⟨.key .., trivial⟩
      (.cons ⟨.call (p := 0) (b := 1) rfl, ⟨?_, ?_⟩⟩ (.nil _)))), rfl⟩
    · decide
    · exact fun opening => absurd opening (by decide)
    · decide
    · exact fun opening => absurd opening (by decide)
  obtain ⟨y, run, returned⟩ := run
  have user : ∀ a, ¬ KernelAddress a → filledMemory 2 a = filledMemory 1 a := fun a user => by
    rw [filledMemory, filledMemory, if_neg user, if_neg user]
  obtain ⟨⟨y', run'⟩, isolated, -⟩ :=
    @machineRun_isolated ⟨quietKernel, filledMemory 1, []⟩ ⟨quietKernel, filledMemory 2, []⟩ y
      (fun _ _ => 0) exampleEvents rfl rfl user run
  have steps : Run (MachineStep fun _ _ => 0) ⟨quietKernel, filledMemory 1, []⟩ exampleEvents y :=
    run.transfer (I := fun _ => True) (fun _ _ _ _ step => ⟨trivial, step.1⟩) trivial
  have same := isolated y' run'
  refine ⟨y, y', steps, run', same.returned.trans returned, ?_, ?_⟩
  · rw [same.kernel]
  · exact same.kept' _ (by decide)

/-- `SYS_WRITE` prints a byte of the kernel, and `SYS_READ` overwrites one. -/
theorem kernel_reached : (∃ y y',
    Run (MachineStep fun _ _ => 0) ⟨quietKernel, filledMemory 1, []⟩
      [.call (consoleWrite 0xFFFF800000000000 1)] y ∧
    Run (MachineStep fun _ _ => 0) ⟨quietKernel, filledMemory 2, []⟩
      [.call (consoleWrite 0xFFFF800000000000 1)] y' ∧
    y.kernel.fs.serial ≠ y'.kernel.fs.serial) ∧
    ∃ z, Run (MachineStep fun _ _ => 0) ⟨quietKernel, filledMemory 1, []⟩
      [.key 0x26, .call (keyboardRead 0xFFFF800000000000)] z ∧
    z.memory 0xFFFF800000000000 ≠ filledMemory 1 0xFFFF800000000000 := by
  refine ⟨⟨_, _, .cons (.call (p := 0) (b := 1) rfl) (.nil _),
    .cons (.call (p := 0) (b := 1) rfl) (.nil _), ?_⟩,
    _, .cons (.key ..) (.cons (.call (p := 0) (b := 1) rfl) (.nil _)), ?_⟩
  · decide
  · decide

end ChefOs
