import ChefOs.Mm.HeapSafety
import ChefOs.Mm.PmmOwnership
import ChefOs.Proc.Sched

/-!
# The clients of the page allocator

`heap_init`, `kmalloc`, `sched_init`, `thread_create` and `syscall_init` over one page allocator.
What each of them uses is a set of physical bytes, with the pages that it was given for them.
-/

namespace ChefOs

open Kit

/-- Where the boot loader maps the physical memory: below the end of the address space. -/
structure DirectMap (s : Pmm) where
  offset : ℕ
  fits : offset + s.sTotalPages * pageSize < 2 ^ 64

/-- The physical bytes behind virtual addresses. -/
def behind (offset : ℕ) (virtual : Set ℕ) : Set ℕ := Set.preimage (· + offset) virtual

theorem mem_behind {offset a : ℕ} {virtual : Set ℕ} :
    a ∈ behind offset virtual ↔ a + offset ∈ virtual := Iff.rfl

/-- The bytes of a stack of four pages, from its first stack pointer. -/
def stackBytes (top : ℕ) : Set ℕ := Set.Ico (top + 16 - 4 * pageSize) (top + 16)

/-- `g_kernel_syscall_stack` after `syscall_init`, with `stackPhys` the answer of
`pmm_alloc_pages(4)`. -/
def syscallStack (stackPhys hhdmOffset : ℕ) : ℕ :=
  sub64 (u64 (stackPhys + hhdmOffset + 4 * pageSize)) 16

/-- The allocators, with the pages that each call of `pmm_alloc_pages` took, those of the last
`heap_init`, and the bytes that the clients use. -/
structure Memory where
  pmm : Pmm
  heap : Heap
  grants : List (Finset ℕ)
  heapPages : Finset ℕ
  leases : List (Lease ℕ ℕ)

namespace Memory

/-- The pages that `pmm_alloc_pages` takes. -/
def pages (count : ℕ) (x : Memory) : Finset ℕ :=
  freeSet x.pmm \ freeSet (pmmAllocPages count x.pmm).1

/-- The answer of `pmm_alloc_pages`. -/
def answer (count : ℕ) (x : Memory) : ℕ := (pmmAllocPages count x.pmm).2

/-- `pmm_alloc_pages`. -/
def allocPages (count : ℕ) (x : Memory) : Memory :=
  { x with pmm := (pmmAllocPages count x.pmm).1, grants := x.pages count :: x.grants }

/-- A client uses bytes in pages it was given. -/
def lease (cells : Set ℕ) (grant : Finset ℕ) (x : Memory) : Memory :=
  { x with leases := ⟨cells, grant⟩ :: x.leases }

/-- `heap_init`. -/
def heapInit (hhdmOffset : ℕ) (x : Memory) : Memory :=
  { x.allocPages initialPages with
    heap := ChefOs.heapInit x.heap.mem (x.answer initialPages) hhdmOffset
    heapPages := x.pages initialPages }

/-- `kmalloc`, or `kzalloc`: what the clients store in their blocks is not kept. -/
def kmalloc (offset size : ℕ) (x : Memory) : Option (Memory × ℕ) := do
  let (heap, p) ← ChefOs.kmalloc heapFuel size x.heap
  let x := { x with heap := heap }
  return (if p = 0 then x else x.lease (behind offset (Set.Ico p (p + size))) x.heapPages, p)

end Memory

/-- The kernel after boot: its memory, the scheduler and the stack of system calls. -/
structure Clients where
  memory : Memory
  sched : Sched
  gKernelSyscallStack : ℕ

/-- A call to a client of the page allocator. -/
inductive ClientOp
  | heapInit
  | kmalloc (size : ℕ)
  | schedInit
  | threadCreate (entry : ℕ)
  | syscallInit
deriving DecidableEq, Repr

/-- A pointer as an option. -/
def pointer (p : ℕ) : Option ℕ := if p = 0 then none else some p

/-- The call, with `offset` the offset of the direct map.  A call that dereferences `NULL` has no
result.  `thread_create` puts the physical address of its pages into `rsp`, which nothing loads, so
its stack is the bytes at that physical address. -/
def ClientOp.call (offset : ℕ) : ClientOp → Clients → Option Clients
  | .heapInit, x => some { x with memory := x.memory.heapInit offset }
  | .kmalloc size, x =>
    (x.memory.kmalloc offset size).map fun r => { x with memory := r.1 }
  | .schedInit, x => do
    let (memory, t) ← x.memory.kmalloc offset sizeofThread
    let sched ← ChefOs.schedInit (pointer t) x.sched
    return { x with memory, sched }
  | .threadCreate entry, x => do
    let (memory, t) ← x.memory.kmalloc offset sizeofThread
    let sched ← ChefOs.threadCreate entry (pointer t) (memory.answer 4) x.sched
    let stack := stackBytes (sched.threads t).rsp
    return { x with memory := (memory.allocPages 4).lease stack (memory.pages 4), sched }
  | .syscallInit, x =>
    let top := syscallStack (x.memory.answer 4) offset
    let stack := behind offset (stackBytes top)
    some { x with
      memory := (x.memory.allocPages 4).lease stack (x.memory.pages 4)
      gKernelSyscallStack := top }

/-- The kernel before the first call, in any state of the page allocator. -/
def Clients.boot (s : Pmm) (mem : ℕ → ℕ) (threads : ℕ → Thread) : Clients where
  memory := {
    pmm := s
    heap := ⟨mem, 0, 0, 0⟩
    grants := []
    heapPages := ∅
    leases := [] }
  sched := .boot threads
  gKernelSyscallStack := 0

/-- Every client uses bytes of its own, in pages that it was given: pages that were free in the
beginning, and are not free now. -/
structure OwnMemory (initial : Finset ℕ) (x : Memory) : Prop where
  tenants : Tenants (· / pageSize) x.leases
  given : ∀ l ∈ x.leases, l.grant ∈ x.grants
  exclusive : x.grants.Pairwise Disjoint
  wereFree : ∀ l ∈ x.leases, l.grant ⊆ initial
  used : ∀ l ∈ x.leases, Disjoint l.grant (freeSet x.pmm)

/-- A run of consecutive free pages is left. -/
def Available (count : ℕ) (s : Pmm) : Prop :=
  ∃ k, k + count ≤ s.sTotalPages ∧ pageRun k count ⊆ freeSet s

/-- What a call needs: the pages that it asks for, and a size that can be rounded up. -/
def ClientOp.Guard : ClientOp → Clients → Prop
  | .heapInit, x => Available initialPages x.memory.pmm
  | .kmalloc size, _ => size ≤ 2 ^ 64 - 8
  | .schedInit, _ => True
  | .threadCreate _, x => Available 4 x.memory.pmm
  | .syscallInit, x => Available 4 x.memory.pmm

/-- A call. -/
def ClientStep (offset : ℕ) (x : Clients) (op : ClientOp) (y : Clients) : Prop :=
  op.call offset x = some y

/-- A call that has what it needs. -/
def ProvidedStep (offset : ℕ) (x : Clients) (op : ClientOp) (y : Clients) : Prop :=
  ClientStep offset x op y ∧ op.Guard x

/-! ## The page allocator -/

theorem pageRun_subset_page {k count a : ℕ} (le : k * pageSize ≤ a)
    (lt : a < k * pageSize + count * pageSize) : a / pageSize ∈ pageRun k count := by
  rw [pageRun, Finset.mem_Ico, Nat.le_div_iff_mul_le pageSize_pos,
    Nat.div_lt_iff_lt_mul pageSize_pos, Nat.add_mul]
  exact ⟨le, lt⟩

/-- A call takes free pages, and nothing else changes. -/
theorem freeSet_pmmAllocPages (count : ℕ) (s : Pmm) :
    freeSet (pmmAllocPages count s).1 ⊆ freeSet s ∧
      (pmmAllocPages count s).1.sTotalPages = s.sTotalPages := by
  rcases pmmAllocPages_cases count s with ⟨call, -⟩ | ⟨k, -, -, -, -, call⟩
  · rw [call]
    exact ⟨Finset.Subset.refl _, rfl⟩
  · obtain ⟨free, total, -⟩ := freeSet_setRange count k s
    rw [call]
    dsimp only
    rw [freeSet_setFreePages, free, sTotalPages_setFreePages]
    exact ⟨Finset.sdiff_subset, total⟩

/-- With a run of free pages left, a call takes one and answers with its address. -/
theorem Memory.pages_of_available {x : Memory} {count : ℕ} (pos : 0 < count)
    (available : Available count x.pmm) :
    ∃ k, k + count ≤ x.pmm.sTotalPages ∧ x.pages count = pageRun k count ∧
      x.answer count = k * pageSize := by
  obtain ⟨k', inside', sub'⟩ := available
  rcases pmmAllocPages_cases count x.pmm with ⟨-, none⟩ | ⟨k, -, inside, sub, -, call⟩
  · exact absurd sub' (none pos k' inside')
  · obtain ⟨free, -, -⟩ := freeSet_setRange count k x.pmm
    refine ⟨k, inside, ?_, ?_⟩
    · rw [Memory.pages, call]
      dsimp only
      rw [freeSet_setFreePages, free, Finset.sdiff_sdiff_eq_self sub]
    · rw [Memory.answer, call]

/-! ## The invariant -/

/-- The heap lies in its pages, and who uses bytes there has a block. -/
structure HeapOwns (offset k : ℕ) (held : List ℕ) (bs : List Arena.Block) (x : Memory) : Prop where
  pages : x.heapPages = pageRun k initialPages
  granted : x.heapPages ∈ x.grants
  fits : k * pageSize + offset + initialPages * pageSize < 2 ^ 64
  inv : HeapInv (k * pageSize + offset) (k * pageSize + offset + initialPages * pageSize) x.heap
    held bs
  blocks : ∀ l ∈ x.leases, Disjoint x.heapPages l.grant ∨
    ∃ b ∈ Arena.used bs, l.cells ⊆ behind offset (payloadBytes b)

/-- The state of the memory after boot. -/
structure MemoryInv {s₀ : Pmm} (map : DirectMap s₀) (x : Memory) : Prop where
  conserved : Ledger.Conserved (freeSet s₀) ⟨freeSet x.pmm, x.grants⟩
  total : x.pmm.sTotalPages = s₀.sTotalPages
  tenants : Tenants (· / pageSize) x.leases
  given : ∀ l ∈ x.leases, l.grant ∈ x.grants
  heap : x.heap.sHead = 0 ∨ ∃ k held bs, HeapOwns map.offset k held bs x

section

variable {s₀ : Pmm} {map : DirectMap s₀} {x : Memory}

theorem MemoryInv.own (inv : MemoryInv map x) : OwnMemory (freeSet s₀) x where
  tenants := inv.tenants
  given := inv.given
  exclusive := inv.conserved.disjoint
  wereFree := fun l hl => inv.conserved.within l.grant (inv.given l hl)
  used := fun l hl => inv.conserved.used (inv.given l hl)

/-- The pages of a call belong to nobody else. -/
theorem MemoryInv.pages_fresh (inv : MemoryInv map x) (count : ℕ) {A : Finset ℕ}
    (mem : A ∈ x.grants) : Disjoint (x.pages count) A :=
  inv.conserved.fresh Finset.sdiff_subset mem

theorem MemoryInv.conserved_allocPages (inv : MemoryInv map x) (count : ℕ) :
    Ledger.Conserved (freeSet s₀)
      ⟨freeSet (x.allocPages count).pmm, (x.allocPages count).grants⟩ := by
  have taken : Ledger.Conserved (freeSet s₀)
      ⟨freeSet x.pmm \ x.pages count, x.pages count :: x.grants⟩ :=
    inv.conserved.take Finset.sdiff_subset
  have left : freeSet x.pmm \ x.pages count = freeSet (x.allocPages count).pmm :=
    Finset.sdiff_sdiff_eq_self (freeSet_pmmAllocPages count x.pmm).1
  rwa [left] at taken

/-- A client that was given pages uses bytes in them. -/
theorem MemoryInv.stack (inv : MemoryInv map x) {count : ℕ} {cells : Set ℕ}
    (inside : ∀ a ∈ cells, a / pageSize ∈ x.pages count) :
    MemoryInv map ((x.allocPages count).lease cells (x.pages count)) where
  conserved := inv.conserved_allocPages count
  total := (freeSet_pmmAllocPages count x.pmm).2.trans inv.total
  tenants := inv.tenants.cons inside fun l hl => Or.inl (inv.pages_fresh count (inv.given l hl))
  given := List.forall_mem_cons.mpr
    ⟨List.mem_cons_self, fun l hl => List.mem_cons_of_mem _ (inv.given l hl)⟩
  heap := by
    rcases inv.heap with null | ⟨k, held, bs, owns⟩
    · exact Or.inl null
    · refine Or.inr ⟨k, held, bs, owns.pages, List.mem_cons_of_mem _ owns.granted, owns.fits,
        owns.inv, ?_⟩
      exact List.forall_mem_cons.mpr
        ⟨Or.inl (inv.pages_fresh count owns.granted).symm, owns.blocks⟩

/-- What the direct map covers. -/
theorem MemoryInv.mapped (inv : MemoryInv map x) {k count : ℕ}
    (inside : k + count ≤ x.pmm.sTotalPages) :
    k * pageSize + map.offset + count * pageSize < 2 ^ 64 := by
  have below := Nat.mul_le_mul_right pageSize inside
  have covered := map.fits
  rw [inv.total, Nat.add_mul] at below
  omega

/-- `heap_init` with its pages. -/
theorem MemoryInv.heapInit (inv : MemoryInv map x) (available : Available initialPages x.pmm) :
    MemoryInv map (x.heapInit map.offset) := by
  obtain ⟨k, inside, pages, answer⟩ := x.pages_of_available (by decide) available
  constructor
  case conserved => exact inv.conserved_allocPages initialPages
  case total => exact (freeSet_pmmAllocPages initialPages x.pmm).2.trans inv.total
  case tenants => exact inv.tenants
  case given => exact fun l hl => List.mem_cons_of_mem _ (inv.given l hl)
  case heap =>
    have fits := inv.mapped inside
    by_cases null : k * pageSize + map.offset = 0
    · have head : (x.heapInit map.offset).heap.sHead =
          u64 (x.answer initialPages + map.offset) := rfl
      rw [answer, null] at head
      exact Or.inl head
    · have got : GotPages (k * pageSize) map.offset := ⟨Nat.pos_of_ne_zero null, fits⟩
      have heap := heapInit_inv x.heap.mem got
      have same : ChefOs.heapInit x.heap.mem (k * pageSize) map.offset =
          (x.heapInit map.offset).heap := congrArg (ChefOs.heapInit _ · _) answer.symm
      rw [same] at heap
      exact Or.inr ⟨k, [], _, pages, List.mem_cons_self, fits, heap, fun l hl =>
        Or.inl (inv.pages_fresh initialPages (inv.given l hl))⟩

/-- A heap without a list answers `NULL`. -/
theorem kmalloc_null {s : Heap} (null : s.sHead = 0) (size : ℕ) :
    kmalloc heapFuel size s = some (s, 0) := by
  have list : BlockList s s.sHead [] := null
  exact kmalloc_none list (by decide) rfl

/-- The bytes of a block in the heap are in its pages. -/
theorem HeapOwns.inside {offset k : ℕ} {held : List ℕ} {bs : List Arena.Block}
    (owns : HeapOwns offset k held bs x) {b : Arena.Block} (hb : b ∈ Arena.used bs) :
    ∀ a ∈ behind offset (payloadBytes b), a / pageSize ∈ x.heapPages := by
  intro a ha
  have inside := owns.inv.safe.inside b hb (mem_behind.mp ha)
  rw [Set.mem_Ico] at inside
  rw [owns.pages]
  exact pageRun_subset_page (by omega) (by omega)

/-- The blocks in use stay, and none of their bytes is in the block of a new pointer. -/
theorem HeapInv.apart {start stop p : ℕ} {s t : Heap} {held : List ℕ}
    {bs bs' front back : List Arena.Block} {b : Arena.Block} (inv : HeapInv start stop s held bs)
    (inv' : HeapInv start stop t (p :: held) bs') (fresh : p ∉ held)
    (addr : p = b.addr + headerSize) (used : Arena.used bs = front ++ back)
    (used' : Arena.used bs' = front ++ b :: back) :
    ∀ c ∈ Arena.used bs,
      c ∈ Arena.used bs' ∧ Disjoint (payloadBytes b) (payloadBytes c) := by
  intro c hc
  have mem : b ∈ Arena.used bs' := used' ▸ List.mem_append_right _ List.mem_cons_self
  have kept : c ∈ Arena.used bs' := by
    rw [used']
    rw [used, List.mem_append] at hc
    apply List.mem_append.mpr
    exact hc.imp id (List.mem_cons_of_mem b)
  refine ⟨kept, inv'.safe.disjoint b mem c kept ?_⟩
  rintro rfl
  apply fresh
  exact (inv.held_iff p).mpr ⟨b, hc, addr⟩

/-- `kmalloc` of a size that can be rounded up. -/
theorem MemoryInv.kmalloc (inv : MemoryInv map x) {size p : ℕ} {y : Memory}
    (fits : size ≤ 2 ^ 64 - 8) (call : x.kmalloc map.offset size = some (y, p)) :
    MemoryInv map y ∧ y.pmm = x.pmm := by
  unfold Memory.kmalloc at call
  rcases inv.heap with null | ⟨k, held, bs, owns⟩
  · rw [kmalloc_null null] at call
    obtain ⟨rfl, rfl⟩ := call
    exact ⟨inv, rfl⟩
  · obtain ⟨t, q, bs', run, inv', change⟩ := owns.inv.kmalloc owns.fits size
    rw [run] at call
    obtain ⟨rfl, rfl⟩ := call
    rcases change with ⟨rfl, rfl⟩ | ⟨ne, fresh, front, b, back, addr, used, used', le⟩
    · rw [if_pos rfl] at inv'
      refine ⟨?_, rfl⟩
      exact { inv with
        heap := Or.inr ⟨k, held, bs', { owns with inv := inv' }⟩ }
    · rw [if_neg ne] at inv' ⊢
      refine ⟨?_, rfl⟩
      have mem : b ∈ Arena.used bs' := used' ▸ List.mem_append_right _ List.mem_cons_self
      -- the bytes asked for are the first ones of the block
      have within : behind map.offset (Set.Ico p (p + size)) ⊆
          behind map.offset (payloadBytes b) := by
        have enough := le_alignSize fits
        intro a ha
        simp only [mem_behind, payloadBytes, Set.mem_Ico] at ha ⊢
        omega
      have apart := owns.inv.apart inv' fresh addr used used'
      have owns' : HeapOwns map.offset k (p :: held) bs' { x with heap := t } :=
        { owns with
          inv := inv'
          blocks := fun l hl => (owns.blocks l hl).imp id fun ⟨c, hc, sub⟩ =>
            ⟨c, (apart c hc).1, sub⟩ }
      have inside : ∀ a ∈ behind map.offset (Set.Ico p (p + size)), a / pageSize ∈ x.heapPages :=
        fun a ha => owns'.inside mem a (within ha)
      exact {
        conserved := inv.conserved
        total := inv.total
        tenants := inv.tenants.cons inside fun l hl => (owns.blocks l hl).imp id
          fun ⟨c, hc, sub⟩ => ((apart c hc).2.preimage _).mono within sub
        given := List.forall_mem_cons.mpr ⟨owns.granted, inv.given⟩
        heap := Or.inr ⟨k, p :: held, bs', { owns' with
          blocks := List.forall_mem_cons.mpr ⟨Or.inr ⟨b, mem, within⟩, owns'.blocks⟩ }⟩ }

/-! ## Runs -/

/-- The stack pointer that `thread_create` sets. -/
theorem threadCreate_rsp {entry t stackPhys : ℕ} {s s' : Sched}
    (call : threadCreate entry (pointer t) stackPhys s = some s') :
    (s'.threads t).rsp = sub64 (u64 (stackPhys + 4 * pageSize)) 16 := by
  have nonNull : pointer t = some t := by
    unfold pointer at call ⊢
    split at call
    · contradiction
    · rename_i ne
      rw [if_neg ne]
  rw [nonNull] at call
  unfold threadCreate at call
  simp only [Option.bind_eq_bind, Option.bind_some, Sched.nextId, Sched.setThread] at call
  obtain ⟨list, -, call⟩ := Option.bind_eq_some_iff.mp call
  obtain rfl := Option.some.inj call
  by_cases same : t = list
  · simp [same]
  · simp [same]

/-- The first stack pointer in four pages. -/
theorem mem_stackBytes {base a : ℕ} (fits : base + 4 * pageSize < 2 ^ 64) :
    a ∈ stackBytes (sub64 (u64 (base + 4 * pageSize)) 16) ↔ base ≤ a ∧ a < base + 4 * pageSize := by
  have room : 16 ≤ 4 * pageSize := by decide
  rw [u64_of_lt fits, sub64_of_le (by omega) fits, stackBytes, Set.mem_Ico]
  omega

/-- The stack of `syscall_init` lies in the pages that it is given. -/
theorem syscallStack_inside {offset : ℕ} (available : Available 4 x.pmm)
    (mapped : ∀ k, k + 4 ≤ x.pmm.sTotalPages → k * pageSize + offset + 4 * pageSize < 2 ^ 64) :
    ∀ a ∈ behind offset (stackBytes (syscallStack (x.answer 4) offset)),
      a / pageSize ∈ x.pages 4 := by
  intro a ha
  obtain ⟨k, inside, pages, answer⟩ := x.pages_of_available (by decide) available
  rw [mem_behind, syscallStack, answer, mem_stackBytes (mapped k inside)] at ha
  rw [pages]
  exact pageRun_subset_page (by omega) (by omega)

/-- A call that has what it needs keeps the invariant. -/
theorem providedStep_inv {x y : Clients} {op : ClientOp} (inv : MemoryInv map x.memory)
    (step : ProvidedStep map.offset x op y) : MemoryInv map y.memory := by
  obtain ⟨call, guard⟩ := step
  cases op with
  | heapInit =>
    obtain rfl := Option.some.inj call
    exact inv.heapInit guard
  | kmalloc size =>
    obtain ⟨⟨z, p⟩, alloc, rfl⟩ := Option.map_eq_some_iff.mp call
    exact (inv.kmalloc guard alloc).1
  | schedInit =>
    simp only [ClientStep, ClientOp.call, Option.bind_eq_bind, Option.bind_eq_some_iff] at call
    obtain ⟨⟨z, t⟩, alloc, sched, -, call⟩ := call
    obtain rfl := Option.some.inj call
    exact (inv.kmalloc (by decide) alloc).1
  | threadCreate entry =>
    simp only [ClientStep, ClientOp.call, Option.bind_eq_bind, Option.bind_eq_some_iff] at call
    obtain ⟨⟨z, t⟩, alloc, sched, create, call⟩ := call
    obtain rfl := Option.some.inj call
    obtain ⟨inv', same⟩ := inv.kmalloc (by decide) alloc
    have available : Available 4 z.pmm := same ▸ guard
    obtain ⟨k, inside, pages, answer⟩ := z.pages_of_available (by decide) available
    have mapped := inv'.mapped inside
    refine inv'.stack fun a ha => ?_
    rw [threadCreate_rsp create, answer, mem_stackBytes (by omega)] at ha
    rw [pages]
    exact pageRun_subset_page ha.1 ha.2
  | syscallInit =>
    obtain rfl := Option.some.inj call
    exact inv.stack (syscallStack_inside guard fun k inside => inv.mapped inside)

theorem boot_inv (map : DirectMap s₀) (mem : ℕ → ℕ) (threads : ℕ → Thread) :
    MemoryInv map (Clients.boot s₀ mem threads).memory where
  conserved := Ledger.conserved_initial _
  total := rfl
  tenants := .nil
  given := by simp [Clients.boot]
  heap := Or.inl rfl

end

/-- After every run of calls that have what they need, the clients use memory of their own. -/
theorem clientsRun_own {s₀ : Pmm} (map : DirectMap s₀) {mem : ℕ → ℕ} {threads : ℕ → Thread}
    {ops : List ClientOp} {x : Clients}
    (run : Run (ProvidedStep map.offset) (.boot s₀ mem threads) ops x) :
    OwnMemory (freeSet s₀) x.memory :=
  (run.invariant (I := fun x => MemoryInv map x.memory)
    (fun _ _ _ inv step => providedStep_inv inv step) (boot_inv map mem threads)).own

/-! ## The boot order -/

/-- The pages from `first` on are free, and the leases lie in the pages `grants`. -/
structure Leased (first stop : ℕ) (grants : List (Finset ℕ)) (x : Memory) : Prop where
  free : freeSet x.pmm = Finset.Ico first stop
  total : x.pmm.sTotalPages = stop
  grants : x.leases.map Lease.grant = grants

section

variable {first stop offset p : ℕ} {grants : List (Finset ℕ)} {x : Clients} {heap : Heap}

theorem Leased.lease {x : Memory} (leased : Leased first stop grants x) (cells : Set ℕ)
    (grant : Finset ℕ) : Leased first stop (grant :: grants) (x.lease cells grant) :=
  ⟨leased.free, leased.total, congrArg (grant :: ·) leased.grants⟩

/-- A call takes the first free pages. -/
theorem Leased.takes {x : Memory} (leased : Leased first stop grants x) {count : ℕ}
    (pos : 0 < count) (fits : first + count ≤ stop) :
    Available count x.pmm ∧ x.pages count = pageRun first count ∧
      x.answer count = first * pageSize ∧
      Leased (first + count) stop grants (x.allocPages count) := by
  obtain ⟨free, total, rfl⟩ := leased
  have run : pageRun first count ⊆ freeSet x.pmm := free ▸ Finset.Ico_subset_Ico_right fits
  have available : Available count x.pmm := ⟨first, total ▸ fits, run⟩
  have kept := freeSet_pmmAllocPages count x.pmm
  rcases pmmAllocPages_cases count x.pmm with ⟨-, none⟩ | ⟨k, -, -, sub, lowest, call⟩
  · exact absurd run (none pos first (total ▸ fits))
  · have least : k ≤ first := Nat.le_of_not_lt fun lt => lowest first lt run
    have mem : k ∈ freeSet x.pmm := sub (Finset.mem_Ico.mpr ⟨le_rfl, by omega⟩)
    rw [free, Finset.mem_Ico] at mem
    obtain rfl : k = first := by omega
    obtain ⟨left, -, -⟩ := freeSet_setRange count k x.pmm
    have after : freeSet (pmmAllocPages count x.pmm).1 = freeSet x.pmm \ pageRun k count := by
      rw [call, freeSet_setFreePages, left]
    refine ⟨available, ?_, congrArg Prod.snd call, ?_, kept.2.trans total, rfl⟩
    · rw [Memory.pages, after, Finset.sdiff_sdiff_eq_self sub]
    · refine after.trans ?_
      ext i
      simp only [free, pageRun, Finset.mem_sdiff, Finset.mem_Ico]
      omega

/-- A block that the heap gives to a client. -/
theorem Memory.kmalloc_some {x : Memory} (offset : ℕ) {size : ℕ}
    (call : ChefOs.kmalloc heapFuel size x.heap = some (heap, p)) (ne : p ≠ 0) :
    x.kmalloc offset size = some (({ x with heap := heap } : Memory).lease
      (behind offset (Set.Ico p (p + size))) x.heapPages, p) := by
  rw [Memory.kmalloc, call]
  exact congrArg some (Prod.ext (if_neg ne) rfl)

theorem Leased.heapInit (leased : Leased first stop grants x.memory) (offset : ℕ)
    (fits : first + initialPages ≤ stop) :
    ∃ y, ProvidedStep offset x .heapInit y ∧
      Leased (first + initialPages) stop grants y.memory ∧
      y.memory.heap = ChefOs.heapInit x.memory.heap.mem (first * pageSize) offset ∧
      y.memory.heapPages = pageRun first initialPages := by
  obtain ⟨available, pages, answer, ⟨free, total, grants⟩⟩ := leased.takes (by decide) fits
  exact ⟨_, ⟨rfl, available⟩, ⟨free, total, grants⟩,
    congrArg (ChefOs.heapInit x.memory.heap.mem · offset) answer, pages⟩

theorem Leased.schedInit (leased : Leased first stop grants x.memory) (offset : ℕ)
    (alloc : ChefOs.kmalloc heapFuel sizeofThread x.memory.heap = some (heap, p)) (ne : p ≠ 0) :
    ∃ y, ProvidedStep offset x .schedInit y ∧
      Leased first stop (x.memory.heapPages :: grants) y.memory ∧
      y.memory.heap = heap ∧ y.memory.heapPages = x.memory.heapPages ∧
      y.sched.sThreadList = some p := by
  have init : ∃ sched, ChefOs.schedInit (pointer p) x.sched = some sched ∧
      sched.sThreadList = some p := by
    rw [pointer, if_neg ne]
    exact ⟨_, rfl, rfl⟩
  obtain ⟨sched, call, list⟩ := init
  have step : ClientStep offset x .schedInit { x with
      memory := ({ x.memory with heap := heap } : Memory).lease
        (behind offset (Set.Ico p (p + sizeofThread))) x.memory.heapPages
      sched := sched } := by
    simp only [ClientStep, ClientOp.call, Memory.kmalloc_some offset alloc ne, Option.bind_eq_bind,
      Option.bind_some, call]
    rfl
  obtain ⟨free, total, rfl⟩ := leased
  exact ⟨_, ⟨step, trivial⟩, ⟨free, total, rfl⟩, rfl, rfl, list⟩

theorem Leased.threadCreate (leased : Leased first stop grants x.memory) (offset entry : ℕ)
    (fits : first + 4 ≤ stop) {list : ℕ} (running : x.sched.sThreadList = some list)
    (alloc : ChefOs.kmalloc heapFuel sizeofThread x.memory.heap = some (heap, p)) (ne : p ≠ 0) :
    ∃ y, ProvidedStep offset x (.threadCreate entry) y ∧
      Leased (first + 4) stop (pageRun first 4 :: x.memory.heapPages :: grants) y.memory := by
  let memory := ({ x.memory with heap := heap } : Memory).lease
    (behind offset (Set.Ico p (p + sizeofThread))) x.memory.heapPages
  have create : ∃ sched,
      ChefOs.threadCreate entry (pointer p) (memory.answer 4) x.sched = some sched := by
    simp only [pointer, if_neg ne, ChefOs.threadCreate, Sched.nextId, Sched.setThread, running,
      Option.bind_eq_bind, Option.bind_some]
    exact ⟨_, rfl⟩
  obtain ⟨sched, call⟩ := create
  have step : ClientStep offset x (.threadCreate entry) { x with
      memory := (memory.allocPages 4).lease (stackBytes (sched.threads p).rsp) (memory.pages 4)
      sched := sched } := by
    simp only [ClientStep, ClientOp.call, Memory.kmalloc_some offset alloc ne, Option.bind_eq_bind,
      Option.bind_some]
    exact Option.bind_eq_some_iff.mpr ⟨sched, call, rfl⟩
  have before : Leased first stop (x.memory.heapPages :: grants) memory :=
    ⟨leased.free, leased.total, congrArg (x.memory.heapPages :: ·) leased.grants⟩
  obtain ⟨available, pages, -, after⟩ := before.takes (by decide : 0 < 4) fits
  exact ⟨_, ⟨step, available⟩, pages ▸ after.lease _ _⟩

theorem Leased.syscallInit (leased : Leased first stop grants x.memory) (offset : ℕ)
    (fits : first + 4 ≤ stop) :
    ∃ y, ProvidedStep offset x .syscallInit y ∧
      Leased (first + 4) stop (pageRun first 4 :: grants) y.memory := by
  obtain ⟨available, pages, -, after⟩ := leased.takes (by decide : 0 < 4) fits
  exact ⟨_, ⟨rfl, available⟩, pages ▸ after.lease _ _⟩

end

/-- Pages for the heap and for four stacks, all free. -/
def manyPages : Pmm where
  mem := fun _ => 0
  stores := []
  sBitmap := 0x1000
  sTotalPages := 8208
  sFreePages := 8208
  sHighestAddr := 0x2010000
  sHhdm := 0
  pagesFit := by norm_num [pageSize]
  highestFits := by norm_num

theorem freeSet_manyPages : freeSet manyPages = Finset.Ico 0 8208 := by
  have clear : ∀ i, bitmapTest manyPages i = false := fun i => by
    rw [bitmapTest_eq]
    exact BitVec.getLsbD_zero
  ext i
  rw [mem_freeSet, Finset.mem_Ico]
  simp only [clear, and_true, Nat.zero_le, true_and]
  rfl

/-- Blocks for two threads, in a heap at the start of the direct map. -/
theorem kmalloc_twoThreads : ∃ s t, kmalloc heapFuel sizeofThread
      (heapInit (fun _ => 0) (0 * pageSize) 0xFFFF800000000000) = some (s, 0xFFFF800000000018) ∧
    kmalloc heapFuel sizeofThread s = some (t, 0xFFFF800000000078) := by
  have both : ((kmalloc heapFuel sizeofThread
      (heapInit (fun _ => 0) (0 * pageSize) 0xFFFF800000000000)).bind fun r =>
        (kmalloc heapFuel sizeofThread r.1).map fun r' => (r.2, r'.2)) =
      some (0xFFFF800000000018, 0xFFFF800000000078) := by decide +kernel
  obtain ⟨⟨s, p⟩, first, rest⟩ := Option.bind_eq_some_iff.mp both
  obtain ⟨⟨t, q⟩, second, eq⟩ := Option.map_eq_some_iff.mp rest
  obtain ⟨rfl, rfl⟩ := Prod.mk.inj eq
  exact ⟨s, t, first, second⟩

/-- The heap, the idle thread, another thread and the stack for system calls. -/
theorem clientsRun_own_example : ∃ x,
    Run (ProvidedStep 0xFFFF800000000000) (.boot manyPages (fun _ => 0) fun _ => zeroThread)
      [.heapInit, .schedInit, .threadCreate 0x401000, .syscallInit] x ∧
    x.memory.leases.map Lease.grant =
      [pageRun 8196 4, pageRun 8192 4, pageRun 0 8192, pageRun 0 8192] ∧
    OwnMemory (freeSet manyPages) x.memory := by
  let map : DirectMap manyPages := ⟨0xFFFF800000000000, by decide⟩
  have boot : Leased 0 8208 [] (Clients.boot manyPages (fun _ => 0) fun _ => zeroThread).memory :=
    ⟨freeSet_manyPages, rfl, rfl⟩
  obtain ⟨s, t, first, second⟩ := kmalloc_twoThreads
  obtain ⟨x₁, step₁, leased₁, heap₁, pages₁⟩ := boot.heapInit map.offset (by decide)
  obtain ⟨x₂, step₂, leased₂, rfl, pages₂, running⟩ :=
    leased₁.schedInit map.offset (heap₁ ▸ first) (by decide)
  obtain ⟨x₃, step₃, leased₃⟩ :=
    leased₂.threadCreate map.offset 0x401000 (by decide) running second (by decide)
  obtain ⟨x₄, step₄, leased₄⟩ := leased₃.syscallInit map.offset (by decide)
  have run : Run (ProvidedStep map.offset) _
      [.heapInit, .schedInit, .threadCreate 0x401000, .syscallInit] x₄ :=
    .cons step₁ (.cons step₂ (.cons step₃ (.cons step₄ (.nil x₄))))
  refine ⟨x₄, run, ?_, clientsRun_own map run⟩
  rw [leased₄.grants, pages₂, pages₁]
  rfl

/-- With three pages left, the stack for system calls is put over them and page 0. -/
theorem stack_in_page_zero : ∃ x,
    ClientStep 0xFFFF800000000000 (.boot fourPages (fun _ => 0) fun _ => zeroThread)
        .syscallInit x ∧
      ¬ OwnMemory (freeSet fourPages) x.memory := by
  refine ⟨_, rfl, fun own => ?_⟩
  have none : (Clients.boot fourPages (fun _ => 0) fun _ => zeroThread).memory.answer 4 = 0 := by
    decide +kernel
  have taken : (Clients.boot fourPages (fun _ => 0) fun _ => zeroThread).memory.pages 4 = ∅ := by
    decide +kernel
  have inside := own.tenants.inside _ List.mem_cons_self 0
  rw [mem_behind, none, syscallStack, mem_stackBytes (by decide), taken] at inside
  exact Finset.notMem_empty _ (inside ⟨by decide, by decide⟩)

end ChefOs
