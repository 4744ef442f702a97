import ChefOs.Lib.Blocks
import ChefOs.Lib.Ring
import ChefOs.Lib.Run
import ChefOs.Mm.Pmm

/-!
# The scheduler

`proc/sched.c`.  Threads are kept by address, and the answers of the allocators are arguments.  The
names of threads, which nothing reads, are left out.
-/

namespace ChefOs

open Kit

/-- `thread_state_t`. -/
inductive ThreadState
  | ready
  | running
  | blocked
  | terminated
deriving DecidableEq, Repr

/-- A `thread_t`. -/
structure Thread where
  rsp : ℕ
  rip : ℕ
  id : ℕ
  state : ThreadState
  next : Option ℕ

/-- What `kzalloc` returns for a thread. -/
def zeroThread : Thread := ⟨0, 0, 0, .ready, none⟩

/-- `sizeof(thread_t)`. -/
def sizeofThread : ℕ := 72

/-- The threads and the static variables of `sched.c`. -/
structure Sched where
  threads : ℕ → Thread
  sCurrentThread : Option ℕ
  sThreadList : Option ℕ
  sNextId : ℕ

/-- The static variables before `sched_init`. -/
def Sched.boot (threads : ℕ → Thread) : Sched := ⟨threads, none, none, 1⟩

/-- `*t = thread`. -/
def Sched.setThread (t : ℕ) (thread : Thread) (s : Sched) : Sched :=
  { s with threads := Function.update s.threads t thread }

/-- `t->next`, for every thread. -/
def Sched.next (s : Sched) (t : ℕ) : Option ℕ := (s.threads t).next

/-- `t->id = s_next_id++`. -/
def Sched.nextId (s : Sched) : ℕ × Sched := (s.sNextId, { s with sNextId := u64 (s.sNextId + 1) })

/-- `sched_init`, with `t` the answer of `kzalloc`. -/
def schedInit (t : Option ℕ) (s : Sched) : Option Sched := do
  let t ← t
  let (id, s) := s.nextId
  let s := s.setThread t { zeroThread with id, state := .running, next := some t }
  return { s with sCurrentThread := some t, sThreadList := some t }

/-- `thread_create`, with `t` the answer of `kzalloc` and `stackPhys` that of
`pmm_alloc_pages(4)`. -/
def threadCreate (entry : ℕ) (t : Option ℕ) (stackPhys : ℕ) (s : Sched) : Option Sched := do
  let t ← t
  let (id, s) := s.nextId
  let rsp := sub64 (u64 (stackPhys + 4 * pageSize)) 16
  let s := s.setThread t { zeroThread with id, rip := entry, rsp }
  let list ← s.sThreadList
  let s := s.setThread t { s.threads t with next := s.next list }
  return s.setThread list { s.threads list with next := some t }

/-- `sched_yield`. -/
def schedYield (s : Sched) : Sched :=
  match s.sCurrentThread with
  | none => s
  | some t =>
    match s.next t with
    | none => s
    | some next => { s with sCurrentThread := some next }

/-- The current threads after each of `n` calls of `sched_yield`. -/
def currents : ℕ → Sched → List (Option ℕ)
  | 0, _ => []
  | n + 1, s => (schedYield s).sCurrentThread :: currents n (schedYield s)

/-! ## Runs -/

/-- A call to the scheduler. -/
inductive SchedOp
  | create (entry : ℕ)
  | yield
deriving DecidableEq, Repr

/-- The scheduler, the calls to the heap and the threads created so far. -/
structure SchedWorld where
  sched : Sched
  log : List HeapEvent
  created : List ℕ

/-- One call.  The heap answers with a block, and the page allocator with anything. -/
inductive SchedStep (heap : Allocator) : SchedWorld → SchedOp → SchedWorld → Prop
  | create {s s' : Sched} {log : List HeapEvent} {created : List ℕ} {entry t stackPhys : ℕ}
      (answer : heap.result log sizeofThread = some t)
      (call : threadCreate entry (some t) stackPhys s = some s') :
      SchedStep heap ⟨s, log, created⟩ (.create entry) ⟨s', .alloc (some t) :: log, t :: created⟩
  | yield (s : Sched) (log : List HeapEvent) (created : List ℕ) :
      SchedStep heap ⟨s, log, created⟩ .yield ⟨schedYield s, log, created⟩

/-- The ring starts at the thread list and holds the created threads, one of which is current. -/
structure SchedInv (x : SchedWorld) (t : ℕ) (rest : List ℕ) : Prop where
  list : x.sched.sThreadList = some t
  ring : Ring x.sched.next (t :: rest)
  created : (t :: rest).Perm x.created
  current : ∃ c ∈ t :: rest, x.sched.sCurrentThread = some c
  allocated : ∀ c ∈ x.created, c ∈ held x.log
  nextId : x.sched.sNextId = u64 (x.created.length + 1)
  ids : (x.created.map fun c => (x.sched.threads c).id).Perm
    ((List.range' 1 x.created.length).map u64)

/-- A created thread goes behind the head of the list, and no other thread changes. -/
theorem threadCreate_eq {s : Sched} {entry t list stackPhys : ℕ} (head : s.sThreadList = some list)
    (fresh : t ≠ list) : ∃ s', threadCreate entry (some t) stackPhys s = some s' ∧
      s'.sThreadList = some list ∧ s'.sCurrentThread = s.sCurrentThread ∧
      s'.sNextId = u64 (s.sNextId + 1) ∧
      s'.next = Function.update (Function.update s.next t (s.next list)) list (some t) ∧
      (s'.threads t).id = s.sNextId ∧ ∀ c, c ≠ t → (s'.threads c).id = (s.threads c).id := by
  unfold threadCreate
  simp only [Option.bind_eq_bind, Option.bind_some, Sched.nextId, Sched.setThread, head]
  refine ⟨_, rfl, rfl, rfl, rfl, ?_, ?_, ?_⟩
  · funext c
    by_cases hc : c = list
    · simp [Sched.next, hc]
    · by_cases ht : c = t
      · simp [Sched.next, ht, fresh, fresh.symm]
      · simp [Sched.next, hc, ht]
  · simp [fresh]
  · intro c hc
    by_cases hl : c = list
    · simp [hl, fresh.symm]
    · simp [hc, hl]

/-- A creation returns once there is a thread list. -/
theorem threadCreate_some {s : Sched} {entry t list stackPhys : ℕ}
    (head : s.sThreadList = some list) :
    ∃ s', threadCreate entry (some t) stackPhys s = some s' := by
  unfold threadCreate
  simp only [Option.bind_eq_bind, Option.bind_some, Sched.nextId, Sched.setThread, head]
  exact ⟨_, rfl⟩

/-- A yield makes the next thread current. -/
theorem schedYield_eq {s : Sched} {c d : ℕ} (current : s.sCurrentThread = some c)
    (next : s.next c = some d) : schedYield s = { s with sCurrentThread := some d } := by
  unfold schedYield
  rw [current]
  dsimp only
  rw [next]

/-- Yields along a path of threads make them current in turn. -/
theorem currents_path {s : Sched} {c d : ℕ} {l : List ℕ} (current : s.sCurrentThread = some c)
    (path : (c :: l).map s.next = (l ++ [d]).map some) :
    currents (l.length + 1) s = (l ++ [d]).map some ∧
      (schedYield^[l.length + 1] s).sCurrentThread = some d := by
  induction l generalizing s c with
  | nil =>
    have next : s.next c = some d := by simpa using path
    simp [currents, schedYield_eq current next]
  | cons b l ih =>
    obtain ⟨next, path⟩ := List.cons.inj path
    have yield := schedYield_eq current next
    obtain ⟨visited, final⟩ := ih (s := schedYield s) (c := b) (by rw [yield]) (by rwa [yield])
    constructor
    · rw [List.length_cons, currents, visited, yield]
      rfl
    · exact final

/-! ## The invariant -/

theorem schedInit_inv {log : List HeapEvent} {t : ℕ} {threads : ℕ → Thread}
    {s : Sched} (boot : schedInit (some t) (.boot threads) = some s) :
    SchedInv ⟨s, .alloc (some t) :: log, [t]⟩ t [] := by
  obtain rfl := Option.some.inj boot
  constructor
  · rfl
  · apply Ring.singleton
    simp [Sched.next, Sched.setThread]
  · rfl
  · exact ⟨t, List.mem_singleton_self t, rfl⟩
  · simp [held]
  · rfl
  · simp [Sched.setThread, Sched.boot, u64]

theorem create_inv {heap : Allocator} {s s' : Sched} {log : List HeapEvent} {created : List ℕ}
    {list : ℕ} {rest : List ℕ} (inv : SchedInv ⟨s, log, created⟩ list rest) {entry t stackPhys : ℕ}
    (answer : heap.result log sizeofThread = some t)
    (call : threadCreate entry (some t) stackPhys s = some s') :
    SchedInv ⟨s', .alloc (some t) :: log, t :: created⟩ list (t :: rest) := by
  have fresh : t ∉ created := fun mem =>
    heap.fresh log sizeofThread t answer (inv.allocated t mem)
  have outside : t ∉ list :: rest := fun mem => fresh (inv.created.mem_iff.mp mem)
  have first : t ≠ list := List.ne_of_not_mem_cons outside
  obtain ⟨s'', call', head, current, nextId, next, id, ids⟩ :=
    @threadCreate_eq s entry t list stackPhys inv.list first
  obtain rfl := Option.some.inj (call.symm.trans call')
  have same : created.map (fun c => (s'.threads c).id) = created.map fun c => (s.threads c).id :=
    List.map_congr_left fun c hc => ids c (ne_of_mem_of_not_mem hc fresh)
  constructor
  · exact head
  · have ring := inv.ring.insert outside
    rwa [← next] at ring
  · exact (List.Perm.swap t list rest).trans (inv.created.cons t)
  · obtain ⟨c, mem, hc⟩ := inv.current
    refine ⟨c, ?_, current.trans hc⟩
    rcases List.mem_cons.mp mem with rfl | mem
    · exact List.mem_cons_self
    · exact List.mem_cons_of_mem _ (List.mem_cons_of_mem _ mem)
  · intro c mem
    rcases List.mem_cons.mp mem with rfl | mem
    · exact List.mem_cons_self
    · exact List.mem_cons_of_mem _ (inv.allocated c mem)
  · have before : s.sNextId = u64 (created.length + 1) := inv.nextId
    change s'.sNextId = u64 (created.length + 1 + 1)
    rw [nextId, before]
    exact Nat.mod_add_mod ..
  · have before : s.sNextId = u64 (created.length + 1) := inv.nextId
    rw [List.map_cons, List.length_cons, List.range'_concat, List.map_append]
    change ((s'.threads t).id :: created.map fun c => (s'.threads c).id).Perm _
    rw [id, same, before, Nat.add_comm created.length 1, Nat.one_mul]
    exact (inv.ids.cons _).trans (List.perm_append_singleton _ _).symm

theorem yield_inv {s : Sched} {log : List HeapEvent} {created : List ℕ} {list : ℕ} {rest : List ℕ}
    (inv : SchedInv ⟨s, log, created⟩ list rest) :
    SchedInv ⟨schedYield s, log, created⟩ list rest := by
  obtain ⟨c, mem, current⟩ := inv.current
  obtain ⟨d, mem', next⟩ := inv.ring.step mem
  rw [schedYield_eq current next]
  exact { inv with current := ⟨d, mem', rfl⟩ }

/-- The invariant survives every call. -/
theorem schedStep_inv {heap : Allocator} {x y : SchedWorld} {op : SchedOp}
    (inv : ∃ t rest, SchedInv x t rest) (step : SchedStep heap x op y) :
    ∃ t rest, SchedInv y t rest := by
  obtain ⟨list, rest, inv⟩ := inv
  cases step with
  | create answer call => exact ⟨list, _, create_inv inv answer call⟩
  | yield => exact ⟨list, rest, yield_inv inv⟩

/-- A full turn of yields makes each thread of the ring current once, the present one last. -/
theorem SchedInv.roundRobin {x : SchedWorld} {list : ℕ} {rest : List ℕ}
    (inv : SchedInv x list rest) :
    (currents x.created.length x.sched).Perm ((list :: rest).map some) ∧
      (schedYield^[x.created.length] x.sched).sCurrentThread = x.sched.sCurrentThread := by
  obtain ⟨c, mem, current⟩ := inv.current
  obtain ⟨l, ring, same⟩ := inv.ring.readFrom mem
  have length : x.created.length = l.length + 1 := by
    rw [← inv.created.length_eq, ← same.length_eq, List.length_cons]
  obtain ⟨visited, final⟩ := currents_path current ring.turn_cons
  rw [length, visited, final, current]
  exact ⟨((List.perm_append_singleton c l).trans same).map some, rfl⟩

theorem SchedInv.distinct {x : SchedWorld} {list : ℕ} {rest : List ℕ}
    (inv : SchedInv x list rest) (few : x.created.length ≤ 2 ^ 64) :
    ((list :: rest).map fun c => (x.sched.threads c).id).Nodup := by
  rw [((inv.created.map _).trans inv.ids).nodup_iff]
  apply List.Nodup.map_on _ List.nodup_range'
  intro i hi j hj eq
  rw [List.mem_range'_1] at hi hj
  unfold u64 at eq
  omega

/-- After every sequence of calls the threads form one ring from the thread list, the current
thread is on it, the ids differ as long as the counter has not come round, and a full turn of
yields makes each thread current once and ends on the one it started from.  Every further creation
returns. -/
theorem schedRun_ring {heap : Allocator} {log : List HeapEvent} {t : ℕ}
    (answer : heap.result log sizeofThread = some t) (threads : ℕ → Thread) :
    ∃ s, schedInit (heap.result log sizeofThread) (.boot threads) = some s ∧
      ∀ {ops : List SchedOp} {x : SchedWorld},
        Run (SchedStep heap) ⟨s, .alloc (some t) :: log, [t]⟩ ops x →
        (∃ ring, x.sched.sThreadList = ring.head? ∧ Ring x.sched.next ring ∧
          ring.Perm x.created ∧ (∃ c ∈ ring, x.sched.sCurrentThread = some c) ∧
          (x.created.length ≤ 2 ^ 64 → (ring.map fun c => (x.sched.threads c).id).Nodup) ∧
          (currents x.created.length x.sched).Perm (ring.map some) ∧
          (schedYield^[x.created.length] x.sched).sCurrentThread = x.sched.sCurrentThread) ∧
        ∀ entry t stackPhys, ∃ s', threadCreate entry (some t) stackPhys x.sched = some s' := by
  rw [answer]
  refine ⟨_, rfl, fun {ops x} run => ?_⟩
  have initial := @schedInit_inv log t threads _ rfl
  obtain ⟨list, rest, inv⟩ :=
    run.invariant (fun _ _ _ inv step => schedStep_inv inv step) ⟨t, [], initial⟩
  constructor
  · exact ⟨list :: rest, inv.list, inv.ring, inv.created, inv.current, inv.distinct,
      inv.roundRobin⟩
  · intro entry t stackPhys
    exact threadCreate_some inv.list

theorem schedRun_ring_example : ∃ s x ring,
    schedInit (some 1) (.boot fun _ => zeroThread) = some s ∧
      Run (SchedStep .above) ⟨s, [.alloc (some 1)], [1]⟩
        [.create 0x1000, .yield, .create 0x2000] x ∧
      Ring x.sched.next ring ∧ ring.Perm [4, 2, 1] ∧
      (currents 3 x.sched).Perm (ring.map some) := by
  have answer : Allocator.above.result [] sizeofThread = some 1 := by decide
  obtain ⟨s, boot, runs⟩ := schedRun_ring answer fun _ => zeroThread
  obtain ⟨s₁, first⟩ := (runs (.nil _)).2 0x1000 2 0x5000
  obtain ⟨s₂, second⟩ := (runs (.cons (.create (by decide) first)
    (.cons (.yield ..) (.nil _)))).2 0x2000 4 0x9000
  have run : Run (SchedStep .above) ⟨s, [.alloc (some 1)], [1]⟩
      [.create 0x1000, .yield, .create 0x2000]
      ⟨s₂, [.alloc (some 4), .alloc (some 2), .alloc (some 1)], [4, 2, 1]⟩ :=
    .cons (.create (by decide) first)
      (.cons (.yield ..) (.cons (.create (by decide) second) (.nil _)))
  obtain ⟨⟨ring, -, cycle, same, -, -, turn, -⟩, -⟩ := runs run
  exact ⟨s, _, ring, boot, run, cycle, same, turn⟩

end ChefOs
