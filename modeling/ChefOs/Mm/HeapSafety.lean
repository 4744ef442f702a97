import ChefOs.Lib.Blocks
import ChefOs.Lib.Run
import ChefOs.Mm.HeapRefinement
import Mathlib.Order.CompletePartialOrder

/-!
# Heap safety over whole runs

Every sequence of `kmalloc` and `kfree` calls keeps the block list a coalesced tiling of the heap
region whose used blocks are exactly the ones behind the pointers still held.  The tiling is then
determined by those blocks, so the order of frees leaves no trace.
-/

namespace ChefOs

open Kit Kit.Arena

/-- The bytes behind the pointer to a block. -/
def payloadBytes (b : Block) : Set ℕ :=
  Set.Ico (b.addr + headerSize) (b.addr + headerSize + b.size)

/-- The bytes of a block's header. -/
def headerBytes (b : Block) : Set ℕ := Set.Ico b.addr (b.addr + headerSize)

/-- `heap_init` received its pages: they are mapped at a non-`NULL` address and end inside the
address space. -/
structure GotPages (phys hhdmOffset : ℕ) : Prop where
  pos : 0 < phys + hhdmOffset
  fits : phys + hhdmOffset + initialPages * pageSize < 2 ^ 64

/-- The heap invariant, with `held` the pointers the callers hold and `bs` the block list. -/
structure HeapInv (start stop : ℕ) (s : Heap) (held : List ℕ) (bs : List Block) : Prop where
  walk : BlockList s s.sHead bs
  tiles : Tiles headerSize start bs stop
  sizes : ∀ b ∈ bs, 8 ∣ b.size
  coalesced : Coalesced bs
  held_iff : ∀ p, p ∈ held ↔ ∃ b ∈ used bs, p = b.addr + headerSize
  nodup : held.Nodup

/-- What the callers see: the invariant, and that no byte they hold is anybody else's. -/
structure HeapSafe (start stop : ℕ) (s : Heap) (held : List ℕ) (bs : List Block) : Prop
    extends HeapInv start stop s held bs where
  inside : ∀ b ∈ used bs, payloadBytes b ⊆ Set.Ico start stop
  disjoint : ∀ b ∈ used bs, ∀ c ∈ used bs, b ≠ c → Disjoint (payloadBytes b) (payloadBytes c)
  headers : ∀ b ∈ used bs, ∀ c ∈ bs, Disjoint (payloadBytes b) (headerBytes c)

/-- A tiling that fits the region has fewer blocks than the loops have fuel. -/
theorem length_lt_heapFuel {start : ℕ} {bs : List Block}
    (tiles : Tiles headerSize start bs (start + initialPages * pageSize)) :
    bs.length < heapFuel := by
  have hh : headerSize = 24 := rfl
  have count : ∀ {a stop : ℕ} {cs : List Block}, Tiles headerSize a cs stop →
      a + 24 * cs.length ≤ stop := by
    intro a stop cs h
    induction cs generalizing a with
    | nil => exact Nat.le_of_eq h
    | cons c cs ih =>
      have := ih h.2
      rw [List.length_cons]
      omega
  have := count tiles
  have hbytes : initialPages * pageSize = 33554432 := rfl
  unfold heapFuel
  omega

theorem HeapInv.safe {start stop : ℕ} {s : Heap} {held : List ℕ} {bs : List Block}
    (inv : HeapInv start stop s held bs) : HeapSafe start stop s held bs := by
  refine { inv with inside := ?_, disjoint := ?_, headers := ?_ }
  · intro b hb
    have := inv.tiles.bounds (mem_used.mp hb).1
    exact Set.Ico_subset_Ico (by omega) this.2
  · intro b hb c hc different
    rw [Set.disjoint_left]
    rintro x ⟨hx1, hx2⟩ ⟨hx3, hx4⟩
    have := inv.tiles.disjoint (mem_used.mp hb).1 (mem_used.mp hc).1 different
    omega
  · intro b hb c hc
    rw [Set.disjoint_left]
    rintro x ⟨hx1, hx2⟩ ⟨hx3, hx4⟩
    by_cases same : b = c
    · rw [same] at hx1
      omega
    · have := inv.tiles.disjoint (mem_used.mp hb).1 hc same
      omega

/-- The stored size of a block on the list. -/
theorem BlockList.size_eq {s : Heap} {p : ℕ} {bs : List Block} (list : BlockList s p bs)
    {b : Block} (hb : b ∈ bs) : s.size b.addr = b.size := by
  induction bs generalizing p with
  | nil => simp at hb
  | cons c bs ih =>
    rcases List.mem_cons.mp hb with rfl | hb
    · rw [list.2.1]
    · exact ih list.2.2 hb

theorem heapInit_inv (mem : ℕ → ℕ) {phys hhdmOffset : ℕ} (pages : GotPages phys hhdmOffset) :
    HeapInv (phys + hhdmOffset) (phys + hhdmOffset + initialPages * pageSize)
      (heapInit mem phys hhdmOffset) []
      [⟨phys + hhdmOffset, initialPages * pageSize - headerSize, true⟩] := by
  have hpos := pages.pos
  have hfits := pages.fits
  have hh : headerSize = 24 := rfl
  have hbytes : initialPages * pageSize = 33554432 := rfl
  have hstart : u64 (phys + hhdmOffset) = phys + hhdmOffset := u64_of_lt (by omega)
  have stored : ∀ x, (heapInit mem phys hhdmOffset).mem x =
      if x = phys + hhdmOffset + 16 then 0 else if x = phys + hhdmOffset + 8 then 1
      else if x = phys + hhdmOffset then initialPages * pageSize - headerSize else mem x := by
    intro x
    simp only [heapInit, hstart, Heap.setNext, Heap.setIsFree, Heap.setSize, Heap.mem_store]
    rfl
  have hhead : (heapInit mem phys hhdmOffset).sHead = phys + hhdmOffset := hstart
  refine ⟨?_, ⟨rfl, ?_⟩, ?_, trivial, by simp [used], List.nodup_nil⟩
  · rw [hhead]
    generalize heapInit mem phys hhdmOffset = s at stored
    have fields : s.size (phys + hhdmOffset) = initialPages * pageSize - headerSize ∧
        s.isFree (phys + hhdmOffset) = true ∧ s.next (phys + hhdmOffset) = 0 := by
      simp [Heap.size, Heap.isFree, Heap.next, stored]
    exact ⟨by omega, by rw [fields.1, fields.2.1], fields.2.2⟩
  · simp only [Tiles]
    omega
  · simp only [List.mem_singleton, forall_eq]
    decide

section

variable {start : ℕ} {s : Heap} {held : List ℕ} {bs : List Block}

/-- One `kmalloc`: it returns, keeps the invariant, and either answers `NULL` without changing
anything or adds one used block behind a pointer nobody held. -/
theorem HeapInv.kmalloc (inv : HeapInv start (start + initialPages * pageSize) s held bs)
    (region : start + initialPages * pageSize < 2 ^ 64) (n : ℕ) :
    ∃ t p bs', kmalloc heapFuel n s = some (t, p) ∧
      HeapInv start (start + initialPages * pageSize) t (if p = 0 then held else p :: held) bs' ∧
      (p = 0 ∧ bs' = bs ∨ p ≠ 0 ∧ p ∉ held ∧ ∃ front b back, p = b.addr + headerSize ∧
        used bs = front ++ back ∧ used bs' = front ++ b :: back ∧ alignSize n ≤ b.size) := by
  have hh : headerSize = 24 := rfl
  have enough := length_lt_heapFuel inv.tiles
  cases hr : alloc headerSize 32 (alignSize n) bs with
  | none => exact ⟨s, 0, bs, kmalloc_none inv.walk enough hr, inv, Or.inl ⟨rfl, rfl⟩⟩
  | some r =>
    obtain ⟨bs', p⟩ := r
    obtain ⟨t, run, walk, -, -⟩ := kmalloc_some inv.walk inv.tiles region le_rfl enough hr
    obtain ⟨front, b, back, hb, hfree, hsize, hp, hused, hused'⟩ := used_alloc hr
    have hp0 : p ≠ 0 := by omega
    have fresh : p ∉ held := by
      intro mem
      obtain ⟨c, hc, hpc⟩ := (inv.held_iff p).mp mem
      obtain ⟨hc, hcused⟩ := mem_used.mp hc
      have : c = b := inv.tiles.eq_of_addr (by decide) hc hb (by omega)
      rw [this, hfree] at hcused
      exact absurd hcused (by simp)
    refine ⟨t, p, bs', run, ⟨walk, inv.tiles.alloc hr, ?_, inv.coalesced.alloc hr, ?_, ?_⟩,
      Or.inr ⟨hp0, fresh, front, taken headerSize 32 (alignSize n) b, back, hp, hused, hused',
        le_size_taken hsize⟩⟩
    · exact dvd_alloc (by decide) (alignSize_spec n).1 inv.sizes hr
    · intro q
      rw [if_neg hp0, List.mem_cons, inv.held_iff q, hused, hused']
      simp only [List.mem_append, List.mem_cons]
      constructor
      · rintro (rfl | ⟨c, hc, rfl⟩)
        · exact ⟨_, Or.inr (Or.inl rfl), hp⟩
        · exact ⟨c, hc.imp id Or.inr, rfl⟩
      · rintro ⟨c, hc | rfl | hc, rfl⟩
        · exact Or.inr ⟨c, Or.inl hc, rfl⟩
        · exact Or.inl hp.symm
        · exact Or.inr ⟨c, Or.inr hc, rfl⟩
    · rw [if_neg hp0]
      exact List.nodup_cons.mpr ⟨fresh, inv.nodup⟩

theorem HeapInv.zero_notMem (inv : HeapInv start (start + initialPages * pageSize) s held bs) :
    0 ∉ held := by
  intro mem
  obtain ⟨b, -, hb⟩ := (inv.held_iff 0).mp mem
  have hh : headerSize = 24 := rfl
  omega

/-- One `kfree` of `NULL` or of a held pointer: it returns, keeps the invariant, and takes exactly
the block behind the pointer out of the used ones. -/
theorem HeapInv.kfree (inv : HeapInv start (start + initialPages * pageSize) s held bs)
    (region : start + initialPages * pageSize < 2 ^ 64) {p : ℕ} (allowed : p = 0 ∨ p ∈ held) :
    ∃ t bs', kfree heapFuel p s = some t ∧
      HeapInv start (start + initialPages * pageSize) t (held.erase p) bs' ∧
      used bs' = (used bs).filter fun b => b.addr + headerSize ≠ p := by
  have hh : headerSize = 24 := rfl
  by_cases hp : p = 0
  · subst hp
    refine ⟨s, bs, by rw [ChefOs.kfree, if_pos rfl],
      by rwa [List.erase_of_not_mem inv.zero_notMem], ?_⟩
    rw [List.filter_eq_self.mpr]
    intro b _
    simp only [ne_eq, decide_not, Bool.not_eq_true', decide_eq_false_iff_not]
    omega
  · obtain ⟨b, hb, rfl⟩ := (inv.held_iff p).mp (allowed.resolve_left hp)
    obtain ⟨t, run, walk, -, -⟩ := kfree_spec inv.walk inv.tiles region
      (length_lt_heapFuel inv.tiles) (mem_used.mp hb).1
    have hused : used (release headerSize (b.addr + headerSize) bs) =
        (used bs).filter fun c => c.addr + headerSize ≠ b.addr + headerSize := used_release ..
    refine ⟨t, _, run, ⟨walk, inv.tiles.release, dvd_release (by decide) _ inv.sizes,
      coalesced_release _ bs, ?_, inv.nodup.erase _⟩, hused⟩
    intro q
    rw [inv.nodup.mem_erase_iff, inv.held_iff q, hused]
    simp only [List.mem_filter, decide_eq_true_eq]
    constructor
    · rintro ⟨hq, c, hc, rfl⟩
      exact ⟨c, ⟨hc, hq⟩, rfl⟩
    · rintro ⟨c, ⟨hc, hq⟩, rfl⟩
      exact ⟨hq, c, hc, rfl⟩

/-- Two heaps on the same region with the same used blocks have the same block list. -/
theorem HeapInv.unique {stop : ℕ} {t : Heap} {held' : List ℕ} {cs : List Block}
    (inv : HeapInv start stop s held bs) (inv' : HeapInv start stop t held' cs)
    (same : ∀ b, b ∈ used bs ↔ b ∈ used cs) : bs = cs :=
  tiling_unique (by decide) inv.tiles inv'.tiles inv.coalesced inv'.coalesced same

end

/-- The invariant, at some block list, survives every step. -/
theorem heapStep_inv {start : ℕ} (region : start + initialPages * pageSize < 2 ^ 64)
    {x y : Heap × List ℕ} {op : HeapOp}
    (inv : ∃ bs, HeapInv start (start + initialPages * pageSize) x.1 x.2 bs)
    (step : HeapStep x op y) :
    ∃ bs, HeapInv start (start + initialPages * pageSize) y.1 y.2 bs := by
  obtain ⟨bs, inv⟩ := inv
  cases step with
  | kmalloc call =>
    obtain ⟨t, q, bs', run, inv', -⟩ := inv.kmalloc region _
    obtain ⟨rfl, rfl⟩ := Prod.mk.inj (Option.some.inj (call.symm.trans run))
    exact ⟨bs', inv'⟩
  | kfree allowed call =>
    obtain ⟨t, bs', run, inv', -⟩ := inv.kfree region allowed
    obtain rfl := Option.some.inj (call.symm.trans run)
    exact ⟨bs', inv'⟩

/-- The invariant holds after every sequence of calls. -/
theorem heapRun_inv {mem : ℕ → ℕ} {phys hhdmOffset : ℕ} (pages : GotPages phys hhdmOffset)
    {ops : List HeapOp} {s : Heap} {held : List ℕ}
    (run : Run HeapStep (heapInit mem phys hhdmOffset, []) ops (s, held)) :
    ∃ bs, HeapInv (phys + hhdmOffset) (phys + hhdmOffset + initialPages * pageSize) s held bs :=
  run.invariant (fun _ _ _ inv step => heapStep_inv pages.fits inv step)
    ⟨_, heapInit_inv mem pages⟩

/-- After every sequence of calls the heap is safe, and every further call returns. -/
theorem heapRun_safe {mem : ℕ → ℕ} {phys hhdmOffset : ℕ} (pages : GotPages phys hhdmOffset)
    {ops : List HeapOp} {s : Heap} {held : List ℕ}
    (run : Run HeapStep (heapInit mem phys hhdmOffset, []) ops (s, held)) :
    (∃ bs, HeapSafe (phys + hhdmOffset) (phys + hhdmOffset + initialPages * pageSize) s held bs) ∧
      (∀ n, ∃ r, kmalloc heapFuel n s = some r) ∧
      ∀ p, p = 0 ∨ p ∈ held → ∃ t, kfree heapFuel p s = some t := by
  obtain ⟨bs, inv⟩ := heapRun_inv pages run
  refine ⟨⟨bs, inv.safe⟩, fun n => ?_, fun p allowed => ?_⟩
  · obtain ⟨t, p, -, call, -⟩ := inv.kmalloc pages.fits n
    exact ⟨(t, p), call⟩
  · obtain ⟨t, -, call, -⟩ := inv.kfree pages.fits allowed
    exact ⟨t, call⟩

/-- The calls one after the other, as long as they are allowed. -/
def runHeap : List HeapOp → Heap × List ℕ → Option (Heap × List ℕ)
  | [], x => some x
  | .kmalloc size :: ops, (s, held) => do
    let (s, p) ← kmalloc heapFuel size s
    runHeap ops (s, if p = 0 then held else p :: held)
  | .kfree p :: ops, (s, held) => do
    if p = 0 ∨ p ∈ held then
      let s ← kfree heapFuel p s
      runHeap ops (s, held.erase p)
    else none

theorem run_of_runHeap {ops : List HeapOp} {x y : Heap × List ℕ} (h : runHeap ops x = some y) :
    Run HeapStep x ops y := by
  induction ops generalizing x with
  | nil =>
    obtain rfl := Option.some.inj h
    exact .nil x
  | cons op ops ih =>
    cases op with
    | kmalloc size =>
      obtain ⟨⟨t, p⟩, call, rest⟩ := Option.bind_eq_some_iff.mp h
      exact .cons (.kmalloc call) (ih rest)
    | kfree p =>
      rw [runHeap] at h
      split_ifs at h with allowed
      obtain ⟨t, call, rest⟩ := Option.bind_eq_some_iff.mp h
      exact .cons (.kfree allowed call) (ih rest)

/-- A run to the pointers that the calls leave. -/
theorem exists_run {ops : List HeapOp} {x : Heap × List ℕ} {held : List ℕ}
    (h : (runHeap ops x).map Prod.snd = some held) : ∃ s, Run HeapStep x ops (s, held) := by
  obtain ⟨⟨s, held'⟩, run, rfl⟩ := Option.map_eq_some_iff.mp h
  exact ⟨s, run_of_runHeap run⟩

/-- Three calls on a heap at a typical direct-map address: the first block is given back while the
second is still held. -/
theorem heapRun_safe_example : ∃ s bs,
    HeapSafe 0xFFFF800000100000 (0xFFFF800000100000 + initialPages * pageSize) s
      [0xFFFF800000100098] bs := by
  have pages : GotPages 0x100000 0xFFFF800000000000 := ⟨by decide, by decide⟩
  have run : ∃ s, Run HeapStep (heapInit (fun _ => 0) 0x100000 0xFFFF800000000000, [])
      [.kmalloc 100, .kmalloc 8, .kfree 0xFFFF800000100018] (s, [0xFFFF800000100098]) :=
    exists_run (by decide +kernel)
  obtain ⟨s, run⟩ := run
  obtain ⟨⟨bs, safe⟩, -⟩ := heapRun_safe pages run
  exact ⟨s, bs, safe⟩

/-! ## An allocator -/

/-- A call of an allocator, with the calls so far; `kfree(NULL)` is none. -/
inductive AllocatorStep (heap : Allocator) : List HeapEvent → HeapOp → List HeapEvent → Prop
  | kmalloc (log : List HeapEvent) (size : ℕ) :
      AllocatorStep heap log (.kmalloc size) (.alloc (heap.result log size) :: log)
  | null (log : List HeapEvent) : AllocatorStep heap log (.kfree 0) log
  | kfree {log : List HeapEvent} {p : ℕ} (mem : p ∈ Kit.held log) :
      AllocatorStep heap log (.kfree p) (.free p :: log)

/-- A call to the heap that is one of the allocator, with the same pointers held behind it. -/
structure MatchedStep (heap : Allocator) (x : (Heap × List ℕ) × List HeapEvent) (op : HeapOp)
    (y : (Heap × List ℕ) × List HeapEvent) : Prop where
  step : HeapStep x.1 op y.1
  answer : AllocatorStep heap x.2 op y.2
  held : Kit.held y.2 = y.1.2

section

variable {heap heap' : Allocator}

theorem AllocatorStep.longer {log log' : List HeapEvent} {op : HeapOp}
    (step : AllocatorStep heap log op log') : log.length ≤ log'.length := by
  cases step with
  | kmalloc size => exact Nat.le_succ _
  | null => exact le_rfl
  | kfree mem => exact Nat.le_succ _

/-- Only the answer behind the log matters. -/
theorem AllocatorStep.congr {log log' : List HeapEvent} {op : HeapOp}
    (same : ∀ size, heap'.result log size = heap.result log size)
    (step : AllocatorStep heap log op log') : AllocatorStep heap' log op log' := by
  cases step with
  | kmalloc size =>
    rw [← same size]
    exact .kmalloc log size
  | null => exact .null log
  | kfree mem => exact .kfree mem

/-- A run behind a log does not depend on the answer to that log. -/
theorem MatchedStep.run_answer {log : List HeapEvent} {block : Option ℕ}
    (fresh : ∀ b ∈ block, b ∉ Kit.held log) {x y : (Heap × List ℕ) × List HeapEvent}
    {ops : List HeapOp} (behind : log.length < x.2.length) (run : Run (MatchedStep heap) x ops y) :
    Run (MatchedStep (heap.answer log block fresh)) x ops y := by
  refine run.transfer (I := fun x => log.length < x.2.length) (fun x op y behind step => ?_) behind
  refine ⟨behind.trans_le step.answer.longer, step.step, step.answer.congr fun size => ?_,
    step.held⟩
  apply Allocator.answer_result_of_ne
  rintro rfl
  exact lt_irrefl _ behind

end

/-- What the heap returns is not held yet. -/
theorem HeapInv.kmalloc_fresh {start size p : ℕ} {s t : Heap} {held : List ℕ} {bs : List Block}
    (inv : HeapInv start (start + initialPages * pageSize) s held bs)
    (region : start + initialPages * pageSize < 2 ^ 64)
    (call : ChefOs.kmalloc heapFuel size s = some (t, p)) (some : p ≠ 0) : p ∉ held := by
  obtain ⟨t', q, bs', call', -, change⟩ := inv.kmalloc region size
  obtain ⟨rfl, rfl⟩ := Prod.mk.inj (Option.some.inj (call.symm.trans call'))
  rcases change with ⟨zero, -⟩ | ⟨-, fresh, -⟩
  · exact absurd zero some
  · exact fresh

/-- From a state with the invariant, a call is one of every allocator, or the allocator has to
answer what the heap does, which is not held yet. -/
theorem heapStep_matched {start : ℕ} (region : start + initialPages * pageSize < 2 ^ 64)
    {x y : Heap × List ℕ} {op : HeapOp} (step : HeapStep x op y) {bs : List Block}
    (inv : HeapInv start (start + initialPages * pageSize) x.1 x.2 bs)
    {log : List HeapEvent} (same : Kit.held log = x.2) :
    (∃ log', Kit.held log' = y.2 ∧ ∀ heap, AllocatorStep heap log op log') ∨
      ∃ size block, op = .kmalloc size ∧ (∀ b ∈ block, b ∉ Kit.held log) ∧
        Kit.held (.alloc block :: log) = y.2 := by
  cases step with
  | @kmalloc s t held size p call =>
    right
    by_cases null : p = 0
    · refine ⟨size, none, rfl, by simp, ?_⟩
      rw [if_pos null]
      exact same
    · refine ⟨size, some p, rfl, fun b answer => ?_, ?_⟩
      · obtain rfl := Option.mem_some_iff.mp answer
        rw [same]
        exact inv.kmalloc_fresh region call null
      · rw [if_neg null]
        exact congrArg (p :: ·) same
  | @kfree s t held p allowed call =>
    left
    by_cases null : p = 0
    · subst null
      refine ⟨log, ?_, fun heap => .null log⟩
      rw [List.erase_of_not_mem inv.zero_notMem]
      exact same
    · have mem : p ∈ Kit.held log := same ▸ allowed.resolve_left null
      exact ⟨.free p :: log, congrArg (List.erase · p) same, fun heap => .kfree mem⟩

/-- From every state with the invariant, a run is one of some allocator. -/
theorem heapRun_matched {start : ℕ} (region : start + initialPages * pageSize < 2 ^ 64)
    {x y : Heap × List ℕ} {ops : List HeapOp} (run : Run HeapStep x ops y)
    (inv : ∃ bs, HeapInv start (start + initialPages * pageSize) x.1 x.2 bs)
    {log : List HeapEvent} (same : Kit.held log = x.2) :
    ∃ heap log', Run (MatchedStep heap) (x, log) ops (y, log') := by
  induction run generalizing log with
  | nil x => exact ⟨.above, log, .nil (x, log)⟩
  | cons first _ ih =>
    have inv' := heapStep_inv region inv first
    obtain ⟨bs, inv⟩ := inv
    rcases heapStep_matched region first inv same with
      ⟨log', same', answer⟩ | ⟨size, block, rfl, fresh, same'⟩
    · obtain ⟨heap, log'', rest⟩ := ih inv' same'
      exact ⟨heap, log'', .cons ⟨first, answer heap, same'⟩ rest⟩
    · -- the allocator of the rest, with this answer behind this log
      obtain ⟨heap, log'', rest⟩ := ih inv' same'
      have answer := @AllocatorStep.kmalloc (heap.answer log block fresh) log size
      rw [Allocator.answer_result] at answer
      exact ⟨heap.answer log block fresh, log'', .cons ⟨first, answer, same'⟩
        (MatchedStep.run_answer fresh (Nat.lt_succ_self _) rest)⟩

/-- The heap is an allocator: the answers of every run are those of some allocator, and the same
pointers are held behind every call. -/
theorem heapRun_allocator {mem : ℕ → ℕ} {phys hhdmOffset : ℕ} (pages : GotPages phys hhdmOffset)
    {ops : List HeapOp} {x : Heap × List ℕ}
    (run : Run HeapStep (heapInit mem phys hhdmOffset, []) ops x) :
    ∃ heap log, Run (MatchedStep heap) ((heapInit mem phys hhdmOffset, []), []) ops (x, log) :=
  heapRun_matched pages.fits run ⟨_, heapInit_inv mem pages⟩ rfl

/-! ## The free space has no history -/

/-- Two heaps on the same region that hold the same pointers to blocks of the same sizes have the
same used blocks. -/
theorem used_of_held {start stop : ℕ} {s t : Heap} {held held' : List ℕ} {bs cs : List Block}
    (inv : HeapInv start stop s held bs) (inv' : HeapInv start stop t held' cs)
    (pointers : ∀ p ∈ held, p ∈ held')
    (sizes : ∀ p ∈ held, s.size (p - headerSize) = t.size (p - headerSize)) {b : Block}
    (hb : b ∈ used bs) : b ∈ used cs := by
  have mem : b.addr + headerSize ∈ held := (inv.held_iff _).mpr ⟨b, hb, rfl⟩
  obtain ⟨c, hc, hbc⟩ := (inv'.held_iff _).mp (pointers _ mem)
  have haddr : b.addr = c.addr := Nat.add_right_cancel hbc
  have hsize := sizes _ mem
  rw [Nat.add_sub_cancel, inv.walk.size_eq (mem_used.mp hb).1, haddr,
    inv'.walk.size_eq (mem_used.mp hc).1] at hsize
  have hfree : b.free = c.free := (mem_used.mp hb).2.trans (mem_used.mp hc).2.symm
  rwa [Block.ext haddr hsize hfree]

/-- Giving back what was just allocated restores the block list. -/
theorem HeapInv.kmalloc_kfree {start : ℕ} {s : Heap} {held : List ℕ} {bs : List Block}
    (inv : HeapInv start (start + initialPages * pageSize) s held bs)
    (region : start + initialPages * pageSize < 2 ^ 64) (n : ℕ) :
    ∃ t p u, ChefOs.kmalloc heapFuel n s = some (t, p) ∧ ChefOs.kfree heapFuel p t = some u ∧
      BlockList u u.sHead bs := by
  obtain ⟨t, p, bs', alloc, inv', change⟩ := inv.kmalloc region n
  have allowed : p = 0 ∨ p ∈ (if p = 0 then held else p :: held) := by
    by_cases hp : p = 0
    · exact Or.inl hp
    · exact Or.inr (by simp [hp])
  obtain ⟨u, cs, free, inv'', hused⟩ := inv'.kfree region allowed
  have same : used cs = used bs := by
    rw [hused]
    rcases change with ⟨rfl, rfl⟩ | ⟨-, fresh, front, b, back, hp, hbs, hbs', -⟩
    · exact List.filter_eq_self.mpr fun b _ => by simp [headerSize]
    · have others : ∀ c ∈ used bs, c.addr + headerSize ≠ p := fun c hc hcp =>
        fresh ((inv.held_iff p).mpr ⟨c, hc, hcp.symm⟩)
      rw [hbs] at others ⊢
      rw [hbs', List.filter_append, List.filter_cons_of_neg (by simp [hp]),
        List.filter_eq_self.mpr, List.filter_eq_self.mpr]
      · exact fun c hc => by simpa using others c (by simp [hc])
      · exact fun c hc => by simpa using others c (by simp [hc])
  obtain rfl : cs = bs := inv''.unique inv fun b => by rw [same]
  exact ⟨t, p, u, alloc, free, inv''.walk⟩

/-- The block list is a function of the blocks held: two runs that hold the same blocks end in the
same list, a run that holds nothing ends in the initial one, and an allocation followed by its
release changes nothing. -/
theorem heapRun_canonical {phys hhdmOffset : ℕ} (pages : GotPages phys hhdmOffset)
    {mem mem' : ℕ → ℕ} {ops ops' : List HeapOp} {s s' : Heap} {held held' : List ℕ}
    (run : Run HeapStep (heapInit mem phys hhdmOffset, []) ops (s, held))
    (run' : Run HeapStep (heapInit mem' phys hhdmOffset, []) ops' (s', held')) :
    ((∀ p, p ∈ held ↔ p ∈ held') →
        (∀ p ∈ held, s.size (p - headerSize) = s'.size (p - headerSize)) →
        ∃ bs, BlockList s s.sHead bs ∧ BlockList s' s'.sHead bs) ∧
      (held = [] →
        BlockList s s.sHead [⟨phys + hhdmOffset, initialPages * pageSize - headerSize, true⟩]) ∧
      ∀ n, ∃ t p u bs, kmalloc heapFuel n s = some (t, p) ∧ kfree heapFuel p t = some u ∧
        BlockList s s.sHead bs ∧ BlockList u u.sHead bs := by
  obtain ⟨bs, inv⟩ := heapRun_inv pages run
  obtain ⟨cs, inv'⟩ := heapRun_inv pages run'
  refine ⟨fun pointers sizes => ?_, fun empty => ?_, fun n => ?_⟩
  · obtain rfl : bs = cs := inv.unique inv' fun b =>
      ⟨used_of_held inv inv' (fun p => (pointers p).mp) sizes,
        used_of_held inv' inv (fun p => (pointers p).mpr) fun p hp =>
          (sizes p ((pointers p).mpr hp)).symm⟩
    exact ⟨bs, inv.walk, inv'.walk⟩
  · subst empty
    have none_used : ∀ b, b ∉ used bs := fun b hb => by
      simpa using (inv.held_iff _).mpr ⟨b, hb, rfl⟩
    have initial := heapInit_inv mem pages
    obtain rfl := inv.unique initial fun b => by simp [none_used b]
    exact inv.walk
  · obtain ⟨t, p, u, alloc, free, walk⟩ := inv.kmalloc_kfree pages.fits n
    exact ⟨t, p, u, bs, alloc, free, inv.walk, walk⟩

/-- Two histories that give everything back end in the same list. -/
theorem heapRun_canonical_example : ∃ s s' bs,
    Run HeapStep (heapInit (fun _ => 0) 0x100000 0xFFFF800000000000, [])
      [.kmalloc 100, .kfree 0xFFFF800000100018] (s, []) ∧
    Run HeapStep (heapInit (fun _ => 1) 0x100000 0xFFFF800000000000, [])
      [.kfree 0, .kmalloc 8, .kfree 0xFFFF800000100018] (s', []) ∧
    BlockList s s.sHead bs ∧ BlockList s' s'.sHead bs := by
  have pages : GotPages 0x100000 0xFFFF800000000000 := ⟨by decide, by decide⟩
  have run : ∃ s, Run HeapStep (heapInit (fun _ => 0) 0x100000 0xFFFF800000000000, [])
      [.kmalloc 100, .kfree 0xFFFF800000100018] (s, []) :=
    exists_run (by decide +kernel)
  have run' : ∃ s, Run HeapStep (heapInit (fun _ => 1) 0x100000 0xFFFF800000000000, [])
      [.kfree 0, .kmalloc 8, .kfree 0xFFFF800000100018] (s, []) :=
    exists_run (by decide +kernel)
  obtain ⟨s, run⟩ := run
  obtain ⟨s', run'⟩ := run'
  obtain ⟨bs, walk, walk'⟩ := (heapRun_canonical pages run run').1 (fun _ => Iff.rfl) (by simp)
  exact ⟨s, s', bs, run, run', walk, walk'⟩

end ChefOs
