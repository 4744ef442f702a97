import Mathlib.Tactic

/-!
# Blocks of a heap

A client of a heap sees the results of its calls.  The log of the calls determines the blocks the
client holds, and an allocator may return any block that is not held, or none.  A client that
frees only what it holds keeps an exact account of its blocks.
-/

namespace Kit

/-- A call to the heap: an allocation with its result, or a release. -/
inductive HeapEvent
  | alloc (result : Option ℕ)
  | free (block : ℕ)
deriving DecidableEq

/-- The blocks held after the calls of a log, whose last call comes first. -/
def held : List HeapEvent → List ℕ
  | [] => []
  | .alloc none :: log => held log
  | .alloc (some b) :: log => b :: held log
  | .free b :: log => (held log).erase b

/-- An allocator answers a request by the calls so far and its size. -/
structure Allocator where
  result : List HeapEvent → ℕ → Option ℕ
  fresh : ∀ log size b, result log size = some b → b ∉ held log

/-- Every release of the log is of a block that was held. -/
def FreesHeld : List HeapEvent → Prop
  | [] => True
  | .alloc _ :: log => FreesHeld log
  | .free b :: log => b ∈ held log ∧ FreesHeld log

/-- An address above all held ones is not held. -/
theorem notMem_of_sum_lt {bs : List ℕ} {b : ℕ} (above : bs.sum < b) : b ∉ bs := by
  intro hb
  have := List.le_sum_of_mem hb
  omega

/-- The allocator that answers with an address above all held ones. -/
def Allocator.above : Allocator where
  result log _ := some ((held log).sum + 1)
  fresh _ _ _ h := notMem_of_sum_lt (Nat.lt_of_succ_le (Option.some.inj h).le)

/-- The allocator with another answer behind one log. -/
def Allocator.answer (heap : Allocator) (log : List HeapEvent) (block : Option ℕ)
    (fresh : ∀ b ∈ block, b ∉ held log) : Allocator where
  result log' size := if log' = log then block else heap.result log' size
  fresh log' size b answer := by
    split_ifs at answer with same
    · rw [same]
      exact fresh b answer
    · exact heap.fresh log' size b answer

section

variable {heap : Allocator} {log log' : List HeapEvent} {block : Option ℕ}
  {fresh : ∀ b ∈ block, b ∉ held log}

@[simp] theorem Allocator.answer_result (size : ℕ) :
    (heap.answer log block fresh).result log size = block := if_pos rfl

theorem Allocator.answer_result_of_ne (other : log' ≠ log) (size : ℕ) :
    (heap.answer log block fresh).result log' size = heap.result log' size := if_neg other

end

/-- The blocks `bs` are held, once each, and no others. -/
def Exactly (log : List HeapEvent) (bs : List ℕ) : Prop := (held log).Perm bs ∧ bs.Nodup

namespace Exactly

variable {log : List HeapEvent} {bs bs' : List ℕ}

theorem perm (h : Exactly log bs) (same : bs.Perm bs') : Exactly log bs' :=
  ⟨h.1.trans same, same.nodup_iff.mp h.2⟩

theorem mem_held (h : Exactly log bs) {b : ℕ} : b ∈ held log ↔ b ∈ bs := h.1.mem_iff

/-- A new block is none of the held ones. -/
theorem fresh (h : Exactly log bs) {heap : Allocator} {size b : ℕ}
    (result : heap.result log size = some b) : b ∉ bs :=
  fun hb => heap.fresh log size b result (h.mem_held.mpr hb)

/-- The account after an allocation. -/
theorem alloc (h : Exactly log bs) (heap : Allocator) (size : ℕ) :
    Exactly (.alloc (heap.result log size) :: log) ((heap.result log size).toList ++ bs) := by
  cases result : heap.result log size with
  | none => exact h
  | some b => exact ⟨h.1.cons b, List.nodup_cons.mpr ⟨h.fresh result, h.2⟩⟩

/-- The block at the head of the account may be released. -/
theorem frees {b : ℕ} (h : Exactly log (b :: bs)) (legal : FreesHeld log) :
    FreesHeld (.free b :: log) := ⟨h.mem_held.mpr List.mem_cons_self, legal⟩

/-- The account after the release of a held block. -/
theorem free {b : ℕ} (h : Exactly log (b :: bs)) : Exactly (.free b :: log) bs := by
  refine ⟨?_, h.2.of_cons⟩
  have := h.1.erase b
  rwa [List.erase_cons_head] at this

end Exactly

end Kit
