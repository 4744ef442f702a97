import Mathlib.Data.List.Pairwise
import Mathlib.Logic.Function.Basic
import Mathlib.Tactic

/-!
# Transfers

Cells of a memory are assigned to others one after the other.  When no cell is overwritten before it
is read or overwritten again, the order of the assignments cannot be seen in the outcome: every
destination holds what its source held before all of them.
-/

namespace Kit

variable {A β : Type*} [DecidableEq A]

/-- The assignments, each of a destination and a source, in turn. -/
def transfer (pairs : List (A × A)) (m : A → β) : A → β :=
  pairs.foldl (fun m p => Function.update m p.1 (m p.2)) m

/-- No destination is the destination or the source of a later assignment. -/
def Unclobbered (pairs : List (A × A)) : Prop :=
  pairs.Pairwise fun p q => p.1 ≠ q.1 ∧ p.1 ≠ q.2

theorem transfer_cons (p : A × A) (pairs : List (A × A)) (m : A → β) :
    transfer (p :: pairs) m = transfer pairs (Function.update m p.1 (m p.2)) := rfl

/-- Other cells keep their contents. -/
theorem transfer_other {pairs : List (A × A)} {a : A} (other : ∀ p ∈ pairs, a ≠ p.1) (m : A → β) :
    transfer pairs m a = m a := by
  induction pairs generalizing m with
  | nil => rfl
  | cons p pairs ih =>
    obtain ⟨here, later⟩ := List.forall_mem_cons.mp other
    rw [transfer_cons, ih later]
    exact Function.update_of_ne here ..

/-- A destination gets what its source held at first. -/
theorem transfer_mem {pairs : List (A × A)} (unclobbered : Unclobbered pairs) {p : A × A}
    (hp : p ∈ pairs) (m : A → β) : transfer pairs m p.1 = m p.2 := by
  induction pairs generalizing m with
  | nil => exact absurd hp List.not_mem_nil
  | cons q pairs ih =>
    obtain ⟨first, later⟩ := List.pairwise_cons.mp unclobbered
    rw [transfer_cons]
    rcases List.mem_cons.mp hp with rfl | hp
    · rw [transfer_other fun r hr => (first r hr).1]
      exact Function.update_self ..
    · rw [ih later hp]
      exact Function.update_of_ne (first p hp).2.symm ..

end Kit
