import Mathlib.Tactic

/-!
# Checked subtraction

A computation on words may be run once more with subtractions that fail below zero.  Where the
checked run ends it agrees with the unchecked one, and it ends when each subtraction passes.
-/

namespace Kit

universe u

variable {α β : Type u}

/-- `a - b`, unless `b` is the larger one. -/
def checkedSub [LE α] [DecidableLE α] [Sub α] (a b : α) : Option α :=
  if b ≤ a then some (a - b) else none

/-- The checked run has the result of the unchecked one, or none. -/
structure Agrees (checked : Option β) (result : β) : Prop where
  eq : ∀ r, checked = some r → r = result

namespace Agrees

theorem done (b : β) : Agrees (some b) b := ⟨fun _ h => (Option.some.inj h).symm⟩

theorem bind {checked : Option α} {a : α} {f : α → Option β} {b : β} (first : Agrees checked a)
    (later : Agrees (f a) b) : Agrees (checked >>= f) b := by
  refine ⟨fun r h => ?_⟩
  obtain ⟨a', rfl, hr⟩ := Option.bind_eq_some_iff.mp h
  rw [first.eq a' rfl] at hr
  exact later.eq r hr

variable [LE α] [DecidableLE α] [Sub α]

theorem checkedSub (a b : α) : Agrees (checkedSub a b) (a - b) := by
  refine ⟨fun r h => ?_⟩
  rw [Kit.checkedSub] at h
  split_ifs at h
  exact (Option.some.inj h).symm

theorem sub {a b : α} {f : α → Option β} {r : β} (later : Agrees (f (a - b)) r) :
    Agrees (Kit.checkedSub a b >>= f) r := (checkedSub a b).bind later

end Agrees

/-- The checked run passes a first part and goes on with its result. -/
theorem Agrees.isSome_bind {checked : Option α} {a : α} (first : Agrees checked a)
    (f : α → Option β) : (checked >>= f).isSome ↔ checked.isSome ∧ (f a).isSome := by
  cases h : checked with
  | none => simp
  | some a' =>
    rw [first.eq a' h]
    simp

theorem isSome_sub [LE α] [DecidableLE α] [Sub α] (a b : α) (f : α → Option β) :
    (checkedSub a b >>= f).isSome ↔ b ≤ a ∧ (f (a - b)).isSome := by
  rw [(Agrees.checkedSub a b).isSome_bind, checkedSub]
  split_ifs with h <;> simp [h]

end Kit
