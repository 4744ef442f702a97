import Mathlib.Tactic

/-!
# One-place channels

A channel with room for one message.  A message put into a full channel replaces the one in it,
which is then lost; a channel that is never filled twice delivers everything, in order.
-/

namespace Kit

variable {α : Type*}

/-- The content of a channel, with the messages sent and received so far. -/
structure Slot (α : Type*) where
  content : Option α
  sent : List α
  received : List α

namespace Slot

/-- A message is sent. -/
def put (a : α) (x : Slot α) : Slot α := { x with content := some a, sent := x.sent ++ [a] }

/-- The content is received, if there is any. -/
def take (x : Slot α) : Slot α :=
  { x with content := none, received := x.received ++ x.content.toList }

/-- What was sent was received or is in the channel. -/
def Faithful (x : Slot α) : Prop := x.sent = x.received ++ x.content.toList

/-- What was received is the beginning of what was sent, and after enough receipts all of it. -/
def Delivers (x : Slot α) : Prop :=
  x.received <+: x.sent ∧ ∃ n, ∀ m, n ≤ m → (take^[m] x).received = x.sent

/-- One receipt empties the channel. -/
theorem take_iterate (x : Slot α) (n : ℕ) : take^[n + 1] x = x.take := by
  induction n with
  | zero => rfl
  | succ n ih =>
    rw [Function.iterate_succ_apply', ih]
    simp [take]

theorem delivers_iff (x : Slot α) : x.Delivers ↔ x.Faithful := by
  constructor
  · rintro ⟨-, n, all⟩
    have := all (n + 1) (Nat.le_succ n)
    rw [take_iterate] at this
    exact this.symm
  · intro faithful
    refine ⟨⟨x.content.toList, faithful.symm⟩, 1, fun m hm => ?_⟩
    obtain ⟨n, rfl⟩ : ∃ n, m = n + 1 := ⟨m - 1, by omega⟩
    rw [take_iterate]
    exact faithful.symm

theorem Faithful.take {x : Slot α} (faithful : x.Faithful) : x.take.Faithful := by
  rw [Faithful, Slot.take, Option.toList_none, List.append_nil]
  exact faithful

/-- A message gets lost just when it is put into a full channel. -/
theorem Faithful.put_iff {x : Slot α} (faithful : x.Faithful) (a : α) :
    (x.put a).Faithful ↔ x.content = none := by
  rw [Faithful, put, faithful, Option.toList_some, List.append_assoc, List.append_cancel_left_eq]
  cases x.content with
  | none => simp
  | some b => simp

end Slot

end Kit
