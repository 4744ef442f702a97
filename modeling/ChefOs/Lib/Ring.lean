import Mathlib.Tactic

/-!
# Rings

A ring is a cycle of a successor function, listed once from one of its elements.  It may be read
from any of its elements, and it grows by an insertion behind its first element.
-/

namespace Kit

variable {α : Type*} {next : α → Option α} {l : List α}

/-- Following `next` from the first element of `l` visits `l` in order and returns. -/
structure Ring (next : α → Option α) (l : List α) : Prop where
  nodup : l.Nodup
  turn : l.map next = (l.rotate 1).map some

namespace Ring

/-- A single element that is its own successor. -/
theorem singleton {a : α} (self : next a = some a) : Ring next [a] where
  nodup := List.nodup_singleton a
  turn := by simp [self]

theorem rotate (ring : Ring next l) (k : ℕ) : Ring next (l.rotate k) where
  nodup := List.nodup_rotate.mpr ring.nodup
  turn := by rw [List.map_rotate, ring.turn, ← List.map_rotate, List.rotate_rotate,
    List.rotate_rotate, Nat.add_comm]

/-- A ring may be read from any of its elements. -/
theorem readFrom (ring : Ring next l) {a : α} (mem : a ∈ l) :
    ∃ rest, Ring next (a :: rest) ∧ (a :: rest).Perm l := by
  obtain ⟨front, back, rfl⟩ := List.append_of_mem mem
  have turned := ring.rotate front.length
  rw [List.rotate_append_length_eq] at turned
  have same : ((a :: back) ++ front).Perm (front ++ a :: back) := List.perm_append_comm
  exact ⟨back ++ front, turned, same⟩

/-- The successor of an element is an element. -/
theorem step (ring : Ring next l) {a : α} (mem : a ∈ l) : ∃ b ∈ l, next a = some b := by
  have image : next a ∈ (l.rotate 1).map some := by
    rw [← ring.turn]
    exact List.mem_map_of_mem mem
  obtain ⟨b, hb, eq⟩ := List.mem_map.mp image
  exact ⟨b, List.mem_rotate.mp hb, eq.symm⟩

/-- The successors of a ring read from `a`. -/
theorem turn_cons {a : α} (ring : Ring next (a :: l)) :
    (a :: l).map next = (l ++ [a]).map some := by
  rw [ring.turn, List.rotate_cons_succ, List.rotate_zero]

/-- A new element goes behind the first one. -/
theorem insert [DecidableEq α] {a t : α} (ring : Ring next (a :: l)) (fresh : t ∉ a :: l) :
    Ring (Function.update (Function.update next t (next a)) a (some t)) (a :: t :: l) := by
  obtain ⟨first, later⟩ := List.nodup_cons.mp ring.nodup
  obtain ⟨ne, fresh⟩ := not_or.mp (fun h => fresh (List.mem_cons.mpr h))
  have others : l.map (Function.update (Function.update next t (next a)) a (some t)) =
      l.map next := by
    apply List.map_congr_left
    rintro b hb
    rw [Function.update_of_ne (ne_of_mem_of_not_mem hb first),
      Function.update_of_ne (ne_of_mem_of_not_mem hb fresh)]
  constructor
  · exact List.nodup_cons.mpr ⟨by simp [Ne.symm ne, first], List.nodup_cons.mpr ⟨fresh, later⟩⟩
  · have turn := ring.turn_cons
    rw [List.map_cons] at turn
    rw [List.map_cons, List.map_cons, Function.update_self, Function.update_of_ne ne,
      Function.update_self, others, turn]
    rfl

end Ring

end Kit
