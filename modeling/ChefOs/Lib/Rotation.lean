import Mathlib.Data.List.Rotate
import Mathlib.Tactic

/-!
# Rings

A ring is a list whose first element is the current one, and turning it moves that element to the
end.  A system that keeps in step with a ring reads every element of it in a full turn.
-/

namespace Kit

variable {σ α : Type*}

/-- In a full turn every element comes first in turn. -/
theorem heads_rotate (ring : List α) :
    (List.range ring.length).map (fun k => (ring.rotate k).head?) = ring.map some := by
  apply List.ext_getElem
  · simp
  · intro k hk hk'
    have inside : k < ring.length := by simpa using hk
    simp [List.head?_rotate, inside]

/-- The system reads the first element of the ring it is at, and turns the ring in each step. -/
structure Turning (R : σ → List α → Prop) (read : σ → Option α) (step : σ → σ) : Prop where
  reads : ∀ {s ring}, R s ring → read s = ring.head?
  turns : ∀ {s ring}, R s ring → R (step s) (ring.rotate 1)

namespace Turning

variable {R : σ → List α → Prop} {read : σ → Option α} {step : σ → σ}

theorem iterate (h : Turning R read step) {s : σ} {ring : List α} (start : R s ring) (k : ℕ) :
    R (step^[k] s) (ring.rotate k) := by
  induction k with
  | zero => simpa using start
  | succ k ih =>
    rw [Function.iterate_succ_apply', ← List.rotate_rotate]
    exact h.turns ih

/-- As many steps as the ring has elements read them all, beginning with the second. -/
theorem visits (h : Turning R read step) {s : σ} {ring : List α} (start : R s ring) :
    (List.range ring.length).map (fun k => read (step^[k + 1] s)) =
      (ring.rotate 1).map some := by
  have next : R (step s) (ring.rotate 1) := h.turns start
  rw [← heads_rotate, List.length_rotate]
  apply List.map_congr_left
  intro k _
  rw [Function.iterate_succ_apply]
  exact h.reads (h.iterate next k)

/-- A full turn ends where it began. -/
theorem returns (h : Turning R read step) {s : σ} {ring : List α} (start : R s ring) :
    read (step^[ring.length] s) = read s := by
  have turned := h.iterate start ring.length
  rw [List.rotate_length] at turned
  rw [h.reads turned, h.reads start]

end Turning

end Kit
