import Mathlib.Tactic

/-!
# Programs that end

A program whose loops take fuel ends with a result if it returns that result whenever the fuel is
large enough.  Such results are unique and compose, and a loop that polls a device ends if every
reading brings the device closer to being ready.
-/

namespace Kit

section

variable {α β : Type*}

/-- With enough fuel the program returns the result. -/
structure Ends (f : ℕ → Option α) (r : α) : Prop where
  enough : ∃ n, ∀ fuel ≥ n, f fuel = some r

namespace Ends

variable {f : ℕ → Option α} {r r' : α}

theorem pure (r : α) : Ends (fun _ => some r) r := ⟨0, fun _ _ => rfl⟩

/-- A program ends with one result. -/
theorem unique (h : Ends f r) (h' : Ends f r') : r = r' := by
  obtain ⟨n, hn⟩ := h.enough
  obtain ⟨m, hm⟩ := h'.enough
  have left := hn (max n m) (le_max_left n m)
  have right := hm (max n m) (le_max_right n m)
  exact Option.some.inj (left.symm.trans right)

/-- One program after the other. -/
theorem bind {g : ℕ → α → Option β} {r' : β} (first : Ends f r)
    (second : Ends (fun fuel => g fuel r) r') :
    Ends (fun fuel => (f fuel).bind (g fuel)) r' := by
  obtain ⟨n, hn⟩ := first.enough
  obtain ⟨m, hm⟩ := second.enough
  refine ⟨max n m, fun fuel enough => ?_⟩
  rw [hn fuel (le_trans (le_max_left n m) enough), Option.bind_some]
  exact hm fuel (le_trans (le_max_right n m) enough)

/-- A result that is computed from another one. -/
theorem map (h : Ends f r) (g : α → β) : Ends (fun fuel => (f fuel).map g) (g r) := by
  obtain ⟨n, hn⟩ := h.enough
  refine ⟨n, fun fuel enough => ?_⟩
  rw [hn fuel enough, Option.map_some]

end Ends

end

section

variable {σ α : Type*} {read : σ → α × σ} {ready : α → Bool}

/-- The loop that reads until what it reads is ready. -/
def pollUntil (read : σ → α × σ) (ready : α → Bool) : ℕ → σ → Option σ
  | 0, _ => none
  | fuel + 1, s =>
    let (a, s) := read s
    if ready a then some s else pollUntil read ready fuel s

/-- A loop ends if every reading that is not ready keeps an invariant and lowers a measure. -/
theorem pollUntil_ends {I Q : σ → Prop} (μ : σ → ℕ)
    (step : ∀ s, I s → (ready (read s).1 = true ∧ Q (read s).2) ∨
      (ready (read s).1 = false ∧ I (read s).2 ∧ μ (read s).2 < μ s))
    {s : σ} (start : I s) : ∃ t, Ends (fun fuel => pollUntil read ready fuel s) t ∧ Q t := by
  induction h : μ s using Nat.strong_induction_on generalizing s with
  | _ m ih =>
    rcases step s start with ⟨stop, done⟩ | ⟨go, next, less⟩
    · refine ⟨(read s).2, ⟨1, fun fuel enough => ?_⟩, done⟩
      obtain ⟨fuel, rfl⟩ := Nat.exists_eq_add_of_le' enough
      rw [pollUntil]
      exact if_pos stop
    · obtain ⟨t, ⟨n, hn⟩, done⟩ := ih (μ (read s).2) (h ▸ less) next rfl
      refine ⟨t, ⟨n + 1, fun fuel enough => ?_⟩, done⟩
      obtain ⟨fuel, rfl⟩ := Nat.exists_eq_add_of_le' (Nat.le_of_add_left_le enough)
      rw [pollUntil]
      dsimp only
      rw [go, if_neg Bool.false_ne_true]
      exact hn fuel (by omega)

end

end Kit
