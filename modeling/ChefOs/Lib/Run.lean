import Mathlib.Tactic

/-!
# Runs of labelled transition systems

A run takes the steps labelled by a list, from left to right.  The rules carry an invariant, or a
relation to a second system, from one step to every run.
-/

namespace Kit

variable {σ τ α β : Type*} {step : σ → α → σ → Prop}

/-- `Run step s as t`: the steps labelled `as` lead from `s` to `t`. -/
inductive Run (step : σ → α → σ → Prop) : σ → List α → σ → Prop
  | nil (s : σ) : Run step s [] s
  | cons {s t u : σ} {a : α} {as : List α} (first : step s a t) (rest : Run step t as u) :
      Run step s (a :: as) u

namespace Run

/-- One run after the other. -/
theorem append {s t u : σ} {as bs : List α} (first : Run step s as t) (second : Run step t bs u) :
    Run step s (as ++ bs) u := by
  induction first with
  | nil s => exact second
  | cons head _ ih => exact .cons head (ih second)

/-- What every step preserves holds at the end of a run. -/
theorem invariant {I : σ → Prop} (preserved : ∀ s a t, I s → step s a t → I t) {s t : σ}
    {as : List α} (run : Run step s as t) (initial : I s) : I t := by
  induction run with
  | nil s => exact initial
  | cons first _ ih => exact ih (preserved _ _ _ initial first)

/-- A run of one system is a run of another one if, under an invariant, each of its steps is. -/
theorem transfer {step' : σ → α → σ → Prop} {I : σ → Prop}
    (steps : ∀ s a t, I s → step s a t → I t ∧ step' s a t) {s t : σ} {as : List α}
    (run : Run step s as t) (initial : I s) : Run step' s as t := by
  induction run with
  | nil s => exact .nil s
  | cons first _ ih =>
    obtain ⟨next, first'⟩ := steps _ _ _ initial first
    exact .cons first' (ih next)

/-- Two systems whose steps are the same under an invariant have the same runs. -/
theorem iff_of_step_iff {step' : σ → α → σ → Prop} {I : σ → Prop}
    (same : ∀ s a t, I s → (step s a t ↔ step' s a t))
    (keeps : ∀ s a t, I s → step s a t → I t) {s t : σ} {as : List α} (initial : I s) :
    Run step s as t ↔ Run step' s as t := by
  constructor
  · intro run
    exact run.transfer (fun s a t inv first =>
      ⟨keeps s a t inv first, (same s a t inv).mp first⟩) initial
  · intro run
    refine run.transfer (fun s a t inv first => ?_) initial
    have first' := (same s a t inv).mpr first
    exact ⟨keeps s a t inv first', first'⟩

/-- A relation that steps of two systems with one label keep relates the ends of their runs, and the
second system can run as long as the first. -/
theorem lockstep {σ' : Type*} {step' : σ' → α → σ' → Prop} {R : σ → σ' → Prop}
    (steps : ∀ s s' a t, R s s' → step s a t →
      (∃ t', step' s' a t') ∧ ∀ t', step' s' a t' → R t t')
    {s t : σ} {s' : σ'} {as : List α} (run : Run step s as t) (start : R s s') :
    (∃ t', Run step' s' as t') ∧ ∀ t', Run step' s' as t' → R t t' := by
  induction run generalizing s' with
  | nil s =>
    refine ⟨⟨s', .nil s'⟩, fun t' run' => ?_⟩
    cases run'
    exact start
  | cons first _ ih =>
    obtain ⟨⟨t', first'⟩, related⟩ := steps _ _ _ _ start first
    obtain ⟨⟨u', rest'⟩, -⟩ := ih (related t' first')
    refine ⟨⟨u', .cons first' rest'⟩, fun v' run' => ?_⟩
    cases run' with
    | cons first' rest' => exact (ih (related _ first')).2 v' rest'

/-- A run is a run of the system that its steps refine, and it keeps their invariant. -/
theorem refine {step' : τ → α → τ → Prop} {I : σ → Prop} {f : σ → τ}
    (steps : ∀ s a t, I s → step s a t → I t ∧ step' (f s) a (f t)) {s t : σ} {as : List α}
    (run : Run step s as t) (initial : I s) : I t ∧ Run step' (f s) as (f t) := by
  induction run with
  | nil s => exact ⟨initial, .nil (f s)⟩
  | cons first _ ih =>
    obtain ⟨next, first'⟩ := steps _ _ _ initial first
    obtain ⟨last, rest'⟩ := ih next
    exact ⟨last, .cons first' rest'⟩

/-- A run passes through the state before each of the labels that `f` picks out. -/
theorem split {f : α → Option β} {front back : List β} {b : β} {s u : σ} {as : List α}
    (run : Run step s as u) (eq : as.filterMap f = front ++ b :: back) :
    ∃ as₁ a as₂ t t', Run step s as₁ t ∧ as₁.filterMap f = front ∧ step t a t' ∧ f a = some b ∧
      Run step t' as₂ u ∧ as₂.filterMap f = back := by
  induction run generalizing front with
  | nil s => simp at eq
  | @cons s t u a as first rest ih =>
    rcases picked : f a with _ | c
    · rw [List.filterMap_cons_none picked] at eq
      obtain ⟨as₁, b, as₂, r, r', before, eq₁, here, after⟩ := ih eq
      refine ⟨a :: as₁, b, as₂, r, r', .cons first before, ?_, here, after⟩
      rw [List.filterMap_cons_none picked, eq₁]
    · rw [List.filterMap_cons_some picked] at eq
      cases front with
      | nil =>
        obtain ⟨rfl, later⟩ := List.cons.inj eq
        exact ⟨[], a, as, s, t, .nil s, rfl, first, picked, rest, later⟩
      | cons c' front =>
        obtain ⟨rfl, later⟩ := List.cons.inj eq
        obtain ⟨as₁, b, as₂, r, r', before, eq₁, here, after⟩ := ih later
        refine ⟨a :: as₁, b, as₂, r, r', .cons first before, ?_, here, after⟩
        rw [List.filterMap_cons_some picked, eq₁]

/-- What only the picked labels change is what they make of it one after the other. -/
theorem project {f : α → Option β} {g : σ → τ} {h : τ → β → τ}
    (steps : ∀ s a t, step s a t → g t = (f a).elim (g s) (h (g s))) {s t : σ} {as : List α}
    (run : Run step s as t) : g t = (as.filterMap f).foldl h (g s) := by
  induction run with
  | nil s => rfl
  | @cons s t u a as first _ ih =>
    rw [ih, steps _ _ _ first]
    rcases picked : f a with _ | b
    · rw [List.filterMap_cons_none picked]
      rfl
    · rw [List.filterMap_cons_some picked]
      rfl

/-- What every step preserves may speak of the labels so far. -/
theorem history {I : List α → σ → Prop}
    (steps : ∀ as s a t, I as s → step s a t → I (as ++ [a]) t) {s t : σ} {as bs : List α}
    (run : Run step s as t) (initial : I bs s) : I (bs ++ as) t := by
  induction run generalizing bs with
  | nil s => simpa using initial
  | @cons s t u a as first _ ih =>
    have next := ih (steps _ _ _ _ initial first)
    rwa [List.append_assoc, List.singleton_append] at next

/-- A measure that every step lowers bounds the length of a run. -/
theorem length_le {I : σ → Prop} {μ : σ → ℕ}
    (steps : ∀ s a t, I s → step s a t → I t ∧ μ t < μ s) {s t : σ} {as : List α}
    (run : Run step s as t) (initial : I s) : I t ∧ as.length + μ t ≤ μ s := by
  induction run with
  | nil s => exact ⟨initial, by simp⟩
  | cons first _ ih =>
    obtain ⟨next, lower⟩ := steps _ _ _ initial first
    obtain ⟨last, bound⟩ := ih next
    refine ⟨last, ?_⟩
    rw [List.length_cons]
    omega

end Run

end Kit
