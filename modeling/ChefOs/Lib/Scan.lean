import Mathlib.Tactic

/-!
# Searching for a run of consecutive positions

`scanRun` walks upwards through the positions below a bound, keeping the length and the start of
the run it is in, and stops at the first run of the wanted length.  It finds the lowest such run
(`scanRun_some`), and fails only when there is none (`scanRun_none`).
-/

namespace Kit

/-- The `count` positions from `start` on all satisfy `p`. -/
def RunAt (p : ℕ → Prop) (start count : ℕ) : Prop := ∀ j < count, p (start + j)

/-- The search over `n` more positions from `i` on, inside a run of `consecutive` positions that
began at `start`. -/
def scanRun (p : ℕ → Bool) (count : ℕ) : ℕ → ℕ → ℕ → ℕ → Option ℕ
  | 0, _, _, _ => none
  | n + 1, i, consecutive, start =>
    if p i = true then
      let start := if consecutive = 0 then i else start
      if consecutive + 1 = count then some start
      else scanRun p count n (i + 1) (consecutive + 1) start
    else scanRun p count n (i + 1) 0 start

variable {p : ℕ → Bool} {count : ℕ}

/-- The loop invariant at position `i`: the last `consecutive` positions form a run from `start`,
and no run of the wanted length ends at or before `i`. -/
structure ScanInv (p : ℕ → Bool) (count i consecutive start : ℕ) : Prop where
  short : consecutive < count ∨ count = 0
  at_start : 0 < consecutive → start + consecutive = i
  inside : consecutive ≤ i
  run : RunAt (p · = true) (i - consecutive) consecutive
  maximal : consecutive < i → p (i - consecutive - 1) = false
  none_before : 0 < count → ∀ k, k + count ≤ i → ¬ RunAt (p · = true) k count

theorem ScanInv.initial (p : ℕ → Bool) (count start : ℕ) : ScanInv p count 0 0 start := by
  refine ⟨by omega, by simp, le_rfl, fun j hj => by omega, fun h => by omega, ?_⟩
  intro hcount k hk
  omega

/-- A run of the wanted length that ends at the current position starts where the current run does,
or is longer than the current run. -/
theorem ScanInv.step_true {i consecutive start : ℕ} (inv : ScanInv p count i consecutive start)
    (here : p i = true) (more : consecutive + 1 ≠ count) :
    ScanInv p count (i + 1) (consecutive + 1) (if consecutive = 0 then i else start) := by
  have hin := inv.inside
  have hstart := inv.at_start
  refine ⟨?_, ?_, by omega, ?_, ?_, ?_⟩
  · rcases inv.short with h | h
    · exact Or.inl (by omega)
    · exact Or.inr h
  · intro _
    split_ifs <;> omega
  · intro j hj
    rw [show i + 1 - (consecutive + 1) = i - consecutive by omega]
    by_cases hlast : j = consecutive
    · rw [hlast, show i - consecutive + consecutive = i by omega]
      exact here
    · exact inv.run j (by omega)
  · intro h
    rw [show i + 1 - (consecutive + 1) - 1 = i - consecutive - 1 by omega]
    exact inv.maximal (by omega)
  · intro hcount k hk run
    by_cases hend : k + count = i + 1
    · -- the run would reach below the start of the current one
      have hshort : consecutive + 1 < count := by
        rcases inv.short with h | h <;> omega
      have hlt : consecutive < i := by omega
      have := run (i - consecutive - 1 - k) (by omega)
      rw [show k + (i - consecutive - 1 - k) = i - consecutive - 1 by omega,
        inv.maximal hlt] at this
      exact absurd this (by simp)
    · exact inv.none_before hcount k (by omega) run

theorem ScanInv.step_false {i consecutive start : ℕ} (inv : ScanInv p count i consecutive start)
    (here : p i = false) : ScanInv p count (i + 1) 0 start := by
  refine ⟨by omega, by simp, by omega, fun j hj => by omega, fun _ => by simpa using here, ?_⟩
  intro hcount k hk run
  by_cases hend : k + count = i + 1
  · have := run (i - k) (by omega)
    rw [show k + (i - k) = i by omega, here] at this
    exact absurd this (by simp)
  · exact inv.none_before hcount k (by omega) run

/-- What the search answers: the lowest run of the wanted length below the bound, if any. -/
theorem scanRun_spec {n i consecutive start : ℕ} (inv : ScanInv p count i consecutive start) :
    match scanRun p count n i consecutive start with
    | some k => 0 < count ∧ k + count ≤ i + n ∧ RunAt (p · = true) k count ∧
        ∀ k' < k, ¬ RunAt (p · = true) k' count
    | none => 0 < count → ∀ k, k + count ≤ i + n → ¬ RunAt (p · = true) k count := by
  induction n generalizing i consecutive start with
  | zero => simpa [scanRun] using inv.none_before
  | succ n ih =>
    rw [scanRun]
    cases here : p i with
    | false =>
      have := ih (inv.step_false here)
      rw [show i + 1 + n = i + (n + 1) by omega] at this
      simpa using this
    | true =>
      simp only [if_true]
      by_cases done : consecutive + 1 = count
      · have hin := inv.inside
        have hstart : (if consecutive = 0 then i else start) = i - consecutive := by
          have := inv.at_start
          split_ifs <;> omega
        rw [if_pos done, hstart]
        refine ⟨by omega, by omega, fun j hj => ?_, fun k' hk' run => ?_⟩
        · by_cases hlast : j = consecutive
          · rw [hlast, show i - consecutive + consecutive = i by omega]
            exact here
          · exact inv.run j (by omega)
        · exact inv.none_before (by omega) k' (by omega) run
      · rw [if_neg done]
        have := ih (inv.step_true here done)
        rwa [show i + 1 + n = i + (n + 1) by omega] at this

theorem scanRun_some {total k start : ℕ} (found : scanRun p count total 0 0 start = some k) :
    0 < count ∧ k + count ≤ total ∧ RunAt (p · = true) k count ∧
      ∀ k' < k, ¬ RunAt (p · = true) k' count := by
  have := scanRun_spec (n := total) (ScanInv.initial p count start)
  rw [found] at this
  simpa using this

theorem scanRun_none {total start : ℕ} (failed : scanRun p count total 0 0 start = none)
    (pos : 0 < count) {k : ℕ} (inside : k + count ≤ total) : ¬ RunAt (p · = true) k count := by
  have := scanRun_spec (n := total) (ScanInv.initial p count start)
  rw [failed] at this
  exact this pos k (by omega)

end Kit
