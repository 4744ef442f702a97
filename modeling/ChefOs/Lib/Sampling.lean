import Mathlib.Tactic

/-!
# Values that are read one after the other

A device shows values that change with time, and a program reads them at different instants.  What
it reads is consistent if the device showed all of it at one instant.  A key, a value that comes
again only after some time, tells which instant that has to be.
-/

namespace Kit

variable {ρ V : Type*}

/-- At some instant from `lo` to `hi` all values are as they were when they were read. -/
def Consistent (value : ℕ → ρ → V) (readAt : ρ → ℕ) (lo hi : ℕ) : Prop :=
  ∃ n, (lo ≤ n ∧ n ≤ hi) ∧ ∀ r, value n r = value (readAt r) r

/-- All values were read as they were when the key was read. -/
def Steady (value : ℕ → ρ → V) (readAt : ρ → ℕ) (key : ρ) : Prop :=
  ∀ r, value (readAt key) r = value (readAt r) r

section

variable {value : ℕ → ρ → V} {readAt : ρ → ℕ} {lo hi : ℕ} {key : ρ}
  (within : lo ≤ readAt key ∧ readAt key ≤ hi)
include within

/-- The instant may be that of the key. -/
theorem Steady.consistent (steady : Steady value readAt key) : Consistent value readAt lo hi :=
  ⟨readAt key, within, steady⟩

/-- Where the key does not come again, it is the instant of the key. -/
theorem consistent_iff_steady
    (once : ∀ n, lo ≤ n → n ≤ hi → value n key = value (readAt key) key → n = readAt key) :
    Consistent value readAt lo hi ↔ Steady value readAt key := by
  refine ⟨?_, Steady.consistent within⟩
  rintro ⟨n, ⟨low, high⟩, same⟩
  rw [once n low high (same key)] at same
  exact same

end

end Kit
