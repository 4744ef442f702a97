import Mathlib.Tactic
import Mathlib.Data.Finset.Basic
import Mathlib.Order.CompletePartialOrder

/-!
# Ledgers of owned resources

A ledger records which resources of a finite pool are free and which sets of resources the live
allocations own.  Taking free resources and giving owned ones back conserves the pool: ownership
stays exclusive and the free resources are always the initial ones minus the owned ones.
-/

namespace Kit

variable {ι : Type*}

/-- The free resources, and the set owned by each live allocation. -/
structure Ledger (ι : Type*) where
  free : Finset ι
  live : List (Finset ι)

namespace Ledger

/-- Some live allocation owns `i`. -/
def Owned (l : Ledger ι) (i : ι) : Prop := ∃ A ∈ l.live, i ∈ A

/-- Relative to the initially free resources: allocations own disjoint sets of them, and exactly
the rest is free. -/
structure Conserved (initial : Finset ι) (l : Ledger ι) : Prop where
  disjoint : l.live.Pairwise Disjoint
  within : ∀ A ∈ l.live, A ⊆ initial
  free_iff : ∀ i, i ∈ l.free ↔ i ∈ initial ∧ ¬ l.Owned i

theorem conserved_initial (initial : Finset ι) : Conserved initial ⟨initial, []⟩ :=
  ⟨List.Pairwise.nil, by simp, fun i => by simp [Owned]⟩

/-- What is owned is not free. -/
theorem Conserved.used {initial A : Finset ι} {l : Ledger ι} (h : Conserved initial l)
    (mem : A ∈ l.live) : Disjoint A l.free := by
  rw [Finset.disjoint_left]
  exact fun i hi free => ((h.free_iff i).mp free).2 ⟨A, mem, hi⟩

variable [DecidableEq ι]

/-- A new allocation of `A`. -/
def take (A : Finset ι) (l : Ledger ι) : Ledger ι := ⟨l.free \ A, A :: l.live⟩

/-- The resources `F` are given back by whoever owns them. -/
def give (F : Finset ι) (l : Ledger ι) : Ledger ι := ⟨l.free ∪ F, l.live.map (· \ F)⟩

/-- Taking free resources conserves the pool. -/
theorem Conserved.take {initial A : Finset ι} {l : Ledger ι} (h : Conserved initial l)
    (available : A ⊆ l.free) : Conserved initial (l.take A) := by
  refine ⟨List.pairwise_cons.mpr ⟨fun B hB => ?_, h.disjoint⟩, ?_, fun i => ?_⟩
  · rw [Finset.disjoint_left]
    intro i hi hiB
    exact ((h.free_iff i).mp (available hi)).2 ⟨B, hB, hiB⟩
  · intro B hB
    rcases List.mem_cons.mp hB with rfl | hB
    · exact fun i hi => ((h.free_iff i).mp (available hi)).1
    · exact h.within B hB
  · simp only [Ledger.take, Finset.mem_sdiff, h.free_iff i, Owned, List.exists_mem_cons_iff]
    by_cases hA : i ∈ A <;> simp [hA]

/-- Giving owned resources back conserves the pool. -/
theorem Conserved.give {initial F : Finset ι} {l : Ledger ι} (h : Conserved initial l)
    (owned : ∀ i ∈ F, l.Owned i) : Conserved initial (l.give F) := by
  refine ⟨?_, ?_, fun i => ?_⟩
  · rw [Ledger.give, List.pairwise_map]
    exact h.disjoint.imp fun d => d.mono Finset.sdiff_subset Finset.sdiff_subset
  · intro B hB
    obtain ⟨A, hA, rfl⟩ := List.mem_map.mp hB
    exact Finset.sdiff_subset.trans (h.within A hA)
  · have survives : (l.give F).Owned i ↔ l.Owned i ∧ i ∉ F := by
      simp only [Owned, Ledger.give, List.mem_map]
      constructor
      · rintro ⟨B, ⟨A, hA, rfl⟩, hi⟩
        rw [Finset.mem_sdiff] at hi
        exact ⟨⟨A, hA, hi.1⟩, hi.2⟩
      · rintro ⟨⟨A, hA, hi⟩, hF⟩
        exact ⟨A \ F, ⟨A, hA, rfl⟩, Finset.mem_sdiff.mpr ⟨hi, hF⟩⟩
    rw [survives]
    simp only [Ledger.give, Finset.mem_union, h.free_iff i]
    by_cases hF : i ∈ F
    · obtain ⟨A, hA, hi⟩ := owned i hF
      simp [hF, h.within A hA hi]
    · simp [hF]

/-- What is taken from the free resources belongs to nobody else. -/
theorem Conserved.fresh {initial A : Finset ι} {l : Ledger ι} (h : Conserved initial l)
    (available : A ⊆ l.free) {B : Finset ι} (mem : B ∈ l.live) : Disjoint A B :=
  (List.pairwise_cons.mp (h.take available).disjoint).1 B mem

end Ledger

/-! ## Tenants

The resources are units of cells.  A tenant uses cells in the units that somebody owns. -/

/-- The cells of a tenant, and the units they should be in. -/
structure Lease (α ι : Type*) where
  cells : Set α
  grant : Finset ι

/-- Every tenant stays in its units, and no two of them use the same cell. -/
structure Tenants {α : Type*} (unit : α → ι) (leases : List (Lease α ι)) : Prop where
  inside : ∀ l ∈ leases, ∀ a ∈ l.cells, unit a ∈ l.grant
  apart : leases.Pairwise fun l m => Disjoint l.cells m.cells

section

variable {α : Type*} {unit : α → ι} {leases : List (Lease α ι)} {l : Lease α ι}

theorem Tenants.nil : Tenants unit ([] : List (Lease α ι)) := ⟨by simp, List.Pairwise.nil⟩

/-- Cells in disjoint units are different. -/
theorem cells_disjoint {m : Lease α ι} (inside : ∀ a ∈ l.cells, unit a ∈ l.grant)
    (inside' : ∀ a ∈ m.cells, unit a ∈ m.grant) (grants : Disjoint l.grant m.grant) :
    Disjoint l.cells m.cells := by
  rw [Set.disjoint_left]
  exact fun a ha ha' => Finset.disjoint_left.mp grants (inside a ha) (inside' a ha')

/-- A new tenant may use units of its own, or share units with tenants of other cells. -/
theorem Tenants.cons (h : Tenants unit leases) (inside : ∀ a ∈ l.cells, unit a ∈ l.grant)
    (apart : ∀ m ∈ leases, Disjoint l.grant m.grant ∨ Disjoint l.cells m.cells) :
    Tenants unit (l :: leases) where
  inside := List.forall_mem_cons.mpr ⟨inside, h.inside⟩
  apart := List.pairwise_cons.mpr ⟨fun m hm =>
    (apart m hm).elim (cells_disjoint inside (h.inside m hm)) id, h.apart⟩

end

end Kit
