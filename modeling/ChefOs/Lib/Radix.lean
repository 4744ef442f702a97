import Mathlib.Tactic

/-!
# Radix trees of tables

Tables lie in a memory and an entry may point to a further table.  The tables of a tree are named
by the index paths that lead to them.  Without aliasing, changing one entry changes one path only:
either it keeps its child and no path moves, or it gets a fresh empty table.
-/

namespace Kit

variable {φ ι ε : Type*} {child : ε → Option φ} {depth : ℕ} {tab tab' : φ → ι → ε}
  {node : List ι → Option φ}

/-- `node p` is the table that the index path `p` leads to: the tables form a tree of the given
depth and no two paths share one. -/
structure Radix (child : ε → Option φ) (depth : ℕ) (tab : φ → ι → ε)
    (node : List ι → Option φ) : Prop where
  linked : ∀ p f i, p.length < depth → node p = some f → child (tab f i) = node (p ++ [i])
  distinct : ∀ p q f, node p = some f → node q = some f → p = q
  closed : ∀ p i, node p = none → node (p ++ [i]) = none

/-- `tab'` is `tab` with the entry `e` at `i` of the table `f`, as far as the tree is concerned. -/
def EntrySet (tab tab' : φ → ι → ε) (node : List ι → Option φ) (f : φ) (i : ι) (e : ε) : Prop :=
  (∀ q, node q = some f → tab' f i = e) ∧
    ∀ q g j, node q = some g → ¬ (g = f ∧ j = i) → tab' g j = tab g j

/-- Different entries of tables lie on different paths. -/
theorem path_ne {p q : List ι} {f g : φ} {i j : ι} (hf : node p = some f) (hg : node q = some g)
    (elsewhere : ¬ (g = f ∧ j = i)) : q ++ [j] ≠ p ++ [i] := by
  intro same
  apply elsewhere
  obtain ⟨rfl, same⟩ := List.append_inj' same rfl
  exact ⟨Option.some.inj (hg.symm.trans hf), by simpa using same⟩

/-- Every table on the way to a table exists, if no path leads on from where there is none. -/
theorem ancestors_of_closed (closed : ∀ p i, node p = none → node (p ++ [i]) = none)
    {p q : List ι} (h : node (p ++ q) ≠ none) : node p ≠ none := by
  induction q using List.reverseRecOn with
  | nil => rwa [List.append_nil] at h
  | append_singleton q i ih =>
    rw [← List.append_assoc] at h
    exact ih fun none => h (closed _ i none)

namespace Radix

/-- Tables at different depths are different. -/
theorem elsewhere (tree : Radix child depth tab node) {p q : List ι} {f g : φ} {i j : ι}
    (hf : node p = some f) (hg : node q = some g) (len : q.length ≠ p.length) :
    ¬ (g = f ∧ j = i) := by
  rintro ⟨rfl, -⟩
  exact len (by rw [tree.distinct p q g hf hg])

theorem ancestors (tree : Radix child depth tab node) {p q : List ι} (h : node (p ++ q) ≠ none) :
    node p ≠ none := ancestors_of_closed tree.closed h

/-- An entry may change if it keeps its child. -/
theorem retag (tree : Radix child depth tab node) {p : List ι} {f : φ} {i : ι} {e : ε}
    (hf : node p = some f) (same : p.length < depth → child e = child (tab f i))
    (set : EntrySet tab tab' node f i e) : Radix child depth tab' node := by
  refine ⟨fun q g j hq hg => ?_, tree.distinct, tree.closed⟩
  rw [← tree.linked q g j hq hg]
  by_cases here : g = f ∧ j = i
  · obtain ⟨rfl, rfl⟩ := here
    obtain rfl := tree.distinct p q g hf hg
    rw [set.1 p hf, same hq]
  · rw [set.2 q g j hg here]

/-- A vacant entry may get a fresh table without children. -/
theorem link [DecidableEq ι] (tree : Radix child depth tab node) {p : List ι} {f g : φ} {i : ι}
    {e : ε} (hf : node p = some f) (vacant : node (p ++ [i]) = none)
    (fresh : ∀ q, node q ≠ some g) (points : child e = some g)
    (empty : ∀ j, child (tab' g j) = none) (set : EntrySet tab tab' node f i e) :
    Radix child depth tab' (Function.update node (p ++ [i]) (some g)) := by
  refine ⟨fun q h j hq hh => ?_, fun q r h hq hr => ?_, fun q j hq => ?_⟩
  · by_cases new : q = p ++ [i]
    · -- the new table has no children, and neither had its path
      subst new
      rw [Function.update_self] at hh
      obtain rfl := Option.some.inj hh
      rw [empty j, Function.update_of_ne (by simp), tree.closed _ j vacant]
    · rw [Function.update_of_ne new] at hh
      by_cases here : h = f ∧ j = i
      · obtain ⟨rfl, rfl⟩ := here
        obtain rfl := tree.distinct p q h hf hh
        rw [set.1 p hf, points, Function.update_self]
      · rw [set.2 q h j hh here, Function.update_of_ne (path_ne hf hh here),
          tree.linked q h j hq hh]
  · simp only [Function.update_apply] at hq hr
    split_ifs at hq hr with hq' hr' hr'
    · rw [hq', hr']
    · rw [← Option.some.inj hq] at hr
      exact absurd hr (fresh r)
    · rw [← Option.some.inj hr] at hq
      exact absurd hq (fresh q)
    · exact tree.distinct q r h hq hr
  · have old : q ≠ p ++ [i] := fun same => by
      rw [same, Function.update_self] at hq
      exact absurd hq (by simp)
    rw [Function.update_of_ne old] at hq
    have other : q ++ [j] ≠ p ++ [i] := fun same => by
      obtain ⟨rfl, -⟩ := List.append_inj' same rfl
      rw [hf] at hq
      exact absurd hq (by simp)
    rw [Function.update_of_ne other, tree.closed q j hq]

end Radix

end Kit
