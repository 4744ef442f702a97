import ChefOs.Compositor.Focus
import ChefOs.Lib.Rotation

/-!
# Cycling the focus

The window list, read from the window with the focus and wrapped around at its end, is a ring that
`compositor_cycle_focus` turns.
-/

namespace ChefOs

open Kit

/-- The window list from the window with the focus on, and then from its head on. -/
def Scene.FocusRing (s : Scene) (ring : List ℕ) : Prop :=
  ∃ before f after, ring = f :: after ++ before ∧ s.sComp.focusedWindow = some f ∧
    Chain s.desktop.windows s.sComp.windowList (before ++ f :: after)

theorem Scene.FocusRing.focused {s : Scene} {ring : List ℕ} (h : s.FocusRing ring) :
    s.sComp.focusedWindow = ring.head? := by
  obtain ⟨before, f, after, rfl, focused, -⟩ := h
  exact focused

/-- The focus moves to the window behind, or back to the head of the list. -/
theorem Scene.FocusRing.cycleFocus {s : Scene} {ring : List ℕ} (h : s.FocusRing ring) :
    (compositorCycleFocus s).FocusRing (ring.rotate 1) := by
  obtain ⟨before, f, after, rfl, focused, chain⟩ := h
  have next : (s.window f).next = after.head? := chain.next_eq
  have head := chain.head_eq
  unfold compositorCycleFocus
  cases after with
  | cons g after =>
    refine ⟨before ++ [f], g, after, by simp, ?_, ?_⟩
    · simp [head, Scene.afterFocus, focused, next]
    · simpa [head] using chain
  | nil =>
    cases before with
    | nil =>
      refine ⟨[], f, [], by simp, ?_, ?_⟩
      · simp [head, Scene.afterFocus, focused, next]
      · simpa [head] using chain
    | cons g before =>
      refine ⟨[], g, before ++ [f], by simp, ?_, ?_⟩
      · simp [head, Scene.afterFocus, focused, next]
      · simpa [head] using chain

theorem turning_cycleFocus :
    Turning Scene.FocusRing (·.sComp.focusedWindow) compositorCycleFocus where
  reads := Scene.FocusRing.focused
  turns := Scene.FocusRing.cycleFocus

/-! ## Registered windows -/

/-- The windows in the order of their registration. -/
def Scene.registerAll (ws : List ℕ) (s : Scene) : Scene :=
  ws.foldl (fun s w => compositorRegisterWindow (some w) s) s

/-- Each window comes before the ones that were registered earlier, and the last one has the
focus. -/
theorem registerAll_listed {s : Scene} {ws listed : List ℕ} (distinct : (ws ++ listed).Nodup)
    (chain : Chain s.desktop.windows s.sComp.windowList listed)
    (focused : s.sComp.focusedWindow = listed.head?) :
    Chain (s.registerAll ws).desktop.windows (s.registerAll ws).sComp.windowList
        (ws.reverse ++ listed) ∧
      (s.registerAll ws).sComp.focusedWindow = (ws.reverse ++ listed).head? := by
  induction ws generalizing s listed with
  | nil => exact ⟨chain, focused⟩
  | cons w ws ih =>
    have apart : (ws ++ w :: listed).Nodup := List.nodup_middle.mpr distinct
    have fresh : w ∉ listed := (List.nodup_cons.mp apart.of_append_right).1
    rw [List.reverse_cons, List.append_assoc]
    exact ih apart (chain.push fresh rfl) rfl

/-- After `compositor_init`, the last window registered comes first in the ring. -/
theorem registerAll_ring (desktop : Desktop) (titles : ℕ → List UInt8) (fb : Option FbInfo)
    {ws : List ℕ} (distinct : ws.Nodup) (nonempty : ws ≠ []) :
    (Scene.registerAll ws ⟨desktop, titles, compositorInit fb⟩).FocusRing ws.reverse := by
  have empty : Chain desktop.windows (compositorInit fb).windowList [] := .nil
  have apart : (ws ++ []).Nodup := by rwa [List.append_nil]
  have listed := registerAll_listed (s := ⟨desktop, titles, compositorInit fb⟩) apart empty rfl
  rw [List.append_nil] at listed
  obtain ⟨chain, focused⟩ := listed
  cases order : ws.reverse with
  | nil => exact absurd (List.reverse_eq_nil_iff.mp order) nonempty
  | cons f after =>
    rw [order] at chain focused
    exact ⟨[], f, after, by simp, focused, chain⟩

/-- After distinct windows are registered and the focus is cycled any number of times, as many
further calls as there are windows give the focus to each of them once, and at last back to the one
that had it. -/
theorem cycleFocus_visits (desktop : Desktop) (titles : ℕ → List UInt8) (fb : Option FbInfo)
    {ws : List ℕ} (distinct : ws.Nodup) (k : ℕ) :
    let s := compositorCycleFocus^[k] (Scene.registerAll ws ⟨desktop, titles, compositorInit fb⟩)
    List.Perm ((List.range ws.length).map fun i =>
        (compositorCycleFocus^[i + 1] s).sComp.focusedWindow) (ws.map some) ∧
      (compositorCycleFocus^[ws.length] s).sComp.focusedWindow = s.sComp.focusedWindow := by
  by_cases nonempty : ws = []
  · rw [nonempty]
    exact ⟨.nil, rfl⟩
  intro s
  have ring : s.FocusRing (ws.reverse.rotate k) :=
    turning_cycleFocus.iterate (registerAll_ring desktop titles fb distinct nonempty) k
  have length : (ws.reverse.rotate k).length = ws.length := by simp
  have visits := turning_cycleFocus.visits ring
  have returns := turning_cycleFocus.returns ring
  rw [length] at visits returns
  constructor
  · rw [visits, List.rotate_rotate]
    apply List.Perm.map
    exact (List.rotate_perm ..).trans (List.reverse_perm ws)
  · exact returns

theorem cycleFocus_visits_example :
    let s := compositorCycleFocus^[2] (Scene.registerAll [3, 1, 4, 5] bareSession.scene)
    List.Perm ((List.range [3, 1, 4, 5].length).map fun i =>
        (compositorCycleFocus^[i + 1] s).sComp.focusedWindow) ([3, 1, 4, 5].map some) ∧
      (compositorCycleFocus^[[3, 1, 4, 5].length] s).sComp.focusedWindow =
        s.sComp.focusedWindow :=
  cycleFocus_visits _ (fun _ => [0]) none (by decide) 2

end ChefOs
