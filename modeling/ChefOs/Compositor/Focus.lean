import ChefOs.Compositor.Compositor
import ChefOs.Compositor.Leaks

/-!
# The window list and the focus

The window list is intrusive: registering a window writes its `next`, and destroying one does not
look for it in the list.  A run keeps the list in order exactly when no listed window is registered
again or destroyed.  The focus follows what is visible only as long as the workspace stays.
-/

namespace ChefOs

open Kit

/-! ## Window lists -/

section

variable {windows : ℕ → Window} {head : Option ℕ} {ws : List ℕ}

theorem next_update (windows : ℕ → Window) (w : ℕ) {v : Window} (next : v.next = head) :
    (fun u => (Function.update windows w v u).next) =
      Function.update (fun u => (windows u).next) w head :=
  funext fun u => (Function.apply_update (fun _ => Window.next) windows w v u).trans (by rw [next])

/-- A new head. -/
theorem Chain.push (chain : Chain windows head ws) {w : ℕ} (fresh : w ∉ ws) {v : Window}
    (next : v.next = head) : Chain (Function.update windows w v) (some w) (w :: ws) := by
  rw [Chain, next_update windows w next]
  exact Linked.push chain fresh

/-- A listed window put in front of its own list makes a cycle. -/
theorem Chain.push_cycle (chain : Chain windows head ws) {w : ℕ} (again : w ∈ ws) {v : Window}
    (next : v.next = head) {vs : List ℕ} :
    ¬ Chain (Function.update windows w v) (some w) vs := by
  rw [Chain, next_update windows w next]
  exact Linked.push_cycle chain again

end

/-- Creating a window leaves the live windows as they are, and the new one is not one of them. -/
theorem windowCreate_keeps {s : Desktop} {live rest : List ℕ} (owned : s.Owned live rest)
    (x y w h : BitVec 32) :
    (∀ v ∈ live, (windowCreate x y w h s).2.windows v = s.windows v) ∧
      ∀ win ∈ (windowCreate x y w h s).1, win ∉ live := by
  rw [windowCreate, Desktop.kzalloc]
  cases result : s.kmalloc.result s.log sizeofWindow with
  | none => exact ⟨fun _ _ => rfl, by simp⟩
  | some win =>
    have fresh : win ∉ live := fun mem =>
      owned.fresh result (List.mem_append_left _ (mem_blocks mem))
    constructor
    · intro v hv
      have other := ne_of_mem_of_not_mem hv fresh
      dsimp only
      generalize hs₁ : Desktop.setWindow win _ _ = s₁
      obtain ⟨surface, windows⟩ := s₁.newSurface_windows win (w - 2 * windowBorderWidth)
        (h - windowTitlebarHeight - windowBorderWidth)
      rw [windows, Function.update_of_ne other, ← hs₁]
      exact Function.update_of_ne other ..
    · simpa using fresh

/-! ## Calls on the list -/

/-- The scene, the live windows and those of them that are registered. -/
structure Session where
  scene : Scene
  live : List ℕ
  registered : List ℕ

/-- A call that touches the window list. -/
inductive ListOp
  | create (x y w h : BitVec 32) (title : List UInt8)
  | register (win : Option ℕ)
  | destroy (win : Option ℕ)
  | cycleFocus
  | setWorkspace (ws : BitVec 8)

/-- `window_create`, with the bytes it leaves in the title. -/
def Scene.create (x y w h : BitVec 32) (title : List UInt8) (s : Scene) : Option ℕ × Scene :=
  let (win, desktop) := windowCreate x y w h s.desktop
  (win, { s with
    desktop
    titles := match win with
      | none => s.titles
      | some win => Function.update s.titles win title })

/-- `window_destroy`. -/
def Scene.destroy (win : Option ℕ) (s : Scene) : Scene :=
  match win with
  | none => s
  | some win => { s with desktop := windowDestroy win s.desktop }

/-- One call; windows are registered and destroyed while they are live. -/
inductive ListStep : Session → ListOp → Session → Prop
  | create (s : Scene) (live registered : List ℕ) (x y w h : BitVec 32) (title : List UInt8) :
      ListStep ⟨s, live, registered⟩ (.create x y w h title)
        ⟨(s.create x y w h title).2, (s.create x y w h title).1.toList ++ live, registered⟩
  | register {s : Scene} {live registered : List ℕ} {win : Option ℕ}
      (known : ∀ w ∈ win, w ∈ live) :
      ListStep ⟨s, live, registered⟩ (.register win)
        ⟨compositorRegisterWindow win s, live, win.toList ++ registered⟩
  | destroy {s : Scene} {live registered : List ℕ} {win : Option ℕ}
      (known : ∀ w ∈ win, w ∈ live) :
      ListStep ⟨s, live, registered⟩ (.destroy win)
        ⟨s.destroy win, live.filter (some · ≠ win), registered.filter (some · ≠ win)⟩
  | cycleFocus (s : Scene) (live registered : List ℕ) :
      ListStep ⟨s, live, registered⟩ .cycleFocus ⟨compositorCycleFocus s, live, registered⟩
  | setWorkspace (s : Scene) (live registered : List ℕ) (ws : BitVec 8) :
      ListStep ⟨s, live, registered⟩ (.setWorkspace ws)
        ⟨compositorSetWorkspace ws s, live, registered⟩

/-- The window list ends, holds each registered window once and no destroyed one, and the focus is
on it. -/
def Session.WellFormed (x : Session) : Prop :=
  ∃ ws, Chain x.scene.desktop.windows x.scene.sComp.windowList ws ∧ ws.Nodup ∧
    (∀ w, w ∈ ws ↔ w ∈ x.registered) ∧ (∀ w ∈ ws, w ∈ x.live) ∧
    ∀ f, x.scene.sComp.focusedWindow = some f → f ∈ ws

/-- The call does not register or destroy a listed window. -/
def ListOp.Guard (x : Session) : ListOp → Prop
  | .register win => ∀ w ∈ win, w ∉ x.registered
  | .destroy win => ∀ w ∈ win, w ∉ x.registered
  | _ => True

/-- A call after which the list is in order. -/
def OrderedStep (x : Session) (op : ListOp) (y : Session) : Prop := ListStep x op y ∧ y.WellFormed

/-- A call that leaves the listed windows alone. -/
def CarefulStep (x : Session) (op : ListOp) (y : Session) : Prop := ListStep x op y ∧ op.Guard x

/-- The list is in order and the live windows own their blocks. -/
structure ListInv (rest : List ℕ) (x : Session) : Prop where
  wellFormed : x.WellFormed
  owned : x.scene.desktop.Owned x.live rest

/-- No window is live twice. -/
theorem live_nodup {s : Desktop} {live rest : List ℕ} (owned : s.Owned live rest) :
    live.Nodup := by
  have apart := (List.nodup_flatMap.mp owned.2.of_append_left).2
  apply apart.imp
  rintro v w disjoint rfl
  exact disjoint (List.mem_cons_self : v ∈ s.blocks v) List.mem_cons_self

theorem destroy_owned {s : Desktop} {live rest : List ℕ} {win : ℕ} (owned : s.Owned live rest)
    (known : win ∈ live) :
    (windowDestroy win s).Owned (live.filter (some · ≠ some win)) rest := by
  have same : live.erase win = live.filter (some · ≠ some win) := by
    rw [(live_nodup owned).erase_eq_filter]
    apply List.filter_congr
    intro v _
    rw [Bool.eq_iff_iff]
    simp
  rw [← same]
  exact windowDestroy_owned owned known

@[simp] theorem windowDestroy_windows (win : ℕ) (s : Desktop) :
    (windowDestroy win s).windows = s.windows := Desktop.dropSurface_windows ..

/-- The account of blocks survives every call. -/
theorem listStep_owned {rest : List ℕ} {x y : Session} {op : ListOp}
    (owned : x.scene.desktop.Owned x.live rest) (step : ListStep x op y) :
    y.scene.desktop.Owned y.live rest := by
  cases step with
  | create s live registered x y w h title => exact windowCreate_owned owned x y w h
  | @register s live registered win known =>
    cases win with
    | none => exact owned
    | some win => exact setWindow_owned owned rfl
  | @destroy s live registered win known =>
    cases win with
    | none => simpa [Scene.destroy] using owned
    | some win => exact destroy_owned owned (known win rfl)
  | cycleFocus s live registered =>
    unfold compositorCycleFocus
    split <;> exact owned
  | setWorkspace s live registered ws =>
    unfold compositorSetWorkspace
    split <;> exact owned

/-- The window that the focus moves to is listed. -/
theorem afterFocus_mem {s : Scene} {ws : List ℕ}
    (chain : Chain s.desktop.windows s.sComp.windowList ws)
    (listed : ∀ f, s.sComp.focusedWindow = some f → f ∈ ws) {f : ℕ}
    (after : s.afterFocus = some f) : f ∈ ws := by
  have first : s.sComp.windowList = some f → f ∈ ws := by
    intro head
    rw [head] at chain
    exact chain.head_mem
  unfold Scene.afterFocus at after
  cases focused : s.sComp.focusedWindow with
  | none =>
    rw [focused] at after
    exact first after
  | some v =>
    rw [focused] at after
    dsimp only at after
    cases next : (s.window v).next with
    | none =>
      rw [next] at after
      exact first after
    | some w =>
      rw [next] at after
      obtain rfl := Option.some.inj after
      exact chain.next_mem (listed v focused) next

/-- With a window in the list the focus moves to some window. -/
theorem afterFocus_some {s : Scene} {head : ℕ} (windowList : s.sComp.windowList = some head) :
    ∃ f, s.afterFocus = some f := by
  unfold Scene.afterFocus
  split
  · exact ⟨head, windowList⟩
  · split
    · exact ⟨head, windowList⟩
    · exact ⟨_, rfl⟩

/-- A careful call leaves the list in order. -/
theorem carefulStep_wellFormed {rest : List ℕ} {x y : Session} {op : ListOp}
    (inv : ListInv rest x) (step : CarefulStep x op y) : y.WellFormed := by
  obtain ⟨⟨ws, chain, nodup, registered, live, focus⟩, owned⟩ := inv
  obtain ⟨step, guard⟩ := step
  cases step with
  | create s _ _ x y w h title =>
    obtain ⟨keeps, -⟩ := windowCreate_keeps owned x y w h
    exact ⟨ws, chain.congr fun v hv => congrArg Window.next (keeps v (live v hv)), nodup, registered,
      fun v hv => List.mem_append_right _ (live v hv), focus⟩
  | @register s _ _ win known =>
    cases win with
    | none => exact ⟨ws, chain, nodup, registered, live, focus⟩
    | some win =>
      have fresh : win ∉ ws := fun mem => guard win rfl ((registered win).mp mem)
      refine ⟨win :: ws, chain.push fresh rfl, List.nodup_cons.mpr ⟨fresh, nodup⟩, ?_, ?_, ?_⟩
      · intro w
        rw [List.mem_cons, registered]
        simp
      · exact List.forall_mem_cons.mpr ⟨known win rfl, live⟩
      · intro f hf
        obtain rfl := Option.some.inj hf
        exact List.mem_cons_self
  | @destroy s _ _ win known =>
    cases win with
    | none =>
      refine ⟨ws, chain, nodup, ?_, ?_, focus⟩
      · simpa using registered
      · simpa using live
    | some win =>
      have kept : ∀ w ∈ ws, w ≠ win := by
        rintro w hw rfl
        exact guard w rfl ((registered w).mp hw)
      refine ⟨ws, ?_, nodup, ?_, ?_, focus⟩
      · exact chain.congr fun w _ =>
          congrArg Window.next (congrFun (windowDestroy_windows win s.desktop) w)
      · intro w
        rw [registered, List.mem_filter]
        have := kept w
        grind
      · intro w hw
        have := kept w hw
        simp [live w hw, this]
  | cycleFocus s _ _ =>
    unfold compositorCycleFocus
    split
    · exact ⟨ws, chain, nodup, registered, live, focus⟩
    · exact ⟨ws, chain, nodup, registered, live, fun f hf => afterFocus_mem chain focus hf⟩
  | setWorkspace s _ _ w =>
    unfold compositorSetWorkspace
    split <;> exact ⟨ws, chain, nodup, registered, live, focus⟩

/-- A call that leaves the list in order was careful. -/
theorem orderedStep_guard {x y : Session} {op : ListOp} (wellFormed : x.WellFormed)
    (step : OrderedStep x op y) : op.Guard x := by
  obtain ⟨ws, chain, -, registered, -, -⟩ := wellFormed
  obtain ⟨step, vs, chain', nodup', registered', -, -⟩ := step
  cases step with
  | @register s _ _ win known =>
    rintro w hw again
    obtain rfl : win = some w := hw
    exact chain.push_cycle ((registered w).mpr again) rfl chain'
  | @destroy s _ _ win known =>
    rintro w hw again
    obtain rfl : win = some w := hw
    have same : Chain s.desktop.windows s.sComp.windowList vs :=
      chain'.congr fun u _ =>
        congrArg Window.next (congrFun (windowDestroy_windows w s.desktop) u).symm
    have listed : w ∈ vs := by
      rw [← chain.unique same]
      exact (registered w).mpr again
    have := (registered' w).mp listed
    simp at this
  | _ => trivial

/-- A run after `compositor_init` keeps the window list in order in every state if and only if no
call of it registers or destroys a window that is in the list. -/
theorem listRun_iff {desktop : Desktop} {live rest : List ℕ} (owned : desktop.Owned live rest)
    (fb : Option FbInfo) (titles : ℕ → List UInt8) {ops : List ListOp} {x : Session} :
    Run OrderedStep ⟨⟨desktop, titles, compositorInit fb⟩, live, []⟩ ops x ↔
      Run CarefulStep ⟨⟨desktop, titles, compositorInit fb⟩, live, []⟩ ops x := by
  have start : ListInv rest ⟨⟨desktop, titles, compositorInit fb⟩, live, []⟩ :=
    ⟨⟨[], .nil, List.nodup_nil, by simp, by simp, fun f hf => by cases hf⟩, owned⟩
  apply Run.iff_of_step_iff (I := ListInv rest)
  · intro x op y inv
    constructor
    · intro ordered
      exact ⟨ordered.1, orderedStep_guard inv.wellFormed ordered⟩
    · intro careful
      exact ⟨careful.1, carefulStep_wellFormed inv careful⟩
  · intro x op y inv ordered
    exact ⟨ordered.2, listStep_owned inv.owned ordered.1⟩
  · exact start

/-- A screen without windows, and an empty heap. -/
def bareSession : Session where
  scene := ⟨{ exampleDesktop with log := [] }, fun _ => [0], compositorInit none⟩
  live := []
  registered := []

/-- Two windows in the list, and a third one destroyed before it is registered. -/
def twoWindowCalls : List ListOp :=
  [.create 0 0 100 100 [0x61, 0], .register (some 1), .create 0 0 100 100 [0x62, 0],
    .register (some 8), .cycleFocus, .create 0 0 100 100 [0x63, 0], .destroy (some 64),
    .setWorkspace 2]

theorem listRun_example : ∃ x, Run OrderedStep bareSession twoWindowCalls x ∧
    x.live = [8, 1] ∧ x.registered = [8, 1] := by
  have owned : bareSession.scene.desktop.Owned [] [] := ⟨.refl [], List.nodup_nil⟩
  have run : ∃ x, Run CarefulStep bareSession twoWindowCalls x ∧
      x.live = [8, 1] ∧ x.registered = [8, 1] :=
    ⟨_, .cons ⟨.create .., trivial⟩ (.cons ⟨.register (by decide), by unfold ListOp.Guard; decide⟩
      (.cons ⟨.create .., trivial⟩ (.cons ⟨.register (by decide), by unfold ListOp.Guard; decide⟩
      (.cons ⟨.cycleFocus .., trivial⟩ (.cons ⟨.create .., trivial⟩
      (.cons ⟨.destroy (by decide), by unfold ListOp.Guard; decide⟩
      (.cons ⟨.setWorkspace .., trivial⟩ (.nil _)))))))), by decide, by decide⟩
  obtain ⟨x, run, ends⟩ := run
  exact ⟨x, (listRun_iff owned none fun _ => [0]).mpr run, ends⟩

/-- A destroyed window stays in the list. -/
theorem destroyed_window_listed : ∃ x,
    Run ListStep bareSession
      [.create 0 0 100 100 [0x61, 0], .register (some 1), .destroy (some 1)] x ∧
    ¬ x.WellFormed := by
  refine ⟨_, .cons (.create ..) (.cons (.register (by decide)) (.cons (.destroy (by decide))
    (.nil _))), ?_⟩
  rintro ⟨ws, chain, -, registered, -⟩
  have listed := (registered 1).mp chain.head_mem
  exact absurd listed (by decide)

/-! ## Focus and visibility -/

/-- A call on registered windows. -/
inductive FocusOp
  | register (win : ℕ)
  | cycleFocus
  | setWorkspace (ws : BitVec 8)
deriving DecidableEq

/-- One call, with the registered windows; no window is registered twice. -/
inductive FocusStep : Scene × List ℕ → FocusOp → Scene × List ℕ → Prop
  | register {s : Scene} {registered : List ℕ} {win : ℕ} (fresh : win ∉ registered) :
      FocusStep (s, registered) (.register win)
        (compositorRegisterWindow (some win) s, win :: registered)
  | cycleFocus (s : Scene) (registered : List ℕ) :
      FocusStep (s, registered) .cycleFocus (compositorCycleFocus s, registered)
  | setWorkspace (s : Scene) (registered : List ℕ) (ws : BitVec 8) :
      FocusStep (s, registered) (.setWorkspace ws) (compositorSetWorkspace ws s, registered)

/-- The window is shown. -/
def Scene.Shows (s : Scene) (win : ℕ) : Prop := (s.window win).Visible s.sComp.activeWorkspace

instance (s : Scene) (win : ℕ) : Decidable (s.Shows win) :=
  inferInstanceAs (Decidable ((s.window win).Visible s.sComp.activeWorkspace))

/-- If a registered window is shown, then one that is shown has the focus; otherwise none has. -/
def FocusFollows (x : Scene × List ℕ) : Prop :=
  if ∃ w ∈ x.2, x.1.Shows w then ∃ f ∈ x.2, x.1.sComp.focusedWindow = some f ∧ x.1.Shows f
  else x.1.sComp.focusedWindow = none

/-- A registered window is shown, and the workspace is only left while there is no window. -/
def FocusOp.Guard (x : Scene × List ℕ) : FocusOp → Prop
  | .register win => x.1.Shows win
  | .cycleFocus => True
  | .setWorkspace ws => ws ≥ 1 ∧ ws ≤ 4 → ws = x.1.sComp.activeWorkspace ∨ x.2 = []

/-- A call after which the focus follows what is shown. -/
def FollowingStep (x : Scene × List ℕ) (op : FocusOp) (y : Scene × List ℕ) : Prop :=
  FocusStep x op y ∧ FocusFollows y

/-- A call that shows what it registers and stays on the workspace. -/
def SteadyStep (x : Scene × List ℕ) (op : FocusOp) (y : Scene × List ℕ) : Prop :=
  FocusStep x op y ∧ op.Guard x

/-- Every registered window is listed and shown, and one of them has the focus. -/
structure FocusInv (x : Scene × List ℕ) : Prop where
  listed : ∃ ws, Chain x.1.desktop.windows x.1.sComp.windowList ws ∧ ∀ w, w ∈ ws ↔ w ∈ x.2
  shown : ∀ w ∈ x.2, x.1.Shows w
  focus : x.2 = [] ∧ x.1.sComp.focusedWindow = none ∨
    ∃ f ∈ x.2, x.1.sComp.focusedWindow = some f

theorem FocusInv.follows {x : Scene × List ℕ} (inv : FocusInv x) : FocusFollows x := by
  unfold FocusFollows
  rcases inv.focus with ⟨none, unfocused⟩ | ⟨f, mem, focused⟩
  · rw [if_neg (by simp [none])]
    exact unfocused
  · rw [if_pos ⟨f, mem, inv.shown f mem⟩]
    exact ⟨f, mem, focused, inv.shown f mem⟩

/-- Registering changes neither what is shown nor the workspace. -/
theorem shows_register (s : Scene) (win w : ℕ) :
    (compositorRegisterWindow (some win) s).Shows w ↔ s.Shows w := by
  unfold Scene.Shows Scene.window compositorRegisterWindow Desktop.setWindow Window.Visible
  by_cases hw : w = win
  · simp [hw, Scene.window]
  · simp [hw]

theorem steadyStep_inv {x y : Scene × List ℕ} {op : FocusOp} (inv : FocusInv x)
    (step : SteadyStep x op y) : FocusInv y := by
  obtain ⟨⟨ws, chain, listed⟩, shown, focus⟩ := inv
  obtain ⟨step, guard⟩ := step
  cases step with
  | @register s registered win fresh =>
    have fresh' : win ∉ ws := fun mem => fresh ((listed win).mp mem)
    refine ⟨⟨win :: ws, chain.push fresh' rfl, fun w => ?_⟩, ?_, ?_⟩
    · rw [List.mem_cons, List.mem_cons, listed]
    · simp only [shows_register]
      exact List.forall_mem_cons.mpr ⟨guard, shown⟩
    · exact .inr ⟨win, List.mem_cons_self, rfl⟩
  | cycleFocus s registered =>
    unfold compositorCycleFocus
    split
    · exact ⟨⟨ws, chain, listed⟩, shown, focus⟩
    · rename_i head windowList
      have focused : ∀ f, s.sComp.focusedWindow = some f → f ∈ ws := by
        intro f hf
        rcases focus with ⟨-, unfocused⟩ | ⟨v, mem, here⟩
        · exact absurd (hf.symm.trans unfocused) (by simp)
        · obtain rfl := Option.some.inj (hf.symm.trans here)
          exact (listed f).mpr mem
      obtain ⟨f, after⟩ := afterFocus_some windowList
      exact ⟨⟨ws, chain, listed⟩, shown,
        .inr ⟨f, (listed f).mp (afterFocus_mem chain focused after), after⟩⟩
  | setWorkspace s registered w =>
    unfold compositorSetWorkspace
    split
    · rename_i valid
      rcases guard valid with rfl | none
      · exact ⟨⟨ws, chain, listed⟩, shown, focus⟩
      · obtain rfl : registered = [] := none
        exact ⟨⟨ws, chain, listed⟩, by simp, focus⟩
    · exact ⟨⟨ws, chain, listed⟩, shown, focus⟩

/-- A call after which the focus follows what is shown is steady. -/
theorem followingStep_guard {x y : Scene × List ℕ} {op : FocusOp} (inv : FocusInv x)
    (step : FollowingStep x op y) : op.Guard x := by
  obtain ⟨-, shown, focus⟩ := inv
  obtain ⟨step, follows⟩ := step
  unfold FocusFollows at follows
  cases step with
  | @register s registered win fresh =>
    split at follows
    · obtain ⟨f, -, focused, visible⟩ := follows
      obtain rfl : win = f := Option.some.inj focused
      exact (shows_register s win win).mp visible
    · exact absurd follows (by simp [compositorRegisterWindow])
  | cycleFocus s registered => trivial
  | setWorkspace s registered w =>
    intro valid
    by_contra moved
    rw [not_or] at moved
    obtain ⟨moved, nonempty⟩ := moved
    -- every registered window was left behind, and one of them has the focus
    have hidden : ∀ v ∈ registered, ¬ (compositorSetWorkspace w s).Shows v := by
      intro v mem visible
      have here : (s.window v).workspaceId = s.sComp.activeWorkspace := (shown v mem).1
      unfold compositorSetWorkspace at visible
      rw [if_pos valid] at visible
      exact moved (visible.1.symm.trans here)
    have nothing : ¬ ∃ v ∈ registered, (compositorSetWorkspace w s).Shows v := by
      rintro ⟨v, mem, visible⟩
      exact hidden v mem visible
    rw [if_neg nothing] at follows
    rcases focus with ⟨none, -⟩ | ⟨f, -, focused⟩
    · exact nonempty none
    · unfold compositorSetWorkspace at follows
      rw [if_pos valid] at follows
      exact absurd (focused.symm.trans follows) (by simp)

/-- A run after `compositor_init` that registers distinct windows keeps the focus on what is shown
in every state if and only if it registers windows only while they are shown, and leaves the
workspace only while no window is registered. -/
theorem focusRun_iff (desktop : Desktop) (titles : ℕ → List UInt8) (fb : Option FbInfo)
    {ops : List FocusOp} {x : Scene × List ℕ} :
    Run FollowingStep (⟨desktop, titles, compositorInit fb⟩, []) ops x ↔
      Run SteadyStep (⟨desktop, titles, compositorInit fb⟩, []) ops x := by
  have start : FocusInv (⟨desktop, titles, compositorInit fb⟩, []) :=
    ⟨⟨[], .nil, by simp⟩, by simp, .inl ⟨rfl, rfl⟩⟩
  apply Run.iff_of_step_iff (I := FocusInv)
  · intro x op y inv
    constructor
    · intro following
      exact ⟨following.1, followingStep_guard inv following⟩
    · intro steady
      exact ⟨steady.1, (steadyStep_inv inv steady).follows⟩
  · intro x op y inv following
    exact steadyStep_inv inv ⟨following.1, followingStep_guard inv following⟩
  · exact start

/-- The focus stays on a window of the workspace that was left. -/
theorem focus_left_behind : ∃ x,
    Run FocusStep (bareSession.scene, []) [.register 1, .setWorkspace 2] x ∧ ¬ FocusFollows x := by
  refine ⟨_, .cons (.register (by simp)) (.cons (.setWorkspace ..) (.nil _)), ?_⟩
  unfold FocusFollows
  decide

end ChefOs
