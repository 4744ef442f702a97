import ChefOs.Compositor.Tiling
import ChefOs.Lib.Run

/-!
# No window memory is lost

Whatever calls are made on windows, and whichever of their allocations fail, the blocks in use are
those of the live windows, and only blocks in use are given back to the heap.
-/

namespace ChefOs

open Kit

section

variable {s : Desktop} {win : ℕ} {rest : List ℕ}

/-! ## Released blocks are held -/

theorem surfaceDestroy_frees {surf : ℕ}
    (h : Exactly s.log (s.surfaceBlocks (some surf) ++ rest)) (legal : FreesHeld s.log) :
    FreesHeld (surfaceDestroy surf s).log := by
  rw [Desktop.surfaceBlocks] at h
  unfold surfaceDestroy
  cases pixels : (s.surfaces surf).pixels with
  | none =>
    rw [pixels] at h
    exact h.frees legal
  | some b =>
    rw [pixels] at h
    have first := h.perm (.swap b surf rest)
    exact first.free.frees (first.frees legal)

theorem dropSurface_frees (h : Exactly s.log (s.blocks win ++ rest)) (legal : FreesHeld s.log) :
    FreesHeld (s.dropSurface win).log := by
  rw [Desktop.blocks] at h
  unfold Desktop.dropSurface
  cases surface : (s.windows win).surface with
  | none => exact legal
  | some surf =>
    rw [surface] at h
    exact surfaceDestroy_frees (h.perm List.perm_middle.symm) legal

theorem newSurface_frees (surfW surfH : BitVec 32) (legal : FreesHeld s.log) :
    FreesHeld (s.newSurface win surfW surfH).log := by
  unfold Desktop.newSurface surfaceCreate Desktop.kzalloc
  cases s.kmalloc.result s.log sizeofSurface with
  | none => exact legal
  | some surf =>
    simp only [Desktop.setWindow, Desktop.zeroPixels_log]
    exact legal

@[simp] theorem draw_log (paint : WindowPaint) : (s.draw paint win).log = s.log := by
  unfold Desktop.draw
  split
  · rfl
  · split <;> rfl

@[simp] theorem callPaint_log : (s.callPaint win).log = s.log := by
  unfold Desktop.callPaint
  cases (s.windows win).paint with
  | none => rfl
  | some paint => exact draw_log ..

theorem windowResizeSurface_frees (newW newH : BitVec 32)
    (h : Exactly s.log (s.blocks win ++ rest)) (legal : FreesHeld s.log) :
    FreesHeld (windowResizeSurface win newW newH s).log := by
  rw [windowResizeSurface]
  set s₁ := s.setWindow win { s.windows win with width := newW, height := newH }
  have h₁ : Exactly s₁.log (s₁.blocks win ++ rest) := exactly_setWindow rfl h
  split_ifs with fits
  · exact legal
  · rw [callPaint_log]
    exact newSurface_frees _ _ (dropSurface_frees h₁ legal)

theorem windowCreate_frees (x y w h : BitVec 32) (legal : FreesHeld s.log) :
    FreesHeld (windowCreate x y w h s).2.log := by
  rw [windowCreate, Desktop.kzalloc]
  cases s.kmalloc.result s.log sizeofWindow with
  | none => exact legal
  | some win => exact newSurface_frees _ _ legal

theorem windowDestroy_frees {live : List ℕ} (owned : s.Owned live rest) (hwin : win ∈ live)
    (legal : FreesHeld s.log) : FreesHeld (windowDestroy win s).log := by
  have h := (owned_iff hwin).mp owned
  obtain ⟨log, dropped, h'⟩ := dropSurface_exactly h
  have legal' := dropSurface_frees h legal
  rw [windowDestroy]
  rw [dropped] at legal' ⊢
  exact h'.frees legal'

theorem place_frees {live : List ℕ} (owned : s.Owned live rest) (hwin : win ∈ live) (f : Frame)
    (legal : FreesHeld s.log) : FreesHeld (place win f s).log := by
  have h := (owned_iff hwin).mp owned
  exact windowResizeSurface_frees f.width f.height (exactly_setWindow rfl h) legal

/-- A resize is a placement at the present position. -/
theorem resize_eq_place (win : ℕ) (newW newH : BitVec 32) (s : Desktop) :
    windowResizeSurface win newW newH s =
      place win ⟨(s.windows win).x, (s.windows win).y, newW, newH⟩ s := by
  have twice : ∀ w v : Window, (s.setWindow win v).setWindow win w = s.setWindow win w := by
    intro w v
    simp only [Desktop.setWindow, Function.update_idem]
  rw [place, windowResizeSurface, windowResizeSurface, Desktop.setWindow_self, twice]
  rfl

end

theorem placeAll_frees {s : Desktop} {live rest : List ℕ} (owned : s.Owned live rest)
    {pairs : List (ℕ × Frame)} (known : ∀ p ∈ pairs, p.1 ∈ live) (legal : FreesHeld s.log) :
    FreesHeld (placeAll pairs s).log := by
  induction pairs generalizing s with
  | nil => exact legal
  | cons p pairs ih =>
    have hp := known p List.mem_cons_self
    exact ih (place_owned owned hp p.2).1 (fun q hq => known q (List.mem_cons_of_mem p hq))
      (place_frees owned hp p.2 legal)

/-- A layout over live windows keeps the account. -/
theorem layoutApply_owned {s s' : Desktop} {live rest : List ℕ} (owned : s.Owned live rest)
    (legal : FreesHeld s.log) {windowList : Option ℕ} {ws : List ℕ}
    (chain : Chain s.windows windowList ws) (known : ∀ w ∈ ws, w ∈ live) {fuel : ℕ}
    (enough : ws.length < fuel) {activeWorkspace : BitVec 8} {screenW screenH : BitVec 32}
    {l : LayoutEngine}
    (call : layoutApply fuel windowList activeWorkspace screenW screenH l s = some s') :
    s'.Owned live rest ∧ FreesHeld s'.log := by
  rw [layoutApply_eq chain enough] at call
  obtain rfl := Option.some.inj call
  have known' : ∀ p ∈ (placed activeWorkspace s.windows ws).zip
      (tiles l screenW screenH (placed activeWorkspace s.windows ws).length), p.1 ∈ live :=
    fun p hp => known _ (mem_of_mem_placed (List.of_mem_zip hp).1)
  exact ⟨(placeAll_owned owned known').1, placeAll_frees owned known' legal⟩

/-! ## Runs -/

/-- A call on windows, or a write to the other fields of a window. -/
inductive DesktopOp
  | create (x y w h : BitVec 32)
  | resize (win : ℕ) (newW newH : BitVec 32)
  | layout (windowList : Option ℕ) (activeWorkspace : BitVec 8) (screenW screenH : BitVec 32)
      (l : LayoutEngine)
  | destroy (win : ℕ)
  | write (win : ℕ) (w : Window)

/-- One call, with the live windows: those created and not destroyed. -/
inductive DesktopStep : Desktop × List ℕ → DesktopOp → Desktop × List ℕ → Prop
  | create (s : Desktop) (live : List ℕ) (x y w h : BitVec 32) :
      DesktopStep (s, live) (.create x y w h)
        ((windowCreate x y w h s).2, (windowCreate x y w h s).1.toList ++ live)
  | resize {s : Desktop} {live : List ℕ} {win : ℕ} (known : win ∈ live) (newW newH : BitVec 32) :
      DesktopStep (s, live) (.resize win newW newH) (windowResizeSurface win newW newH s, live)
  | layout {s s' : Desktop} {live ws : List ℕ} {windowList : Option ℕ} {fuel : ℕ}
      {activeWorkspace : BitVec 8} {screenW screenH : BitVec 32} {l : LayoutEngine}
      (chain : Chain s.windows windowList ws) (known : ∀ w ∈ ws, w ∈ live)
      (enough : ws.length < fuel)
      (call : layoutApply fuel windowList activeWorkspace screenW screenH l s = some s') :
      DesktopStep (s, live) (.layout windowList activeWorkspace screenW screenH l) (s', live)
  | destroy {s : Desktop} {live : List ℕ} {win : ℕ} (known : win ∈ live) :
      DesktopStep (s, live) (.destroy win) (windowDestroy win s, live.erase win)
  | write {s : Desktop} {live : List ℕ} {win : ℕ} {w : Window} (known : win ∈ live)
      (surface : w.surface = (s.windows win).surface) :
      DesktopStep (s, live) (.write win w) (s.setWindow win w, live)

/-- The blocks in use are those of the live windows and `rest`, and only blocks in use were given
back. -/
structure Account (rest : List ℕ) (x : Desktop × List ℕ) : Prop where
  owned : x.1.Owned x.2 rest
  legal : FreesHeld x.1.log

theorem setWindow_owned {s : Desktop} {win : ℕ} {w : Window} {live rest : List ℕ}
    (owned : s.Owned live rest) (surface : w.surface = (s.windows win).surface) :
    (s.setWindow win w).Owned live rest := by
  have same : ∀ v ∈ live, (s.setWindow win w).blocks v = s.blocks v := by
    intro v _
    by_cases hv : v = win
    · rw [hv, blocks_setWindow, surface]
      rfl
    · simp only [Desktop.blocks, Desktop.setWindow, Function.update_of_ne hv]
      rfl
  rw [Desktop.Owned, List.flatMap_congr same]
  exact owned

/-- Every call keeps the account. -/
theorem desktopStep_account {rest : List ℕ} {x y : Desktop × List ℕ} {op : DesktopOp}
    (account : Account rest x) (step : DesktopStep x op y) : Account rest y := by
  obtain ⟨owned, legal⟩ := account
  cases step with
  | create _ _ x y w h => exact ⟨windowCreate_owned owned x y w h, windowCreate_frees x y w h legal⟩
  | resize known newW newH =>
    rw [resize_eq_place]
    exact ⟨(place_owned owned known _).1, place_frees owned known _ legal⟩
  | layout chain known enough call =>
    obtain ⟨owned', legal'⟩ := layoutApply_owned owned legal chain known enough call
    exact ⟨owned', legal'⟩
  | destroy known => exact ⟨windowDestroy_owned owned known, windowDestroy_frees owned known legal⟩
  | write known surface => exact ⟨setWindow_owned owned surface, legal⟩

/-- From a heap with the blocks `rest` in use, after every sequence of calls the blocks in use are
those of the live windows and `rest`, and only blocks in use were given back.  A further layout of
live windows returns, and once all windows are destroyed only `rest` is in use. -/
theorem desktopRun_account {s₀ s : Desktop} {rest live : List ℕ} {ops : List DesktopOp}
    (start : Exactly s₀.log rest) (legal : FreesHeld s₀.log)
    (run : Run DesktopStep (s₀, []) ops (s, live)) :
    s.Owned live rest ∧ FreesHeld s.log ∧ (live = [] → Exactly s.log rest) ∧
      ∀ {windowList : Option ℕ} {ws : List ℕ}, Chain s.windows windowList ws →
        ∀ {fuel : ℕ}, ws.length < fuel → ∀ activeWorkspace screenW screenH l,
          ∃ s', layoutApply fuel windowList activeWorkspace screenW screenH l s = some s' := by
  have account : Account rest (s, live) :=
    run.invariant (fun _ _ _ account step => desktopStep_account account step) ⟨start, legal⟩
  refine ⟨account.owned, account.legal, ?_, ?_⟩
  · rintro rfl
    exact account.owned
  · intro windowList ws chain fuel enough activeWorkspace screenW screenH l
    exact ⟨_, layoutApply_eq chain enough activeWorkspace screenW screenH l⟩

/-- A heap with room for five blocks. -/
def smallHeap : Allocator where
  result log _ := if (held log).length < 5 then some ((held log).sum + 1) else none
  fresh log _ b answer := by
    split_ifs at answer
    obtain rfl := Option.some.inj answer
    exact notMem_of_sum_lt (Nat.lt_succ_self _)

/-- An empty screen with that heap. -/
def smallDesktop : Desktop := { exampleDesktop with kmalloc := smallHeap, log := [] }

/-- Two windows, the second one without pixels, and a third one that the heap refuses; the two are
laid out and destroyed. -/
def smallDesktopCalls : List DesktopOp :=
  [.create 0 0 100 100, .create 9 9 20 60, .create 0 0 30 30,
    .write 8 { surface := some 16, x := 9, y := 9, width := 20, height := 60, workspaceId := 1,
               isMinimized := false, paint := none, next := some 1 },
    .layout (some 8) 1 640 480 layoutInit, .destroy 1, .destroy 8]

theorem desktopRun_account_example : ∃ s,
    Run DesktopStep (smallDesktop, []) smallDesktopCalls (s, []) ∧
    Exactly s.log [] ∧ FreesHeld s.log := by
  have start : Exactly smallDesktop.log [] := ⟨.refl [], List.nodup_nil⟩
  have run : ∃ s, Run DesktopStep (smallDesktop, []) smallDesktopCalls (s, []) :=
    ⟨_, .cons (.create ..) (.cons (.create ..) (.cons (.create ..)
      (.cons (.write (by decide) (by decide))
      (.cons (.layout (.cons (.cons .nil)) (by decide) (by decide : [8, 1].length < 3) rfl)
      (.cons (.destroy (by decide)) (.cons (.destroy (by decide)) (.nil _)))))))⟩
  obtain ⟨s, run⟩ := run
  obtain ⟨-, legal, gone, -⟩ := desktopRun_account start trivial run
  exact ⟨s, run, gone rfl, legal⟩

end ChefOs
