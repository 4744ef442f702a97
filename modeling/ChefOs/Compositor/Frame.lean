import ChefOs.Compositor.Idempotent
import ChefOs.Compositor.ShellUi
import ChefOs.Video.Console
import ChefOs.Video.Present

/-!
# A frame

`compositor_render_frame`: a frame always ends, and what it leaves on the screen does not depend on
what was in the two buffers before.
-/

namespace ChefOs

open Kit

/-- What a frame shows, and when it is drawn. -/
structure Display where
  scene : Scene
  shell : ShellUi
  sLayout : LayoutEngine
  cmos : Cmos
  sTicks : BitVec 64

/-- `focused_title` of `compositor_render_frame`. -/
def Scene.focusedTitle (s : Scene) : List UInt8 :=
  match s.sComp.focusedWindow with
  | some f => s.titles f
  | none => text "Chef OS" ++ [0]

/-- `compositor_render_frame`. -/
def compositorRenderFrame (font : Font) (fuel : ℕ) (arrays : IslandArrays) (now : RtcTime)
    (d : Display) (g : FbInfo) : Option (Display × FbInfo) := do
  let sComp := d.scene.sComp
  -- 1. Clear background
  let g := fbClear colorBg g
  -- 2. Apply Dynamic Tiling Layout Engine
  let desktop ← layoutApply fuel sComp.windowList sComp.activeWorkspace sComp.screenWidth
    sComp.screenHeight d.sLayout d.scene.desktop
  let scene := { d.scene with desktop }
  -- 3. Render Windows in workspace
  let g ← renderWindows font fuel scene g
  -- 4. Render Shell Dock & Dynamic Island
  let g := shellUiRenderDock font sComp.screenHeight sComp.activeWorkspace g
  let (shell, cmos, g) ← shellUiRenderIsland font arrays now sComp.screenWidth
    (some scene.focusedTitle) (some (layoutGetModeName d.sLayout)) d.cmos d.sTicks d.shell g
  -- 5. Render Mouse Cursor
  let g := fbDrawCursor sComp.mouseX sComp.mouseY g
  -- 6. Present to GOP Frontbuffer
  let g := fbSwap g
  return ({ d with
    scene := { scene with sComp := { sComp with needsRedraw := false } }, shell, cmos }, g)

/-! ## From back to front -/

/-- The windows in the order in which they are drawn. -/
def Scene.paintOrder (s : Scene) (ws : List ℕ) : List ℕ :=
  ((ws.filter fun w => some w ≠ s.sComp.focusedWindow) ++ s.sComp.focusedWindow.toList).filter
    fun w => (s.window w).Visible s.sComp.activeWorkspace

section

variable (font : Font) {s : Scene} {head : Option ℕ} {ws : List ℕ} {fuel : ℕ}

theorem drawWindow_hidden {w : ℕ} (hidden : ¬ (s.window w).Visible s.sComp.activeWorkspace)
    (g : FbInfo) : drawWindow font s w g = g := by
  rw [drawWindow]
  apply if_pos
  by_contra shown
  exact hidden (by simpa [Window.Visible, and_comm] using shown)

/-- Drawing windows is drawing the visible ones of them. -/
theorem foldl_drawWindow (g : FbInfo) :
    (ws.filter fun w => (s.window w).Visible s.sComp.activeWorkspace).foldl
      (fun g w => drawWindow font s w g) g = ws.foldl (fun g w => drawWindow font s w g) g := by
  induction ws generalizing g with
  | nil => rfl
  | cons w ws ih =>
    by_cases visible : (s.window w).Visible s.sComp.activeWorkspace
    · rw [List.filter_cons_of_pos (by simpa using visible), List.foldl_cons, List.foldl_cons, ih]
    · rw [List.filter_cons_of_neg (by simpa using visible), List.foldl_cons,
        drawWindow_hidden font visible, ih]

theorem renderLoop_eq (chain : Chain s.desktop.windows head ws) (enough : ws.length < fuel)
    (g : FbInfo) :
    renderLoop font s fuel head g = some ((ws.filter fun w => some w ≠ s.sComp.focusedWindow).foldl
      (fun g w => drawWindow font s w g) g) := by
  induction chain generalizing fuel g with
  | nil =>
    obtain ⟨fuel, rfl⟩ : ∃ n, fuel = n + 1 := ⟨fuel - 1, by omega⟩
    rfl
  | @cons w ws tail ih =>
    obtain ⟨fuel, rfl⟩ : ∃ n, fuel = n + 1 := ⟨fuel - 1, by omega⟩
    rw [List.length_cons] at enough
    have rest := ih (by omega : ws.length < fuel)
    by_cases unfocused : some w ≠ s.sComp.focusedWindow
    · rw [renderLoop, if_pos unfocused, List.filter_cons_of_pos (by simpa using unfocused)]
      exact rest _
    · rw [renderLoop, if_neg unfocused, List.filter_cons_of_neg (by simpa using unfocused)]
      exact rest _

/-- Every visible window is drawn, the focused one last. -/
theorem renderWindows_eq (chain : Chain s.desktop.windows s.sComp.windowList ws)
    (enough : ws.length < fuel) (g : FbInfo) :
    renderWindows font fuel s g =
      some ((s.paintOrder ws).foldl (fun g w => drawWindow font s w g) g) := by
  rw [renderWindows, renderLoop_eq font chain enough, Scene.paintOrder, foldl_drawWindow,
    List.foldl_append]
  cases s.sComp.focusedWindow with
  | none => rfl
  | some f => rfl

end

/-! ## Drawing -/

section

variable {width height : ℕ} {f f' : FbInfo → FbInfo} (font : Font)

/-- On a screen of the size, `f` makes some stores and changes nothing else. -/
def Drawing (width height : ℕ) (f : FbInfo → FbInfo) : Prop :=
  ∃ stores, Draws width height f stores

theorem Drawing.comp (first : Drawing width height f) (second : Drawing width height f') :
    Drawing width height fun g => f' (f g) := by
  obtain ⟨stores, draws⟩ := first
  obtain ⟨stores', draws'⟩ := second
  exact ⟨_, draws.comp draws'⟩

theorem Drawing.foldl {β : Type} {f : FbInfo → β → FbInfo}
    (body : ∀ b, Drawing width height fun g => f g b) (l : List β) :
    Drawing width height fun g => l.foldl f g := by
  choose stores draws using body
  exact ⟨_, .foldl draws l⟩

theorem Drawing.rounded (first : Drawing width height f)
    (x y w h radius color borderColor : BitVec 32) :
    Drawing width height fun g => fbDrawRoundedRect x y w h radius color borderColor (f g) :=
  first.comp ⟨_, fbDrawRoundedRect_draws ..⟩

theorem Drawing.string (first : Drawing width height f) (str : List UInt8)
    (x y fg bg : BitVec 32) :
    Drawing width height fun g => fbDrawString font str x y fg bg (f g) :=
  first.comp ⟨_, fbDrawString_draws ..⟩

theorem drawing_id : Drawing width height fun g => g := ⟨_, .nil⟩

theorem blitSurface_drawing (w : Window) (surface : Surface) (pixels : ℕ → BitVec 32) :
    Drawing width height (blitSurface w surface pixels) := by
  apply Drawing.foldl
  intro j
  apply Drawing.foldl
  intro i
  dsimp only
  split_ifs
  · exact ⟨_, fbPutPixel_draws ..⟩
  · exact drawing_id

theorem drawWindow_drawing (s : Scene) (w : ℕ) :
    Drawing width height fun g => drawWindow font s w g := by
  by_cases visible : (s.window w).Visible s.sComp.activeWorkspace
  · have shown : ¬ ((s.window w).isMinimized ∨
        (s.window w).workspaceId ≠ s.sComp.activeWorkspace) := by
      simp [visible.1, visible.2]
    simp only [drawWindow, if_neg shown]
    rcases s.desktop.contents w with - | ⟨surface, - | pixels⟩
    · exact .string font (.rounded (.string font (.rounded (.rounded drawing_id ..) ..) ..) ..) ..
    · exact .string font (.rounded (.string font (.rounded (.rounded drawing_id ..) ..) ..) ..) ..
    · refine .comp ?_ (blitSurface_drawing ..)
      exact .string font (.rounded (.string font (.rounded (.rounded drawing_id ..) ..) ..) ..) ..
  · simp only [drawWindow_hidden font visible]
    exact drawing_id

theorem Drawing.button (first : Drawing width height f) (dockX y : BitVec 32)
    (label : List UInt8) (bg fg borderColor : BitVec 32) :
    Drawing width height fun g => dockButton font dockX y label bg fg borderColor (f g) :=
  .string font (.rounded first ..) ..

theorem shellUiRenderDock_drawing (screenH : BitVec 32) (activeWs : BitVec 8) :
    Drawing width height (shellUiRenderDock font screenH activeWs) := by
  have crest : Drawing width height fun g => fbDrawString font (text "C") (12 + 24) (12 + 22)
      colorWhite 0 (fbDrawRoundedRect (12 + 10) (12 + 12) 36 36 8 colorAccent 0
        (fbDrawRoundedRect 12 12 56 (screenH - 24) 16 colorSurface colorBorder g)) :=
    .string font (.rounded (.rounded drawing_id ..) ..) ..
  have pills : Drawing width height fun g =>
      (upTo 0 5).foldl (dockPill font 12 (12 + 60) activeWs) g :=
    .foldl (fun i => .string font (.rounded drawing_id ..) ..) _
  exact .button font (.button font (.button font (.button font (.button font (.button font
    (crest.comp pills) ..) ..) ..) ..) ..) ..

theorem fillIsland_drawing (screenW islandW bg fg : BitVec 32) (text : List UInt8) :
    Drawing width height (fillIsland font screenW islandW bg fg text) :=
  .string font (.rounded drawing_id ..) ..

end

/-! ## The picture -/

/-- What the island shows. -/
def Display.island (font : Font) (toast : Toast) (d : Display) (g : FbInfo) : FbInfo :=
  if 0 < toast.left then
    fillIsland font d.scene.sComp.screenWidth 440 colorSurfaceAlt colorAccent toast.text g
  else
    fillIsland font d.scene.sComp.screenWidth 380 colorSurface colorText
      (idleText (titleText (some d.scene.focusedTitle)) (cstr (layoutGetModeName d.sLayout))
        (d.cmos.timeAt (d.cmos.readAt .hour)).hour
        (d.cmos.timeAt (d.cmos.readAt .minute)).minute) g

/-- The picture of a laid out scene, on a screen. -/
def Display.picture (font : Font) (toast : Toast) (ws : List ℕ) (d : Display) (g : FbInfo) :
    FbInfo :=
  let g := fbClear colorBg g
  let g := (d.scene.paintOrder ws).foldl (fun g w => drawWindow font d.scene w g) g
  let g := shellUiRenderDock font d.scene.sComp.screenHeight d.scene.sComp.activeWorkspace g
  let g := d.island font toast g
  fbDrawCursor d.scene.sComp.mouseX d.scene.sComp.mouseY g

/-- The scene after the layout of a frame. -/
def Display.laidOut (ws : List ℕ) (d : Display) : Display :=
  { d with scene := { d.scene with
      desktop := placeAll (placements d.scene.sComp.activeWorkspace d.scene.sComp.screenWidth
        d.scene.sComp.screenHeight d.sLayout ws d.scene.desktop) d.scene.desktop } }

section

variable (font : Font) {toast : Toast} {d : Display} {ws : List ℕ} {fuel : ℕ}

/-- A picture clears the screen, and then makes stores that depend on its size only. -/
theorem picture_draws (width height : ℕ) :
    ∃ stores, Draws width height (d.picture font toast ws)
      (clearStores width height colorBg ++ stores) := by
  have island : Drawing width height (d.island font toast) := by
    unfold Display.island
    split_ifs
    · exact fillIsland_drawing ..
    · exact fillIsland_drawing ..
  have windows : Drawing width height fun g =>
      (d.scene.paintOrder ws).foldl (fun g w => drawWindow font d.scene w g) g :=
    .foldl (fun w => drawWindow_drawing font d.scene w) _
  have cursor : Drawing width height (fbDrawCursor d.scene.sComp.mouseX d.scene.sComp.mouseY) :=
    ⟨_, fbDrawCursor_draws ..⟩
  have dock : Drawing width height (shellUiRenderDock font d.scene.sComp.screenHeight
      d.scene.sComp.activeWorkspace) := shellUiRenderDock_drawing ..
  obtain ⟨stores, draws⟩ := ((windows.comp dock).comp island).comp cursor
  have whole := (fbClear_draws width height colorBg).comp draws
  exact ⟨stores, whole.congr fun g _ _ => rfl⟩

theorem mem_clearStores {width height x y : ℕ} (hx : x < width) (hy : y < height)
    (color : BitVec 32) :
    u64 (y * width + x) ∈ (clearStores width height color).map Prod.fst := by
  simp only [clearStores, List.map_flatMap, List.map_map, List.mem_flatMap, List.mem_map, mem_upTo]
  exact ⟨y, ⟨Nat.zero_le y, hy⟩, x, ⟨Nat.zero_le x, hx⟩, rfl⟩

/-- A frame lays out the scene, draws its picture and swaps the buffers. -/
theorem compositorRenderFrame_eq (arrays : IslandArrays) (now : RtcTime)
    (chain : Chain d.scene.desktop.windows d.scene.sComp.windowList ws)
    (enough : ws.length < fuel) (title : 0 ∈ d.scene.focusedTitle)
    (shown : ToastShown toast d.shell d.sTicks) :
    ∃ d', d'.scene = { (d.laidOut ws).scene with
        sComp := { d.scene.sComp with needsRedraw := false } } ∧
      ToastShown toast d'.shell d.sTicks ∧
      ∀ g, compositorRenderFrame font fuel arrays now d g =
        some (d', fbSwap ((d.laidOut ws).picture font toast ws g)) := by
  have layout := layoutApply_eq chain enough d.scene.sComp.activeWorkspace
    d.scene.sComp.screenWidth d.scene.sComp.screenHeight d.sLayout
  rw [← placements] at layout
  have windows := renderWindows_eq font (s := (d.laidOut ws).scene) (chain.placeAll _) enough
  obtain ⟨string, short⟩ := layoutGetModeName_string d.sLayout
  have titled : ∀ t ∈ some d.scene.focusedTitle, 0 ∈ t := by simpa using title
  obtain ⟨cmos', island⟩ := shellUiRenderIsland_eq shown font arrays now d.scene.sComp.screenWidth
    titled string (by omega) d.cmos
  refine ⟨⟨{ (d.laidOut ws).scene with sComp := { d.scene.sComp with needsRedraw := false } },
    d.shell.expire d.sTicks, d.sLayout, cmos', d.sTicks⟩, rfl, shown.expire.1, fun g => ?_⟩
  rw [compositorRenderFrame, layout]
  change (renderWindows font fuel (d.laidOut ws).scene (fbClear colorBg g)).bind _ = _
  rw [windows]
  change (shellUiRenderIsland font arrays now d.scene.sComp.screenWidth
    (some d.scene.focusedTitle) (some (layoutGetModeName d.sLayout)) d.cmos d.sTicks d.shell
    _).bind _ = _
  rw [island]
  rfl

/-- A frame always ends.  Whatever was in the two buffers, the screen shows the picture of the
laid out scene drawn on an empty screen, and nothing beside the screen is written. -/
theorem compositorRenderFrame_shows (arrays : IslandArrays) (now : RtcTime)
    (chain : Chain d.scene.desktop.windows d.scene.sComp.windowList ws)
    (enough : ws.length < fuel) (title : 0 ∈ d.scene.focusedTitle)
    (shown : ToastShown toast d.shell d.sTicks) :
    ∃ d', d'.scene = { (d.laidOut ws).scene with
        sComp := { d.scene.sComp with needsRedraw := false } } ∧
      ToastShown toast d'.shell d.sTicks ∧
      ∀ (g : FbInfo) (front : ℕ → BitVec 32), g.Regular → g.frontbuffer = some front →
        ∃ g' front', compositorRenderFrame font fuel arrays now d g = some (d', g') ∧
          g'.frontbuffer = some front' ∧
          (∀ y < g.height, ∀ x < g.width, front' (g.frontIndex x y) =
            ((d.laidOut ws).picture font toast ws (blankScreen g.width g.height)).backbuffer
              (g.index x y)) ∧
          ∀ a, (∀ y < g.height, ∀ x < g.width, a ≠ g.frontIndex x y) → front' a = front a := by
  obtain ⟨d', scene, shown', call⟩ :=
    compositorRenderFrame_eq font arrays now chain enough title shown
  refine ⟨d', scene, shown', fun g front regular mapped => ?_⟩
  obtain ⟨stores, draws⟩ : ∃ stores, Draws g.width g.height ((d.laidOut ws).picture font toast ws)
      (clearStores g.width g.height colorBg ++ stores) := picture_draws font g.width g.height
  have drawn := draws.eq g rfl rfl
  have blank := draws.eq (blankScreen g.width g.height) rfl rfl
  obtain ⟨front', mapped', pixels, kept⟩ := fbSwap_shows
    (g := g.storeAll (clearStores g.width g.height colorBg ++ stores))
    ⟨regular.width_le, regular.small⟩ mapped
  refine ⟨_, front', call g, ?_, fun y hy x hx => ?_, kept⟩
  · rw [drawn]
    exact mapped'
  · rw [blank]
    refine (pixels y hy x hx).trans (storeAll_congr (.inr ?_))
    rw [List.map_append]
    exact List.mem_append_left _ (mem_clearStores hx hy colorBg)

end

/-- Three windows, no toast. -/
def exampleDisplay : Display where
  scene := exampleScene 1
  shell := shellUiInit .zero
  sLayout := layoutInit
  cmos := tickingOnce beforeEleven 2
  sTicks := 0

theorem compositorRenderFrame_shows_example : ∃ d' g' front',
    compositorRenderFrame (fun _ _ => 0xFF) 4 exampleArrays ⟨0, 0, 0, 0, 0, 0⟩ exampleDisplay
        paddedScreen = some (d', g') ∧
      g'.frontbuffer = some front' ∧
      front' (paddedScreen.frontIndex 3 1) =
        ((exampleDisplay.laidOut [1, 2, 3]).picture (fun _ _ => 0xFF) ⟨[], 0⟩ [1, 2, 3]
          (blankScreen paddedScreen.width paddedScreen.height)).backbuffer
            (paddedScreen.index 3 1) ∧
      front' 1000 = 0 := by
  have title : 0 ∈ exampleDisplay.scene.focusedTitle := by decide
  have regular : paddedScreen.Regular := ⟨by decide, by decide⟩
  obtain ⟨d', -, -, frame⟩ := compositorRenderFrame_shows (fun _ _ => 0xFF) (d := exampleDisplay)
    exampleArrays ⟨0, 0, 0, 0, 0, 0⟩ exampleDesktop_chain (by decide : [1, 2, 3].length < 4) title
    toastShown_init
  obtain ⟨g', front', call, mapped, pixels, kept⟩ := frame paddedScreen _ regular rfl
  have pixel := pixels 1 (by decide) 3 (by decide)
  refine ⟨d', g', front', call, mapped, pixel, kept 1000 fun y hy x hx => ?_⟩
  change x < 640 at hx
  change 1000 ≠ y * 1024 + x
  omega

end ChefOs
