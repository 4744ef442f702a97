import ChefOs.CString
import ChefOs.Compositor.Placement
import ChefOs.Video.Fb

/-!
# The compositor

`compositor/compositor.c`: the state of the compositor, the calls that change it, and the drawing of
windows.  The text of a title is kept by the address of its window.
-/

namespace ChefOs

/-- `compositor_state_t`. -/
structure Compositor where
  screenWidth : BitVec 32
  screenHeight : BitVec 32
  activeWorkspace : BitVec 8
  windowList : Option ℕ
  focusedWindow : Option ℕ
  mouseX : BitVec 32
  mouseY : BitVec 32
  needsRedraw : Bool

/-- The windows, the bytes of their titles and `s_comp`. -/
structure Scene where
  desktop : Desktop
  titles : ℕ → List UInt8
  sComp : Compositor

/-- A window. -/
def Scene.window (s : Scene) (win : ℕ) : Window := s.desktop.windows win

/-- `compositor_init`, of the fields of `s_comp`. -/
def compositorInit (fb : Option FbInfo) : Compositor :=
  let screenWidth : BitVec 32 := match fb with
    | some fb => .ofNat 32 fb.width
    | none => 1280
  let screenHeight : BitVec 32 := match fb with
    | some fb => .ofNat 32 fb.height
    | none => 800
  { screenWidth, screenHeight, activeWorkspace := 1, windowList := none, focusedWindow := none,
    mouseX := screenWidth / 2, mouseY := screenHeight / 2, needsRedraw := true }

/-- `compositor_register_window`. -/
def compositorRegisterWindow (win : Option ℕ) (s : Scene) : Scene :=
  match win with
  | none => s
  | some win =>
    { s with
      desktop := s.desktop.setWindow win { s.window win with next := s.sComp.windowList }
      sComp := { s.sComp with
        windowList := some win, focusedWindow := some win, needsRedraw := true } }

/-- `compositor_set_mouse`. -/
def compositorSetMouse (x y : BitVec 32) (s : Scene) : Scene :=
  { s with sComp := { s.sComp with mouseX := x, mouseY := y } }

/-- `compositor_set_workspace`. -/
def compositorSetWorkspace (ws : BitVec 8) (s : Scene) : Scene :=
  if ws ≥ 1 ∧ ws ≤ 4 then
    { s with sComp := { s.sComp with activeWorkspace := ws, needsRedraw := true } }
  else s

/-- The window that `compositor_cycle_focus` turns to. -/
def Scene.afterFocus (s : Scene) : Option ℕ :=
  match s.sComp.focusedWindow with
  | none => s.sComp.windowList
  | some f =>
    match (s.window f).next with
    | none => s.sComp.windowList
    | some next => some next

/-- `compositor_cycle_focus`. -/
def compositorCycleFocus (s : Scene) : Scene :=
  match s.sComp.windowList with
  | none => s
  | some _ => { s with sComp := { s.sComp with
      focusedWindow := s.afterFocus, needsRedraw := true } }

/-! ## Drawing -/

/-- "Blit Window Content Surface". -/
def blitSurface (w : Window) (surface : Surface) (pixels : ℕ → BitVec 32) (g : FbInfo) : FbInfo :=
  let contentX := w.x + windowBorderWidth
  let contentY := w.y + windowTitlebarHeight
  let sw := surface.width
  let sh := surface.height
  (upTo 0 sh.toNat).foldl (fun g j => (upTo 0 sw.toNat).foldl (fun g i =>
    let px := pixels (BitVec.ofNat 32 j * sw + .ofNat 32 i).toNat
    if px ≠ 0 then fbPutPixel (contentX + .ofNat 32 i) (contentY + .ofNat 32 j) px g else g) g) g

/-- `draw_window`. -/
def drawWindow (font : Font) (s : Scene) (win : ℕ) (g : FbInfo) : FbInfo :=
  let w := s.window win
  if w.isMinimized ∨ w.workspaceId ≠ s.sComp.activeWorkspace then g
  else
    -- Window Frame
    let g := fbDrawRoundedRect w.x w.y w.width w.height 12 colorSurface colorBorder g
    -- Titlebar
    let focused := s.sComp.focusedWindow = some win
    let tbBg := if focused then colorSurfaceAlt else colorSurface
    let g := fbDrawRoundedRect w.x w.y w.width windowTitlebarHeight 12 tbBg colorBorder g
    -- Title text
    let titleFg := if focused then colorText else colorTextMuted
    let g := fbDrawString font (cstr (s.titles win)) (w.x + 14) (w.y + 6) titleFg 0 g
    -- Window Close Pill
    let closeX := w.x + w.width - 24
    let closeY := w.y + 7
    let g := fbDrawRoundedRect closeX closeY 14 14 4 colorAccent 0 g
    let g := fbDrawString font [0x78] (closeX + 4) (closeY + 1) colorWhite 0 g
    match s.desktop.contents win with
    | some (surface, some pixels) => blitSurface w surface pixels g
    | _ => g

/-- The loop of `compositor_render_frame` over the window list. -/
def renderLoop (font : Font) (s : Scene) : ℕ → Option ℕ → FbInfo → Option FbInfo
  | 0, _, _ => none
  | _ + 1, none, g => some g
  | fuel + 1, some curr, g =>
    renderLoop font s fuel (s.window curr).next
      (if some curr ≠ s.sComp.focusedWindow then drawWindow font s curr g else g)

/-- "Render Windows in workspace" of `compositor_render_frame`. -/
def renderWindows (font : Font) (fuel : ℕ) (s : Scene) (g : FbInfo) : Option FbInfo := do
  let g ← renderLoop font s fuel s.sComp.windowList g
  match s.sComp.focusedWindow with
  | none => return g
  | some f => return drawWindow font s f g

end ChefOs
