import ChefOs.Compositor.Window

/-!
# The tiling layout

`compositor/layout.c`.  The walk over the window list takes fuel; the list is finite.
-/

namespace ChefOs

/-- `layout_mode_t`. -/
inductive LayoutMode
  | masterStack
  | grid
  | monocle
  | floating
deriving DecidableEq, Repr

/-- `layout_engine_t`. -/
structure LayoutEngine where
  mode : LayoutMode
  masterPct : BitVec 32
  gapInner : BitVec 32
  gapOuterX : BitVec 32
  gapOuterY : BitVec 32

/-- `layout_init`. -/
def layoutInit : LayoutEngine where
  mode := .masterStack
  masterPct := 62
  gapInner := 12
  gapOuterX := 84
  gapOuterY := 60

/-- `layout_cycle_mode`. -/
def layoutCycleMode (s : LayoutEngine) : LayoutEngine :=
  { s with mode := match s.mode with
    | .masterStack => .grid
    | .grid => .monocle
    | .monocle => .floating
    | .floating => .masterStack }

/-- The window is on the workspace and not minimized. -/
def Window.Visible (activeWorkspace : BitVec 8) (w : Window) : Prop :=
  w.workspaceId = activeWorkspace ∧ w.isMinimized = false

instance (activeWorkspace : BitVec 8) (w : Window) : Decidable (w.Visible activeWorkspace) :=
  inferInstanceAs (Decidable (w.workspaceId = activeWorkspace ∧ w.isMinimized = false))

/-- The loop that collects the visible windows. -/
def visibleLoop (activeWorkspace : BitVec 8) (s : Desktop) :
    ℕ → Option ℕ → List ℕ → Option (List ℕ)
  | 0, _, _ => none
  | _ + 1, none, visible => some visible
  | fuel + 1, some w, visible =>
    if visible.length < 16 then
      visibleLoop activeWorkspace s fuel (s.windows w).next
        (if (s.windows w).Visible activeWorkspace then visible ++ [w] else visible)
    else some visible

/-- Where a window is and how big it is. -/
structure Frame where
  x : BitVec 32
  y : BitVec 32
  width : BitVec 32
  height : BitVec 32
deriving DecidableEq

/-- The frame of a window. -/
def Window.frame (w : Window) : Frame := ⟨w.x, w.y, w.width, w.height⟩

/-- The window with its frame set. -/
def Window.at (w : Window) (f : Frame) : Window :=
  { w with x := f.x, y := f.y, width := f.width, height := f.height }

/-- A window gets its place and its size, and then `window_resize_surface`. -/
def place (win : ℕ) (f : Frame) (s : Desktop) : Desktop :=
  windowResizeSurface win f.width f.height (s.setWindow win ((s.windows win).at f))

/-- A placed window has its frame and some surface; no other window changes. -/
theorem place_windows (win : ℕ) (f : Frame) (s : Desktop) :
    ∃ surface, (place win f s).windows =
      Function.update s.windows win { (s.windows win).at f with surface } := by
  obtain ⟨surface, windows⟩ := windowResizeSurface_windows win f.width f.height
    (s.setWindow win ((s.windows win).at f))
  refine ⟨surface, ?_⟩
  rw [place, windows, Desktop.setWindow_self]
  exact Function.update_idem ..

/-- The loop over the stack windows; the last one gets the rest of the height. -/
def placeStack (x stackW stackH gap bottom : BitVec 32) : List ℕ → BitVec 32 → Desktop → Desktop
  | [], _, s => s
  | w :: stack, currY, s =>
    placeStack x stackW stackH gap bottom stack (currY + (stackH + gap))
      (place w ⟨x, currY, stackW, if stack = [] then bottom - currY else stackH⟩ s)

/-- The loop over the cells of the grid. -/
def placeGrid (startX startY cellW cellH gap : BitVec 32) (cols : ℕ) :
    List ℕ → ℕ → Desktop → Desktop
  | [], _, s => s
  | w :: visible, i, s =>
    placeGrid startX startY cellW cellH gap cols visible (i + 1)
      (place w ⟨startX + BitVec.ofNat 32 (i % cols) * (cellW + gap),
        startY + BitVec.ofNat 32 (i / cols) * (cellH + gap), cellW, cellH⟩ s)

/-- `layout_apply`. -/
def layoutApply (fuel : ℕ) (windowList : Option ℕ) (activeWorkspace : BitVec 8)
    (screenW screenH : BitVec 32) (sLayout : LayoutEngine) (s : Desktop) : Option Desktop := do
  let visible ← visibleLoop activeWorkspace s fuel windowList []
  let count := visible.length
  if count = 0 then return s
  let startX := sLayout.gapOuterX
  let startY := sLayout.gapOuterY
  let availW := screenW - startX - 16
  let availH := screenH - startY - 16
  let gap := sLayout.gapInner
  if sLayout.mode = .monocle ∨ count = 1 then
    return visible.foldl (fun s w => place w ⟨startX, startY, availW, availH⟩ s) s
  match sLayout.mode, visible with
  | .masterStack, first :: stack =>
    let masterW := (availW * sLayout.masterPct) / 100 - gap / 2
    let stackW := availW - masterW - gap
    let s := place first ⟨startX, startY, masterW, availH⟩ s
    let stackCount := count - 1
    let stackH :=
      (availH - gap * BitVec.ofNat 32 (stackCount - 1)) / BitVec.ofNat 32 stackCount
    return placeStack (startX + masterW + gap) stackW stackH gap (startY + availH) stack startY s
  | .grid, visible =>
    let cols := if count > 2 then 2 else count
    let rows := (count + cols - 1) / cols
    let cellW := (availW - gap * BitVec.ofNat 32 (cols - 1)) / BitVec.ofNat 32 cols
    let cellH := (availH - gap * BitVec.ofNat 32 (rows - 1)) / BitVec.ofNat 32 rows
    return placeGrid startX startY cellW cellH gap cols visible 0 s
  | _, _ => return s

end ChefOs
