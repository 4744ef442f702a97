import ChefOs.Lib.Blocks

/-!
# Windows and their surfaces

`compositor/window.c` and the allocation of `compositor/surface.c`, over the windows, surfaces and
pixel buffers at their addresses.  The heap is a parameter.  Titles, the ids and focus marks of
windows, and the positions of surfaces, which nothing here reads, are left out.
-/

namespace ChefOs

open Kit

/-- `WINDOW_TITLEBAR_HEIGHT`. -/
def windowTitlebarHeight : BitVec 32 := 28

/-- `WINDOW_BORDER_WIDTH`. -/
def windowBorderWidth : BitVec 32 := 1

/-- `SURFACE_FLAG_VISIBLE`. -/
def surfaceFlagVisible : BitVec 32 := 1#32 <<< 0

/-- `SURFACE_FLAG_WINDOW`. -/
def surfaceFlagWindow : BitVec 32 := 1#32 <<< 3

/-- `sizeof(surface_t)`. -/
def sizeofSurface : ℕ := 112

/-- `sizeof(window_t)`. -/
def sizeofWindow : ℕ := 120

/-- A `surface_t`. -/
structure Surface where
  id : BitVec 32
  width : BitVec 32
  height : BitVec 32
  pixels : Option ℕ
  flags : BitVec 32

/-- A `window_paint_t`.  A callback reads the surface of its window and draws on its pixels. -/
abbrev WindowPaint := Surface → (ℕ → BitVec 32) → ℕ → BitVec 32

/-- A `window_t`.  `x` and `y` are signed. -/
structure Window where
  surface : Option ℕ
  x : BitVec 32
  y : BitVec 32
  width : BitVec 32
  height : BitVec 32
  workspaceId : BitVec 8
  isMinimized : Bool
  paint : Option WindowPaint
  next : Option ℕ

/-- The windows, surfaces and pixel buffers by address, the calls to the heap and to the paint
callbacks, and the static variable of `surface.c`. -/
structure Desktop where
  windows : ℕ → Window
  surfaces : ℕ → Surface
  pixels : ℕ → ℕ → BitVec 32
  kmalloc : Allocator
  log : List HeapEvent
  painted : List ℕ
  sNextSurfaceId : BitVec 32

/-- `*win = w`. -/
def Desktop.setWindow (win : ℕ) (w : Window) (s : Desktop) : Desktop :=
  { s with windows := Function.update s.windows win w }

@[simp] theorem Desktop.setWindow_self (win : ℕ) (w : Window) (s : Desktop) :
    (s.setWindow win w).windows win = w := Function.update_self ..

/-- The call of `kmalloc` in `kzalloc`. -/
def Desktop.kzalloc (size : ℕ) (s : Desktop) : Option ℕ × Desktop :=
  (s.kmalloc.result s.log size, { s with log := .alloc (s.kmalloc.result s.log size) :: s.log })

/-- `kfree`. -/
def Desktop.kfree (b : ℕ) (s : Desktop) : Desktop := { s with log := .free b :: s.log }

/-- The zeroing of a pixel buffer by `kzalloc`. -/
def Desktop.zeroPixels : Option ℕ → Desktop → Desktop
  | none, s => s
  | some b, s => { s with pixels := Function.update s.pixels b fun _ => 0 }

@[simp] theorem Desktop.zeroPixels_log (pixels : Option ℕ) (s : Desktop) :
    (s.zeroPixels pixels).log = s.log := by cases pixels <;> rfl

@[simp] theorem Desktop.zeroPixels_windows (pixels : Option ℕ) (s : Desktop) :
    (s.zeroPixels pixels).windows = s.windows := by cases pixels <;> rfl

@[simp] theorem Desktop.zeroPixels_surfaces (pixels : Option ℕ) (s : Desktop) :
    (s.zeroPixels pixels).surfaces = s.surfaces := by cases pixels <;> rfl

/-- `surface_create`. -/
def surfaceCreate (width height flags : BitVec 32) (s : Desktop) : Option ℕ × Desktop :=
  match s.kzalloc sizeofSurface with
  | (none, s) => (none, s)
  | (some surf, s) =>
    let id := s.sNextSurfaceId
    let s := { s with sNextSurfaceId := id + 1 }
    let (pixels, s) := s.kzalloc ((width * height).toNat * 4)
    let s := s.zeroPixels pixels
    let surface : Surface := { id, width, height, pixels, flags := flags ||| surfaceFlagVisible }
    (some surf, { s with surfaces := Function.update s.surfaces surf surface })

@[simp] theorem surfaceCreate_windows (width height flags : BitVec 32) (s : Desktop) :
    (surfaceCreate width height flags s).2.windows = s.windows := by
  rw [surfaceCreate, Desktop.kzalloc]
  cases s.kmalloc.result s.log sizeofSurface with
  | none => rfl
  | some surf => exact Desktop.zeroPixels_windows ..

/-- The size of a new surface. -/
theorem surfaceCreate_size {width height flags : BitVec 32} {s s' : Desktop} {surf : ℕ}
    (create : surfaceCreate width height flags s = (some surf, s')) :
    (s'.surfaces surf).width = width ∧ (s'.surfaces surf).height = height := by
  rw [surfaceCreate, Desktop.kzalloc] at create
  cases result : s.kmalloc.result s.log sizeofSurface with
  | none =>
    rw [result] at create
    exact absurd (congrArg Prod.fst create) (by simp)
  | some block =>
    rw [result] at create
    obtain ⟨same, rfl⟩ := Prod.mk.inj create
    obtain rfl := Option.some.inj same
    simp only [Function.update_self, and_self]

/-- `surface_destroy`. -/
def surfaceDestroy (surf : ℕ) (s : Desktop) : Desktop :=
  match (s.surfaces surf).pixels with
  | none => s.kfree surf
  | some pixels => (s.kfree pixels).kfree surf

@[simp] theorem surfaceDestroy_windows (surf : ℕ) (s : Desktop) :
    (surfaceDestroy surf s).windows = s.windows := by
  unfold surfaceDestroy
  cases (s.surfaces surf).pixels <;> rfl

/-- `if (win->surface) surface_destroy(win->surface)`. -/
def Desktop.dropSurface (win : ℕ) (s : Desktop) : Desktop :=
  match (s.windows win).surface with
  | none => s
  | some surf => surfaceDestroy surf s

@[simp] theorem Desktop.dropSurface_windows (win : ℕ) (s : Desktop) :
    (s.dropSurface win).windows = s.windows := by
  unfold Desktop.dropSurface
  cases (s.windows win).surface with
  | none => rfl
  | some surf => exact surfaceDestroy_windows ..

/-- `win->surface = surface_create(surf_w, surf_h, SURFACE_FLAG_WINDOW, ...)`. -/
def Desktop.newSurface (win : ℕ) (surfW surfH : BitVec 32) (s : Desktop) : Desktop :=
  let (surface, s) := surfaceCreate surfW surfH surfaceFlagWindow s
  s.setWindow win { s.windows win with surface }

theorem Desktop.newSurface_windows (win : ℕ) (surfW surfH : BitVec 32) (s : Desktop) :
    ∃ surface, (s.newSurface win surfW surfH).windows =
      Function.update s.windows win { s.windows win with surface } := by
  refine ⟨(surfaceCreate surfW surfH surfaceFlagWindow s).1, ?_⟩
  rw [← surfaceCreate_windows surfW surfH surfaceFlagWindow s]
  rfl

/-- `window_create`. -/
def windowCreate (x y w h : BitVec 32) (s : Desktop) : Option ℕ × Desktop :=
  match s.kzalloc sizeofWindow with
  | (none, s) => (none, s)
  | (some win, s) =>
    let s := s.setWindow win
      { surface := none, x, y, width := w, height := h, workspaceId := 1, isMinimized := false,
        paint := none, next := none }
    (some win, s.newSurface win (w - 2 * windowBorderWidth)
      (h - windowTitlebarHeight - windowBorderWidth))

/-- `window_destroy`. -/
def windowDestroy (win : ℕ) (s : Desktop) : Desktop := (s.dropSurface win).kfree win

/-- The pixels of a window after its callback. -/
def Desktop.draw (paint : WindowPaint) (win : ℕ) (s : Desktop) : Desktop :=
  match (s.windows win).surface with
  | none => s
  | some surf =>
    match (s.surfaces surf).pixels with
    | none => s
    | some b =>
      { s with pixels := Function.update s.pixels b (paint (s.surfaces surf) (s.pixels b)) }

@[simp] theorem Desktop.draw_windows (paint : WindowPaint) (win : ℕ) (s : Desktop) :
    (s.draw paint win).windows = s.windows := by
  unfold Desktop.draw
  split
  · rfl
  · split <;> rfl

/-- `if (win->paint) win->paint(win)`. -/
def Desktop.callPaint (win : ℕ) (s : Desktop) : Desktop :=
  match (s.windows win).paint with
  | none => s
  | some paint => ({ s with painted := win :: s.painted } : Desktop).draw paint win

@[simp] theorem Desktop.callPaint_windows (win : ℕ) (s : Desktop) :
    (s.callPaint win).windows = s.windows := by
  unfold Desktop.callPaint
  cases (s.windows win).paint with
  | none => rfl
  | some paint => exact Desktop.draw_windows ..

/-- The surface of a window has the size. -/
def Desktop.SurfaceFits (s : Desktop) (win : ℕ) (surfW surfH : BitVec 32) : Prop :=
  match (s.windows win).surface with
  | none => False
  | some surf => (s.surfaces surf).width = surfW ∧ (s.surfaces surf).height = surfH

instance (s : Desktop) (win : ℕ) (surfW surfH : BitVec 32) :
    Decidable (s.SurfaceFits win surfW surfH) := by
  unfold Desktop.SurfaceFits
  split <;> infer_instance

/-- `window_resize_surface`. -/
def windowResizeSurface (win : ℕ) (newW newH : BitVec 32) (s : Desktop) : Desktop :=
  let s := s.setWindow win { s.windows win with width := newW, height := newH }
  let surfW := newW - 2 * windowBorderWidth
  let surfH := newH - windowTitlebarHeight - windowBorderWidth
  if s.SurfaceFits win surfW surfH then s
  else ((s.dropSurface win).newSurface win surfW surfH).callPaint win

/-- A resized window has its new size and some surface; no other window changes. -/
theorem windowResizeSurface_windows (win : ℕ) (newW newH : BitVec 32) (s : Desktop) :
    ∃ surface, (windowResizeSurface win newW newH s).windows =
      Function.update s.windows win
        { s.windows win with width := newW, height := newH, surface } := by
  rw [windowResizeSurface]
  split_ifs with fits
  · exact ⟨(s.windows win).surface, rfl⟩
  · obtain ⟨surface, windows⟩ := Desktop.newSurface_windows win
      (newW - 2 * windowBorderWidth) (newH - windowTitlebarHeight - windowBorderWidth)
      (Desktop.dropSurface win
        (s.setWindow win { s.windows win with width := newW, height := newH }))
    refine ⟨surface, ?_⟩
    rw [Desktop.callPaint_windows, windows, Desktop.dropSurface_windows, Desktop.setWindow_self]
    exact Function.update_idem ..

end ChefOs
