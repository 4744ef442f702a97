import ChefOs.Compositor.Surface
import ChefOs.Compositor.Tiling

/-!
# Filled rectangles

`fb_draw_rect` and `surface_draw_rect` compare with the ends `x + w` and `y + h` in 32 bits, and the
latter reads its signed place without sign.  Each fills the part of its rectangle on the screen just
when the ends do not wrap around, or there is nothing to change.
-/

namespace ChefOs

open Kit

/-- The ends of the frame, with its place read without sign, do not wrap around. -/
def Frame.EndsFit (f : Frame) : Prop :=
  f.x.toNat + f.width.toNat < 2 ^ 32 ∧ f.y.toNat + f.height.toNat < 2 ^ 32

/-- The pixels that both functions store at, on a screen of a size. -/
def Frame.cells (f : Frame) (width height : ℕ) : List (ℕ × ℕ) :=
  Raster.cells f.x.toNat (min (f.x + f.width).toNat width) f.y.toNat
    (min (f.y + f.height).toNat height)

section

variable {s : Raster} {f : Frame} {v : BitVec 32} {b : ℕ → BitVec 32}

theorem Frame.EndsFit.mem_cells (fit : f.EndsFit) (x y : ℕ) :
    (x, y) ∈ f.cells s.width s.height ↔ s.Shows f.unsigned x y := by
  rw [Frame.cells, Raster.mem_cells, BitVec.toNat_add, BitVec.toNat_add, Nat.mod_eq_of_lt fit.1,
    Nat.mod_eq_of_lt fit.2]
  simp only [Raster.Shows, Rect.Contains, Frame.unsigned]
  omega

/-- If an end wraps around, nothing is drawn. -/
theorem Frame.cells_of_wraps (wraps : ¬ f.EndsFit) (width height : ℕ) :
    f.cells width height = [] := by
  rw [List.eq_nil_iff_forall_not_mem]
  rintro ⟨x, y⟩ mem
  rw [Frame.cells, Raster.mem_cells, BitVec.toNat_add, BitVec.toNat_add] at mem
  have := f.x.isLt
  have := f.y.isLt
  have := f.width.isLt
  have := f.height.isLt
  apply wraps
  constructor <;> omega

/-- The stores fill the frame, with its place read without sign, just when its ends do not wrap
around, or it has the color already. -/
theorem fills_unsigned_iff :
    s.Fills f.unsigned v b (storeAll (s.stores v (f.cells s.width s.height)) b) ↔
      (f.EndsFit → s.SharedPainted f.unsigned v b) ∧ (¬ f.EndsFit → s.Painted f.unsigned v b) := by
  by_cases fit : f.EndsFit
  · rw [Raster.fills_cells_iff fit.mem_cells]
    simp only [fit, true_imp_iff, not_true, false_imp_iff, and_true]
  · rw [Frame.cells_of_wraps fit]
    simp only [fit, false_imp_iff, not_false_eq_true, true_imp_iff, true_and]
    exact Raster.fills_nil_iff

/-- The frame does not begin left of the screen or above it, and its ends do not wrap around. -/
def Frame.Unwrapped (f : Frame) : Prop := (0 ≤ f.x.toInt ∧ 0 ≤ f.y.toInt) ∧ f.EndsFit

theorem toInt_nonneg_iff {a : BitVec 32} : 0 ≤ a.toInt ↔ a.toInt = a.toNat := by
  rw [BitVec.toInt_eq_toNat_cond]
  split_ifs <;> omega

theorem rect_of_nonneg (nonneg : 0 ≤ f.x.toInt ∧ 0 ≤ f.y.toInt) : f.rect = f.unsigned := by
  rw [Frame.rect, toInt_nonneg_iff.mp nonneg.1, toInt_nonneg_iff.mp nonneg.2, Frame.unsigned]

/-- A frame that begins left of the screen or above it also ends there, if its ends fit when its
place is read without sign. -/
theorem Frame.EndsFit.hidden (fit : f.EndsFit) (negative : ¬ (0 ≤ f.x.toInt ∧ 0 ≤ f.y.toInt))
    (x y : ℕ) : ¬ s.Shows f.rect x y := by
  rintro ⟨-, ⟨left, right⟩, top, bottom⟩
  obtain ⟨fitX, fitY⟩ := fit
  have hx := BitVec.toInt_eq_toNat_cond f.x
  have hy := BitVec.toInt_eq_toNat_cond f.y
  simp only [Frame.rect] at left right top bottom
  split_ifs at hx hy <;> omega

/-- The stores fill the signed frame just when it is unwrapped, or nothing has to be changed and the
stores change nothing. -/
theorem fills_signed_iff :
    s.Fills f.rect v b (storeAll (s.stores v (f.cells s.width s.height)) b) ↔
      (f.Unwrapped → s.SharedPainted f.rect v b) ∧
        (¬ f.Unwrapped → s.Painted f.rect v b ∧ (f.EndsFit → s.Painted f.unsigned v b)) := by
  by_cases nonneg : 0 ≤ f.x.toInt ∧ 0 ≤ f.y.toInt
  · have fits : f.Unwrapped ↔ f.EndsFit := and_iff_right nonneg
    rw [rect_of_nonneg nonneg, fills_unsigned_iff, fits]
    refine and_congr_right fun _ => forall_congr' fun wraps => ?_
    exact (and_iff_left fun fit => absurd fit wraps).symm
  · have wrapped : ¬ f.Unwrapped := fun unwrapped => nonneg unwrapped.1
    simp only [wrapped, false_imp_iff, not_false_eq_true, true_imp_iff, true_and]
    by_cases fit : f.EndsFit
    · have hidden : ∀ x y, ¬ s.Shows f.rect x y := fit.hidden nonneg
      have painted : s.Painted f.rect v b := fun x y shows => absurd shows (hidden x y)
      rw [Raster.fills_other_iff fit.mem_cells hidden]
      simp only [painted, fit, true_imp_iff, true_and]
    · rw [Frame.cells_of_wraps fit]
      simp only [fit, false_imp_iff, and_true]
      exact Raster.fills_nil_iff

end

/-! ## The framebuffer -/

/-- The back buffer as a raster. -/
def FbInfo.raster (g : FbInfo) : Raster := ⟨g.width, g.height, g.index⟩

/-- Only the pixels of the rectangle change, and they all get the color. -/
structure FbInfo.FillsRect (g : FbInfo) (r : Rect) (color : BitVec 32) (g' : FbInfo) : Prop where
  only : g' = { g with backbuffer := g'.backbuffer }
  fills : g.raster.Fills r color g.backbuffer g'.backbuffer

theorem rectStores_eq (g : FbInfo) (f : Frame) (color : BitVec 32) :
    rectStores g.width g.height f.x f.y f.width f.height color =
      g.raster.stores color (f.cells g.raster.width g.raster.height) := by
  rw [Frame.cells, Raster.stores_cells]
  rfl

/-- `fb_draw_rect` fills its rectangle just when the ends do not wrap around, or the rectangle has
the color already. -/
theorem fbDrawRect_fills_iff (g : FbInfo) (f : Frame) (color : BitVec 32) :
    g.FillsRect f.unsigned color (fbDrawRect f.x f.y f.width f.height color g) ↔
      (f.EndsFit → g.raster.SharedPainted f.unsigned color g.backbuffer) ∧
        (¬ f.EndsFit → g.raster.Painted f.unsigned color g.backbuffer) := by
  have drawn := (fbDrawRect_draws g.width g.height f.x f.y f.width f.height color).eq g rfl rfl
  rw [rectStores_eq] at drawn
  rw [← fills_unsigned_iff, drawn]
  exact ⟨fun fills => fills.fills, fun fills => ⟨rfl, fills⟩⟩

/-- The pixels of a framebuffer that fits into the address space have different indices. -/
theorem FbInfo.sharedPainted (g : FbInfo) (fits : g.width * g.height ≤ 2 ^ 64) (r : Rect)
    (color : BitVec 32) (b : ℕ → BitVec 32) : g.raster.SharedPainted r color b :=
  Raster.sharedPainted_of_rows (fun _ _ => rfl) fits r color b

/-! ## Surfaces -/

/-- The pixel buffer of a surface as a raster. -/
def Surface.raster (surface : Surface) : Raster where
  width := surface.width.toNat
  height := surface.height.toNat
  index x y := surface.index (.ofNat 32 x) (.ofNat 32 y)

/-- Only the pixels of the rectangle on the surface, with the buffer `b`, change, and they all get
the color. -/
structure Desktop.FillsRect (s : Desktop) (surf b : ℕ) (r : Rect) (color : BitVec 32)
    (s' : Desktop) : Prop where
  only : s' = { s with pixels := Function.update s.pixels b (s'.pixels b) }
  fills : (s.surfaces surf).raster.Fills r color (s.pixels b) (s'.pixels b)

theorem surfaceRectStores_eq (surface : Surface) (f : Frame) (color : BitVec 32) :
    surfaceRectStores f.x f.y f.width f.height color surface =
      surface.raster.stores color (f.cells surface.raster.width surface.raster.height) := by
  rw [Frame.cells, Raster.stores_cells]
  rfl

/-- `surface_draw_rect` fills its rectangle just when its place is not negative and the ends do not
wrap around, or neither the rectangle nor the pixels it is drawn at have to be changed. -/
theorem surfaceDrawRect_fills_iff {s : Desktop} {surf b : ℕ}
    (pixels : (s.surfaces surf).pixels = some b) (f : Frame) (color : BitVec 32) :
    s.FillsRect surf b f.rect color
        (surfaceDrawRect (some surf) f.x f.y f.width f.height color s) ↔
      (f.Unwrapped → (s.surfaces surf).raster.SharedPainted f.rect color (s.pixels b)) ∧
        (¬ f.Unwrapped → (s.surfaces surf).raster.Painted f.rect color (s.pixels b) ∧
          (f.EndsFit → (s.surfaces surf).raster.Painted f.unsigned color (s.pixels b))) := by
  set raster := (s.surfaces surf).raster with hraster
  set stores := raster.stores color (f.cells raster.width raster.height) with hstores
  have drawn : surfaceDrawRect (some surf) f.x f.y f.width f.height color s =
      { s with pixels := Function.update s.pixels b (storeAll stores (s.pixels b)) } := by
    rw [surfaceDrawRect, Desktop.onPixels, pixels, hstores, hraster, ← surfaceRectStores_eq,
      ← drawRectPixels_eq]
  have buffer : (surfaceDrawRect (some surf) f.x f.y f.width f.height color s).pixels b =
      storeAll stores (s.pixels b) := by
    rw [drawn]
    exact Function.update_self ..
  rw [← fills_signed_iff]
  constructor
  · intro fills
    rw [← hstores, ← buffer]
    exact fills.fills
  · intro fills
    refine ⟨?_, by rwa [buffer]⟩
    rw [buffer, drawn]

/-- The pixels of a countable surface have different indices. -/
theorem Surface.Countable.sharedPainted {surface : Surface} (countable : surface.Countable)
    (r : Rect) (color : BitVec 32) (b : ℕ → BitVec 32) : surface.raster.SharedPainted r color b :=
  Raster.sharedPainted_of_rows surface.index_ofNat (Nat.le_of_lt countable) r color b

/-! ## Both -/

/-- The two functions fill the part of their rectangle on the screen just under their conditions. -/
theorem drawRect_fills_iff (g : FbInfo) {s : Desktop} {surf b : ℕ}
    (pixels : (s.surfaces surf).pixels = some b) (f : Frame) (color : BitVec 32) :
    (g.FillsRect f.unsigned color (fbDrawRect f.x f.y f.width f.height color g) ↔
        (f.EndsFit → g.raster.SharedPainted f.unsigned color g.backbuffer) ∧
          (¬ f.EndsFit → g.raster.Painted f.unsigned color g.backbuffer)) ∧
      (s.FillsRect surf b f.rect color
          (surfaceDrawRect (some surf) f.x f.y f.width f.height color s) ↔
        (f.Unwrapped → (s.surfaces surf).raster.SharedPainted f.rect color (s.pixels b)) ∧
          (¬ f.Unwrapped → (s.surfaces surf).raster.Painted f.rect color (s.pixels b) ∧
            (f.EndsFit → (s.surfaces surf).raster.Painted f.unsigned color (s.pixels b)))) :=
  ⟨fbDrawRect_fills_iff g f color, surfaceDrawRect_fills_iff pixels f color⟩

/-- A screen of 640 by 480 pixels in black. -/
def blackScreen : FbInfo := { unsetFb with width := 640, height := 480 }

/-- A surface of 98 by 71 pixels in black. -/
def blackDesktop : Desktop := { exampleDesktop with pixels := fun _ _ => 0 }

theorem drawRect_fills_example :
    blackScreen.FillsRect ⟨10, 20, 30, 40⟩ 1 (fbDrawRect 10 20 30 40 1 blackScreen) ∧
      blackDesktop.FillsRect 4 5 ⟨10, 20, 30, 40⟩ 1
        (surfaceDrawRect (some 4) 10 20 30 40 1 blackDesktop) := by
  have fit : Frame.EndsFit ⟨10, 20, 30, 40⟩ := by constructor <;> decide
  have unwrapped : Frame.Unwrapped ⟨10, 20, 30, 40⟩ := ⟨by decide, fit⟩
  have countable : (blackDesktop.surfaces 4).Countable := by decide
  obtain ⟨screen, surface⟩ := @drawRect_fills_iff blackScreen blackDesktop 4 5 rfl
    ⟨10, 20, 30, 40⟩ 1
  exact ⟨screen.mpr ⟨fun _ => blackScreen.sharedPainted (by decide) _ _ _, absurd fit⟩,
    surface.mpr ⟨fun _ => countable.sharedPainted _ _ _, absurd unwrapped⟩⟩

/-- A rectangle whose right end wraps around, and one that sticks out on the left. -/
theorem rectangle_not_drawn :
    (¬ ∀ (g : FbInfo) (f : Frame) (color : BitVec 32),
      g.FillsRect f.unsigned color (fbDrawRect f.x f.y f.width f.height color g)) ∧
    ¬ ∀ (s : Desktop) (surf b : ℕ) (f : Frame) (color : BitVec 32),
      (s.surfaces surf).pixels = some b → s.FillsRect surf b f.rect color
        (surfaceDrawRect (some surf) f.x f.y f.width f.height color s) := by
  constructor
  · intro claim
    have painted := ((fbDrawRect_fills_iff _ _ _).mp (claim blackScreen ⟨600, 0, -1, 1⟩ 1)).2
      (by unfold Frame.EndsFit; decide)
    have here := painted 600 0 ⟨by decide, ⟨by decide, by decide⟩, by decide, by decide⟩
    exact absurd here (by decide)
  · intro claim
    have painted := ((surfaceDrawRect_fills_iff rfl _ _).mp
      (claim blackDesktop 4 5 ⟨-5, 0, 10, 10⟩ 1 rfl)).2
      (by unfold Frame.Unwrapped Frame.EndsFit; decide)
    have here := painted.1 0 0 ⟨by decide, ⟨by decide, by decide⟩, by decide, by decide⟩
    exact absurd here (by decide)

end ChefOs
