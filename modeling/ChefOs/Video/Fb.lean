import ChefOs.Lib.Word

/-!
# The framebuffer

`video/fb.c`.  The buffers are pixels by index, and the font is a parameter.  A string is given
without its final NUL.
-/

namespace ChefOs

open Kit

/-- `COLOR_BG`. -/
def colorBg : BitVec 32 := 0x00F1EBDD

/-- `COLOR_SURFACE`. -/
def colorSurface : BitVec 32 := 0x00F8F4EA

/-- `COLOR_SURFACE_ALT`. -/
def colorSurfaceAlt : BitVec 32 := 0x00E8E0CE

/-- `COLOR_TEXT`. -/
def colorText : BitVec 32 := 0x002B2A28

/-- `COLOR_TEXT_MUTED`. -/
def colorTextMuted : BitVec 32 := 0x006E6A5F

/-- `COLOR_ACCENT`. -/
def colorAccent : BitVec 32 := 0x00A6534A

/-- `COLOR_BORDER`. -/
def colorBorder : BitVec 32 := 0x00DCD3BE

/-- `COLOR_WHITE`. -/
def colorWhite : BitVec 32 := 0x00FFFFFF

/-- `struct limine_framebuffer`, with the pixels at its address. -/
structure LimineFramebuffer where
  address : ℕ → BitVec 32
  width : ℕ
  height : ℕ
  pitch : ℕ

/-- `fb_info_t`.  The front buffer is `NULL` until `fb_init`. -/
structure FbInfo where
  frontbuffer : Option (ℕ → BitVec 32)
  backbuffer : ℕ → BitVec 32
  width : ℕ
  height : ℕ
  pitch : ℕ
  cursorX : BitVec 32
  cursorY : BitVec 32
  fgColor : BitVec 32

/-- `font_8x16`: the bits of each row of each glyph. -/
abbrev Font := UInt8 → ℕ → BitVec 8

/-- The values of a loop variable from `start` on, below `stop`. -/
def upTo (start stop : ℕ) : List ℕ := List.range' start (stop - start)

theorem mem_upTo {i start stop : ℕ} : i ∈ upTo start stop ↔ start ≤ i ∧ i < stop := by
  rw [upTo, List.mem_range'_1]
  omega

/-- The index of a pixel of the back buffer. -/
def FbInfo.index (g : FbInfo) (x y : ℕ) : ℕ := u64 (y * g.width + x)

/-- `g_fb.backbuffer[index] = color`. -/
def FbInfo.store (index : ℕ) (color : BitVec 32) (g : FbInfo) : FbInfo :=
  { g with backbuffer := Function.update g.backbuffer index color }

/-- `fb_clear`. -/
def fbClear (color : BitVec 32) (g : FbInfo) : FbInfo :=
  (upTo 0 g.height).foldl (fun g y =>
    (upTo 0 g.width).foldl (fun g x => g.store (g.index x y) color) g) g

/-- A row of the back buffer goes to the front buffer. -/
def copyRow (g : FbInfo) (front : ℕ → BitVec 32) (y : ℕ) : ℕ → BitVec 32 := fun a =>
  let row := u64 (y * g.pitch)
  if row ≤ a ∧ a < row + g.width then g.backbuffer (u64 (y * g.width) + (a - row)) else front a

/-- `fb_swap`. -/
def fbSwap (g : FbInfo) : FbInfo :=
  match g.frontbuffer with
  | none => g
  | some front => { g with frontbuffer := some ((upTo 0 g.height).foldl (copyRow g) front) }

/-- `fb_init`. -/
def fbInit (fb : Option LimineFramebuffer) (g : FbInfo) : FbInfo :=
  match fb with
  | none => g
  | some fb =>
    let g : FbInfo := {
      frontbuffer := some fb.address
      backbuffer := g.backbuffer
      width := fb.width
      height := fb.height
      pitch := fb.pitch / 4
      cursorX := 80
      cursorY := 60
      fgColor := colorText }
    fbSwap (fbClear colorBg g)

/-! ## Shapes -/

/-- `fb_put_pixel`. -/
def fbPutPixel (x y color : BitVec 32) (g : FbInfo) : FbInfo :=
  if x.toNat ≥ g.width ∨ y.toNat ≥ g.height then g else g.store (g.index x.toNat y.toNat) color

/-- `fb_draw_rect`.  The ends `x + w` and `y + h` are 32-bit sums. -/
def fbDrawRect (x y w h color : BitVec 32) (g : FbInfo) : FbInfo :=
  (upTo y.toNat (min (y + h).toNat g.height)).foldl (fun g j =>
    (upTo x.toNat (min (x + w).toNat g.width)).foldl (fun g i => g.store (g.index i j) color) g) g

/-- The border of `fb_draw_rounded_rect`. -/
def drawBorder (x y w h borderColor : BitVec 32) (g : FbInfo) : FbInfo :=
  let g := (upTo x.toNat (x + w).toNat).foldl (fun g i =>
    fbPutPixel (.ofNat 32 i) (y + h - 1) borderColor
      (fbPutPixel (.ofNat 32 i) y borderColor g)) g
  (upTo y.toNat (y + h).toNat).foldl (fun g j =>
    fbPutPixel (x + w - 1) (.ofNat 32 j) borderColor
      (fbPutPixel x (.ofNat 32 j) borderColor g)) g

/-- `fb_draw_rounded_rect`, which does not use its radius. -/
def fbDrawRoundedRect (x y w h _radius color borderColor : BitVec 32) (g : FbInfo) : FbInfo :=
  let g := fbDrawRect x y w h color g
  if borderColor ≠ 0 then drawBorder x y w h borderColor g else g

/-! ## Text -/

/-- One pixel of a glyph. -/
def drawGlyphPixel (bits : BitVec 8) (x y fg bg : BitVec 32) (row : ℕ) (g : FbInfo) (col : ℕ) :
    FbInfo :=
  if (bits >>> (7 - col)) &&& 1 ≠ 0 then fbPutPixel (x + .ofNat 32 col) (y + .ofNat 32 row) fg g
  else if bg ≠ 0 then fbPutPixel (x + .ofNat 32 col) (y + .ofNat 32 row) bg g
  else g

/-- `fb_draw_char`. -/
def fbDrawChar (font : Font) (c : UInt8) (x y fg bg : BitVec 32) (g : FbInfo) : FbInfo :=
  let c := if c > 127 then 0x3F else c
  (upTo 0 16).foldl (fun g row =>
    (upTo 0 8).foldl (drawGlyphPixel (font c row) x y fg bg row) g) g

/-- `fb_draw_string`. -/
def fbDrawString (font : Font) : List UInt8 → BitVec 32 → BitVec 32 → BitVec 32 → BitVec 32 →
    FbInfo → FbInfo
  | [], _, _, _, _, g => g
  | c :: str, x, y, fg, bg, g =>
    fbDrawString font str (x + 8) y fg bg (fbDrawChar font c x y fg bg g)

/-- The cursor goes to the start of the next line. -/
def FbInfo.newLine (g : FbInfo) : FbInfo :=
  { g with cursorX := 88 + 16, cursorY := g.cursorY + 18 }

/-- `fb_putc`. -/
def fbPutc (font : Font) (c : UInt8) (g : FbInfo) : FbInfo :=
  if c = 0x0A then g.newLine
  else
    let g := if (g.cursorX + 8).toNat ≥ sub64 g.width 40 then g.newLine else g
    let g := fbDrawChar font c g.cursorX g.cursorY g.fgColor 0 g
    { g with cursorX := g.cursorX + 8 }

/-- `fb_puts`. -/
def fbPuts (font : Font) (str : List UInt8) (g : FbInfo) : FbInfo :=
  str.foldl (fun g c => fbPutc font c g) g

/-! ## The mouse cursor -/

/-- `cursor_bitmap`. -/
def cursorBitmap : List (List ℕ) :=
  [[1, 0, 0, 0, 0, 0, 0, 0, 0, 0],
    [1, 1, 0, 0, 0, 0, 0, 0, 0, 0],
    [1, 2, 1, 0, 0, 0, 0, 0, 0, 0],
    [1, 2, 2, 1, 0, 0, 0, 0, 0, 0],
    [1, 2, 2, 2, 1, 0, 0, 0, 0, 0],
    [1, 2, 2, 2, 2, 1, 0, 0, 0, 0],
    [1, 2, 2, 2, 2, 2, 1, 0, 0, 0],
    [1, 2, 2, 2, 2, 2, 2, 1, 0, 0],
    [1, 2, 2, 2, 2, 1, 1, 1, 1, 0],
    [1, 2, 2, 1, 2, 1, 0, 0, 0, 0],
    [1, 2, 1, 0, 1, 2, 1, 0, 0, 0],
    [1, 1, 0, 0, 1, 2, 1, 0, 0, 0],
    [1, 0, 0, 0, 0, 1, 2, 1, 0, 0],
    [0, 0, 0, 0, 0, 1, 2, 1, 0, 0],
    [0, 0, 0, 0, 0, 0, 1, 1, 0, 0]]

/-- One pixel of the mouse cursor. -/
def drawCursorPixel (x y : BitVec 32) (r : ℕ) (g : FbInfo) (c : ℕ) : FbInfo :=
  let val := (cursorBitmap.getD r []).getD c 0
  if val = 1 then fbPutPixel (x + .ofNat 32 c) (y + .ofNat 32 r) colorText g
  else if val = 2 then fbPutPixel (x + .ofNat 32 c) (y + .ofNat 32 r) colorWhite g
  else g

/-- `fb_draw_cursor`. -/
def fbDrawCursor (x y : BitVec 32) (g : FbInfo) : FbInfo :=
  (upTo 0 15).foldl (fun g r => (upTo 0 10).foldl (drawCursorPixel x y r) g) g

/-! ## Two buffers

Two buffers of one size that agree on some pixels: drawing the same keeps the agreement, and a
filled rectangle adds its pixels to it. -/

/-- The buffers have the size and agree at the indices `I`. -/
structure Alike (width height : ℕ) (I : Set ℕ) (g g' : FbInfo) : Prop where
  size : g.width = width ∧ g.height = height
  size' : g'.width = width ∧ g'.height = height
  same : Set.EqOn g.backbuffer g'.backbuffer I

section

variable {width height : ℕ} {I : Set ℕ} {g g' : FbInfo}

theorem Alike.mono {J : Set ℕ} (alike : Alike width height I g g') (sub : J ⊆ I) :
    Alike width height J g g' :=
  ⟨alike.size, alike.size', alike.same.mono sub⟩

/-- A stored pixel agrees. -/
theorem Alike.store (alike : Alike width height I g g') (index : ℕ) (color : BitVec 32) :
    Alike width height (I ∪ {index}) (g.store index color) (g'.store index color) := by
  refine ⟨alike.size, alike.size', fun a ha => ?_⟩
  unfold FbInfo.store
  by_cases here : a = index
  · simp [here]
  · simp only [Function.update_of_ne here]
    exact alike.same (ha.resolve_right here)

/-- A loop adds the pixels that each round adds. -/
theorem Alike.foldl {β : Type} {f : FbInfo → β → FbInfo} {S : β → Set ℕ}
    (body : ∀ {I : Set ℕ} {g g' : FbInfo} (b : β), Alike width height I g g' →
      Alike width height (I ∪ S b) (f g b) (f g' b)) (l : List β)
    (alike : Alike width height I g g') :
    Alike width height (I ∪ ⋃ b ∈ l, S b) (l.foldl f g) (l.foldl f g') := by
  induction l generalizing I g g' with
  | nil => exact alike.mono (by simp)
  | cons b l ih =>
    apply (ih (body b alike)).mono
    simp [Set.union_assoc]

/-- A loop keeps what each round keeps. -/
theorem Alike.foldl_keep {β : Type} {f : FbInfo → β → FbInfo}
    (body : ∀ {g g' : FbInfo} (b : β), Alike width height I g g' →
      Alike width height I (f g b) (f g' b)) (l : List β) (alike : Alike width height I g g') :
    Alike width height I (l.foldl f g) (l.foldl f g') := by
  induction l generalizing g g' with
  | nil => exact alike
  | cons b l ih => exact ih (body b alike)

/-- `fb_put_pixel` keeps an agreement. -/
theorem Alike.putPixel (alike : Alike width height I g g') (x y color : BitVec 32) :
    Alike width height I (fbPutPixel x y color g) (fbPutPixel x y color g') := by
  unfold fbPutPixel
  rw [alike.size.1, alike.size.2, alike.size'.1, alike.size'.2, FbInfo.index, FbInfo.index,
    alike.size.1, alike.size'.1]
  split
  · exact alike
  · exact (alike.store _ color).mono Set.subset_union_left

/-- The indices of the pixels that `fb_draw_rect` fills. -/
def rectPixels (width height : ℕ) (x y w h : BitVec 32) : Set ℕ :=
  ⋃ j ∈ upTo y.toNat (min (y + h).toNat height),
    ⋃ i ∈ upTo x.toNat (min (x + w).toNat width), {u64 (j * width + i)}

/-- A filled rectangle agrees. -/
theorem Alike.drawRect (alike : Alike width height I g g') (x y w h color : BitVec 32) :
    Alike width height (I ∪ rectPixels width height x y w h) (fbDrawRect x y w h color g)
      (fbDrawRect x y w h color g') := by
  unfold fbDrawRect
  rw [alike.size.2, alike.size'.2]
  apply Alike.foldl _ _ alike
  intro I g g' j alike
  rw [alike.size.1, alike.size'.1]
  apply Alike.foldl _ _ alike
  intro I g g' i alike
  rw [FbInfo.index, FbInfo.index, alike.size.1, alike.size'.1]
  exact alike.store _ color

theorem Alike.border (alike : Alike width height I g g') (x y w h borderColor : BitVec 32) :
    Alike width height I (drawBorder x y w h borderColor g)
      (drawBorder x y w h borderColor g') := by
  unfold drawBorder
  apply Alike.foldl_keep
  · intro g g' j alike
    exact (alike.putPixel ..).putPixel ..
  · apply Alike.foldl_keep _ _ alike
    intro g g' i alike
    exact (alike.putPixel ..).putPixel ..

theorem Alike.drawRoundedRect (alike : Alike width height I g g')
    (x y w h radius color borderColor : BitVec 32) :
    Alike width height (I ∪ rectPixels width height x y w h)
      (fbDrawRoundedRect x y w h radius color borderColor g)
      (fbDrawRoundedRect x y w h radius color borderColor g') := by
  unfold fbDrawRoundedRect
  have filled := alike.drawRect x y w h color
  split
  · exact filled.border ..
  · exact filled

theorem Alike.glyphPixel (alike : Alike width height I g g') (bits : BitVec 8)
    (x y fg bg : BitVec 32) (row col : ℕ) :
    Alike width height I (drawGlyphPixel bits x y fg bg row g col)
      (drawGlyphPixel bits x y fg bg row g' col) := by
  unfold drawGlyphPixel
  split_ifs
  · exact alike.putPixel ..
  · exact alike.putPixel ..
  · exact alike

theorem Alike.drawChar (alike : Alike width height I g g') (font : Font) (c : UInt8)
    (x y fg bg : BitVec 32) :
    Alike width height I (fbDrawChar font c x y fg bg g) (fbDrawChar font c x y fg bg g') := by
  unfold fbDrawChar
  apply Alike.foldl_keep _ _ alike
  intro g g' row alike
  apply Alike.foldl_keep _ _ alike
  intro g g' col alike
  exact alike.glyphPixel ..

/-- `fb_draw_string` keeps an agreement. -/
theorem Alike.drawString (alike : Alike width height I g g') (font : Font) (str : List UInt8)
    (x y fg bg : BitVec 32) :
    Alike width height I (fbDrawString font str x y fg bg g)
      (fbDrawString font str x y fg bg g') := by
  induction str generalizing x g g' with
  | nil => exact alike
  | cons c str ih => exact ih (alike.drawChar font c x y fg bg) (x + 8)

end

end ChefOs
