import ChefOs.Lib.Raster
import ChefOs.Video.Fb

/-!
# Stores to the back buffer

The drawing calls of `video/fb.c` as the stores they make, in order.  `fb_swap` is the only call
that reads the back buffer.  All stores but those of `fb_clear` pass a test against the size of the
screen, and the size of the buffer is fixed.
-/

namespace ChefOs

open Kit

/-- The number of elements of `s_backbuffer`. -/
def backbufferSize : ℕ := 1920 * 1080

/-- A store to the back buffer: its index and its color. -/
abbrev Store := ℕ × BitVec 32

/-! ## The stores of the calls -/

section

variable (width height : ℕ)

/-- The stores of `fb_clear`. -/
def clearStores (color : BitVec 32) : List Store :=
  (upTo 0 height).flatMap fun y => (upTo 0 width).map fun x => (u64 (y * width + x), color)

/-- The store of `fb_put_pixel`. -/
def pixelStores (x y color : BitVec 32) : List Store :=
  if x.toNat ≥ width ∨ y.toNat ≥ height then [] else [(u64 (y.toNat * width + x.toNat), color)]

/-- The stores of `fb_draw_rect`. -/
def rectStores (x y w h color : BitVec 32) : List Store :=
  (upTo y.toNat (min (y + h).toNat height)).flatMap fun j =>
    (upTo x.toNat (min (x + w).toNat width)).map fun i => (u64 (j * width + i), color)

/-- The stores for the border of `fb_draw_rounded_rect`. -/
def borderStores (x y w h borderColor : BitVec 32) : List Store :=
  ((upTo x.toNat (x + w).toNat).flatMap fun i =>
    pixelStores width height (.ofNat 32 i) y borderColor ++
      pixelStores width height (.ofNat 32 i) (y + h - 1) borderColor) ++
  (upTo y.toNat (y + h).toNat).flatMap fun j =>
    pixelStores width height x (.ofNat 32 j) borderColor ++
      pixelStores width height (x + w - 1) (.ofNat 32 j) borderColor

/-- The stores of `fb_draw_rounded_rect`. -/
def roundedRectStores (x y w h color borderColor : BitVec 32) : List Store :=
  rectStores width height x y w h color ++
    if borderColor ≠ 0 then borderStores width height x y w h borderColor else []

/-- The store for one pixel of a glyph. -/
def glyphStores (bits : BitVec 8) (x y fg bg : BitVec 32) (row col : ℕ) : List Store :=
  if (bits >>> (7 - col)) &&& 1 ≠ 0 then
    pixelStores width height (x + .ofNat 32 col) (y + .ofNat 32 row) fg
  else if bg ≠ 0 then pixelStores width height (x + .ofNat 32 col) (y + .ofNat 32 row) bg
  else []

/-- The stores of `fb_draw_char`. -/
def charStores (font : Font) (c : UInt8) (x y fg bg : BitVec 32) : List Store :=
  let c := if c > 127 then 0x3F else c
  (upTo 0 16).flatMap fun row =>
    (upTo 0 8).flatMap (glyphStores width height (font c row) x y fg bg row)

/-- The stores of `fb_draw_string`. -/
def stringStores (font : Font) : List UInt8 → BitVec 32 → BitVec 32 → BitVec 32 → BitVec 32 →
    List Store
  | [], _, _, _, _ => []
  | c :: str, x, y, fg, bg =>
    charStores width height font c x y fg bg ++ stringStores font str (x + 8) y fg bg

/-- The store for one pixel of the mouse cursor. -/
def cursorPixelStores (x y : BitVec 32) (r c : ℕ) : List Store :=
  let val := (cursorBitmap.getD r []).getD c 0
  if val = 1 then pixelStores width height (x + .ofNat 32 c) (y + .ofNat 32 r) colorText
  else if val = 2 then pixelStores width height (x + .ofNat 32 c) (y + .ofNat 32 r) colorWhite
  else []

/-- The stores of `fb_draw_cursor`. -/
def cursorStores (x y : BitVec 32) : List Store :=
  (upTo 0 15).flatMap fun r => (upTo 0 10).flatMap (cursorPixelStores width height x y r)

/-- The indices that `fb_swap` reads. -/
def swapReads : List ℕ :=
  (upTo 0 height).flatMap fun y => (upTo 0 width).map fun x => u64 (y * width) + x

end

/-- `fb_putc` before it draws: the cursor goes to the next line if the character does not fit. -/
def FbInfo.wrap (g : FbInfo) : FbInfo :=
  if (g.cursorX + 8).toNat ≥ sub64 g.width 40 then g.newLine else g

/-- `g_fb.cursor_x += 8`. -/
def FbInfo.advance (g : FbInfo) : FbInfo := { g with cursorX := g.cursorX + 8 }

/-- The stores of `fb_putc`. -/
def putcStores (font : Font) (c : UInt8) (g : FbInfo) : List Store :=
  if c = 0x0A then []
  else charStores g.width g.height font c g.wrap.cursorX g.wrap.cursorY g.fgColor 0

/-! ## The calls make their stores -/

/-- The stores are made. -/
def FbInfo.storeAll (stores : List Store) (g : FbInfo) : FbInfo :=
  { g with backbuffer := Kit.storeAll stores g.backbuffer }

/-- On a screen of the size the call makes the stores and changes nothing else. -/
structure Draws (width height : ℕ) (f : FbInfo → FbInfo) (stores : List Store) : Prop where
  eq : ∀ g : FbInfo, g.width = width → g.height = height → f g = g.storeAll stores

section

variable {width height : ℕ} {f f' : FbInfo → FbInfo} {stores stores' : List Store}

theorem Draws.nil : Draws width height (fun g => g) [] := ⟨fun _ _ _ => rfl⟩

theorem Draws.comp (first : Draws width height f stores) (second : Draws width height f' stores') :
    Draws width height (fun g => f' (f g)) (stores ++ stores') := by
  refine ⟨fun g hw hh => ?_⟩
  rw [first.eq g hw hh, second.eq (g.storeAll stores) hw hh, FbInfo.storeAll, FbInfo.storeAll,
    FbInfo.storeAll, storeAll_append]

/-- A loop makes the stores of its rounds. -/
theorem Draws.foldl {β : Type} {f : FbInfo → β → FbInfo} {stores : β → List Store}
    (body : ∀ b, Draws width height (fun g => f g b) (stores b)) (l : List β) :
    Draws width height (fun g => l.foldl f g) (l.flatMap stores) := by
  induction l with
  | nil => exact .nil
  | cons b l ih => exact (body b).comp ih

theorem Draws.congr (same : ∀ g : FbInfo, g.width = width → g.height = height → f g = f' g)
    (draws : Draws width height f' stores) : Draws width height f stores := by
  refine ⟨fun g hw hh => ?_⟩
  rw [same g hw hh, draws.eq g hw hh]

variable (width height)

theorem store_draws (x y : ℕ) (color : BitVec 32) :
    Draws width height (fun g => g.store (g.index x y) color)
      [(u64 (y * width + x), color)] := by
  refine ⟨fun g hw _ => ?_⟩
  rw [FbInfo.index, hw]
  rfl

/-- A loop over the pixels of a row. -/
theorem row_draws (start stop y : ℕ) (color : BitVec 32) :
    Draws width height
      (fun g => (upTo start stop).foldl (fun g x => g.store (g.index x y) color) g)
      ((upTo start stop).map fun x => (u64 (y * width + x), color)) := by
  rw [← List.flatMap_pure_eq_map]
  exact .foldl (fun x => store_draws width height x y color) _

theorem fbClear_draws (color : BitVec 32) :
    Draws width height (fbClear color) (clearStores width height color) := by
  have row : ∀ y, Draws width height
      (fun g => (upTo 0 g.width).foldl (fun g x => g.store (g.index x y) color) g) _ := fun y =>
    (row_draws width height 0 width y color).congr fun g hw _ => by rw [hw]
  exact (Draws.foldl row (upTo 0 height)).congr fun g _ hh => by rw [fbClear, hh]

theorem fbPutPixel_draws (x y color : BitVec 32) :
    Draws width height (fbPutPixel x y color) (pixelStores width height x y color) := by
  refine ⟨fun g hw hh => ?_⟩
  rw [fbPutPixel, pixelStores, hw, hh, FbInfo.index, hw]
  split_ifs <;> rfl

theorem fbDrawRect_draws (x y w h color : BitVec 32) :
    Draws width height (fbDrawRect x y w h color) (rectStores width height x y w h color) := by
  have row : ∀ j, Draws width height (fun g => (upTo x.toNat (min (x + w).toNat g.width)).foldl
      (fun g i => g.store (g.index i j) color) g) _ := fun j =>
    (row_draws width height _ (min (x + w).toNat width) j color).congr fun g hw _ => by rw [hw]
  exact (Draws.foldl row _).congr fun g _ hh => by rw [fbDrawRect, hh]

theorem drawBorder_draws (x y w h borderColor : BitVec 32) :
    Draws width height (drawBorder x y w h borderColor)
      (borderStores width height x y w h borderColor) := by
  have columns := Draws.foldl (fun i => (fbPutPixel_draws width height (.ofNat 32 i) y
    borderColor).comp (fbPutPixel_draws width height (.ofNat 32 i) (y + h - 1) borderColor))
    (upTo x.toNat (x + w).toNat)
  have rows := Draws.foldl (fun j => (fbPutPixel_draws width height x (.ofNat 32 j)
    borderColor).comp (fbPutPixel_draws width height (x + w - 1) (.ofNat 32 j) borderColor))
    (upTo y.toNat (y + h).toNat)
  exact columns.comp rows

theorem fbDrawRoundedRect_draws (x y w h radius color borderColor : BitVec 32) :
    Draws width height (fbDrawRoundedRect x y w h radius color borderColor)
      (roundedRectStores width height x y w h color borderColor) := by
  unfold roundedRectStores fbDrawRoundedRect
  have filled := fbDrawRect_draws width height x y w h color
  split_ifs
  · exact filled.comp (drawBorder_draws ..)
  · exact filled.comp .nil

theorem drawGlyphPixel_draws (bits : BitVec 8) (x y fg bg : BitVec 32) (row col : ℕ) :
    Draws width height (fun g => drawGlyphPixel bits x y fg bg row g col)
      (glyphStores width height bits x y fg bg row col) := by
  unfold drawGlyphPixel glyphStores
  split_ifs
  · exact fbPutPixel_draws ..
  · exact fbPutPixel_draws ..
  · exact .nil

theorem fbDrawChar_draws (font : Font) (c : UInt8) (x y fg bg : BitVec 32) :
    Draws width height (fbDrawChar font c x y fg bg)
      (charStores width height font c x y fg bg) :=
  .foldl (fun _ => .foldl (fun _ => drawGlyphPixel_draws ..) _) _

theorem fbDrawString_draws (font : Font) (str : List UInt8) (x y fg bg : BitVec 32) :
    Draws width height (fbDrawString font str x y fg bg)
      (stringStores width height font str x y fg bg) := by
  induction str generalizing x with
  | nil => exact .nil
  | cons c str ih => exact (fbDrawChar_draws ..).comp (ih (x + 8))

theorem drawCursorPixel_draws (x y : BitVec 32) (r c : ℕ) :
    Draws width height (fun g => drawCursorPixel x y r g c)
      (cursorPixelStores width height x y r c) := by
  unfold drawCursorPixel cursorPixelStores
  dsimp only
  split_ifs
  · exact fbPutPixel_draws ..
  · exact fbPutPixel_draws ..
  · exact .nil

theorem fbDrawCursor_draws (x y : BitVec 32) :
    Draws width height (fbDrawCursor x y) (cursorStores width height x y) :=
  .foldl (fun _ => .foldl (fun _ => drawCursorPixel_draws ..) _) _

end

/-! ## The stores are on the screen -/

/-- Each store is at the index of a pixel of the screen. -/
structure OnScreen (width height : ℕ) (stores : List Store) : Prop where
  pixel : ∀ s ∈ stores, ∃ x y, (x < width ∧ y < height) ∧ s.1 = u64 (y * width + x)

section

variable {width height : ℕ} {stores stores' : List Store}

theorem OnScreen.lt (onScreen : OnScreen width height stores) {n : ℕ} (fits : width * height ≤ n) :
    ∀ a ∈ stores.map Prod.fst, a < n := by
  intro a ha
  obtain ⟨s, hs, rfl⟩ := List.mem_map.mp ha
  obtain ⟨x, y, ⟨hx, hy⟩, index⟩ := onScreen.pixel s hs
  rw [index]
  exact (Nat.mod_le ..).trans_lt ((Raster.row_lt hx hy).trans_le fits)

theorem OnScreen.nil : OnScreen width height [] := ⟨fun _ hs => absurd hs List.not_mem_nil⟩

theorem OnScreen.append (first : OnScreen width height stores)
    (second : OnScreen width height stores') : OnScreen width height (stores ++ stores') := by
  refine ⟨fun s hs => ?_⟩
  exact (List.mem_append.mp hs).elim (first.pixel s) (second.pixel s)

theorem OnScreen.flatMap {β : Type} {l : List β} {stores : β → List Store}
    (body : ∀ b ∈ l, OnScreen width height (stores b)) :
    OnScreen width height (l.flatMap stores) := by
  refine ⟨fun s hs => ?_⟩
  obtain ⟨b, hb, hs⟩ := List.mem_flatMap.mp hs
  exact (body b hb).pixel s hs

theorem OnScreen.row {y start stop : ℕ} {color : BitVec 32} (hy : y < height)
    (stops : stop ≤ width) :
    OnScreen width height ((upTo start stop).map fun x => (u64 (y * width + x), color)) := by
  refine ⟨fun s hs => ?_⟩
  obtain ⟨x, hx, rfl⟩ := List.mem_map.mp hs
  exact ⟨x, y, ⟨(mem_upTo.mp hx).2.trans_le stops, hy⟩, rfl⟩

variable (width height)

theorem clearStores_onScreen (color : BitVec 32) :
    OnScreen width height (clearStores width height color) :=
  .flatMap fun _ hy => .row (mem_upTo.mp hy).2 le_rfl

theorem pixelStores_onScreen (x y color : BitVec 32) :
    OnScreen width height (pixelStores width height x y color) := by
  unfold pixelStores
  split_ifs with outside
  · exact .nil
  · rw [not_or] at outside
    refine ⟨fun s hs => ?_⟩
    obtain rfl := List.mem_singleton.mp hs
    exact ⟨x.toNat, y.toNat, ⟨Nat.lt_of_not_le outside.1, Nat.lt_of_not_le outside.2⟩, rfl⟩

theorem rectStores_onScreen (x y w h color : BitVec 32) :
    OnScreen width height (rectStores width height x y w h color) :=
  .flatMap fun _ hj => .row ((mem_upTo.mp hj).2.trans_le (min_le_right ..)) (min_le_right ..)

theorem roundedRectStores_onScreen (x y w h color borderColor : BitVec 32) :
    OnScreen width height (roundedRectStores width height x y w h color borderColor) := by
  refine .append (rectStores_onScreen ..) ?_
  split_ifs
  · refine .append (.flatMap fun i _ => ?_) (.flatMap fun j _ => ?_)
    · exact (pixelStores_onScreen ..).append (pixelStores_onScreen ..)
    · exact (pixelStores_onScreen ..).append (pixelStores_onScreen ..)
  · exact .nil

theorem glyphStores_onScreen (bits : BitVec 8) (x y fg bg : BitVec 32) (row col : ℕ) :
    OnScreen width height (glyphStores width height bits x y fg bg row col) := by
  unfold glyphStores
  split_ifs
  · exact pixelStores_onScreen ..
  · exact pixelStores_onScreen ..
  · exact .nil

theorem charStores_onScreen (font : Font) (c : UInt8) (x y fg bg : BitVec 32) :
    OnScreen width height (charStores width height font c x y fg bg) :=
  .flatMap fun _ _ => .flatMap fun _ _ => glyphStores_onScreen ..

theorem stringStores_onScreen (font : Font) (str : List UInt8) (x y fg bg : BitVec 32) :
    OnScreen width height (stringStores width height font str x y fg bg) := by
  induction str generalizing x with
  | nil => exact .nil
  | cons c str ih => exact .append (charStores_onScreen ..) (ih (x + 8))

theorem cursorStores_onScreen (x y : BitVec 32) :
    OnScreen width height (cursorStores width height x y) := by
  refine .flatMap fun r _ => .flatMap fun c _ => ?_
  unfold cursorPixelStores
  dsimp only
  split_ifs
  · exact pixelStores_onScreen ..
  · exact pixelStores_onScreen ..
  · exact .nil

theorem putcStores_onScreen (font : Font) (c : UInt8) (g : FbInfo) :
    OnScreen g.width g.height (putcStores font c g) := by
  unfold putcStores
  split_ifs
  · exact .nil
  · exact charStores_onScreen ..

/-- The reads of `fb_swap` are at the indices of pixels. -/
theorem lt_of_mem_swapReads {n a : ℕ} (fits : width * height ≤ n)
    (ha : a ∈ swapReads width height) : a < n := by
  obtain ⟨y, hy, ha⟩ := List.mem_flatMap.mp ha
  obtain ⟨x, hx, rfl⟩ := List.mem_map.mp ha
  have inside := (Raster.row_lt (mem_upTo.mp hx).2 (mem_upTo.mp hy).2).trans_le fits
  have row : u64 (y * width) ≤ y * width := Nat.mod_le ..
  omega

end

/-! ## Runs of drawing calls -/

/-- A drawing call. -/
inductive FbCall
  | clear (color : BitVec 32)
  | putPixel (x y color : BitVec 32)
  | drawRect (x y w h color : BitVec 32)
  | drawRoundedRect (x y w h radius color borderColor : BitVec 32)
  | drawChar (c : UInt8) (x y fg bg : BitVec 32)
  | drawString (str : List UInt8) (x y fg bg : BitVec 32)
  | putc (c : UInt8)
  | drawCursor (x y : BitVec 32)
  | swap

/-- The call. -/
def FbCall.run (font : Font) (g : FbInfo) : FbCall → FbInfo
  | clear color => fbClear color g
  | putPixel x y color => fbPutPixel x y color g
  | drawRect x y w h color => fbDrawRect x y w h color g
  | drawRoundedRect x y w h radius color borderColor =>
    fbDrawRoundedRect x y w h radius color borderColor g
  | drawChar c x y fg bg => fbDrawChar font c x y fg bg g
  | drawString str x y fg bg => fbDrawString font str x y fg bg g
  | putc c => fbPutc font c g
  | drawCursor x y => fbDrawCursor x y g
  | swap => fbSwap g

/-- The stores of a call. -/
def FbCall.stores (font : Font) (g : FbInfo) : FbCall → List Store
  | clear color => clearStores g.width g.height color
  | putPixel x y color => pixelStores g.width g.height x y color
  | drawRect x y w h color => rectStores g.width g.height x y w h color
  | drawRoundedRect x y w h _ color borderColor =>
    roundedRectStores g.width g.height x y w h color borderColor
  | drawChar c x y fg bg => charStores g.width g.height font c x y fg bg
  | drawString str x y fg bg => stringStores g.width g.height font str x y fg bg
  | putc c => putcStores font c g
  | drawCursor x y => cursorStores g.width g.height x y
  | swap => []

/-- The indices that a call reads. -/
def FbCall.reads (g : FbInfo) : FbCall → List ℕ
  | swap => if g.frontbuffer.isSome then swapReads g.width g.height else []
  | _ => []

/-- The indices of the back buffer that a call reads or writes. -/
def FbCall.accesses (font : Font) (g : FbInfo) (call : FbCall) : List ℕ :=
  (call.stores font g).map Prod.fst ++ call.reads g

/-- The accesses of calls made one after the other. -/
def accessesOf (font : Font) : List FbCall → FbInfo → List ℕ
  | [], _ => []
  | call :: calls, g => call.accesses font g ++ accessesOf font calls (call.run font g)

/-- The fields that `fb_init` sets. -/
def LimineFramebuffer.info (fb : LimineFramebuffer) (g : FbInfo) : FbInfo where
  frontbuffer := some fb.address
  backbuffer := g.backbuffer
  width := fb.width
  height := fb.height
  pitch := fb.pitch / 4
  cursorX := 80
  cursorY := 60
  fgColor := colorText

/-- The calls that `fb_init` makes then. -/
def fbInitCalls : List FbCall := [.clear colorBg, .swap]

theorem fbInit_eq (font : Font) (fb : LimineFramebuffer) (g : FbInfo) :
    fbInit (some fb) g = fbInitCalls.foldl (FbCall.run font) (fb.info g) := rfl

section

variable (font : Font) (g : FbInfo)

/-- Only the cursor changes at the end of a line. -/
theorem FbInfo.wrap_eq : ∃ cursorX cursorY, g.wrap = { g with cursorX, cursorY } := by
  unfold FbInfo.wrap
  split_ifs
  · exact ⟨_, _, rfl⟩
  · exact ⟨g.cursorX, g.cursorY, rfl⟩

variable {c : UInt8}

/-- What `fb_putc` does for a character other than a newline. -/
theorem fbPutc_stores (notNewline : c ≠ 0x0A) :
    fbPutc font c g = (g.wrap.storeAll (putcStores font c g)).advance := by
  have call : fbPutc font c g =
      (fbDrawChar font c g.wrap.cursorX g.wrap.cursorY g.wrap.fgColor 0 g.wrap).advance :=
    if_neg notNewline
  obtain ⟨cursorX, cursorY, wrapped⟩ := g.wrap_eq
  have size : g.wrap.width = g.width ∧ g.wrap.height = g.height := by
    rw [wrapped]
    exact ⟨rfl, rfl⟩
  have color : g.wrap.fgColor = g.fgColor := by rw [wrapped]
  rw [call, color, putcStores, if_neg notNewline, (fbDrawChar_draws g.width g.height font c
    g.wrap.cursorX g.wrap.cursorY g.fgColor 0).eq g.wrap size.1 size.2]

/-- A call makes its stores, on a screen that keeps its size. -/
structure FbCall.Makes (g g' : FbInfo) (stores : List Store) : Prop where
  width : g'.width = g.width
  height : g'.height = g.height
  backbuffer : g'.backbuffer = storeAll stores g.backbuffer

theorem Draws.makes {f : FbInfo → FbInfo} {stores : List Store}
    (draws : Draws g.width g.height f stores) : FbCall.Makes g (f g) stores := by
  rw [draws.eq g rfl rfl]
  exact ⟨rfl, rfl, rfl⟩

theorem Draws.frontbuffer {f : FbInfo → FbInfo} {stores : List Store}
    (draws : Draws g.width g.height f stores) : (f g).frontbuffer = g.frontbuffer := by
  rw [draws.eq g rfl rfl]
  rfl

theorem fbPutc_frontbuffer (c : UInt8) : (fbPutc font c g).frontbuffer = g.frontbuffer := by
  by_cases newline : c = 0x0A
  · rw [fbPutc, if_pos newline]
    rfl
  · obtain ⟨cursorX, cursorY, wrapped⟩ := g.wrap_eq
    rw [fbPutc_stores font g newline, wrapped]
    rfl

theorem fbPutc_makes (c : UInt8) : FbCall.Makes g (fbPutc font c g) (putcStores font c g) := by
  by_cases newline : c = 0x0A
  · rw [fbPutc, if_pos newline, putcStores, if_pos newline]
    exact ⟨rfl, rfl, rfl⟩
  · obtain ⟨cursorX, cursorY, wrapped⟩ := g.wrap_eq
    rw [fbPutc_stores font g newline, wrapped]
    exact ⟨rfl, rfl, rfl⟩

theorem fbSwap_frontbuffer :
    (fbSwap g).frontbuffer = g.frontbuffer.map ((upTo 0 g.height).foldl (copyRow g)) := by
  unfold fbSwap
  split <;> simp [*]

theorem fbSwap_makes : FbCall.Makes g (fbSwap g) [] := by
  unfold fbSwap
  split <;> exact ⟨rfl, rfl, rfl⟩

/-- The writes of a call are its stores. -/
theorem FbCall.run_makes (call : FbCall) : Makes g (call.run font g) (call.stores font g) := by
  cases call with
  | clear color => exact (fbClear_draws ..).makes
  | putPixel x y color => exact (fbPutPixel_draws ..).makes
  | drawRect x y w h color => exact (fbDrawRect_draws ..).makes
  | drawRoundedRect x y w h radius color borderColor =>
    exact (fbDrawRoundedRect_draws _ _ x y w h radius color borderColor).makes
  | drawChar c x y fg bg => exact (fbDrawChar_draws ..).makes
  | drawString str x y fg bg => exact (fbDrawString_draws ..).makes
  | putc c => exact fbPutc_makes font g c
  | drawCursor x y => exact (fbDrawCursor_draws ..).makes
  | swap => exact fbSwap_makes g

/-- `fb_swap` depends on the back buffer at the indices it reads only. -/
theorem fbSwap_reads (b : ℕ → BitVec 32) (same : ∀ a ∈ FbCall.swap.reads g, b a = g.backbuffer a) :
    (fbSwap { g with backbuffer := b }).frontbuffer = (fbSwap g).frontbuffer := by
  rw [fbSwap_frontbuffer, fbSwap_frontbuffer]
  cases front : g.frontbuffer with
  | none => rfl
  | some address =>
    simp only [FbCall.reads, front, Option.isSome_some, if_true] at same
    refine congrArg some (List.foldl_ext _ _ _ fun b' y hy => funext fun a => ?_)
    unfold copyRow
    dsimp only
    split_ifs with inside
    · apply same
      refine List.mem_flatMap.mpr ⟨y, hy, List.mem_map.mpr ⟨a - u64 (y * g.pitch), ?_, rfl⟩⟩
      rw [mem_upTo]
      omega
    · rfl

/-- Only `fb_swap` puts something on the screen. -/
theorem FbCall.run_frontbuffer (call : FbCall) :
    call = .swap ∨ (call.run font g).frontbuffer = g.frontbuffer := by
  cases call with
  | clear color => exact .inr (fbClear_draws ..).frontbuffer
  | putPixel x y color => exact .inr (fbPutPixel_draws ..).frontbuffer
  | drawRect x y w h color => exact .inr (fbDrawRect_draws ..).frontbuffer
  | drawRoundedRect x y w h radius color borderColor =>
    exact .inr (fbDrawRoundedRect_draws _ _ x y w h radius color borderColor).frontbuffer
  | drawChar c x y fg bg => exact .inr (fbDrawChar_draws ..).frontbuffer
  | drawString str x y fg bg => exact .inr (fbDrawString_draws ..).frontbuffer
  | putc c => exact .inr (fbPutc_frontbuffer font g c)
  | drawCursor x y => exact .inr (fbDrawCursor_draws ..).frontbuffer
  | swap => exact .inl rfl

/-- The accesses are what the call does with the back buffer: it makes the stores, and what it puts
on the screen depends on the elements that it reads only. -/
structure FbCall.Traced (call : FbCall) : Prop where
  stores : (call.run font g).backbuffer = storeAll (call.stores font g) g.backbuffer
  reads : ∀ b, (∀ a ∈ call.reads g, b a = g.backbuffer a) →
    (call.run font { g with backbuffer := b }).frontbuffer = (call.run font g).frontbuffer

theorem FbCall.traced (call : FbCall) : call.Traced font g := by
  refine ⟨(call.run_makes font g).backbuffer, fun b same => ?_⟩
  rcases call.run_frontbuffer font g with rfl | kept
  · exact fbSwap_reads g b same
  · rcases call.run_frontbuffer font { g with backbuffer := b } with rfl | kept'
    · exact fbSwap_reads g b same
    · exact kept'.trans kept.symm

/-- The stores of every call are on the screen. -/
theorem FbCall.stores_onScreen (call : FbCall) :
    OnScreen g.width g.height (call.stores font g) := by
  cases call with
  | clear color => exact clearStores_onScreen ..
  | putPixel x y color => exact pixelStores_onScreen ..
  | drawRect x y w h color => exact rectStores_onScreen ..
  | drawRoundedRect x y w h radius color borderColor => exact roundedRectStores_onScreen ..
  | drawChar c x y fg bg => exact charStores_onScreen ..
  | drawString str x y fg bg => exact stringStores_onScreen ..
  | putc c => exact putcStores_onScreen ..
  | drawCursor x y => exact cursorStores_onScreen ..
  | swap => exact .nil

theorem FbCall.accesses_lt (call : FbCall) {n : ℕ} (fits : g.width * g.height ≤ n) :
    ∀ a ∈ call.accesses font g, a < n := by
  intro a ha
  rcases List.mem_append.mp ha with written | read
  · exact (call.stores_onScreen font g).lt fits a written
  · cases call with
    | swap =>
      unfold reads at read
      split_ifs at read
      · exact lt_of_mem_swapReads _ _ fits read
      · exact absurd read List.not_mem_nil
    | _ => exact absurd read List.not_mem_nil

/-- Every run of calls stays on the screen. -/
theorem accessesOf_lt (calls : List FbCall) {n : ℕ} (fits : g.width * g.height ≤ n) :
    ∀ a ∈ accessesOf font calls g, a < n := by
  induction calls generalizing g with
  | nil => exact fun a ha => absurd ha List.not_mem_nil
  | cons call calls ih =>
    intro a ha
    rcases List.mem_append.mp ha with first | later
    · exact call.accesses_lt font g fits a first
    · have makes := call.run_makes font g
      exact ih (call.run font g) (by rwa [makes.width, makes.height]) a later

/-- `fb_init` stores at every index below the number of pixels. -/
theorem mem_accessesOf_fbInit {fb : LimineFramebuffer} {n : ℕ} (below : n < fb.width * fb.height)
    (small : n < 2 ^ 64) : n ∈ accessesOf font fbInitCalls (fb.info g) := by
  have pos : 0 < fb.width := Nat.pos_of_mul_pos_right (Nat.zero_lt_of_lt below)
  have row : n / fb.width < fb.height := (Nat.div_lt_iff_lt_mul pos).mpr (by rwa [Nat.mul_comm])
  have column : n % fb.width < fb.width := Nat.mod_lt n pos
  have index : u64 (n / fb.width * fb.width + n % fb.width) = n := by
    rw [Nat.div_add_mod', u64_of_lt small]
  have stored : n ∈ (clearStores fb.width fb.height colorBg).map Prod.fst := by
    rw [clearStores, List.map_flatMap]
    refine List.mem_flatMap.mpr ⟨n / fb.width, mem_upTo.mpr ⟨Nat.zero_le _, row⟩, ?_⟩
    rw [List.map_map]
    exact List.mem_map.mpr ⟨n % fb.width, mem_upTo.mpr ⟨Nat.zero_le _, column⟩, index⟩
  exact List.mem_append_left _ (List.mem_append_left _ stored)

theorem fbInit_size (fb : LimineFramebuffer) :
    (fbInit (some fb) g).width = fb.width ∧ (fbInit (some fb) g).height = fb.height := by
  have cleared := (fbClear_draws (fb.info g).width _ colorBg).makes
  have swapped := fbSwap_makes (fbClear colorBg (fb.info g))
  exact ⟨swapped.width.trans cleared.width, swapped.height.trans cleared.height⟩

end

/-- From `fb_init` on all accesses to the back buffer are inside it just when it has room for the
pixels of the screen.  The accesses are those of the calls, and `fb_init` makes its own two. -/
theorem backbuffer_inBounds_iff (font : Font) (fb : LimineFramebuffer) (g : FbInfo)
    (calls : List FbCall) :
    ((∀ a ∈ accessesOf font fbInitCalls (fb.info g) ++ accessesOf font calls (fbInit (some fb) g),
        a < backbufferSize) ↔
      fb.width * fb.height ≤ backbufferSize) ∧
    fbInit (some fb) g = fbInitCalls.foldl (FbCall.run font) (fb.info g) ∧
    ∀ (call : FbCall) (g : FbInfo), call.Traced font g := by
  refine ⟨⟨?_, ?_⟩, fbInit_eq font fb g, fun call g => call.traced font g⟩
  · intro inBounds
    by_contra large
    have stored := mem_accessesOf_fbInit font g (Nat.lt_of_not_le large) (by decide)
    exact absurd (inBounds _ (List.mem_append_left _ stored)) (lt_irrefl _)
  · intro fits a ha
    rcases List.mem_append.mp ha with first | later
    · exact accessesOf_lt font (fb.info g) fbInitCalls fits a first
    · obtain ⟨width, height⟩ := fbInit_size g fb
      exact accessesOf_lt font _ calls (by rwa [width, height]) a later

/-- The static variables of `fb.c` before `fb_init`. -/
def unsetFb : FbInfo := ⟨none, fun _ => 0, 0, 0, 0, 0, 0, 0⟩

/-- A screen of 2560 by 1440 pixels. -/
theorem large_screen_leaves_backbuffer :
    ¬ ∀ (font : Font) (fb : LimineFramebuffer) (g : FbInfo) (calls : List FbCall),
      ∀ a ∈ accessesOf font fbInitCalls (fb.info g) ++ accessesOf font calls (fbInit (some fb) g),
        a < backbufferSize := by
  intro claim
  let fb : LimineFramebuffer := ⟨fun _ => 0, 2560, 1440, 10240⟩
  have stored : backbufferSize ∈ accessesOf (fun _ _ => 0) fbInitCalls (fb.info unsetFb) :=
    mem_accessesOf_fbInit _ _ (by decide) (by decide)
  exact lt_irrefl _ (claim _ fb unsetFb [] _ (List.mem_append_left _ stored))

end ChefOs
