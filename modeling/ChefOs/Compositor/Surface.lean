import ChefOs.Compositor.Compositor
import ChefOs.Video.Stores

/-!
# Drawing on surfaces

The drawing functions of `compositor/surface.c`, and which elements of the pixel buffer they and
`draw_window` access.  The buffer has as many elements as the product of width and height keeps in
32 bits.
-/

namespace ChefOs

open Kit

/-- `if (!surf || !surf->pixels) return`, and what is done with the pixels otherwise. -/
def Desktop.onPixels (surf : Option ℕ) (f : Surface → (ℕ → BitVec 32) → ℕ → BitVec 32)
    (s : Desktop) : Desktop :=
  match surf with
  | none => s
  | some surf =>
    match (s.surfaces surf).pixels with
    | none => s
    | some b => { s with pixels := Function.update s.pixels b (f (s.surfaces surf) (s.pixels b)) }

@[simp] theorem Desktop.onPixels_surfaces (surf : Option ℕ)
    (f : Surface → (ℕ → BitVec 32) → ℕ → BitVec 32) (s : Desktop) :
    (s.onPixels surf f).surfaces = s.surfaces := by
  cases surf with
  | none => rfl
  | some surf =>
    unfold Desktop.onPixels
    dsimp only
    split <;> rfl

/-- `surf->pixels[index]`, for a column and a row. -/
def Surface.index (surface : Surface) (i j : BitVec 32) : ℕ := (j * surface.width + i).toNat

/-- The loop of `surface_clear`. -/
def clearPixels (color : BitVec 32) (surface : Surface) (px : ℕ → BitVec 32) : ℕ → BitVec 32 :=
  let count := surface.width * surface.height
  (upTo 0 count.toNat).foldl (fun px i => Function.update px i color) px

/-- `surface_clear`. -/
def surfaceClear (surf : Option ℕ) (color : BitVec 32) (s : Desktop) : Desktop :=
  s.onPixels surf (clearPixels color)

/-- The loops of `surface_draw_rect`.  The signed `x` and `y` are converted to unsigned numbers. -/
def drawRectPixels (x y w h color : BitVec 32) (surface : Surface) (px : ℕ → BitVec 32) :
    ℕ → BitVec 32 :=
  (upTo y.toNat (min (y + h).toNat surface.height.toNat)).foldl (fun px j =>
    (upTo x.toNat (min (x + w).toNat surface.width.toNat)).foldl (fun px i =>
      Function.update px (surface.index (.ofNat 32 i) (.ofNat 32 j)) color) px) px

/-- `surface_draw_rect`. -/
def surfaceDrawRect (surf : Option ℕ) (x y w h color : BitVec 32) (s : Desktop) : Desktop :=
  s.onPixels surf (drawRectPixels x y w h color)

/-- The signed number is at least zero and below the unsigned one, converted to a signed one. -/
def BelowSigned (p : BitVec 32) (size : BitVec 32) : Prop := 0 ≤ p.toInt ∧ p.toInt < size.toInt

instance (p size : BitVec 32) : Decidable (BelowSigned p size) :=
  inferInstanceAs (Decidable (_ ∧ _))

/-- One pixel of a glyph of `surface_draw_string`. -/
def drawSurfaceGlyphPixel (surface : Surface) (bits : BitVec 8) (x y fg : BitVec 32) (r : ℕ)
    (px : ℕ → BitVec 32) (col : ℕ) : ℕ → BitVec 32 :=
  if (bits >>> (7 - col)) &&& 1 ≠ 0 then
    let i := x + .ofNat 32 col
    let j := y + .ofNat 32 r
    if BelowSigned i surface.width ∧ BelowSigned j surface.height then
      Function.update px (surface.index i j) fg
    else px
  else px

/-- One character of `surface_draw_string`. -/
def drawSurfaceChar (font : Font) (c : UInt8) (x y fg : BitVec 32) (surface : Surface)
    (px : ℕ → BitVec 32) : ℕ → BitVec 32 :=
  let c := if c > 127 then 0x3F else c
  (upTo 0 16).foldl (fun px r =>
    (upTo 0 8).foldl (drawSurfaceGlyphPixel surface (font c r) x y fg r) px) px

/-- The loop of `surface_draw_string`. -/
def drawStringPixels (font : Font) : List UInt8 → BitVec 32 → BitVec 32 → BitVec 32 → Surface →
    (ℕ → BitVec 32) → ℕ → BitVec 32
  | [], _, _, _, _, px => px
  | c :: str, x, y, fg, surface, px =>
    drawStringPixels font str (x + 8) y fg surface (drawSurfaceChar font c x y fg surface px)

/-- `surface_draw_string`. -/
def surfaceDrawString (font : Font) (surf : Option ℕ) (str : Option (List UInt8))
    (x y fg : BitVec 32) (s : Desktop) : Desktop :=
  match str with
  | none => s
  | some str => s.onPixels surf (drawStringPixels font str x y fg)

/-! ## Stores and reads -/

/-- The stores of `surface_clear`. -/
def surfaceClearStores (color : BitVec 32) (surface : Surface) : List Store :=
  (upTo 0 (surface.width * surface.height).toNat).map fun i => (i, color)

/-- The stores of `surface_draw_rect`. -/
def surfaceRectStores (x y w h color : BitVec 32) (surface : Surface) : List Store :=
  (upTo y.toNat (min (y + h).toNat surface.height.toNat)).flatMap fun j =>
    (upTo x.toNat (min (x + w).toNat surface.width.toNat)).map fun i =>
      (surface.index (.ofNat 32 i) (.ofNat 32 j), color)

/-- The store for one pixel of a glyph. -/
def surfaceGlyphStores (surface : Surface) (bits : BitVec 8) (x y fg : BitVec 32) (r col : ℕ) :
    List Store :=
  if (bits >>> (7 - col)) &&& 1 ≠ 0 then
    let i := x + .ofNat 32 col
    let j := y + .ofNat 32 r
    if BelowSigned i surface.width ∧ BelowSigned j surface.height then [(surface.index i j, fg)]
    else []
  else []

/-- The stores for one character. -/
def surfaceCharStores (font : Font) (c : UInt8) (x y fg : BitVec 32) (surface : Surface) :
    List Store :=
  let c := if c > 127 then 0x3F else c
  (upTo 0 16).flatMap fun r =>
    (upTo 0 8).flatMap (surfaceGlyphStores surface (font c r) x y fg r)

/-- The stores of `surface_draw_string`. -/
def surfaceStringStores (font : Font) : List UInt8 → BitVec 32 → BitVec 32 → BitVec 32 →
    Surface → List Store
  | [], _, _, _, _ => []
  | c :: str, x, y, fg, surface =>
    surfaceCharStores font c x y fg surface ++ surfaceStringStores font str (x + 8) y fg surface

/-- The elements that `draw_window` reads. -/
def blitReads (surface : Surface) : List ℕ :=
  (upTo 0 surface.height.toNat).flatMap fun j => (upTo 0 surface.width.toNat).map fun i =>
    surface.index (.ofNat 32 i) (.ofNat 32 j)

section

variable (surface : Surface) (px : ℕ → BitVec 32)

theorem clearPixels_eq (color : BitVec 32) :
    clearPixels color surface px = storeAll (surfaceClearStores color surface) px :=
  foldl_update (fun i => i) color _ px

theorem drawRectPixels_eq (x y w h color : BitVec 32) :
    drawRectPixels x y w h color surface px =
      storeAll (surfaceRectStores x y w h color surface) px := by
  refine foldl_storeAll (fun px j => ?_) _ px
  exact foldl_update (fun i => surface.index (.ofNat 32 i) (.ofNat 32 j)) color _ px

theorem drawSurfaceGlyphPixel_eq (bits : BitVec 8) (x y fg : BitVec 32) (r col : ℕ) :
    drawSurfaceGlyphPixel surface bits x y fg r px col =
      storeAll (surfaceGlyphStores surface bits x y fg r col) px := by
  unfold drawSurfaceGlyphPixel surfaceGlyphStores
  dsimp only
  split_ifs <;> rfl

theorem drawSurfaceChar_eq (font : Font) (c : UInt8) (x y fg : BitVec 32) :
    drawSurfaceChar font c x y fg surface px =
      storeAll (surfaceCharStores font c x y fg surface) px := by
  unfold drawSurfaceChar surfaceCharStores
  refine foldl_storeAll (fun px r => ?_) _ px
  exact foldl_storeAll (fun px col => drawSurfaceGlyphPixel_eq surface px _ x y fg r col) _ px

theorem drawStringPixels_eq (font : Font) (str : List UInt8) (x y fg : BitVec 32) :
    drawStringPixels font str x y fg surface px =
      storeAll (surfaceStringStores font str x y fg surface) px := by
  induction str generalizing x px with
  | nil => rfl
  | cons c str ih =>
    rw [drawStringPixels, ih, drawSurfaceChar_eq, surfaceStringStores, storeAll_append]

/-- The blit of `draw_window` depends on the elements that it reads only. -/
theorem blitSurface_reads {px px' : ℕ → BitVec 32} (same : ∀ a ∈ blitReads surface, px a = px' a)
    (w : Window) (g : FbInfo) : blitSurface w surface px g = blitSurface w surface px' g := by
  refine List.foldl_ext _ _ _ fun g j hj => List.foldl_ext _ _ _ fun g i hi => ?_
  have read := same _ (List.mem_flatMap.mpr ⟨j, hj, List.mem_map.mpr ⟨i, hi, rfl⟩⟩)
  rw [Surface.index] at read
  rw [read]

/-- The stores and the reads are those of the drawing functions and of `draw_window`. -/
structure Surface.Traced (font : Font) : Prop where
  clear : ∀ color px, clearPixels color surface px = storeAll (surfaceClearStores color surface) px
  rect : ∀ x y w h color px,
    drawRectPixels x y w h color surface px = storeAll (surfaceRectStores x y w h color surface) px
  string : ∀ str x y fg px, drawStringPixels font str x y fg surface px =
    storeAll (surfaceStringStores font str x y fg surface) px
  blit : ∀ (px px' : ℕ → BitVec 32) (w : Window) (g : FbInfo),
    (∀ a ∈ blitReads surface, px a = px' a) →
      blitSurface w surface px g = blitSurface w surface px' g

theorem Surface.traced (font : Font) : surface.Traced font where
  clear color px := clearPixels_eq surface px color
  rect x y w h color px := drawRectPixels_eq surface px x y w h color
  string str x y fg px := drawStringPixels_eq surface px font str x y fg
  blit _ _ w g same := blitSurface_reads surface same w g

end

/-! ## Later calls -/

/-- A call that draws on a surface or shows it. -/
inductive SurfaceCall
  | clear (color : BitVec 32)
  | drawRect (x y w h color : BitVec 32)
  | drawString (str : Option (List UInt8)) (x y fg : BitVec 32)
  | drawWindow (win : ℕ)

/-- The call, for the surface `surf`. -/
def SurfaceCall.run (font : Font) (surf : ℕ) (s : Scene) : SurfaceCall → Scene
  | clear color => { s with desktop := surfaceClear (some surf) color s.desktop }
  | drawRect x y w h color =>
    { s with desktop := surfaceDrawRect (some surf) x y w h color s.desktop }
  | drawString str x y fg =>
    { s with desktop := surfaceDrawString font (some surf) str x y fg s.desktop }
  | drawWindow _ => s

/-- The elements of the pixel buffer of `surf` that the call reads or writes. -/
def SurfaceCall.accesses (font : Font) (surf : ℕ) (s : Scene) (call : SurfaceCall) : List ℕ :=
  let surface := s.desktop.surfaces surf
  if surface.pixels = none then []
  else
    match call with
    | clear color => (surfaceClearStores color surface).map Prod.fst
    | drawRect x y w h color => (surfaceRectStores x y w h color surface).map Prod.fst
    | drawString none _ _ _ => []
    | drawString (some str) x y fg => (surfaceStringStores font str x y fg surface).map Prod.fst
    | drawWindow win =>
      if (s.window win).Visible s.sComp.activeWorkspace ∧ (s.window win).surface = some surf then
        blitReads surface
      else []

/-- The buffer of a surface without more pixels than 32 bits count. -/
def Surface.Countable (surface : Surface) : Prop :=
  surface.width.toNat * surface.height.toNat < 2 ^ 32

instance (surface : Surface) : Decidable surface.Countable := inferInstanceAs (Decidable (_ < _))

section

variable {surface : Surface} {i j : BitVec 32}

theorem Surface.Countable.elements (countable : surface.Countable) :
    (surface.width * surface.height).toNat = surface.width.toNat * surface.height.toNat := by
  rw [BitVec.toNat_mul]
  exact Nat.mod_eq_of_lt countable

/-- A pixel of the surface is an element of its buffer. -/
theorem Surface.Countable.index_lt (countable : surface.Countable)
    (column : i.toNat < surface.width.toNat) (row : j.toNat < surface.height.toNat) :
    surface.index i j < (surface.width * surface.height).toNat := by
  have inside := Raster.row_lt column row
  rw [countable.elements, Surface.index, BitVec.toNat_add, BitVec.toNat_mul,
    Nat.mod_add_mod]
  exact (Nat.mod_le ..).trans_lt inside

theorem BelowSigned.lt {p size : BitVec 32} (below : BelowSigned p size) :
    p.toNat < size.toNat := by
  obtain ⟨nonneg, lt⟩ := below
  rw [BitVec.toInt_eq_toNat_cond] at nonneg lt
  rw [BitVec.toInt_eq_toNat_cond] at lt
  split_ifs at nonneg lt <;> omega

theorem ofNat_toNat_of_lt {n : ℕ} {size : BitVec 32} (lt : n < size.toNat) :
    (BitVec.ofNat 32 n).toNat = n := by
  rw [BitVec.toNat_ofNat]
  exact Nat.mod_eq_of_lt (lt.trans size.isLt)

/-- The index of a pixel, in 32 bits. -/
theorem Surface.index_ofNat (surface : Surface) (i j : ℕ) :
    surface.index (.ofNat 32 i) (.ofNat 32 j) = (j * surface.width.toNat + i) % 2 ^ 32 := by
  rw [Surface.index, BitVec.toNat_add, BitVec.toNat_mul, BitVec.toNat_ofNat, BitVec.toNat_ofNat,
    Nat.add_mod_mod, Nat.mod_add_mod, Nat.add_mod, Nat.mod_mul_mod, ← Nat.add_mod]

/-- A loop over one row or column. -/
theorem mem_upTo_one {n : ℕ} {size : BitVec 32} (lt : n < size.toNat) :
    n ∈ upTo (BitVec.ofNat 32 n).toNat (min (BitVec.ofNat 32 n + 1).toNat size.toNat) := by
  have := size.isLt
  have start := ofNat_toNat_of_lt lt
  rw [mem_upTo, BitVec.toNat_add, start]
  change n ≤ n ∧ n < min ((n + 1) % 2 ^ 32) size.toNat
  rw [Nat.mod_eq_of_lt (by omega)]
  omega

/-- The stores are inside the buffer. -/
structure Surface.Holds (surface : Surface) (stores : List Store) : Prop where
  lt : ∀ s ∈ stores, s.1 < (surface.width * surface.height).toNat

theorem Surface.Holds.nil : surface.Holds [] := ⟨fun _ hs => absurd hs List.not_mem_nil⟩

theorem Surface.Holds.flatMap {β : Type} {l : List β} {stores : β → List Store}
    (body : ∀ b ∈ l, surface.Holds (stores b)) : surface.Holds (l.flatMap stores) := by
  refine ⟨fun s hs => ?_⟩
  obtain ⟨b, hb, hs⟩ := List.mem_flatMap.mp hs
  exact (body b hb).lt s hs

theorem surfaceClearStores_holds (color : BitVec 32) :
    surface.Holds (surfaceClearStores color surface) := by
  refine ⟨fun s hs => ?_⟩
  obtain ⟨i, hi, rfl⟩ := List.mem_map.mp hs
  exact (mem_upTo.mp hi).2

theorem Surface.Countable.rectStores (countable : surface.Countable) (x y w h color : BitVec 32) :
    surface.Holds (surfaceRectStores x y w h color surface) := by
  refine .flatMap fun j hj => ⟨fun s hs => ?_⟩
  obtain ⟨i, hi, rfl⟩ := List.mem_map.mp hs
  have column : i < surface.width.toNat := (mem_upTo.mp hi).2.trans_le (min_le_right ..)
  have row : j < surface.height.toNat := (mem_upTo.mp hj).2.trans_le (min_le_right ..)
  apply countable.index_lt
  · rwa [ofNat_toNat_of_lt column]
  · rwa [ofNat_toNat_of_lt row]

theorem Surface.Countable.glyphStores (countable : surface.Countable) (bits : BitVec 8)
    (x y fg : BitVec 32) (r col : ℕ) :
    surface.Holds (surfaceGlyphStores surface bits x y fg r col) := by
  unfold surfaceGlyphStores
  dsimp only
  split_ifs with dark inside
  · refine ⟨fun s hs => ?_⟩
    obtain rfl := List.mem_singleton.mp hs
    exact countable.index_lt inside.1.lt inside.2.lt
  · exact .nil
  · exact .nil

theorem Surface.Countable.stringStores (countable : surface.Countable) (font : Font)
    (str : List UInt8) (x y fg : BitVec 32) :
    surface.Holds (surfaceStringStores font str x y fg surface) := by
  induction str generalizing x with
  | nil => exact .nil
  | cons c str ih =>
    have char : surface.Holds (surfaceCharStores font c x y fg surface) :=
      .flatMap fun _ _ => .flatMap fun _ _ => countable.glyphStores ..
    refine ⟨fun s hs => ?_⟩
    exact (List.mem_append.mp hs).elim (char.lt s) ((ih (x + 8)).lt s)

theorem Surface.Countable.blitReads (countable : surface.Countable) :
    ∀ a ∈ blitReads surface, a < (surface.width * surface.height).toNat := by
  intro a ha
  obtain ⟨j, hj, ha⟩ := List.mem_flatMap.mp ha
  obtain ⟨i, hi, rfl⟩ := List.mem_map.mp ha
  have column : i < surface.width.toNat := (mem_upTo.mp hi).2
  have row : j < surface.height.toNat := (mem_upTo.mp hj).2
  apply countable.index_lt
  · rwa [ofNat_toNat_of_lt column]
  · rwa [ofNat_toNat_of_lt row]

theorem Surface.Holds.accesses {stores : List Store} (holds : surface.Holds stores) :
    ∀ a ∈ stores.map Prod.fst, a < (surface.width * surface.height).toNat := by
  intro a ha
  obtain ⟨s, hs, rfl⟩ := List.mem_map.mp ha
  exact holds.lt s hs

variable (font : Font) (surf : ℕ) (s : Scene)

/-- Every call stays inside the buffer of a countable surface. -/
theorem SurfaceCall.accesses_lt (countable : (s.desktop.surfaces surf).Countable)
    (call : SurfaceCall) :
    ∀ a ∈ call.accesses font surf s,
      a < ((s.desktop.surfaces surf).width * (s.desktop.surfaces surf).height).toNat := by
  unfold SurfaceCall.accesses
  dsimp only
  split_ifs
  · exact fun a ha => absurd ha List.not_mem_nil
  · match call with
    | .clear color => exact (surfaceClearStores_holds color).accesses
    | .drawRect x y w h color => exact (countable.rectStores x y w h color).accesses
    | .drawString none x y fg => exact fun a ha => absurd ha List.not_mem_nil
    | .drawString (some str) x y fg => exact (countable.stringStores font str x y fg).accesses
    | .drawWindow win =>
      dsimp only
      split_ifs
      · exact countable.blitReads
      · exact fun a ha => absurd ha List.not_mem_nil

/-- The calls keep the fields of all surfaces. -/
theorem SurfaceCall.run_surfaces (call : SurfaceCall) :
    (call.run font surf s).desktop.surfaces = s.desktop.surfaces := by
  match call with
  | .clear color => exact Desktop.onPixels_surfaces ..
  | .drawRect x y w h color => exact Desktop.onPixels_surfaces ..
  | .drawString none x y fg => rfl
  | .drawString (some str) x y fg => exact Desktop.onPixels_surfaces ..
  | .drawWindow win => rfl

theorem SurfaceCall.foldl_run_surfaces (calls : List SurfaceCall) :
    (calls.foldl (SurfaceCall.run font surf) s).desktop.surfaces = s.desktop.surfaces := by
  induction calls generalizing s with
  | nil => rfl
  | cons call calls ih => exact (ih (call.run font surf s)).trans (call.run_surfaces font surf s)

/-- On a larger surface some rectangle of one pixel is stored behind the buffer. -/
theorem SurfaceCall.exists_access (large : ¬ (s.desktop.surfaces surf).Countable)
    (pixels : (s.desktop.surfaces surf).pixels ≠ none) :
    ∃ call : SurfaceCall, ((s.desktop.surfaces surf).width *
      (s.desktop.surfaces surf).height).toNat ∈ call.accesses font surf s := by
  generalize hsurface : s.desktop.surfaces surf = surface at large pixels
  have inside : (surface.width * surface.height).toNat <
      surface.width.toNat * surface.height.toNat :=
    (surface.width * surface.height).isLt.trans_le (Nat.le_of_not_lt large)
  generalize hn : (surface.width * surface.height).toNat = n at inside
  have pos : 0 < surface.width.toNat := Nat.pos_of_mul_pos_right (Nat.zero_lt_of_lt inside)
  have column : n % surface.width.toNat < surface.width.toNat := Nat.mod_lt n pos
  have row : n / surface.width.toNat < surface.height.toNat :=
    (Nat.div_lt_iff_lt_mul pos).mpr (by rwa [Nat.mul_comm])
  have small : n < 2 ^ 32 := hn ▸ (surface.width * surface.height).isLt
  have index := surface.index_ofNat (n % surface.width.toNat) (n / surface.width.toNat)
  rw [Nat.div_add_mod', Nat.mod_eq_of_lt small] at index
  refine ⟨.drawRect (.ofNat 32 (n % surface.width.toNat)) (.ofNat 32 (n / surface.width.toNat)) 1 1
    0, ?_⟩
  unfold SurfaceCall.accesses
  rw [hsurface]
  dsimp only
  rw [if_neg pixels]
  refine List.mem_map.mpr ⟨(n, 0), ?_, rfl⟩
  refine List.mem_flatMap.mpr ⟨n / surface.width.toNat, mem_upTo_one row, ?_⟩
  exact List.mem_map.mpr ⟨n % surface.width.toNat, mem_upTo_one column, by rw [index]⟩

end

/-- The accesses of all later calls are inside the buffer of a new surface just when its size has no
more pixels than 32 bits count.  The accesses are those of the drawing functions. -/
theorem surface_inBounds_iff (font : Font) {width height flags : BitVec 32} {s s' : Desktop}
    {surf b : ℕ} (create : surfaceCreate width height flags s = (some surf, s'))
    (pixels : (s'.surfaces surf).pixels = some b) (titles : ℕ → List UInt8) (sComp : Compositor) :
    ((∀ (calls : List SurfaceCall) (call : SurfaceCall),
      ∀ a ∈ call.accesses font surf (calls.foldl (SurfaceCall.run font surf) ⟨s', titles, sComp⟩),
        a < (width * height).toNat) ↔ width.toNat * height.toNat < 2 ^ 32) ∧
    (s'.surfaces surf).Traced font := by
  refine ⟨?_, (s'.surfaces surf).traced font⟩
  obtain ⟨hw, hh⟩ := surfaceCreate_size create
  have countable : (s'.surfaces surf).Countable ↔ width.toNat * height.toNat < 2 ^ 32 := by
    rw [Surface.Countable, hw, hh]
  rw [← countable]
  constructor
  · intro inBounds
    by_contra large
    obtain ⟨call, outside⟩ := SurfaceCall.exists_access font surf ⟨s', titles, sComp⟩ large
      (by rw [pixels]; exact Option.some_ne_none b)
    have inside := inBounds [] call _ outside
    rw [hw, hh] at inside
    exact absurd inside (lt_irrefl _)
  · intro fits calls call a ha
    have same := SurfaceCall.foldl_run_surfaces font surf ⟨s', titles, sComp⟩ calls
    have lt := call.accesses_lt font surf _ (by rwa [same]) a ha
    rwa [same, hw, hh] at lt

/-- A desktop without windows. -/
def emptyDesktop : Desktop where
  windows _ :=
    { surface := none, x := 0, y := 0, width := 0, height := 0, workspaceId := 0,
      isMinimized := false, paint := none, next := none }
  surfaces _ := { id := 0, width := 0, height := 0, pixels := none, flags := 0 }
  pixels _ _ := 0
  kmalloc := .above
  log := []
  painted := []
  sNextSurfaceId := 1

theorem surface_inBounds_example : ∃ surf s',
    surfaceCreate 640 480 0 emptyDesktop = (some surf, s') ∧
    ∀ (calls : List SurfaceCall) (call : SurfaceCall),
      ∀ a ∈ call.accesses (fun _ _ => 0xFF) surf (calls.foldl
        (SurfaceCall.run (fun _ _ => 0xFF) surf) ⟨s', fun _ => [], compositorInit none⟩),
        a < (640 * 480 : BitVec 32).toNat := by
  refine ⟨1, (surfaceCreate 640 480 0 emptyDesktop).2, rfl, ?_⟩
  exact (@surface_inBounds_iff (fun _ _ => 0xFF) 640 480 0 emptyDesktop _ 1 2 rfl rfl (fun _ => [])
    (compositorInit none)).1.mpr (by decide)

/-- A window of one by two pixels, smaller than its decoration: the buffer of its surface has 27
elements. -/
theorem tiny_window_leaves_buffer :
    ¬ ∀ (font : Font) (width height flags : BitVec 32) (s s' : Desktop) (surf b : ℕ),
      surfaceCreate width height flags s = (some surf, s') →
      (s'.surfaces surf).pixels = some b → ∀ (titles : ℕ → List UInt8) (sComp : Compositor)
      (calls : List SurfaceCall) (call : SurfaceCall),
      ∀ a ∈ call.accesses font surf (calls.foldl (SurfaceCall.run font surf) ⟨s', titles, sComp⟩),
        a < (width * height).toNat := by
  intro claim
  let s' := (surfaceCreate (1 - 2) (2 - 28 - 1) 0 emptyDesktop).2
  obtain ⟨call, outside⟩ := SurfaceCall.exists_access (fun _ _ => 0) 1
    ⟨s', fun _ => [], compositorInit none⟩ (by decide) (by decide)
  have inside := claim _ _ _ 0 emptyDesktop s' 1 2 rfl rfl (fun _ => []) (compositorInit none) []
    call _ outside
  exact absurd inside (lt_irrefl _)

end ChefOs
