import ChefOs.Compositor.Compositor
import ChefOs.Compositor.Tiling

/-!
# Rendering

The window that is drawn last covers its frame: what the pixels of the frame show does not depend
on anything drawn before.
-/

namespace ChefOs

open Kit

/-- The window looks the same in both scenes. -/
structure LooksAlike (s s' : Scene) (win : ℕ) : Prop where
  visible : (s'.window win).Visible s'.sComp.activeWorkspace ↔
    (s.window win).Visible s.sComp.activeWorkspace
  focused : s'.sComp.focusedWindow = some win ↔ s.sComp.focusedWindow = some win
  frame : (s'.window win).frame = (s.window win).frame
  title : s'.titles win = s.titles win
  contents : s'.desktop.contents win = s.desktop.contents win

theorem LooksAlike.refl (s : Scene) (win : ℕ) : LooksAlike s s win :=
  ⟨Iff.rfl, Iff.rfl, rfl, rfl, rfl⟩

section

variable {width height : ℕ} {I : Set ℕ} {g g' : FbInfo}

/-- The pixels of a frame. -/
def Frame.pixels (width height : ℕ) (f : Frame) : Set ℕ :=
  rectPixels width height f.x f.y f.width f.height

theorem Alike.blit (alike : Alike width height I g g') {w w' : Window} (frame : w'.frame = w.frame)
    (surface : Surface) (pixels : ℕ → BitVec 32) :
    Alike width height I (blitSurface w surface pixels g) (blitSurface w' surface pixels g') := by
  obtain ⟨hx, hy, -, -⟩ := Frame.mk.inj frame
  unfold blitSurface
  rw [hx, hy]
  apply Alike.foldl_keep _ _ alike
  intro g g' j alike
  apply Alike.foldl_keep _ _ alike
  intro g g' i alike
  dsimp only
  split_ifs
  · exact alike.putPixel ..
  · exact alike

/-- A window that looks the same covers its frame alike. -/
theorem Alike.drawWindow (alike : Alike width height I g g') (font : Font) {s s' : Scene}
    {win : ℕ} (looks : LooksAlike s s' win)
    (visible : (s.window win).Visible s.sComp.activeWorkspace) :
    Alike width height (I ∪ (s.window win).frame.pixels width height)
      (ChefOs.drawWindow font s win g) (ChefOs.drawWindow font s' win g') := by
  have shown : ∀ {t : Scene}, (t.window win).Visible t.sComp.activeWorkspace →
      ¬ ((t.window win).isMinimized ∨ (t.window win).workspaceId ≠ t.sComp.activeWorkspace) := by
    intro t ⟨here, there⟩
    simp [here, there]
  obtain ⟨hx, hy, hw, hh⟩ := Frame.mk.inj looks.frame
  unfold ChefOs.drawWindow
  rw [if_neg (shown visible), if_neg (shown (looks.visible.mpr visible))]
  simp only [hx, hy, hw, hh, looks.focused, looks.title, looks.contents]
  set w := s.window win
  -- the fill of the frame; what follows is drawn alike
  have framed := alike.drawRoundedRect w.x w.y w.width w.height 12 colorSurface colorBorder
  have titlebar := (framed.drawRoundedRect w.x w.y w.width windowTitlebarHeight 12
    (if s.sComp.focusedWindow = some win then colorSurfaceAlt else colorSurface)
    colorBorder).mono Set.subset_union_left
  have titled := titlebar.drawString font (cstr (s.titles win)) (w.x + 14) (w.y + 6)
    (if s.sComp.focusedWindow = some win then colorText else colorTextMuted) 0
  have pill := (titled.drawRoundedRect (w.x + w.width - 24) (w.y + 7) 14 14 4 colorAccent
    0).mono Set.subset_union_left
  have crossed := pill.drawString font [0x78] (w.x + w.width - 24 + 4) (w.y + 7 + 1) colorWhite 0
  rcases s.desktop.contents win with - | ⟨surface, - | pixels⟩
  · exact crossed
  · exact crossed
  · exact crossed.blit looks.frame surface pixels

/-- No window changes the size of the screen. -/
theorem drawWindow_size (font : Font) (s : Scene) (win : ℕ) (g : FbInfo) :
    (drawWindow font s win g).width = g.width ∧ (drawWindow font s win g).height = g.height := by
  by_cases hidden : (s.window win).isMinimized ∨
      (s.window win).workspaceId ≠ s.sComp.activeWorkspace
  · unfold drawWindow
    rw [if_pos hidden]
    exact ⟨rfl, rfl⟩
  · have alike : Alike g.width g.height ∅ g g := ⟨⟨rfl, rfl⟩, ⟨rfl, rfl⟩, Set.eqOn_empty _ _⟩
    have visible : (s.window win).Visible s.sComp.activeWorkspace := by
      simpa [Window.Visible, and_comm] using hidden
    exact (alike.drawWindow font (.refl s win) visible).size

/-- The loop over a window list ends, on a screen of the same size. -/
theorem renderLoop_size (font : Font) (s : Scene) {head : Option ℕ} {ws : List ℕ}
    (chain : Chain s.desktop.windows head ws) {fuel : ℕ} (enough : ws.length < fuel) (g : FbInfo) :
    ∃ g', renderLoop font s fuel head g = some g' ∧ g'.width = g.width ∧ g'.height = g.height := by
  induction chain generalizing fuel g with
  | nil =>
    obtain ⟨fuel, rfl⟩ : ∃ n, fuel = n + 1 := ⟨fuel - 1, by omega⟩
    exact ⟨g, rfl, rfl, rfl⟩
  | @cons w ws tail ih =>
    obtain ⟨fuel, rfl⟩ : ∃ n, fuel = n + 1 := ⟨fuel - 1, by omega⟩
    rw [List.length_cons] at enough
    obtain ⟨g', loop, hw, hh⟩ := ih (Nat.lt_of_succ_lt_succ enough)
      (if some w ≠ s.sComp.focusedWindow then drawWindow font s w g else g)
    refine ⟨g', loop, hw.trans ?_, hh.trans ?_⟩
    · split_ifs
      · exact (drawWindow_size font s w g).1
      · rfl
    · split_ifs
      · exact (drawWindow_size font s w g).2
      · rfl

end

/-- The framebuffer has the size the compositor took from it. -/
def Compositor.Fits (c : Compositor) (g : FbInfo) : Prop :=
  c.screenWidth = .ofNat 32 g.width ∧ c.screenHeight = .ofNat 32 g.height

/-- The screen of the compositor. -/
def Compositor.screen (c : Compositor) : Rect := ⟨0, 0, c.screenWidth.toNat, c.screenHeight.toNat⟩

/-- A stretch of a screen does not wrap. -/
theorem stretch_fits {start length screen : BitVec 32} {size : ℕ} (fits : screen = .ofNat 32 size)
    (low : 0 ≤ start.toInt) (high : start.toInt + length.toNat ≤ screen.toNat) :
    start.toInt = start.toNat ∧ (start + length).toNat = start.toNat + length.toNat ∧
      start.toNat + length.toNat ≤ size := by
  have natural : start.toInt = start.toNat := by
    rw [BitVec.toInt_eq_toNat_cond] at low ⊢
    split_ifs at low ⊢ <;> omega
  have small := screen.isLt
  have cut : screen.toNat ≤ size := by
    rw [fits, BitVec.toNat_ofNat]
    exact Nat.mod_le ..
  refine ⟨natural, ?_, by omega⟩
  rw [BitVec.toNat_add]
  exact Nat.mod_eq_of_lt (by omega)

/-- The pixels of a frame inside the screen are those that its fill covers. -/
theorem index_mem_pixels {c : Compositor} {g : FbInfo} (fits : c.Fits g) {f : Frame}
    (inside : f.rect.Inside c.screen) {x y : ℕ} (hx : f.rect.x ≤ x)
    (hx' : (x : ℤ) < f.rect.x + f.rect.width) (hy : f.rect.y ≤ y)
    (hy' : (y : ℤ) < f.rect.y + f.rect.height) :
    u64 (y * g.width + x) ∈ f.pixels g.width g.height := by
  obtain ⟨natX, sumX, fitsX⟩ :=
    stretch_fits fits.1 inside.left (inside.right.trans (by simp [Compositor.screen]))
  obtain ⟨natY, sumY, fitsY⟩ :=
    stretch_fits fits.2 inside.top (inside.bottom.trans (by simp [Compositor.screen]))
  simp only [Frame.rect] at hx hx' hy hy'
  rw [Frame.pixels, rectPixels]
  simp only [Set.mem_iUnion, mem_upTo, exists_prop, sumX, sumY]
  exact ⟨y, by omega, x, by omega, rfl⟩

/-- Two scenes in which the same window is focused, visible and looks the same, on screens of the
same size: whatever else they show, the windows are drawn, and the pixels of the frame of the
focused window are the same. -/
theorem focused_not_occluded (font : Font) {s s' : Scene} {g g' : FbInfo} {f : ℕ} {ws ws' : List ℕ}
    (chain : Chain s.desktop.windows s.sComp.windowList ws)
    (chain' : Chain s'.desktop.windows s'.sComp.windowList ws')
    {fuel fuel' : ℕ} (enough : ws.length < fuel) (enough' : ws'.length < fuel')
    (fits : s.sComp.Fits g) (size : g'.width = g.width ∧ g'.height = g.height)
    (focused : s.sComp.focusedWindow = some f) (focused' : s'.sComp.focusedWindow = some f)
    (looks : LooksAlike s s' f) (visible : (s.window f).Visible s.sComp.activeWorkspace)
    (inside : (s.window f).frame.rect.Inside s.sComp.screen) :
    ∃ r r', renderWindows font fuel s g = some r ∧ renderWindows font fuel' s' g' = some r' ∧
      ∀ x y : ℕ, (s.window f).frame.rect.x ≤ x →
        (x : ℤ) < (s.window f).frame.rect.x + (s.window f).frame.rect.width →
        (s.window f).frame.rect.y ≤ y →
        (y : ℤ) < (s.window f).frame.rect.y + (s.window f).frame.rect.height →
        r.backbuffer (r.index x y) = r'.backbuffer (r'.index x y) := by
  obtain ⟨h, loop, hw, hh⟩ := renderLoop_size font s chain enough g
  obtain ⟨h', loop', hw', hh'⟩ := renderLoop_size font s' chain' enough' g'
  have alike : Alike g.width g.height ∅ h h' :=
    ⟨⟨hw, hh⟩, ⟨hw'.trans size.1, hh'.trans size.2⟩, Set.eqOn_empty _ _⟩
  have drawn := alike.drawWindow font looks visible
  refine ⟨drawWindow font s f h, drawWindow font s' f h', ?_, ?_, ?_⟩
  · rw [renderWindows, loop, focused]
    rfl
  · rw [renderWindows, loop', focused']
    rfl
  · intro x y hx hx' hy hy'
    rw [FbInfo.index, FbInfo.index, drawn.size.1, drawn.size'.1]
    exact drawn.same (Set.subset_union_right (index_mem_pixels fits inside hx hx' hy hy'))

/-- A screen of one color. -/
def exampleScreen (color : BitVec 32) : FbInfo where
  frontbuffer := none
  backbuffer _ := color
  width := 640
  height := 480
  pitch := 640
  cursorX := 0
  cursorY := 0
  fgColor := colorText

/-- The last window of the list is focused; the list is shown from `head` on. -/
def exampleScene (head : ℕ) : Scene where
  desktop := exampleDesktop
  titles _ := [0x54, 0]
  sComp := { compositorInit (some (exampleScreen 0)) with
    windowList := some head, focusedWindow := some 3 }

theorem focused_not_occluded_example : ∃ r r',
    renderWindows (fun _ _ => 0xFF) 2 (exampleScene 3) (exampleScreen 0) = some r ∧
      renderWindows (fun _ _ => 0xFF) 4 (exampleScene 1) (exampleScreen 7) = some r' ∧
      r.backbuffer (r.index 50 50) = r'.backbuffer (r'.index 50 50) := by
  have chain : Chain exampleDesktop.windows (some 3) [3] := .cons .nil
  have chain' : Chain exampleDesktop.windows (some 1) [1, 2, 3] := .cons (.cons chain)
  have looks : LooksAlike (exampleScene 3) (exampleScene 1) 3 := ⟨Iff.rfl, Iff.rfl, rfl, rfl, rfl⟩
  have inside : ((exampleScene 3).window 3).frame.rect.Inside (exampleScene 3).sComp.screen := by
    constructor <;> decide
  obtain ⟨r, r', render, render', same⟩ :=
    @focused_not_occluded (fun _ _ => 0xFF) (exampleScene 3) (exampleScene 1) (exampleScreen 0)
      (exampleScreen 7) 3 [3] [1, 2, 3] chain chain' 2 4 (by decide) (by decide)
      ⟨rfl, rfl⟩ ⟨rfl, rfl⟩ rfl rfl looks ⟨rfl, rfl⟩ inside
  exact ⟨r, r', render, render', same 50 50 (by decide) (by decide) (by decide) (by decide)⟩

end ChefOs
