import ChefOs.Compositor.Layout

/-!
# The blocks of windows

A window owns its own block, its surface and the pixels of its surface.  It gets them when it is
created, and gives them back when it is destroyed.  Placing a window exchanges its surface for a new
one and touches no block of any other window.
-/

namespace ChefOs

open Kit

/-- The blocks of a surface. -/
def Desktop.surfaceBlocks (s : Desktop) : Option ℕ → List ℕ
  | none => []
  | some surf => surf :: (s.surfaces surf).pixels.toList

/-- The blocks of a window. -/
def Desktop.blocks (s : Desktop) (win : ℕ) : List ℕ :=
  win :: s.surfaceBlocks (s.windows win).surface

/-- The heap blocks in use are those of the live windows and `rest`. -/
def Desktop.Owned (s : Desktop) (live rest : List ℕ) : Prop :=
  Exactly s.log (live.flatMap s.blocks ++ rest)

/-- The surfaces and pixels in the blocks `rest` are as before. -/
structure Keeps (rest : List ℕ) (s s' : Desktop) : Prop where
  surfaces : ∀ f ∈ rest, s'.surfaces f = s.surfaces f
  pixels : ∀ b ∈ rest, s'.pixels b = s.pixels b

theorem Keeps.trans {rest : List ℕ} {s₁ s₂ s₃ : Desktop} (first : Keeps rest s₁ s₂)
    (second : Keeps rest s₂ s₃) : Keeps rest s₁ s₃ where
  surfaces f hf := (second.surfaces f hf).trans (first.surfaces f hf)
  pixels b hb := (second.pixels b hb).trans (first.pixels b hb)

theorem Keeps.of_cons {b : ℕ} {rest : List ℕ} {s s' : Desktop} (keeps : Keeps (b :: rest) s s') :
    Keeps rest s s' where
  surfaces f hf := keeps.surfaces f (List.mem_cons_of_mem b hf)
  pixels c hc := keeps.pixels c (List.mem_cons_of_mem b hc)

section

variable {s : Desktop} {win : ℕ} {rest : List ℕ}

/-! ## Surfaces -/

theorem surfaceDestroy_exactly {surf : ℕ}
    (h : Exactly s.log (s.surfaceBlocks (some surf) ++ rest)) :
    ∃ log, surfaceDestroy surf s = { s with log } ∧ Exactly log rest := by
  rw [Desktop.surfaceBlocks] at h
  unfold surfaceDestroy
  cases pixels : (s.surfaces surf).pixels with
  | none =>
    rw [pixels] at h
    exact ⟨_, rfl, h.free⟩
  | some b =>
    rw [pixels] at h
    exact ⟨_, rfl, (h.perm (.swap b surf rest)).free.free⟩

/-- Zeroed pixels are those of a block outside of `rest`. -/
theorem Keeps.zeroPixels {pixels : Option ℕ} (fresh : ∀ b ∈ pixels, b ∉ rest) :
    Keeps rest s (s.zeroPixels pixels) := by
  cases pixels with
  | none => exact ⟨fun _ _ => rfl, fun _ _ => rfl⟩
  | some b =>
    refine ⟨fun _ _ => rfl, fun c hc => Function.update_of_ne ?_ ..⟩
    rintro rfl
    exact fresh c rfl hc

/-- A new surface takes new blocks. -/
theorem surfaceCreate_exactly (width height flags : BitVec 32) (h : Exactly s.log rest)
    {surface : Option ℕ} {s' : Desktop}
    (create : surfaceCreate width height flags s = (surface, s')) :
    Exactly s'.log (s'.surfaceBlocks surface ++ rest) ∧ Keeps rest s s' := by
  rw [surfaceCreate, Desktop.kzalloc] at create
  have first := h.alloc s.kmalloc sizeofSurface
  cases result : s.kmalloc.result s.log sizeofSurface with
  | none =>
    rw [result] at create first
    obtain ⟨rfl, rfl⟩ := Prod.mk.inj create
    exact ⟨first, fun _ _ => rfl, fun _ _ => rfl⟩
  | some surf =>
    have fresh := h.fresh result
    rw [result] at create first
    have second := first.alloc s.kmalloc ((width * height).toNat * 4)
    simp only [Desktop.kzalloc] at create
    set log : List HeapEvent := .alloc (some surf) :: s.log
    set pixels := s.kmalloc.result log ((width * height).toNat * 4) with hp
    obtain ⟨rfl, rfl⟩ := Prod.mk.inj create
    have fresh' : ∀ b ∈ pixels, b ∉ rest := fun b hb mem =>
      first.fresh (hp.symm.trans hb) (List.mem_cons_of_mem surf mem)
    refine ⟨?_, fun f hf => ?_, fun b hb => ?_⟩
    · simp only [Desktop.surfaceBlocks, Desktop.zeroPixels_log, Function.update_self,
        List.cons_append]
      exact second.perm List.perm_middle
    · have old : f ≠ surf := by
        rintro rfl
        exact fresh hf
      simp only [Desktop.zeroPixels_surfaces, Function.update_of_ne old]
    · exact (Keeps.zeroPixels fresh').pixels b hb

/-! ## Windows -/

theorem blocks_setWindow (w : Window) :
    (s.setWindow win w).blocks win = win :: s.surfaceBlocks w.surface := by
  rw [Desktop.blocks, Desktop.setWindow_self]
  rfl

/-- The blocks of a window stay the same when its surface does. -/
theorem exactly_setWindow {w : Window} (surface : w.surface = (s.windows win).surface)
    (h : Exactly s.log (s.blocks win ++ rest)) :
    Exactly (s.setWindow win w).log ((s.setWindow win w).blocks win ++ rest) := by
  rw [blocks_setWindow, surface]
  exact h

/-- Only blocks are given back for a surface. -/
theorem dropSurface_exactly (h : Exactly s.log (s.blocks win ++ rest)) :
    ∃ log, s.dropSurface win = { s with log } ∧ Exactly log (win :: rest) := by
  rw [Desktop.blocks] at h
  unfold Desktop.dropSurface
  cases surface : (s.windows win).surface with
  | none =>
    rw [surface] at h
    exact ⟨s.log, rfl, h⟩
  | some surf =>
    rw [surface] at h
    exact surfaceDestroy_exactly (h.perm List.perm_middle.symm)

theorem newSurface_exactly (surfW surfH : BitVec 32) (h : Exactly s.log (win :: rest)) :
    Exactly (s.newSurface win surfW surfH).log
        ((s.newSurface win surfW surfH).blocks win ++ rest) ∧
      Keeps rest s (s.newSurface win surfW surfH) := by
  unfold Desktop.newSurface
  rcases create : surfaceCreate surfW surfH surfaceFlagWindow s with ⟨surface, s'⟩
  obtain ⟨h', keeps⟩ := surfaceCreate_exactly _ _ _ h create
  rw [blocks_setWindow]
  exact ⟨h'.perm List.perm_middle, keeps.of_cons.surfaces, keeps.of_cons.pixels⟩

/-- A callback draws on the pixels of its own window. -/
theorem draw_exactly (paint : WindowPaint) (h : Exactly s.log (s.blocks win ++ rest)) :
    Exactly (s.draw paint win).log ((s.draw paint win).blocks win ++ rest) ∧
      Keeps rest s (s.draw paint win) := by
  unfold Desktop.draw
  cases surface : (s.windows win).surface with
  | none => exact ⟨h, fun _ _ => rfl, fun _ _ => rfl⟩
  | some surf =>
    cases pixels : (s.surfaces surf).pixels with
    | none =>
      simp only [pixels]
      exact ⟨h, fun _ _ => rfl, fun _ _ => rfl⟩
    | some b =>
      simp only [pixels]
      refine ⟨h, fun _ _ => rfl, fun c hc => Function.update_of_ne ?_ ..⟩
      rintro rfl
      -- the buffer is a block of the window already
      rw [Desktop.blocks, surface, Desktop.surfaceBlocks, pixels] at h
      have := h.2
      simp only [Option.toList_some, List.cons_append, List.nil_append, List.nodup_cons,
        List.mem_cons] at this
      exact this.2.2.1 hc

theorem callPaint_exactly (h : Exactly s.log (s.blocks win ++ rest)) :
    Exactly (s.callPaint win).log ((s.callPaint win).blocks win ++ rest) ∧
      Keeps rest s (s.callPaint win) := by
  unfold Desktop.callPaint
  cases (s.windows win).paint with
  | none => exact ⟨h, fun _ _ => rfl, fun _ _ => rfl⟩
  | some paint =>
    obtain ⟨h', keeps⟩ := draw_exactly (s := { s with painted := win :: s.painted }) paint h
    exact ⟨h', keeps.surfaces, keeps.pixels⟩

/-- A resized window owns its surface, and no other block changes. -/
theorem windowResizeSurface_exactly (newW newH : BitVec 32)
    (h : Exactly s.log (s.blocks win ++ rest)) :
    Exactly (windowResizeSurface win newW newH s).log
        ((windowResizeSurface win newW newH s).blocks win ++ rest) ∧
      Keeps rest s (windowResizeSurface win newW newH s) := by
  rw [windowResizeSurface]
  set s₁ := s.setWindow win { s.windows win with width := newW, height := newH }
  have h₁ : Exactly s₁.log (s₁.blocks win ++ rest) := exactly_setWindow rfl h
  split_ifs with fits
  · exact ⟨h₁, fun _ _ => rfl, fun _ _ => rfl⟩
  obtain ⟨log, dropped, h₂⟩ := dropSurface_exactly h₁
  rw [dropped]
  obtain ⟨h₃, keeps₃⟩ := newSurface_exactly (s := { s₁ with log })
    (newW - 2 * windowBorderWidth) (newH - windowTitlebarHeight - windowBorderWidth) h₂
  obtain ⟨h₄, keeps₄⟩ := callPaint_exactly h₃
  exact ⟨h₄, .trans ⟨keeps₃.surfaces, keeps₃.pixels⟩ keeps₄⟩

/-! ## Places -/

/-- What is seen of the surface of a window: its fields and its pixels. -/
def Desktop.contents (s : Desktop) (win : ℕ) : Option (Surface × Option (ℕ → BitVec 32)) :=
  (s.windows win).surface.map fun surf =>
    (s.surfaces surf, (s.surfaces surf).pixels.map s.pixels)

/-- A window that keeps its fields and blocks keeps its surface. -/
theorem Keeps.contents {s' : Desktop} (keeps : Keeps rest s s') {w : ℕ}
    (windows : s'.windows w = s.windows w) (blocks : ∀ b ∈ s.blocks w, b ∈ rest) :
    s'.contents w = s.contents w ∧ s'.blocks w = s.blocks w := by
  rw [Desktop.contents, Desktop.contents, Desktop.blocks, Desktop.blocks, windows]
  cases surface : (s.windows w).surface with
  | none => exact ⟨rfl, rfl⟩
  | some surf =>
    rw [Desktop.blocks, surface, Desktop.surfaceBlocks] at blocks
    rw [Option.map_some, Option.map_some, Desktop.surfaceBlocks, Desktop.surfaceBlocks,
      keeps.surfaces surf (blocks surf (by simp))]
    refine ⟨?_, rfl⟩
    cases pixels : (s.surfaces surf).pixels with
    | none => rfl
    | some b => simp only [Option.map_some, keeps.pixels b (blocks b (by simp [pixels]))]

/-- A window that is among the live ones is one of its blocks. -/
theorem mem_blocks {live : List ℕ} (hwin : win ∈ live) : win ∈ live.flatMap s.blocks :=
  List.mem_flatMap.mpr ⟨win, hwin, List.mem_cons_self⟩

/-- A created window owns its blocks. -/
theorem windowCreate_owned {live : List ℕ} (owned : s.Owned live rest) (x y w h : BitVec 32) :
    (windowCreate x y w h s).2.Owned ((windowCreate x y w h s).1.toList ++ live) rest := by
  have first := owned.alloc s.kmalloc sizeofWindow
  rw [windowCreate, Desktop.kzalloc]
  cases result : s.kmalloc.result s.log sizeofWindow with
  | none =>
    rw [result] at first
    exact first
  | some win =>
    rw [result] at first
    dsimp only
    generalize hs₁ : Desktop.setWindow win _ _ = s₁
    have h₁ : Exactly s₁.log (win :: (live.flatMap s.blocks ++ rest)) := by
      rw [← hs₁]
      exact first
    obtain ⟨h₂, keeps⟩ := newSurface_exactly (w - 2 * windowBorderWidth)
      (h - windowTitlebarHeight - windowBorderWidth) h₁
    obtain ⟨surface, windows⟩ := s₁.newSurface_windows win (w - 2 * windowBorderWidth)
      (h - windowTitlebarHeight - windowBorderWidth)
    have keeps' : Keeps (live.flatMap s.blocks ++ rest) s (s₁.newSurface win
        (w - 2 * windowBorderWidth) (h - windowTitlebarHeight - windowBorderWidth)) := by
      rw [← hs₁] at keeps ⊢
      exact ⟨keeps.surfaces, keeps.pixels⟩
    have same : ∀ v ∈ live, (s₁.newSurface win (w - 2 * windowBorderWidth)
        (h - windowTitlebarHeight - windowBorderWidth)).blocks v = s.blocks v := by
      intro v hv
      have other : v ≠ win := by
        rintro rfl
        exact owned.fresh result (List.mem_append_left _ (mem_blocks hv))
      refine (keeps'.contents ?_ fun b hb =>
        List.mem_append_left _ (List.mem_flatMap.mpr ⟨v, hv, hb⟩)).2
      rw [windows, Function.update_of_ne other, ← hs₁, Desktop.setWindow]
      exact Function.update_of_ne other ..
    rw [Desktop.Owned, Option.toList_some, List.singleton_append, List.flatMap_cons,
      List.flatMap_congr same, List.append_assoc]
    exact h₂

/-- The blocks of one of the live windows come first in the account. -/
theorem owned_iff {live : List ℕ} (hwin : win ∈ live) :
    s.Owned live rest ↔
      Exactly s.log (s.blocks win ++ ((live.erase win).flatMap s.blocks ++ rest)) := by
  have same : (live.flatMap s.blocks ++ rest).Perm
      (s.blocks win ++ ((live.erase win).flatMap s.blocks ++ rest)) := by
    rw [← List.append_assoc]
    exact ((List.perm_cons_erase hwin).flatMap_right s.blocks).append_right rest
  exact ⟨fun h => h.perm same, fun h => h.perm same.symm⟩

/-- A destroyed window gives its blocks back. -/
theorem windowDestroy_owned {live : List ℕ} (owned : s.Owned live rest) (hwin : win ∈ live) :
    (windowDestroy win s).Owned (live.erase win) rest := by
  obtain ⟨log, dropped, h⟩ := dropSurface_exactly ((owned_iff hwin).mp owned)
  rw [windowDestroy, dropped]
  exact h.free

/-- After one window is placed all windows own their blocks, and the others keep their surfaces. -/
theorem place_owned {live : List ℕ} (owned : s.Owned live rest) (hwin : win ∈ live) (f : Frame) :
    (place win f s).Owned live rest ∧
      ∀ w ∈ live, w ≠ win → (place win f s).contents w = s.contents w := by
  have h := (owned_iff hwin).mp owned
  obtain ⟨surface, windows⟩ := place_windows win f s
  have h₁ : Exactly (s.setWindow win ((s.windows win).at f)).log _ := exactly_setWindow rfl h
  obtain ⟨h₂, keeps₁⟩ := windowResizeSurface_exactly f.width f.height h₁
  rw [← place] at h₂ keeps₁
  have keeps : Keeps _ s (place win f s) := ⟨keeps₁.surfaces, keeps₁.pixels⟩
  have others : ∀ w ∈ live.erase win, w ≠ win := by
    rintro w hw rfl
    exact (List.nodup_append.mp h.2).2.2 w List.mem_cons_self w
      (List.mem_append_left _ (mem_blocks hw)) rfl
  have kept : ∀ w ∈ live.erase win, (place win f s).contents w = s.contents w ∧
      (place win f s).blocks w = s.blocks w := by
    intro w hw
    refine keeps.contents ?_ fun b hb =>
      List.mem_append_left _ (List.mem_flatMap.mpr ⟨w, hw, hb⟩)
    rw [windows, Function.update_of_ne (others w hw)]
  refine ⟨(owned_iff hwin).mpr ?_, fun w hw other => ?_⟩
  · rwa [List.flatMap_congr fun w hw => (kept w hw).2]
  · exact (kept w ((List.mem_erase_of_ne other).mpr hw)).1

end

end ChefOs
