import ChefOs.Compositor.Drawn
import ChefOs.Lib.Checked

/-!
# Sizes that do not underflow

The layout and the resizing of surfaces once more, with each subtraction checked.  The checked
layout ends with the result of `layout_apply`, except where the stack is so high that its windows
are lower than the titlebar and the border.
-/

namespace ChefOs

open Kit

/-! ## The checked layout -/

/-- `window_resize_surface` with its subtractions checked. -/
def windowResizeSurfaceChecked (win : ℕ) (newW newH : BitVec 32) (s : Desktop) :
    Option Desktop := do
  let surfW ← checkedSub newW (2 * windowBorderWidth)
  let inner ← checkedSub newH windowTitlebarHeight
  let surfH ← checkedSub inner windowBorderWidth
  let s := s.setWindow win { s.windows win with width := newW, height := newH }
  if s.SurfaceFits win surfW surfH then some s
  else some (((s.dropSurface win).newSurface win surfW surfH).callPaint win)

/-- `place` with its subtractions checked. -/
def placeChecked (win : ℕ) (f : Frame) (s : Desktop) : Option Desktop :=
  windowResizeSurfaceChecked win f.width f.height (s.setWindow win ((s.windows win).at f))

/-- The placing of windows at one frame. -/
def placeSameChecked (f : Frame) : List ℕ → Desktop → Option Desktop
  | [], s => some s
  | w :: visible, s => placeChecked w f s >>= placeSameChecked f visible

/-- `placeStack` with its subtractions checked. -/
def placeStackChecked (x stackW stackH gap bottom : BitVec 32) :
    List ℕ → BitVec 32 → Desktop → Option Desktop
  | [], _, s => some s
  | w :: stack, currY, s => do
    let height ← (if stack = [] then checkedSub bottom currY else some stackH : Option _)
    let s ← placeChecked w ⟨x, currY, stackW, height⟩ s
    placeStackChecked x stackW stackH gap bottom stack (currY + (stackH + gap)) s

/-- `placeGrid` with its subtractions checked. -/
def placeGridChecked (startX startY cellW cellH gap : BitVec 32) (cols : ℕ) :
    List ℕ → ℕ → Desktop → Option Desktop
  | [], _, s => some s
  | w :: visible, i, s =>
    placeChecked w (gridFrame startX startY cellW cellH gap cols i) s >>=
      placeGridChecked startX startY cellW cellH gap cols visible (i + 1)

/-- The branch of the master and the stack. -/
def masterStackChecked (l : LayoutEngine) (availW availH : BitVec 32) (first : ℕ)
    (stack : List ℕ) (s : Desktop) : Option Desktop := do
  let masterW ← checkedSub ((availW * l.masterPct) / 100) (l.gapInner / 2)
  let beside ← checkedSub availW masterW
  let stackW ← checkedSub beside l.gapInner
  let s ← placeChecked first ⟨l.gapOuterX, l.gapOuterY, masterW, availH⟩ s
  let stackCount ← checkedSub (first :: stack).length 1
  let gaps ← checkedSub stackCount 1
  let room ← checkedSub availH (l.gapInner * BitVec.ofNat 32 gaps)
  placeStackChecked (l.gapOuterX + masterW + l.gapInner) stackW (room / BitVec.ofNat 32 stackCount)
    l.gapInner (l.gapOuterY + availH) stack l.gapOuterY s

/-- The branch of the grid. -/
def gridChecked (l : LayoutEngine) (availW availH : BitVec 32) (visible : List ℕ) (s : Desktop) :
    Option Desktop := do
  let cols := if visible.length > 2 then 2 else visible.length
  let rowsUp ← checkedSub (visible.length + cols) 1
  let colGaps ← checkedSub cols 1
  let width ← checkedSub availW (l.gapInner * BitVec.ofNat 32 colGaps)
  let rowGaps ← checkedSub (rowsUp / cols) 1
  let height ← checkedSub availH (l.gapInner * BitVec.ofNat 32 rowGaps)
  placeGridChecked l.gapOuterX l.gapOuterY (width / BitVec.ofNat 32 cols)
    (height / BitVec.ofNat 32 (rowsUp / cols)) l.gapInner cols visible 0 s

/-- The layout of the windows that were collected. -/
def layoutVisibleChecked (l : LayoutEngine) (screenW screenH : BitVec 32) (visible : List ℕ)
    (s : Desktop) : Option Desktop :=
  if visible.length = 0 then some s
  else do
    let right ← checkedSub screenW l.gapOuterX
    let availW ← checkedSub right 16
    let below ← checkedSub screenH l.gapOuterY
    let availH ← checkedSub below 16
    if l.mode = .monocle ∨ visible.length = 1 then
      placeSameChecked ⟨l.gapOuterX, l.gapOuterY, availW, availH⟩ visible s
    else match l.mode, visible with
      | .masterStack, first :: stack => masterStackChecked l availW availH first stack s
      | .grid, visible => gridChecked l availW availH visible s
      | _, _ => some s

/-- `layout_apply` with its subtractions checked, those of `window_resize_surface` included. -/
def layoutApplyChecked (fuel : ℕ) (windowList : Option ℕ) (activeWorkspace : BitVec 8)
    (screenW screenH : BitVec 32) (sLayout : LayoutEngine) (s : Desktop) : Option Desktop := do
  let visible ← visibleLoop activeWorkspace s fuel windowList []
  layoutVisibleChecked sLayout screenW screenH visible s

/-! ## Agreement -/

theorem windowResizeSurfaceChecked_agrees (win : ℕ) (newW newH : BitVec 32) (s : Desktop) :
    Agrees (windowResizeSurfaceChecked win newW newH s) (windowResizeSurface win newW newH s) := by
  refine .sub (.sub (.sub ?_))
  rw [windowResizeSurface]
  dsimp only
  split_ifs
  · exact .done _
  · exact .done _

theorem placeChecked_agrees (win : ℕ) (f : Frame) (s : Desktop) :
    Agrees (placeChecked win f s) (place win f s) := windowResizeSurfaceChecked_agrees ..

theorem placeSameChecked_agrees (f : Frame) (visible : List ℕ) (s : Desktop) :
    Agrees (placeSameChecked f visible s) (visible.foldl (fun s w => place w f s) s) := by
  induction visible generalizing s with
  | nil => exact .done s
  | cons w visible ih => exact (placeChecked_agrees w f s).bind (ih _)

theorem placeStackChecked_agrees (x stackW stackH gap bottom : BitVec 32) (stack : List ℕ)
    (currY : BitVec 32) (s : Desktop) :
    Agrees (placeStackChecked x stackW stackH gap bottom stack currY s)
      (placeStack x stackW stackH gap bottom stack currY s) := by
  induction stack generalizing currY s with
  | nil => exact .done s
  | cons w stack ih =>
    have height : Agrees (if stack = [] then checkedSub bottom currY else some stackH)
        (if stack = [] then bottom - currY else stackH) := by
      split_ifs
      · exact .checkedSub ..
      · exact .done _
    rw [placeStackChecked, placeStack]
    apply height.bind
    exact (placeChecked_agrees ..).bind (ih ..)

theorem placeGridChecked_agrees (startX startY cellW cellH gap : BitVec 32) (cols : ℕ)
    (visible : List ℕ) (i : ℕ) (s : Desktop) :
    Agrees (placeGridChecked startX startY cellW cellH gap cols visible i s)
      (placeGrid startX startY cellW cellH gap cols visible i s) := by
  induction visible generalizing i s with
  | nil => exact .done s
  | cons w visible ih => exact (placeChecked_agrees ..).bind (ih ..)

theorem layoutVisibleChecked_agrees (l : LayoutEngine) (screenW screenH : BitVec 32)
    (visible : List ℕ) (s : Desktop) :
    Agrees (layoutVisibleChecked l screenW screenH visible s)
      (placeAll (visible.zip (tiles l screenW screenH visible.length)) s) := by
  cases visible with
  | nil => exact .done s
  | cons first stack =>
    rw [layoutVisibleChecked, if_neg (by simp), tiles]
    refine .sub (.sub (.sub (.sub ?_)))
    by_cases same : l.mode = .monocle ∨ (first :: stack).length = 1
    · rw [if_pos same, if_pos same, ← placeSame_eq]
      exact placeSameChecked_agrees ..
    · rw [if_neg same, if_neg same]
      cases l.mode with
      | masterStack =>
        dsimp only
        rw [List.zip_cons_cons]
        refine .sub (.sub (.sub ((placeChecked_agrees ..).bind (.sub (.sub (.sub ?_))))))
        have stacked := placeStackChecked_agrees
        simp only [placeStack_eq] at stacked
        exact stacked ..
      | grid =>
        refine .sub (.sub (.sub (.sub (.sub ?_))))
        have cells := placeGridChecked_agrees
        simp only [placeGrid_eq] at cells
        exact cells ..
      | monocle => exact .done s
      | floating => exact .done s

/-- Where the checked layout ends, `layout_apply` ends with the same result. -/
theorem layoutApplyChecked_agrees {windowList : Option ℕ} {ws : List ℕ} {s s' : Desktop}
    (chain : Chain s.windows windowList ws) {fuel : ℕ} (enough : ws.length < fuel)
    {activeWorkspace : BitVec 8} {screenW screenH : BitVec 32} {l : LayoutEngine}
    (call : layoutApplyChecked fuel windowList activeWorkspace screenW screenH l s = some s') :
    layoutApply fuel windowList activeWorkspace screenW screenH l s = some s' := by
  have visible : visibleLoop activeWorkspace s fuel windowList [] = _ :=
    visibleLoop_eq activeWorkspace chain enough (by simp)
  rw [List.nil_append, ← placed] at visible
  rw [layoutApplyChecked, visible] at call
  rw [layoutApply_eq chain enough, (layoutVisibleChecked_agrees ..).eq s' call]

/-! ## Where the checks pass -/

/-- A window with this frame has room for its titlebar and its border. -/
structure Frame.Roomy (f : Frame) : Prop where
  width : 2 ≤ f.width.toNat
  height : 29 ≤ f.height.toNat

theorem placeChecked_isSome (win : ℕ) (f : Frame) (s : Desktop) :
    (placeChecked win f s).isSome ↔ f.Roomy := by
  have ends : ∀ (c : Prop) [Decidable c] (x y : Desktop),
      (if c then some x else some y).isSome := by
    intro c _ x y
    split_ifs <;> rfl
  rw [placeChecked, windowResizeSurfaceChecked, isSome_sub, isSome_sub, isSome_sub]
  simp only [ends, and_true]
  simp only [BitVec.le_def, windowTitlebarHeight, windowBorderWidth]
  constructor
  · rintro ⟨width, height, border⟩
    have inner : (f.height - 28).toNat = f.height.toNat - 28 := BitVec.toNat_sub_of_le height
    rw [inner] at border
    exact ⟨width, by change 28 ≤ _ at height; change 1 ≤ _ at border; omega⟩
  · rintro ⟨width, height⟩
    have titlebar : (28 : BitVec 32).toNat ≤ f.height.toNat := by
      change 28 ≤ _
      omega
    have inner : (f.height - 28).toNat = f.height.toNat - 28 := BitVec.toNat_sub_of_le titlebar
    refine ⟨width, titlebar, ?_⟩
    rw [inner]
    change 1 ≤ _
    omega

theorem placeSameChecked_isSome (f : Frame) (visible : List ℕ) (s : Desktop) :
    (placeSameChecked f visible s).isSome ↔ ∀ g ∈ List.replicate visible.length f, g.Roomy := by
  induction visible generalizing s with
  | nil => simp [placeSameChecked]
  | cons w visible ih =>
    rw [placeSameChecked, (placeChecked_agrees w f s).isSome_bind, placeChecked_isSome, ih,
      List.length_cons, List.replicate_succ, List.forall_mem_cons]

theorem placeGridChecked_isSome (startX startY cellW cellH gap : BitVec 32) (cols : ℕ)
    (visible : List ℕ) (i : ℕ) (s : Desktop) :
    (placeGridChecked startX startY cellW cellH gap cols visible i s).isSome ↔
      ∀ f ∈ (List.range' i visible.length).map (gridFrame startX startY cellW cellH gap cols),
        f.Roomy := by
  induction visible generalizing i s with
  | nil => simp [placeGridChecked]
  | cons w visible ih =>
    rw [placeGridChecked, (placeChecked_agrees ..).isSome_bind, placeChecked_isSome, ih,
      List.length_cons, List.range'_succ, List.map_cons, List.forall_mem_cons]

/-- The stack passes if its frames have room and the last one starts above the bottom. -/
theorem placeStackChecked_isSome (x stackW stackH gap bottom : BitVec 32) (stack : List ℕ)
    (currY : BitVec 32) (s : Desktop) :
    (placeStackChecked x stackW stackH gap bottom stack currY s).isSome ↔
      (∀ f ∈ stackFrames x stackW stackH gap bottom stack.length currY, f.Roomy) ∧
        ∀ f ∈ (stackFrames x stackW stackH gap bottom stack.length currY).getLast?,
          f.y ≤ bottom := by
  induction stack generalizing currY s with
  | nil => simp [placeStackChecked, stackFrames]
  | cons w stack ih =>
    rw [placeStackChecked, List.length_cons, stackFrames, List.forall_mem_cons]
    cases stack with
    | nil =>
      rw [if_pos rfl, isSome_sub, (placeChecked_agrees ..).isSome_bind, placeChecked_isSome]
      simp [placeStackChecked, stackFrames, and_comm]
    | cons v stack =>
      have later := ih (currY + (stackH + gap))
      rw [List.length_cons, stackFrames] at later ⊢
      rw [if_neg (by simp), List.getLast?_cons_cons]
      have first : ∀ k : BitVec 32 → Option Desktop, (some stackH >>= k).isSome ↔
          (k stackH).isSome := fun _ => Iff.rfl
      rw [first, (placeChecked_agrees ..).isSome_bind, placeChecked_isSome, later,
        if_neg (Nat.succ_ne_zero _), and_assoc]

/-! ## Ordinary screens -/

/-- No stack window is lower than the others of the stack. -/
theorem stackFrames_high {x stackW stackH bottom : BitVec 32} (n : ℕ) (currY : BitVec 32)
    (fits : currY.toNat + (n + 1) * (stackH.toNat + 12) ≤ bottom.toNat + 12) {f : Frame}
    (hf : f ∈ stackFrames x stackW stackH 12 bottom (n + 1) currY) :
    stackH.toNat ≤ f.height.toNat := by
  induction n generalizing currY with
  | zero =>
    obtain rfl := List.mem_singleton.mp hf
    change stackH.toNat ≤ (bottom - currY).toNat
    rw [BitVec.toNat_sub_of_le (by rw [BitVec.le_def]; omega)]
    omega
  | succ n ih =>
    obtain ⟨-, rest⟩ := stack_rest fits
    rw [stackFrames] at hf
    obtain rfl | hf := List.mem_cons.mp hf
    · exact le_rfl
    · exact ih _ rest hf

section

variable {screenW screenH : BitVec 32}

theorem OrdinaryScreen.masterWidth (screen : OrdinaryScreen screenW screenH) :
    (masterWidth screenW).toNat = (screenW.toNat - 100) * 62 / 100 - 6 := by
  obtain ⟨exact, wide⟩ := screen.wide
  rw [screen.usable.masterWidth_toNat wide, exact]

/-- The windows of the stack have room for their titlebars just when the screen is high enough. -/
theorem masterStack_roomy (screen : OrdinaryScreen screenW screenH) {n : ℕ} (few : n < 15) :
    (∀ f ∈ tiles { layoutInit with mode := .masterStack } screenW screenH (n + 2), f.Roomy) ↔
      41 * (n + 1) + 64 ≤ screenH.toNat := by
  have width := screen.width
  have height := screen.height
  have availH := screen.usable.availH
  have masterW := screen.masterWidth
  obtain ⟨stackW, beside⟩ := screen.usable.stackWidth screen.wide.2
  obtain ⟨size, -, fits⟩ := screen.usable.cellHeight (n := n + 1) (by omega) (by omega)
  have enough : 29 ≤ (cellSize (screenH - 60 - 16) (n + 1)).toNat ↔
      41 * (n + 1) + 64 ≤ screenH.toNat := by
    rw [size, Nat.le_div_iff_mul_le (by omega)]
    omega
  have column := screen.usable.column (n := n) (by omega) (84 + ChefOs.masterWidth screenW + 12)
    (screenW - 84 - 16 - ChefOs.masterWidth screenW - 12)
  rw [tiles_masterStack, ← enough, List.forall_mem_cons]
  constructor
  · rintro ⟨-, stack⟩
    cases n with
    | zero =>
      rw [enough]
      omega
    | succ n =>
      rw [stackFrames] at stack
      exact (stack _ List.mem_cons_self).height
  · intro high
    refine ⟨⟨?_, ?_⟩, fun f hf => ⟨?_, ?_⟩⟩
    · change 2 ≤ (ChefOs.masterWidth screenW).toNat
      omega
    · change 29 ≤ (screenH - 60 - 16).toNat
      omega
    · rw [(column.x_eq f hf).2]
      omega
    · refine high.trans (stackFrames_high n 60 ?_ hf)
      rw [screen.usable.bottom]
      change 60 + _ ≤ _
      omega

theorem masterStackChecked_isSome (screen : OrdinaryScreen screenW screenH) {n : ℕ} (few : n < 15)
    (first : ℕ) {stack : List ℕ} (len : stack.length = n + 1) (s : Desktop) :
    (masterStackChecked { layoutInit with mode := .masterStack } (screenW - 84 - 16)
        (screenH - 60 - 16) first stack s).isSome ↔
      ∀ f ∈ tiles { layoutInit with mode := .masterStack } screenW screenH (n + 2), f.Roomy := by
  have width := screen.width
  have height := screen.height
  have availW := screen.usable.availW
  have availH := screen.usable.availH
  have masterW := screen.masterWidth
  have share := screen.usable.masterShare
  rw [screen.wide.1] at share
  have half : (12 / 2 : BitVec 32) ≤ (screenW - 84 - 16) * 62 / 100 := by
    rw [BitVec.le_def, share]
    change 6 ≤ _
    omega
  have inside : ChefOs.masterWidth screenW ≤ screenW - 84 - 16 := by
    rw [BitVec.le_def]
    omega
  have beside : (12 : BitVec 32) ≤ screenW - 84 - 16 - ChefOs.masterWidth screenW := by
    rw [BitVec.le_def, BitVec.toNat_sub_of_le inside]
    change 12 ≤ _
    omega
  have gaps : (12 : BitVec 32) * BitVec.ofNat 32 n ≤ screenH - 60 - 16 := by
    rw [BitVec.le_def, gaps_toNat (by omega)]
    omega
  have column := screen.usable.column (n := n) (by omega) (84 + ChefOs.masterWidth screenW + 12)
    (screenW - 84 - 16 - ChefOs.masterWidth screenW - 12)
  have above : ∀ f ∈ (stackFrames (84 + ChefOs.masterWidth screenW + 12)
      (screenW - 84 - 16 - ChefOs.masterWidth screenW - 12)
      (cellSize (screenH - 60 - 16) (n + 1)) 12 (60 + (screenH - 60 - 16)) (n + 1) 60).getLast?,
      f.y ≤ 60 + (screenH - 60 - 16) := by
    intro f hf
    have := column.fills f hf
    rw [BitVec.le_def, screen.usable.bottom]
    omega
  rw [tiles_masterStack, List.forall_mem_cons, masterStackChecked, isSome_sub, isSome_sub,
    isSome_sub, (placeChecked_agrees ..).isSome_bind, placeChecked_isSome, isSome_sub, isSome_sub,
    isSome_sub, placeStackChecked_isSome, List.length_cons, len]
  constructor
  · rintro ⟨-, -, -, master, -, -, -, stack, -⟩
    exact ⟨master, stack⟩
  · rintro ⟨master, stack⟩
    exact ⟨half, inside, beside, master, by omega, by omega, gaps, stack, above⟩

theorem grid_roomy (screen : OrdinaryScreen screenW screenH) {count : ℕ} (two : 2 ≤ count)
    (few : count ≤ 16) :
    ∀ f ∈ tiles { layoutInit with mode := .grid } screenW screenH count, f.Roomy := by
  have width := screen.width
  have height := screen.height
  obtain ⟨cellW, -⟩ := screen.usable.cellWidth
  obtain ⟨cellH, -⟩ := screen.usable.cellHeight (n := (count + 2 - 1) / 2) (by omega) (by omega)
  rw [tiles_grid screenW screenH two]
  refine List.forall_mem_map.mpr fun i _ => ⟨?_, ?_⟩
  · change 2 ≤ (cellSize (screenW - 84 - 16) 2).toNat
    omega
  · change 29 ≤ (cellSize (screenH - 60 - 16) ((count + 2 - 1) / 2)).toNat
    rw [cellH, Nat.le_div_iff_mul_le (by omega)]
    omega

theorem gridChecked_isSome (screen : OrdinaryScreen screenW screenH) {visible : List ℕ}
    (two : 2 ≤ visible.length) (few : visible.length ≤ 16) (s : Desktop) :
    (gridChecked { layoutInit with mode := .grid } (screenW - 84 - 16) (screenH - 60 - 16)
      visible s).isSome := by
  have width := screen.width
  have height := screen.height
  have availW := screen.usable.availW
  have availH := screen.usable.availH
  have roomy := grid_roomy screen two few
  have cols : (if visible.length > 2 then 2 else visible.length) = 2 := by split_ifs <;> omega
  rw [tiles_grid screenW screenH two] at roomy
  rw [gridChecked, cols, isSome_sub, isSome_sub, isSome_sub, isSome_sub, isSome_sub,
    placeGridChecked_isSome]
  refine ⟨by omega, by omega, ?_, by omega, ?_, roomy⟩
  · rw [BitVec.le_def, availW]
    change 12 ≤ _
    omega
  · change 12 * BitVec.ofNat 32 _ ≤ _
    rw [BitVec.le_def, gaps_toNat (by omega)]
    omega

end

section

variable {screenW screenH : BitVec 32} {mode : LayoutMode}

/-- On an ordinary screen the checked layout passes if all frames have room. -/
theorem layoutVisibleChecked_isSome (screen : OrdinaryScreen screenW screenH)
    (tiling : mode ≠ .floating) {visible : List ℕ} (pos : 0 < visible.length)
    (few : visible.length ≤ 16) (s : Desktop) :
    (layoutVisibleChecked { layoutInit with mode } screenW screenH visible s).isSome ↔
      ∀ f ∈ tiles { layoutInit with mode } screenW screenH visible.length, f.Roomy := by
  have width := screen.width
  have height := screen.height
  have left : (84 : BitVec 32) ≤ screenW := by bv_omega
  have right : (16 : BitVec 32) ≤ screenW - 84 := by bv_omega
  have top : (60 : BitVec 32) ≤ screenH := by bv_omega
  have bottom : (16 : BitVec 32) ≤ screenH - 60 := by bv_omega
  rw [layoutVisibleChecked, if_neg (by omega), isSome_sub, isSome_sub, isSome_sub, isSome_sub]
  refine (and_iff_right left).trans ((and_iff_right right).trans
    ((and_iff_right top).trans ((and_iff_right bottom).trans ?_)))
  by_cases same : mode = .monocle ∨ visible.length = 1
  · rw [if_pos same, placeSameChecked_isSome, tiles, if_pos same]
  · rw [if_neg same]
    cases mode with
    | masterStack =>
      cases visible with
      | nil => exact absurd pos (by simp)
      | cons first stack =>
        rw [List.length_cons] at same few ⊢
        obtain ⟨n, len⟩ : ∃ n, stack.length = n + 1 := ⟨stack.length - 1, by omega⟩
        rw [len] at few ⊢
        exact masterStackChecked_isSome screen (by omega) first len s
    | grid =>
      have two : 2 ≤ visible.length := by omega
      exact iff_of_true (gridChecked_isSome screen two few s) (grid_roomy screen two few)
    | monocle => exact absurd (.inl rfl) same
    | floating => exact absurd rfl tiling

/-- The tiles have room except in a high stack. -/
theorem tiles_roomy (screen : OrdinaryScreen screenW screenH) (tiling : mode ≠ .floating)
    {count : ℕ} (pos : 0 < count) (few : count ≤ 16) :
    (∀ f ∈ tiles { layoutInit with mode } screenW screenH count, f.Roomy) ↔
      (mode = .masterStack → 2 ≤ count → 41 * (count - 1) + 64 ≤ screenH.toNat) := by
  have width := screen.width
  have height := screen.height
  have availW := screen.usable.availW
  have availH := screen.usable.availH
  by_cases same : mode = .monocle ∨ count = 1
  · have full : (⟨84, 60, screenW - 84 - 16, screenH - 60 - 16⟩ : Frame).Roomy :=
      ⟨by dsimp only; omega, by dsimp only; omega⟩
    rw [tiles, if_pos same]
    refine iff_of_true (fun f hf => (List.eq_of_mem_replicate hf) ▸ full) ?_
    rintro rfl two
    exact absurd same (by simp; omega)
  · obtain ⟨n, rfl⟩ : ∃ n, count = n + 2 := ⟨count - 2, by omega⟩
    cases mode with
    | masterStack =>
      rw [masterStack_roomy screen (by omega)]
      exact ⟨fun h _ _ => h, fun h => h rfl (by omega)⟩
    | grid => exact iff_of_true (grid_roomy screen (by omega) few) (by simp)
    | monocle => exact absurd (.inl rfl) same
    | floating => exact absurd rfl tiling

end

/-! ## The new surfaces -/

@[simp] theorem Desktop.callPaint_surfaces (win : ℕ) (s : Desktop) :
    (s.callPaint win).surfaces = s.surfaces := by
  unfold Desktop.callPaint Desktop.draw
  split
  · rfl
  · split
    · rfl
    · split <;> rfl

/-- After a resize the surface has the size of the window without its titlebar and border. -/
theorem windowResizeSurface_size (win : ℕ) (newW newH : BitVec 32) (s : Desktop) :
    ∀ surf ∈ ((windowResizeSurface win newW newH s).windows win).surface,
      ((windowResizeSurface win newW newH s).surfaces surf).width =
          newW - 2 * windowBorderWidth ∧
        ((windowResizeSurface win newW newH s).surfaces surf).height =
          newH - windowTitlebarHeight - windowBorderWidth := by
  intro surf hsurf
  rw [windowResizeSurface] at hsurf ⊢
  split_ifs at hsurf ⊢ with fits
  · rw [Desktop.SurfaceFits, hsurf] at fits
    exact fits
  · rw [Desktop.callPaint_windows] at hsurf
    rw [Desktop.callPaint_surfaces]
    generalize Desktop.dropSurface win _ = s₁ at *
    rw [Desktop.newSurface, surfaceCreate, Desktop.kzalloc] at hsurf ⊢
    cases result : s₁.kmalloc.result s₁.log sizeofSurface with
    | none =>
      rw [result, Desktop.setWindow_self] at hsurf
      exact absurd hsurf (by simp)
    | some new =>
      rw [result, Desktop.setWindow_self] at hsurf
      obtain rfl := Option.some.inj hsurf
      simp only [Desktop.setWindow, Function.update_self, and_self]

/-- The surfaces of placed windows fit their frames. -/
theorem placeAll_sizes {s : Desktop} {live rest : List ℕ} (owned : s.Owned live rest)
    {pairs : List (ℕ × Frame)} (distinct : (pairs.map Prod.fst).Nodup)
    (known : ∀ p ∈ pairs, p.1 ∈ live) :
    ∀ p ∈ pairs, ∀ c ∈ (placeAll pairs s).contents p.1,
      c.1.width = p.2.width - 2 * windowBorderWidth ∧
        c.1.height = p.2.height - windowTitlebarHeight - windowBorderWidth := by
  induction pairs generalizing s with
  | nil => simp
  | cons p pairs ih =>
    obtain ⟨first, later⟩ := List.nodup_cons.mp distinct
    obtain ⟨here, known⟩ := List.forall_mem_cons.mp known
    obtain ⟨owned', -⟩ := place_owned owned here p.2
    refine List.forall_mem_cons.mpr ⟨fun c hc => ?_, ih owned' later known⟩
    -- the later windows keep the surface of the first one
    change c ∈ (placeAll pairs (place p.1 p.2 s)).contents p.1 at hc
    rw [(placeAll_owned owned' known).2 p.1 here first] at hc
    obtain ⟨surf, hsurf, rfl⟩ := Option.map_eq_some_iff.mp hc
    exact windowResizeSurface_size p.1 p.2.width p.2.height _ surf hsurf

/-- What a size loses to the titlebar and the border it had, if there is room for them. -/
theorem Frame.Roomy.le {f : Frame} (roomy : f.Roomy) :
    f.width - 2 * windowBorderWidth ≤ f.width ∧
      f.height - windowTitlebarHeight - windowBorderWidth ≤ f.height := by
  obtain ⟨width, height⟩ := roomy
  simp only [windowTitlebarHeight, windowBorderWidth]
  constructor <;> bv_omega

section

variable {s : Desktop} {windowList : Option ℕ} {ws : List ℕ} {fuel : ℕ}
  {activeWorkspace : BitVec 8} {screenW screenH : BitVec 32} {mode : LayoutMode}

/-- Placed in tiles with room, the windows have surfaces that are no larger than their frames. -/
theorem placed_fits (chain : Chain s.windows windowList ws) (tiling : mode ≠ .floating)
    (roomy : ∀ f ∈ tiles { layoutInit with mode } screenW screenH
      (placed activeWorkspace s.windows ws).length, f.Roomy)
    {live rest : List ℕ} (owned : s.Owned live rest) (known : ∀ w ∈ ws, w ∈ live) {w : ℕ}
    (hw : w ∈ placed activeWorkspace s.windows ws) {s' : Desktop}
    (call : placeAll ((placed activeWorkspace s.windows ws).zip
      (tiles { layoutInit with mode } screenW screenH
        (placed activeWorkspace s.windows ws).length)) s = s') :
    ∀ c ∈ s'.contents w, c.1.width ≤ (s'.windows w).width ∧ c.1.height ≤ (s'.windows w).height := by
  intro c hc
  obtain rfl := call
  have nodup : (placed activeWorkspace s.windows ws).Nodup := chain.placed_nodup
  have member : ∀ w ∈ placed activeWorkspace s.windows ws, w ∈ live := fun w hw =>
    known w (mem_of_mem_placed hw)
  have length := tiles_length (l := { layoutInit with mode }) tiling screenW screenH
    (List.length_pos_of_mem hw)
  generalize placed activeWorkspace s.windows ws = vs at *
  generalize tiles { layoutInit with mode } screenW screenH vs.length = fs at *
  have fst : (vs.zip fs).map Prod.fst = vs := List.map_fst_zip length.ge
  rw [← fst] at hw nodup
  obtain ⟨p, hp, rfl⟩ := List.mem_map.mp hw
  have frame := (placeAll_windows nodup s).1 p hp
  obtain ⟨width, height⟩ := placeAll_sizes owned nodup
    (fun q hq => member q.1 (List.of_mem_zip hq).1) p hp c hc
  have fits := (roomy p.2 (List.of_mem_zip hp).2).le
  rw [← frame] at fits width height
  rw [width, height]
  exact fits

/-- On an ordinary screen no subtraction of a layout goes below zero, and the new surfaces are no
larger than the frames of their windows, just when no stack is so high that its windows are lower
than 29 pixels. -/
theorem layoutApply_sizes_iff (chain : Chain s.windows windowList ws) (enough : ws.length < fuel)
    (screen : OrdinaryScreen screenW screenH) (tiling : mode ≠ .floating) :
    (∃ s', layoutApplyChecked fuel windowList activeWorkspace screenW screenH
          { layoutInit with mode } s = some s' ∧
        layoutApply fuel windowList activeWorkspace screenW screenH
          { layoutInit with mode } s = some s' ∧
        ∀ live rest, s.Owned live rest → (∀ w ∈ ws, w ∈ live) →
          ∀ w ∈ placed activeWorkspace s.windows ws, ∀ c ∈ s'.contents w,
            c.1.width ≤ (s'.windows w).width ∧ c.1.height ≤ (s'.windows w).height) ↔
      (mode = .masterStack → 2 ≤ (placed activeWorkspace s.windows ws).length →
        41 * ((placed activeWorkspace s.windows ws).length - 1) + 64 ≤ screenH.toNat) := by
  have few : (placed activeWorkspace s.windows ws).length ≤ 16 := List.length_take_le ..
  have visible : visibleLoop activeWorkspace s fuel windowList [] = _ :=
    visibleLoop_eq activeWorkspace chain enough (by simp)
  rw [List.nil_append, ← placed] at visible
  have checked : layoutApplyChecked fuel windowList activeWorkspace screenW screenH
      { layoutInit with mode } s = layoutVisibleChecked { layoutInit with mode } screenW screenH
        (placed activeWorkspace s.windows ws) s := by
    rw [layoutApplyChecked, visible]
    rfl
  by_cases pos : 0 < (placed activeWorkspace s.windows ws).length
  · have passes := layoutVisibleChecked_isSome screen tiling pos few s
    rw [← tiles_roomy screen tiling pos few]
    constructor
    · rintro ⟨s', call, -⟩
      rw [← passes, ← checked, call, Option.isSome_some]
    · intro roomy
      obtain ⟨s', call⟩ := Option.isSome_iff_exists.mp (passes.mpr roomy)
      rw [← checked] at call
      have plain := layoutApplyChecked_agrees chain enough call
      refine ⟨s', call, plain, fun live rest owned known w hw => ?_⟩
      rw [layoutApply_eq chain enough] at plain
      exact placed_fits chain tiling roomy owned known hw (Option.some.inj plain)
  · have none : placed activeWorkspace s.windows ws = [] := List.length_eq_zero_iff.mp (by omega)
    rw [none] at checked ⊢
    have call : layoutApplyChecked fuel windowList activeWorkspace screenW screenH
        { layoutInit with mode } s = some s := checked
    refine iff_of_true ⟨s, call, layoutApplyChecked_agrees chain enough call, ?_⟩ ?_
    · simp
    · simp

end

/-- Two windows have room. -/
theorem layoutApply_sizes_example : ∃ s',
    layoutApplyChecked 4 (some 1) 1 1280 800 { layoutInit with mode := .masterStack }
        exampleDesktop = some s' ∧
      ∀ c ∈ s'.contents 3, c.1.width ≤ (s'.windows 3).width ∧
        c.1.height ≤ (s'.windows 3).height := by
  have screen : OrdinaryScreen 1280 800 := ⟨by decide, by decide⟩
  have enough : [1, 2, 3].length < 4 := by decide
  obtain ⟨s', checked, -, fits⟩ :=
    (@layoutApply_sizes_iff exampleDesktop (some 1) [1, 2, 3] 4 1 1280 800 .masterStack
      exampleDesktop_chain enough screen (by decide)).mpr
      (by rw [exampleDesktop_placed]; decide)
  rw [exampleDesktop_placed] at fits
  exact ⟨s', checked, fits [1, 2, 3] [] exampleDesktop_owned (by simp) 3 (by simp)⟩

/-- The sixteen windows placed of `crowded` do not have room on the smallest screen. -/
theorem crowded_underflows :
    ¬ ∃ s', layoutApplyChecked 18 (some 1) 1 640 480 layoutInit crowded = some s' := by
  have fails : (layoutApplyChecked 18 (some 1) 1 640 480 layoutInit crowded).isSome = false := by
    decide
  rintro ⟨s', call⟩
  rw [call] at fails
  exact absurd fails (by simp)

end ChefOs
