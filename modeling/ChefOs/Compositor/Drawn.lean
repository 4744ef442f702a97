import ChefOs.Compositor.Compositor
import ChefOs.Compositor.Tiling

/-!
# What is laid out and what is drawn

`draw_window` skips the same windows as the layout, but the compositor draws the whole window list
while the layout stops at sixteen windows.  Up to there the tiles do not overlap, on any screen on
which the share of the master does not wrap around.
-/

namespace ChefOs

open Kit

/-! ## Places that wrap around -/

/-- The frame ends before the coordinates wrap around. -/
structure Frame.Ends (f : Frame) : Prop where
  right : f.x.toNat + f.width.toNat ≤ 2 ^ 32
  bottom : f.y.toNat + f.height.toNat ≤ 2 ^ 32

/-- Of two pieces in a row, the one that starts in the upper half is read as one to the left of
everything else. -/
theorem toInt_apart {a b : BitVec 32} {l m : ℕ} (row : a.toNat + l ≤ b.toNat)
    (ends : b.toNat + m ≤ 2 ^ 32) : a.toInt + l ≤ b.toInt ∨ b.toInt + m ≤ a.toInt := by
  rw [BitVec.toInt_eq_toNat_cond, BitVec.toInt_eq_toNat_cond]
  split_ifs <;> omega

/-- Frames that are apart without sign are apart with it. -/
theorem Frame.apart {f g : Frame} (hf : f.Ends) (hg : g.Ends)
    (apart : Rect.Apart 12 f.unsigned g.unsigned) : Rect.Apart 0 f.rect g.rect := by
  simp only [Rect.Apart, Frame.unsigned, Frame.rect, add_zero] at apart ⊢
  obtain (left | right) | (above | below) := apart
  · exact .inl (toInt_apart (by omega) hg.right)
  · exact .inl (toInt_apart (by omega) hf.right).symm
  · exact .inr (toInt_apart (by omega) hg.bottom)
  · exact .inr (toInt_apart (by omega) hf.bottom).symm

/-! ## Tiles of large screens -/

section

variable {screenW screenH : BitVec 32} {count : ℕ}

/-- A share that wraps around to less than half a gap makes the master almost `2 ^ 32` wide. -/
theorem UsableScreen.narrow (screen : UsableScreen screenW screenH)
    (narrow : ¬ 600 ≤ (screenW.toNat - 100) * 62 % 2 ^ 32) :
    2 ^ 32 - 6 ≤ (masterWidth screenW).toNat ∧
      (screenW - 84 - 16 - masterWidth screenW - 12).toNat +
        (masterWidth screenW).toNat = screenW.toNat - 112 + 2 ^ 32 := by
  have width := screen.width
  have availW := screen.availW
  have share := screen.masterShare
  have master : (masterWidth screenW).toNat =
      (screenW.toNat - 100) * 62 % 2 ^ 32 / 100 + 2 ^ 32 - 6 := by
    rw [← share, masterWidth, show (12 / 2 : BitVec 32) = 6 from rfl]
    generalize (screenW - 84 - 16) * 62 / 100 = q at share ⊢
    have small : q.toNat < 6 := by omega
    bv_omega
  refine ⟨by omega, ?_⟩
  have large : 2 ^ 32 - 6 ≤ (masterWidth screenW).toNat := by omega
  generalize masterWidth screenW = m at large ⊢
  generalize screenW - 84 - 16 = a at availW ⊢
  bv_omega

theorem UsableScreen.stackWidth_pos (screen : UsableScreen screenW screenH) :
    0 < (screenW - 84 - 16 - masterWidth screenW - 12).toNat := by
  have width := screen.width
  by_cases wide : 600 ≤ (screenW.toNat - 100) * 62 % 2 ^ 32
  · have := screen.stackWidth wide
    omega
  · have := screen.narrow wide
    have := (masterWidth screenW).isLt
    omega

/-- The frames of a column end before the coordinates wrap around. -/
theorem Column.ends {x stackW : BitVec 32} {lo bottom : ℕ} {fs : List Frame}
    (column : Column x stackW lo bottom fs) (wide : x.toNat + stackW.toNat ≤ 2 ^ 32)
    (high : bottom ≤ 2 ^ 32) {f : Frame} (hf : f ∈ fs) : f.Ends := by
  obtain ⟨fx, fw⟩ := column.x_eq f hf
  have := column.inside f hf
  exact ⟨by rwa [fx, fw], by omega⟩

theorem masterStack_apart (screen : UsableScreen screenW screenH) (two : 2 ≤ count)
    (few : count ≤ 16) (wide : 600 ≤ (screenW.toNat - 100) * 62 % 2 ^ 32) :
    (tiles { layoutInit with mode := .masterStack } screenW screenH count).Pairwise
      fun f g => Rect.Apart 0 f.rect g.rect := by
  obtain ⟨n, rfl⟩ : ∃ n, count = n + 2 := ⟨count - 2, by omega⟩
  have width := screen.width
  have height := screen.height
  have availH := screen.availH
  have small := screenH.isLt
  have small' := screenW.isLt
  obtain ⟨stackW, beside⟩ := screen.stackWidth wide
  have column := screen.column (n := n) (by omega) (84 + masterWidth screenW + 12)
    (screenW - 84 - 16 - masterWidth screenW - 12)
  rw [tiles_masterStack]
  generalize masterWidth screenW = m at *
  generalize screenW - 84 - 16 - m - 12 = w at *
  have x_eq : (84 + m + 12).toNat = m.toNat + 96 := by bv_omega
  have master : (⟨84, 60, m, screenH - 60 - 16⟩ : Frame).Ends := by
    refine ⟨?_, ?_⟩
    · change 84 + m.toNat ≤ _
      omega
    · change 60 + (screenH - 60 - 16).toNat ≤ _
      omega
  have ends : ∀ f ∈ stackFrames (84 + m + 12) w (cellSize (screenH - 60 - 16) (n + 1)) 12
      (60 + (screenH - 60 - 16)) (n + 1) 60, f.Ends :=
    fun f hf => column.ends (by omega) (by omega) hf
  refine List.pairwise_cons.mpr ⟨fun f hf => ?_, column.below.imp_of_mem fun hf hg below => ?_⟩
  · refine Frame.apart master (ends f hf) (.inl (.inl ?_))
    rw [column.unsigned hf, x_eq]
    change (84 : ℤ) + m.toNat + 12 ≤ (m.toNat + 96 : ℕ)
    omega
  · refine Frame.apart (ends _ hf) (ends _ hg) (.inr (.inl ?_))
    rw [column.unsigned hf, column.unsigned hg]
    dsimp only
    omega

theorem grid_apart (screen : UsableScreen screenW screenH) (two : 2 ≤ count) (few : count ≤ 16) :
    (tiles { layoutInit with mode := .grid } screenW screenH count).Pairwise
      fun f g => Rect.Apart 0 f.rect g.rect := by
  have width := screen.width
  have height := screen.height
  have small := screenH.isLt
  have small' := screenW.isLt
  obtain ⟨-, fitsW⟩ := screen.cellWidth
  obtain ⟨-, -, fitsH⟩ := screen.cellHeight (n := (count + 2 - 1) / 2) (by omega) (by omega)
  rw [tiles_grid screenW screenH two, List.pairwise_map]
  generalize cellSize (screenW - 84 - 16) 2 = w at *
  generalize cellSize (screenH - 60 - 16) ((count + 2 - 1) / 2) = h at *
  have cell : ∀ i < count, (gridFrame 84 60 w h 12 2 i).unsigned =
      Rect.cell 84 60 w.toNat h.toNat 12 (i % 2) (i / 2) ∧ (gridFrame 84 60 w h 12 2 i).Ends := by
    intro i hi
    obtain ⟨cell, col, row⟩ := gridFrame_unsigned (i := i) (by omega) hi (by omega) (by omega)
      fitsW fitsH (by omega)
    have x_eq : ((gridFrame 84 60 w h 12 2 i).x.toNat : ℤ) =
        84 + (i % 2 : ℕ) * (w.toNat + 12) := congrArg Rect.x cell
    have y_eq : ((gridFrame 84 60 w h 12 2 i).y.toNat : ℤ) =
        60 + (i / 2 : ℕ) * (h.toNat + 12) := congrArg Rect.y cell
    norm_cast at x_eq y_eq
    refine ⟨cell, ?_, ?_⟩
    · change _ + w.toNat ≤ _
      omega
    · change _ + h.toNat ≤ _
      omega
  refine List.Pairwise.imp_of_mem (fun {i j} hi hj lt => ?_) List.pairwise_lt_range'
  obtain ⟨ci, ei⟩ := cell i (by simpa using hi)
  obtain ⟨cj, ej⟩ := cell j (by simpa using hj)
  apply Frame.apart ei ej
  rw [ci, cj]
  exact cells_apart lt

/-- Except for a share that wraps around, the tiles do not overlap. -/
theorem tiles_disjoint (screen : UsableScreen screenW screenH) (pos : 0 < count) (few : count ≤ 16)
    {mode : LayoutMode} (tiling : mode = .masterStack ∨ mode = .grid)
    (wide : mode = .masterStack → 2 ≤ count → 600 ≤ (screenW.toNat - 100) * 62 % 2 ^ 32) :
    (tiles { layoutInit with mode } screenW screenH count).Pairwise
      fun f g => Rect.Disjoint f.rect g.rect := by
  by_cases two : 2 ≤ count
  · refine List.Pairwise.imp (R := fun f g : Frame => Rect.Apart 0 f.rect g.rect)
      (fun apart => apart.disjoint le_rfl) ?_
    obtain rfl | rfl := tiling
    · exact masterStack_apart screen two few (wide rfl two)
    · exact grid_apart screen two few
  · have one : count = 1 := by omega
    rw [tiles, if_pos (.inr one), one]
    exact List.pairwise_singleton ..

/-- The first stack window, or the second cell, is not empty. -/
theorem second_tile (screen : UsableScreen screenW screenH) (count : ℕ) (two : 2 ≤ count)
    (few : count ≤ 16) {mode : LayoutMode} (tiling : mode = .masterStack ∨ mode = .grid) :
    ∃ f₀ f fs, tiles { layoutInit with mode } screenW screenH count = f₀ :: f :: fs ∧
      0 < f.width.toNat ∧ 0 < f.height.toNat := by
  obtain ⟨n, rfl⟩ : ∃ n, count = n + 2 := ⟨count - 2, by omega⟩
  obtain rfl | rfl := tiling
  · rw [tiles_masterStack, stackFrames]
    refine ⟨_, _, _, rfl, screen.stackWidth_pos, ?_⟩
    have column := screen.column (n := n) (by omega) 0 0
    rw [stackFrames] at column
    exact (column.inside _ List.mem_cons_self).2.1
  · rw [tiles_grid screenW screenH two, List.range'_succ, List.range'_succ]
    refine ⟨_, _, _, rfl, ?_, ?_⟩
    · have := screen.width
      have := screen.cellWidth
      change 0 < (cellSize (screenW - 84 - 16) 2).toNat
      omega
    · exact (screen.cellHeight (by omega) (by omega)).2.1

/-- A share that wraps around puts the first stack window on the master. -/
theorem masterStack_meets (screen : UsableScreen screenW screenH) (two : 2 ≤ count)
    (few : count ≤ 16) (narrow : ¬ 600 ≤ (screenW.toNat - 100) * 62 % 2 ^ 32) :
    ∃ f₀ f fs, tiles { layoutInit with mode := .masterStack } screenW screenH count =
      f₀ :: f :: fs ∧ ¬ Rect.Disjoint f₀.rect f.rect := by
  obtain ⟨n, rfl⟩ : ∃ n, count = n + 2 := ⟨count - 2, by omega⟩
  have width := screen.width
  have height := screen.height
  have availH := screen.availH
  have stackPos := screen.stackWidth_pos
  obtain ⟨master, -⟩ := screen.narrow narrow
  have column := screen.column (n := n) (by omega) (84 + masterWidth screenW + 12)
    (screenW - 84 - 16 - masterWidth screenW - 12)
  rw [tiles_masterStack, stackFrames]
  rw [stackFrames] at column
  have high := (column.inside _ List.mem_cons_self).2.1
  refine ⟨_, _, _, rfl, fun disjoint => ?_⟩
  generalize masterWidth screenW = m at *
  generalize screenW - 84 - 16 - m - 12 = w at *
  generalize screenH - 60 - 16 = a at *
  have left : (84 + m + 12).toInt = m.toNat + 96 - 2 ^ 32 := by
    rw [toInt_of_small (by bv_omega)]
    bv_omega
  have onMaster : (⟨84, 60, m, a⟩ : Frame).rect.Contains (84 + m + 12).toInt 60 := by
    refine ⟨⟨?_, ?_⟩, ?_, ?_⟩
    · change (84 : ℤ) ≤ _
      omega
    · change _ < (84 : ℤ) + m.toNat
      omega
    · exact le_rfl
    · change (60 : ℤ) < 60 + a.toNat
      omega
  refine disjoint _ _ onMaster ⟨⟨le_rfl, ?_⟩, le_rfl, ?_⟩
  · change _ < (84 + m + 12).toInt + (w.toNat : ℤ)
    omega
  · change (60 : ℤ) < 60 + (BitVec.toNat _ : ℤ)
    omega

end

/-! ## The drawn windows -/

/-- The windows of the list that get past the first test of `draw_window`. -/
def drawn (activeWorkspace : BitVec 8) (windows : ℕ → Window) (ws : List ℕ) : List ℕ :=
  ws.filter fun w => ¬ ((windows w).isMinimized ∨ (windows w).workspaceId ≠ activeWorkspace)

/-- The layout goes by the same test, and stops at sixteen windows. -/
theorem placed_eq_take_drawn (activeWorkspace : BitVec 8) (windows : ℕ → Window) (ws : List ℕ) :
    placed activeWorkspace windows ws = (drawn activeWorkspace windows ws).take 16 := by
  have same : ∀ w, decide ((windows w).Visible activeWorkspace) =
      decide (¬ ((windows w).isMinimized ∨ (windows w).workspaceId ≠ activeWorkspace)) := by
    intro w
    rw [decide_eq_decide, Window.Visible, not_or, not_not, Bool.not_eq_true]
    exact and_comm
  rw [placed, drawn, funext same]

/-- The windows moved and resized. -/
def Desktop.withFrames (frames : ℕ → Frame) (s : Desktop) : Desktop :=
  { s with windows := fun w => (s.windows w).at (frames w) }

/-- The rectangles of the drawn windows are disjoint. -/
def LaidOut (activeWorkspace : BitVec 8) (ws : List ℕ) (s : Desktop) : Prop :=
  (drawn activeWorkspace s.windows ws).Pairwise fun v w =>
    Rect.Disjoint (s.windows v).frame.rect (s.windows w).frame.rect

theorem Chain.withFrames {s : Desktop} {head : Option ℕ} {ws : List ℕ}
    (chain : Chain s.windows head ws) (frames : ℕ → Frame) :
    Chain (s.withFrames frames).windows head ws := chain.congr fun _ _ => rfl

/-- Placing windows hides and shows none. -/
theorem placeAll_drawn (pairs : List (ℕ × Frame)) (s : Desktop) (activeWorkspace : BitVec 8)
    (ws : List ℕ) :
    drawn activeWorkspace (placeAll pairs s).windows ws = drawn activeWorkspace s.windows ws := by
  induction pairs generalizing s with
  | nil => rfl
  | cons p pairs ih =>
    refine (ih (place p.1 p.2 s)).trans (List.filter_congr fun w _ => ?_)
    obtain ⟨surface, windows⟩ := place_windows p.1 p.2 s
    rw [windows]
    by_cases here : w = p.1
    · rw [here, Function.update_self]
      rfl
    · rw [Function.update_of_ne here]

section

variable {s : Desktop} {windowList : Option ℕ} {ws : List ℕ} {fuel : ℕ}
  {activeWorkspace : BitVec 8} {screenW screenH : BitVec 32} {mode : LayoutMode}

/-- After a layout the drawn windows are those before it; the first sixteen have the tiles. -/
theorem layoutApply_drawn (chain : Chain s.windows windowList ws) (enough : ws.length < fuel)
    (tiling : mode = .masterStack ∨ mode = .grid)
    (pos : 0 < (drawn activeWorkspace s.windows ws).length) {s' : Desktop}
    (call : layoutApply fuel windowList activeWorkspace screenW screenH
      { layoutInit with mode } s = some s') :
    drawn activeWorkspace s'.windows ws = drawn activeWorkspace s.windows ws ∧
      ((drawn activeWorkspace s.windows ws).take 16).map (fun w => (s'.windows w).frame) =
        tiles { layoutInit with mode } screenW screenH
          ((drawn activeWorkspace s.windows ws).take 16).length ∧
      ∀ w, w ∉ (drawn activeWorkspace s.windows ws).take 16 → s'.windows w = s.windows w := by
  have nonempty : placed activeWorkspace s.windows ws ≠ [] := by
    rw [placed_eq_take_drawn]
    simpa using List.ne_nil_of_length_pos pos
  obtain ⟨s'', call', frames, others, -⟩ := layoutApply_frames (l := { layoutInit with mode }) chain
    enough activeWorkspace screenW screenH (by obtain rfl | rfl := tiling <;> decide) nonempty
  obtain rfl := Option.some.inj (call.symm.trans call')
  have same : s' = placeAll _ s :=
    Option.some.inj (call.symm.trans (layoutApply_eq chain enough ..))
  rw [placed_eq_take_drawn] at frames others
  exact ⟨by rw [same, placeAll_drawn], frames, others⟩

/-- Up to sixteen windows are laid out, except on screens where the share of the master wraps
around. -/
theorem layoutApply_laidOut (chain : Chain s.windows windowList ws) (enough : ws.length < fuel)
    (screen : UsableScreen screenW screenH) (tiling : mode = .masterStack ∨ mode = .grid)
    (few : (drawn activeWorkspace s.windows ws).length ≤ 16)
    (wide : mode = .masterStack → 2 ≤ (drawn activeWorkspace s.windows ws).length →
      600 ≤ (screenW.toNat - 100) * 62 % 2 ^ 32) :
    ∃ s', layoutApply fuel windowList activeWorkspace screenW screenH
        { layoutInit with mode } s = some s' ∧ LaidOut activeWorkspace ws s' := by
  have call := layoutApply_eq chain enough activeWorkspace screenW screenH
    { layoutInit with mode }
  refine ⟨_, call, ?_⟩
  by_cases pos : 0 < (drawn activeWorkspace s.windows ws).length
  · obtain ⟨same, frames, -⟩ := layoutApply_drawn chain enough tiling pos call
    rw [List.take_of_length_le few] at frames
    have disjoint := tiles_disjoint screen pos few tiling wide
    rw [← frames, List.pairwise_map] at disjoint
    rwa [LaidOut, same]
  · have none : drawn activeWorkspace s.windows ws = [] := List.length_eq_zero_iff.mp (by omega)
    rw [LaidOut, placeAll_drawn, none]
    exact .nil

/-- A seventeenth window that was where the second tile will be stays there. -/
theorem layoutApply_seventeenth (chain : Chain s.windows windowList ws)
    (enough : ws.length < fuel) (screen : UsableScreen screenW screenH)
    (tiling : mode = .masterStack ∨ mode = .grid)
    (many : 16 < (drawn activeWorkspace s.windows ws).length) :
    ∃ frames, ∀ s', layoutApply fuel windowList activeWorkspace screenW screenH
      { layoutInit with mode } (s.withFrames frames) = some s' →
        ¬ LaidOut activeWorkspace ws s' := by
  obtain ⟨f₀, f, fs, tile, width, height⟩ := second_tile screen 16 (by omega) le_rfl tiling
  refine ⟨fun _ => f, fun s' call disjoint => ?_⟩
  obtain ⟨same, frames, others⟩ := layoutApply_drawn
    (chain.withFrames fun _ => f) enough tiling (Nat.zero_lt_of_lt many) call
  have nodup : (drawn activeWorkspace s.windows ws).Nodup := chain.nodup.filter _
  change drawn activeWorkspace s'.windows ws = drawn activeWorkspace s.windows ws at same
  change ((drawn activeWorkspace s.windows ws).take 16).map _ =
    tiles _ _ _ ((drawn activeWorkspace s.windows ws).take 16).length at frames
  change ∀ w, w ∉ (drawn activeWorkspace s.windows ws).take 16 → _ at others
  rw [LaidOut, same] at disjoint
  generalize drawn activeWorkspace s.windows ws = d at *
  have length : (d.take 16).length = 16 := by
    rw [List.length_take]
    omega
  rw [length, tile] at frames
  have second : (s'.windows d[1]).frame = f := by
    have := congrArg (fun l : List Frame => l[1]?) frames
    rw [List.getElem?_map, List.getElem?_take_of_lt (by omega),
      List.getElem?_eq_getElem (by omega)] at this
    exact Option.some.inj this
  have last : (s'.windows d[16]).frame = f := by
    rw [others d[16] fun taken => ?_]
    · rfl
    · obtain ⟨i, hi, same⟩ := List.mem_take_iff_getElem.mp taken
      have := nodup.getElem_inj_iff.mp same
      omega
  have meets := List.pairwise_iff_getElem.mp disjoint 1 16 (by omega) (by omega) (by omega)
  rw [second, last] at meets
  exact Rect.not_disjoint_self (Nat.cast_pos.mpr width) (Nat.cast_pos.mpr height) meets

/-- A share of the master that wraps around leaves the first two windows on each other. -/
theorem layoutApply_narrow (chain : Chain s.windows windowList ws) (enough : ws.length < fuel)
    (screen : UsableScreen screenW screenH)
    (two : 2 ≤ (drawn activeWorkspace s.windows ws).length)
    (few : (drawn activeWorkspace s.windows ws).length ≤ 16)
    (narrow : ¬ 600 ≤ (screenW.toNat - 100) * 62 % 2 ^ 32) {s' : Desktop}
    (call : layoutApply fuel windowList activeWorkspace screenW screenH
      { layoutInit with mode := .masterStack } s = some s') : ¬ LaidOut activeWorkspace ws s' := by
  intro disjoint
  obtain ⟨f₀, f, fs, tile, meets⟩ := masterStack_meets screen two few narrow
  obtain ⟨same, frames, -⟩ := layoutApply_drawn chain enough (.inl rfl) (by omega) call
  rw [List.take_of_length_le few, tile] at frames
  have overlap : ((drawn activeWorkspace s.windows ws).map fun w => (s'.windows w).frame).Pairwise
      fun f g => Rect.Disjoint f.rect g.rect := by
    rw [List.pairwise_map]
    rwa [LaidOut, same] at disjoint
  rw [frames] at overlap
  exact meets (List.rel_of_pairwise_cons overlap List.mem_cons_self)

/-- Wherever the windows of a list were before, a layout gives all drawn ones disjoint rectangles
just when at most sixteen are drawn, and in the master mode the screen is not so wide that the
share of the master wraps around to less than half a gap. -/
theorem layoutApply_laidOut_iff (chain : Chain s.windows windowList ws)
    (enough : ws.length < fuel) (screen : UsableScreen screenW screenH)
    (tiling : mode = .masterStack ∨ mode = .grid) :
    (∀ frames : ℕ → Frame, ∃ s', layoutApply fuel windowList activeWorkspace screenW screenH
        { layoutInit with mode } (s.withFrames frames) = some s' ∧ LaidOut activeWorkspace ws s') ↔
      (drawn activeWorkspace s.windows ws).length ≤ 16 ∧
        (mode = .masterStack → 2 ≤ (drawn activeWorkspace s.windows ws).length →
          600 ≤ (screenW.toNat - 100) * 62 % 2 ^ 32) := by
  constructor
  · intro laidOut
    have few : (drawn activeWorkspace s.windows ws).length ≤ 16 := by
      by_contra many
      obtain ⟨frames, overlap⟩ :=
        layoutApply_seventeenth chain enough screen tiling (not_le.mp many)
      obtain ⟨s', call, disjoint⟩ := laidOut frames
      exact overlap s' call disjoint
    refine ⟨few, ?_⟩
    rintro rfl two
    by_contra narrow
    obtain ⟨s', call, disjoint⟩ := laidOut fun w => (s.windows w).frame
    exact layoutApply_narrow chain enough screen two few narrow call disjoint
  · rintro ⟨few, wide⟩ frames
    exact layoutApply_laidOut (chain.withFrames frames) enough screen tiling few wide

end

/-- The windows of `exampleDesktop` are laid out. -/
theorem layoutApply_laidOut_example :
    ∃ s', layoutApply 4 (some 1) 1 1280 800 { layoutInit with mode := .masterStack }
      (exampleDesktop.withFrames fun _ => ⟨0, 0, 100, 100⟩) = some s' ∧
      LaidOut 1 [1, 2, 3] s' := by
  have enough : [1, 2, 3].length < 4 := by decide
  have screen : UsableScreen 1280 800 := ⟨by decide, by decide⟩
  have visible : drawn 1 exampleDesktop.windows [1, 2, 3] = [1, 3] := by decide
  refine (layoutApply_laidOut_iff exampleDesktop_chain enough screen (.inl rfl)).mpr ?_ _
  rw [visible]
  decide

/-- Seventeen windows as `window_create` leaves them, in a list. -/
def crowded : Desktop where
  windows w :=
    { surface := none, x := 0, y := 0, width := 100, height := 100, workspaceId := 1,
      isMinimized := false, paint := none, next := if w < 17 then some (w + 1) else none }
  surfaces _ := { id := 0, width := 0, height := 0, pixels := none, flags := 0 }
  pixels _ _ := 0
  kmalloc := .above
  log := []
  painted := []
  sNextSurfaceId := 1

theorem crowded_overlaps :
    ∃ s', layoutApply 18 (some 1) 1 1280 800 layoutInit crowded = some s' ∧
      ¬ LaidOut 1 (List.range' 1 17) s' := by
  have chain : Chain crowded.windows (some 1) (List.range' 1 17) := by
    iterate 17 apply Linked.cons
    exact .nil
  have enough : (List.range' 1 17).length < 18 := by decide
  have call := layoutApply_eq chain enough 1 1280 800 layoutInit
  refine ⟨_, call, fun disjoint => ?_⟩
  have pos : 0 < (drawn 1 crowded.windows (List.range' 1 17)).length := by decide
  obtain ⟨same, frames, others⟩ := layoutApply_drawn chain enough (.inl rfl) pos call
  generalize placeAll _ crowded = s' at *
  have visible : drawn 1 crowded.windows (List.range' 1 17) = List.range' 1 17 := by decide
  rw [visible] at same frames others
  -- the master has its tile, the last window stays at the corner of the screen
  have master : (s'.windows 1).frame = ⟨84, 60, 725, 724⟩ := by
    have := congrArg List.head? frames
    exact Option.some.inj this
  have last : (s'.windows 17).frame = ⟨0, 0, 100, 100⟩ := by
    rw [others 17 (by decide)]
    rfl
  rw [LaidOut, same] at disjoint
  have meets := List.pairwise_iff_getElem.mp disjoint 0 16 (by decide) (by decide) (by decide)
  change Rect.Disjoint (s'.windows 1).frame.rect (s'.windows 17).frame.rect at meets
  rw [master, last] at meets
  exact meets 90 70 (by unfold Rect.Contains; decide) (by unfold Rect.Contains; decide)

end ChefOs
