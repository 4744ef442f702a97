import ChefOs.Compositor.Ownership
import ChefOs.Lib.Linked

/-!
# Placement

The layout places the visible windows in turn, at frames that depend only on their number, the mode
and the screen.
-/

namespace ChefOs

open Kit

/-! ## The visible windows -/

/-- The list from a window on, through `next`. -/
abbrev Chain (windows : ℕ → Window) : Option ℕ → List ℕ → Prop :=
  Linked fun w => (windows w).next

/-- The windows that get a place: the first sixteen visible ones. -/
def placed (activeWorkspace : BitVec 8) (windows : ℕ → Window) (ws : List ℕ) : List ℕ :=
  (ws.filter fun w => (windows w).Visible activeWorkspace).take 16

theorem mem_of_mem_placed {activeWorkspace : BitVec 8} {windows : ℕ → Window} {ws : List ℕ}
    {w : ℕ} (hw : w ∈ placed activeWorkspace windows ws) : w ∈ ws :=
  List.mem_of_mem_filter (List.mem_of_mem_take hw)

theorem Chain.placed_nodup {windows : ℕ → Window} {head : Option ℕ} {ws : List ℕ}
    (chain : Chain windows head ws) {activeWorkspace : BitVec 8} :
    (placed activeWorkspace windows ws).Nodup :=
  (chain.nodup.filter _).sublist (List.take_sublist ..)

theorem visibleLoop_eq {s : Desktop} (activeWorkspace : BitVec 8) {head : Option ℕ} {ws : List ℕ}
    (chain : Chain s.windows head ws) {fuel : ℕ} (enough : ws.length < fuel) {visible : List ℕ}
    (room : visible.length ≤ 16) :
    visibleLoop activeWorkspace s fuel head visible =
      some ((visible ++ ws.filter fun w => (s.windows w).Visible activeWorkspace).take 16) := by
  induction chain generalizing fuel visible with
  | nil =>
    obtain ⟨fuel, rfl⟩ : ∃ n, fuel = n + 1 := ⟨fuel - 1, by omega⟩
    rw [visibleLoop, List.filter_nil, List.append_nil, List.take_of_length_le room]
  | @cons w ws tail ih =>
    obtain ⟨fuel, rfl⟩ : ∃ n, fuel = n + 1 := ⟨fuel - 1, by omega⟩
    rw [List.length_cons] at enough
    rw [visibleLoop]
    split_ifs with more here
    · rw [ih (by omega) (by simpa using more), List.filter_cons_of_pos (by simpa using here),
        List.append_assoc]
      rfl
    · rw [ih (by omega) room, List.filter_cons_of_neg (by simpa using here)]
    · rw [List.take_append_of_le_length (by omega), List.take_of_length_le room]

/-! ## Placing windows in turn -/

/-- The windows get their frames. -/
def placeAll (pairs : List (ℕ × Frame)) (s : Desktop) : Desktop :=
  pairs.foldl (fun s p => place p.1 p.2 s) s

/-- Each window ends in its frame, and the windows without one do not change. -/
theorem placeAll_windows {pairs : List (ℕ × Frame)} (distinct : (pairs.map Prod.fst).Nodup)
    (s : Desktop) :
    (∀ p ∈ pairs, ((placeAll pairs s).windows p.1).frame = p.2) ∧
      ∀ w, w ∉ pairs.map Prod.fst → (placeAll pairs s).windows w = s.windows w := by
  induction pairs generalizing s with
  | nil => exact ⟨by simp, fun _ _ => rfl⟩
  | cons p pairs ih =>
    obtain ⟨first, later⟩ := List.nodup_cons.mp distinct
    obtain ⟨frames, others⟩ := ih later (place p.1 p.2 s)
    obtain ⟨surface, windows⟩ := place_windows p.1 p.2 s
    refine ⟨List.forall_mem_cons.mpr ⟨?_, frames⟩, fun w hw => ?_⟩
    · -- the later windows are others
      change ((placeAll pairs (place p.1 p.2 s)).windows p.1).frame = p.2
      rw [others p.1 first, windows, Function.update_self]
      rfl
    · rw [List.map_cons, List.mem_cons, not_or] at hw
      change (placeAll pairs (place p.1 p.2 s)).windows w = s.windows w
      rw [others w hw.2, windows, Function.update_of_ne hw.1]

/-- All windows own their blocks, and those without a frame keep their surfaces. -/
theorem placeAll_owned {s : Desktop} {live rest : List ℕ} (owned : s.Owned live rest)
    {pairs : List (ℕ × Frame)} (known : ∀ p ∈ pairs, p.1 ∈ live) :
    (placeAll pairs s).Owned live rest ∧
      ∀ w ∈ live, w ∉ pairs.map Prod.fst → (placeAll pairs s).contents w = s.contents w := by
  induction pairs generalizing s with
  | nil => exact ⟨owned, fun _ _ _ => rfl⟩
  | cons p pairs ih =>
    obtain ⟨owned₁, contents₁⟩ := place_owned owned (known p List.mem_cons_self) p.2
    obtain ⟨owned₂, contents₂⟩ := ih owned₁ fun q hq => known q (List.mem_cons_of_mem p hq)
    refine ⟨owned₂, fun w hlive hw => ?_⟩
    rw [List.map_cons, List.mem_cons, not_or] at hw
    exact (contents₂ w hlive hw.2).trans (contents₁ w hlive hw.1)

/-! ## The frames -/

/-- The frames of `n` stack windows. -/
def stackFrames (x stackW stackH gap bottom : BitVec 32) : ℕ → BitVec 32 → List Frame
  | 0, _ => []
  | n + 1, currY =>
    ⟨x, currY, stackW, if n = 0 then bottom - currY else stackH⟩ ::
      stackFrames x stackW stackH gap bottom n (currY + (stackH + gap))

/-- The frame of a cell. -/
def gridFrame (startX startY cellW cellH gap : BitVec 32) (cols i : ℕ) : Frame where
  x := startX + BitVec.ofNat 32 (i % cols) * (cellW + gap)
  y := startY + BitVec.ofNat 32 (i / cols) * (cellH + gap)
  width := cellW
  height := cellH

/-- The frames for a number of visible windows. -/
def tiles (l : LayoutEngine) (screenW screenH : BitVec 32) (count : ℕ) : List Frame :=
  let availW := screenW - l.gapOuterX - 16
  let availH := screenH - l.gapOuterY - 16
  let gap := l.gapInner
  if l.mode = .monocle ∨ count = 1 then
    List.replicate count ⟨l.gapOuterX, l.gapOuterY, availW, availH⟩
  else match l.mode with
    | .masterStack =>
      let masterW := (availW * l.masterPct) / 100 - gap / 2
      let stackH := (availH - gap * BitVec.ofNat 32 (count - 1 - 1)) / BitVec.ofNat 32 (count - 1)
      ⟨l.gapOuterX, l.gapOuterY, masterW, availH⟩ ::
        stackFrames (l.gapOuterX + masterW + gap) (availW - masterW - gap) stackH gap
          (l.gapOuterY + availH) (count - 1) l.gapOuterY
    | .grid =>
      let cols := if count > 2 then 2 else count
      let rows := (count + cols - 1) / cols
      let cellW := (availW - gap * BitVec.ofNat 32 (cols - 1)) / BitVec.ofNat 32 cols
      let cellH := (availH - gap * BitVec.ofNat 32 (rows - 1)) / BitVec.ofNat 32 rows
      (List.range' 0 count).map (gridFrame l.gapOuterX l.gapOuterY cellW cellH gap cols)
    | _ => []

theorem placeStack_eq (x stackW stackH gap bottom : BitVec 32) (stack : List ℕ) (currY : BitVec 32)
    (s : Desktop) :
    placeStack x stackW stackH gap bottom stack currY s =
      placeAll (stack.zip (stackFrames x stackW stackH gap bottom stack.length currY)) s := by
  induction stack generalizing currY s with
  | nil => rfl
  | cons w stack ih =>
    rw [placeStack, ih, List.length_cons, stackFrames, List.zip_cons_cons]
    simp only [List.length_eq_zero_iff]
    rfl

theorem placeGrid_eq (startX startY cellW cellH gap : BitVec 32) (cols : ℕ) (visible : List ℕ)
    (i : ℕ) (s : Desktop) :
    placeGrid startX startY cellW cellH gap cols visible i s =
      placeAll (visible.zip ((List.range' i visible.length).map
        (gridFrame startX startY cellW cellH gap cols))) s := by
  induction visible generalizing i s with
  | nil => rfl
  | cons w visible ih =>
    rw [placeGrid, ih, List.length_cons, List.range'_succ, List.map_cons, List.zip_cons_cons]
    rfl

theorem placeSame_eq (visible : List ℕ) (f : Frame) (s : Desktop) :
    visible.foldl (fun s w => place w f s) s =
      placeAll (visible.zip (List.replicate visible.length f)) s := by
  induction visible generalizing s with
  | nil => rfl
  | cons w visible ih =>
    rw [List.foldl_cons, ih, List.length_cons, List.replicate_succ, List.zip_cons_cons]
    rfl

/-- The layout places the visible windows at the tiles for their number. -/
theorem layoutApply_eq {s : Desktop} {windowList : Option ℕ} {ws : List ℕ}
    (chain : Chain s.windows windowList ws) {fuel : ℕ} (enough : ws.length < fuel)
    (activeWorkspace : BitVec 8) (screenW screenH : BitVec 32) (l : LayoutEngine) :
    layoutApply fuel windowList activeWorkspace screenW screenH l s =
      some (placeAll ((placed activeWorkspace s.windows ws).zip
        (tiles l screenW screenH (placed activeWorkspace s.windows ws).length)) s) := by
  have visible : visibleLoop activeWorkspace s fuel windowList [] = _ :=
    visibleLoop_eq activeWorkspace chain enough (by simp)
  rw [List.nil_append, ← placed] at visible
  simp only [layoutApply, visible, Option.bind_eq_bind, Option.bind_some]
  cases placed activeWorkspace s.windows ws with
  | nil => rfl
  | cons first stack =>
    rw [if_neg (by simp), tiles]
    by_cases same : l.mode = .monocle ∨ (first :: stack).length = 1
    · rw [if_pos same, if_pos same, placeSame_eq]
      rfl
    · rw [if_neg same, if_neg same]
      cases l.mode with
      | masterStack => exact congrArg some (placeStack_eq ..)
      | grid => exact congrArg some (placeGrid_eq ..)
      | monocle => rfl
      | floating => rfl

end ChefOs
