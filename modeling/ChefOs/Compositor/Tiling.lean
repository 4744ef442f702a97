import ChefOs.Compositor.Placement
import ChefOs.Lib.Rect

/-!
# Tiles

The frames of the two tiling modes are not empty, lie in the work area and keep the inner gap, so
the same holds of the placed windows after a layout.
-/

namespace ChefOs

open Kit

/-- The rectangle of a frame on the screen. -/
def Frame.rect (f : Frame) : Rect := ⟨f.x.toInt, f.y.toInt, f.width.toNat, f.height.toNat⟩

/-- The rectangle of a frame, with its place read without sign. -/
def Frame.unsigned (f : Frame) : Rect := ⟨f.x.toNat, f.y.toNat, f.width.toNat, f.height.toNat⟩

/-- The part of the screen for windows. -/
def workArea (screenW screenH : BitVec 32) : Rect :=
  ⟨84, 60, screenW.toNat - 16 - 84, screenH.toNat - 16 - 60⟩

/-- A screen of at least 640x480. -/
structure UsableScreen (screenW screenH : BitVec 32) : Prop where
  width : 640 ≤ screenW.toNat
  height : 480 ≤ screenH.toNat

/-- A screen of an ordinary size. -/
structure OrdinaryScreen (screenW screenH : BitVec 32) : Prop where
  width : 640 ≤ screenW.toNat ∧ screenW.toNat ≤ 16384
  height : 480 ≤ screenH.toNat ∧ screenH.toNat ≤ 16384

/-- The frames are tiles of the area with the inner gap between any two. -/
structure Tiled (area : Rect) (fs : List Frame) : Prop where
  inside : ∀ f ∈ fs, f.rect.Inside area
  apart : fs.Pairwise fun f g => Rect.Apart 12 f.rect g.rect

/-! ## Words without overflow -/

theorem toInt_of_small {a : BitVec 32} (small : a.toNat < 2 ^ 31) : a.toInt = a.toNat :=
  BitVec.toInt_eq_toNat_of_lt (by omega)

/-- The gaps between cells. -/
theorem gaps_toNat {n : ℕ} (small : n ≤ 16) : (12 * BitVec.ofNat 32 n).toNat = 12 * n := by
  rw [BitVec.toNat_mul, BitVec.toNat_ofNat, show BitVec.toNat (12 : BitVec 32) = 12 from rfl,
    Nat.mod_eq_of_lt (a := n) (by omega), Nat.mod_eq_of_lt (by omega)]

/-- The size of one of `n` cells with gaps. -/
def cellSize (avail : BitVec 32) (n : ℕ) : BitVec 32 :=
  (avail - 12 * BitVec.ofNat 32 (n - 1)) / BitVec.ofNat 32 n

theorem cellSize_toNat {avail : BitVec 32} {n : ℕ} (pos : 0 < n) (small : n ≤ 16)
    (room : 12 * (n - 1) ≤ avail.toNat) :
    (cellSize avail n).toNat = (avail.toNat - 12 * (n - 1)) / n := by
  have gaps := gaps_toNat (n := n - 1) (by omega)
  rw [cellSize, BitVec.toNat_udiv, BitVec.toNat_sub_of_le (by rwa [BitVec.le_def, gaps]), gaps,
    BitVec.toNat_ofNat, Nat.mod_eq_of_lt (a := n) (by omega)]

theorem rect_of_small {f : Frame} (hx : f.x.toNat < 2 ^ 31) (hy : f.y.toNat < 2 ^ 31) :
    f.rect = f.unsigned := by
  rw [Frame.rect, toInt_of_small hx, toInt_of_small hy, Frame.unsigned]

/-! ## The stack -/

/-- The frames fill a column from `lo` to `bottom`, from above to below. -/
structure Column (x stackW : BitVec 32) (lo bottom : ℕ) (fs : List Frame) : Prop where
  x_eq : ∀ f ∈ fs, f.x = x ∧ f.width = stackW
  inside : ∀ f ∈ fs, lo ≤ f.y.toNat ∧ 0 < f.height.toNat ∧ f.y.toNat + f.height.toNat ≤ bottom
  below : fs.Pairwise fun f g => f.y.toNat + f.height.toNat + 12 ≤ g.y.toNat
  fills : ∀ f ∈ fs.getLast?, f.y.toNat + f.height.toNat = bottom

theorem Column.single {x stackW : BitVec 32} {bottom : ℕ} {f : Frame}
    (fx : f.x = x ∧ f.width = stackW) (pos : 0 < f.height.toNat)
    (fills : f.y.toNat + f.height.toNat = bottom) : Column x stackW f.y.toNat bottom [f] where
  x_eq := List.forall_mem_singleton.mpr fx
  inside := List.forall_mem_singleton.mpr ⟨le_rfl, pos, fills.le⟩
  below := List.pairwise_singleton ..
  fills := by
    rintro g ⟨⟩
    exact fills

/-- A frame above a column. -/
theorem Column.cons {x stackW : BitVec 32} {lo bottom : ℕ} {f g : Frame} {fs : List Frame}
    (column : Column x stackW lo bottom (g :: fs)) (fx : f.x = x ∧ f.width = stackW)
    (pos : 0 < f.height.toNat) (gap : f.y.toNat + f.height.toNat + 12 ≤ lo) :
    Column x stackW f.y.toNat bottom (f :: g :: fs) where
  x_eq := List.forall_mem_cons.mpr ⟨fx, column.x_eq⟩
  inside := by
    have first := column.inside g List.mem_cons_self
    refine List.forall_mem_cons.mpr ⟨⟨le_rfl, pos, by omega⟩, fun h hh => ?_⟩
    have := column.inside h hh
    exact ⟨by omega, this.2⟩
  below := List.pairwise_cons.mpr ⟨fun h hh => gap.trans (column.inside h hh).1, column.below⟩
  fills := by
    rw [List.getLast?_cons_cons]
    exact column.fills

/-- Below the first window of a stack there is room for the others. -/
theorem stack_rest {stackH bottom currY : BitVec 32} {n : ℕ}
    (fits : currY.toNat + (n + 1 + 1) * (stackH.toNat + 12) ≤ bottom.toNat + 12) :
    (currY + (stackH + 12)).toNat = currY.toNat + stackH.toNat + 12 ∧
      (currY + (stackH + 12)).toNat + (n + 1) * (stackH.toNat + 12) ≤ bottom.toNat + 12 := by
  have unfolded : (n + 1 + 1) * (stackH.toNat + 12) =
      (n + 1) * (stackH.toNat + 12) + (stackH.toNat + 12) := Nat.succ_mul ..
  have rest : stackH.toNat + 12 ≤ (n + 1) * (stackH.toNat + 12) :=
    Nat.le_mul_of_pos_left _ (Nat.succ_pos n)
  have step : (currY + (stackH + 12)).toNat = currY.toNat + stackH.toNat + 12 := by
    have := stackH.isLt
    have := bottom.isLt
    rw [BitVec.toNat_add, BitVec.toNat_add, show BitVec.toNat (12 : BitVec 32) = 12 from rfl]
    omega
  constructor
  · exact step
  · omega

/-- The stack windows fill their column. -/
theorem stackFrames_column {x stackW stackH bottom : BitVec 32} (pos : 0 < stackH.toNat)
    (n : ℕ) (currY : BitVec 32)
    (fits : currY.toNat + (n + 1) * (stackH.toNat + 12) ≤ bottom.toNat + 12) :
    Column x stackW currY.toNat bottom.toNat
      (stackFrames x stackW stackH 12 bottom (n + 1) currY) := by
  induction n generalizing currY with
  | zero =>
    have height : (bottom - currY).toNat = bottom.toNat - currY.toNat :=
      BitVec.toNat_sub_of_le (by rw [BitVec.le_def]; omega)
    exact .single (f := ⟨x, currY, stackW, bottom - currY⟩) ⟨rfl, rfl⟩ (by dsimp only; omega)
      (by dsimp only; omega)
  | succ n ih =>
    obtain ⟨step, rest⟩ := stack_rest fits
    have column := ih (currY + (stackH + 12)) rest
    rw [stackFrames] at column ⊢
    rw [stackFrames]
    exact column.cons (f := ⟨x, currY, stackW, stackH⟩) ⟨rfl, rfl⟩ pos (by rw [step])

/-- The rectangles of a column. -/
theorem Column.unsigned {x stackW : BitVec 32} {lo bottom : ℕ} {fs : List Frame}
    (column : Column x stackW lo bottom fs) {f : Frame} (hf : f ∈ fs) :
    f.unsigned = ⟨x.toNat, f.y.toNat, stackW.toNat, f.height.toNat⟩ := by
  obtain ⟨fx, fw⟩ := column.x_eq f hf
  rw [Frame.unsigned, fx, fw]

theorem Column.rect {x stackW : BitVec 32} {lo bottom : ℕ} {fs : List Frame}
    (column : Column x stackW lo bottom fs) (hx : x.toNat < 2 ^ 31) (low : bottom < 2 ^ 31)
    {f : Frame} (hf : f ∈ fs) :
    f.rect = ⟨x.toNat, f.y.toNat, stackW.toNat, f.height.toNat⟩ := by
  obtain ⟨fx, -⟩ := column.x_eq f hf
  have := (column.inside f hf).2.2
  rw [rect_of_small (by rwa [fx]) (by omega), column.unsigned hf]

/-- A master window beside a column. -/
theorem Column.tiled {m stackW availH : BitVec 32} {right bottom : ℕ} {stack : List Frame}
    (column : Column (84 + m + 12) stackW 60 bottom stack) (mPos : 0 < m.toNat)
    (stackPos : 0 < stackW.toNat) (wide : m.toNat + 96 + stackW.toNat = right)
    (high : 60 + availH.toNat = bottom) (small : right < 2 ^ 31 ∧ bottom < 2 ^ 31)
    (filled : 0 < availH.toNat) :
    Tiled ⟨84, 60, right - 84, bottom - 60⟩ (⟨84, 60, m, availH⟩ :: stack) ∧
      ∀ f ∈ stack.getLast?,
        f.rect.x + f.rect.width = right ∧ f.rect.y + f.rect.height = bottom := by
  have x_eq : (84 + m + 12).toNat = m.toNat + 96 := by bv_omega
  have master : (⟨84, 60, m, availH⟩ : Frame).rect = ⟨84, 60, m.toNat, availH.toNat⟩ := rfl
  have rect : ∀ f ∈ stack,
      f.rect = ⟨(m.toNat + 96 : ℕ), f.y.toNat, stackW.toNat, f.height.toNat⟩ := by
    intro f hf
    rw [column.rect (by omega) small.2 hf, x_eq]
  refine ⟨⟨?inside, ?apart⟩, ?last⟩
  case inside =>
    refine List.forall_mem_cons.mpr ⟨?_, fun f hf => ?_⟩
    · rw [master]
      constructor <;> dsimp only <;> omega
    · have := column.inside f hf
      rw [rect f hf]
      constructor <;> dsimp only <;> omega
  case apart =>
    refine List.pairwise_cons.mpr ⟨fun f hf => ?_, column.below.imp_of_mem fun hf hg below => ?_⟩
    · rw [master, rect f hf]
      exact .inl (.inl (by dsimp only; omega))
    · rw [rect _ hf, rect _ hg]
      exact .inr (.inl (by dsimp only; omega))
  case last =>
    intro f hf
    have := column.fills f hf
    rw [rect f (List.mem_of_getLast? hf)]
    dsimp only
    omega

/-! ## The grid -/

theorem pitch_toNat {start size : BitVec 32} {c : ℕ} (hc : c < 2 ^ 32)
    (hs : size.toNat + 12 < 2 ^ 32) (small : start.toNat + c * (size.toNat + 12) < 2 ^ 32) :
    (start + BitVec.ofNat 32 c * (size + 12)).toNat = start.toNat + c * (size.toNat + 12) := by
  have pitch : (size + 12).toNat = size.toNat + 12 := by bv_omega
  have product : (BitVec.ofNat 32 c * (size + 12)).toNat = c * (size.toNat + 12) := by
    rw [BitVec.toNat_mul, BitVec.toNat_ofNat, pitch, Nat.mod_eq_of_lt (a := c) (by omega),
      Nat.mod_eq_of_lt (by omega)]
  rw [BitVec.toNat_add, product, Nat.mod_eq_of_lt (by omega)]

/-- A cell of a grid that fits into an area. -/
theorem gridFrame_unsigned {w h : BitVec 32} {availW availH cols rows count i : ℕ}
    (colsPos : 0 < cols) (hi : i < count) (wide : 84 + availW < 2 ^ 32)
    (high : 60 + availH < 2 ^ 32)
    (fitsW : cols * (w.toNat + 12) ≤ availW + 12) (fitsH : rows * (h.toNat + 12) ≤ availH + 12)
    (cells : count ≤ cols * rows) :
    (gridFrame 84 60 w h 12 cols i).unsigned =
        Rect.cell 84 60 w.toNat h.toNat 12 (i % cols) (i / cols) ∧
      i % cols * (w.toNat + 12) + w.toNat ≤ availW ∧
      i / cols * (h.toNat + 12) + h.toNat ≤ availH := by
  have inRow : i / cols < rows := Nat.div_lt_of_lt_mul (hi.trans_le cells)
  have col : i % cols * (w.toNat + 12) + w.toNat ≤ availW :=
    Rect.pitch_fits (Nat.mod_lt i colsPos) fitsW
  have row : i / cols * (h.toNat + 12) + h.toNat ≤ availH := Rect.pitch_fits inRow fitsH
  have oneW : w.toNat + 12 ≤ cols * (w.toNat + 12) := Nat.le_mul_of_pos_left _ colsPos
  have oneH : h.toNat + 12 ≤ rows * (h.toNat + 12) :=
    Nat.le_mul_of_pos_left _ ((Nat.zero_le _).trans_lt inRow)
  have smallCol : i % cols ≤ i % cols * (w.toNat + 12) := Nat.le_mul_of_pos_right _ (by omega)
  have smallRow : i / cols ≤ i / cols * (h.toNat + 12) := Nat.le_mul_of_pos_right _ (by omega)
  have x_eq : (gridFrame 84 60 w h 12 cols i).x.toNat = 84 + i % cols * (w.toNat + 12) :=
    pitch_toNat (by omega) (by omega) (by change 84 + _ < _; omega)
  have y_eq : (gridFrame 84 60 w h 12 cols i).y.toNat = 60 + i / cols * (h.toNat + 12) :=
    pitch_toNat (by omega) (by omega) (by change 60 + _ < _; omega)
  refine ⟨?_, col, row⟩
  rw [Frame.unsigned, x_eq, y_eq, Rect.cell, Rect.mk.injEq]
  push_cast
  exact ⟨rfl, rfl, rfl, rfl⟩

/-- Different cells are apart. -/
theorem cells_apart {w h : BitVec 32} {cols i j : ℕ} (lt : i < j) :
    Rect.Apart 12 (Rect.cell 84 60 w.toNat h.toNat 12 (i % cols) (i / cols))
      (Rect.cell 84 60 w.toNat h.toNat 12 (j % cols) (j / cols)) := by
  refine Rect.cell_apart (by positivity) (by positivity) fun same => lt.ne ?_
  rw [← Nat.div_add_mod i cols, ← Nat.div_add_mod j cols, same.1, same.2]

/-- The cells of a grid with `cols` columns and `rows` rows that fits into an area. -/
theorem gridFrames_tiled {w h : BitVec 32} {availW availH cols rows count : ℕ} (colsPos : 0 < cols)
    (posW : 0 < w.toNat) (posH : 0 < h.toNat) (smallW : availW < 2 ^ 20) (smallH : availH < 2 ^ 20)
    (fitsW : cols * (w.toNat + 12) ≤ availW + 12) (fitsH : rows * (h.toNat + 12) ≤ availH + 12)
    (cells : count ≤ cols * rows) :
    Tiled ⟨84, 60, availW, availH⟩ ((List.range' 0 count).map (gridFrame 84 60 w h 12 cols)) := by
  have rect : ∀ i < count, (gridFrame 84 60 w h 12 cols i).rect =
        Rect.cell 84 60 w.toNat h.toNat 12 (i % cols) (i / cols) ∧
      i % cols * (w.toNat + 12) + w.toNat ≤ availW ∧
      i / cols * (h.toNat + 12) + h.toNat ≤ availH := by
    intro i hi
    obtain ⟨cell, col, row⟩ :=
      gridFrame_unsigned colsPos hi (by omega) (by omega) fitsW fitsH cells
    have x_eq : ((gridFrame 84 60 w h 12 cols i).x.toNat : ℤ) =
        84 + (i % cols : ℕ) * (w.toNat + 12) := congrArg Rect.x cell
    have y_eq : ((gridFrame 84 60 w h 12 cols i).y.toNat : ℤ) =
        60 + (i / cols : ℕ) * (h.toNat + 12) := congrArg Rect.y cell
    norm_cast at x_eq y_eq
    exact ⟨(rect_of_small (by omega) (by omega)).trans cell, col, row⟩
  constructor
  · intro f hf
    obtain ⟨i, hi, rfl⟩ := List.mem_map.mp hf
    obtain ⟨cell, col, row⟩ := rect i (by simpa using hi)
    rw [cell, Rect.cell]
    generalize i % cols = c at col
    generalize i / cols = r at row
    zify at col row posW posH
    have left : (0 : ℤ) ≤ c * (w.toNat + 12) := by positivity
    have top : (0 : ℤ) ≤ r * (h.toNat + 12) := by positivity
    exact ⟨posW, posH, by dsimp only; linarith, by dsimp only; linarith, by dsimp only; linarith,
      by dsimp only; linarith⟩
  · rw [List.pairwise_map]
    refine List.Pairwise.imp_of_mem (fun {i j} hi hj lt => ?_) List.pairwise_lt_range'
    rw [(rect i (by simpa using hi)).1, (rect j (by simpa using hj)).1]
    exact cells_apart lt

/-! ## The modes -/

/-- `master_w` with the gaps and the share of `layout_init`. -/
def masterWidth (screenW : BitVec 32) : BitVec 32 := (screenW - 84 - 16) * 62 / 100 - 12 / 2

/-- The frames of a master and a stack. -/
theorem tiles_masterStack (screenW screenH : BitVec 32) (n : ℕ) :
    tiles { layoutInit with mode := .masterStack } screenW screenH (n + 2) =
      ⟨84, 60, masterWidth screenW, screenH - 60 - 16⟩ ::
        stackFrames (84 + masterWidth screenW + 12) (screenW - 84 - 16 - masterWidth screenW - 12)
          (cellSize (screenH - 60 - 16) (n + 1)) 12 (60 + (screenH - 60 - 16)) (n + 1) 60 := by
  rw [tiles, if_neg (by simp)]
  rfl

/-- The frames of a grid: it has two columns as soon as there are two windows. -/
theorem tiles_grid (screenW screenH : BitVec 32) {count : ℕ} (two : 2 ≤ count) :
    tiles { layoutInit with mode := .grid } screenW screenH count =
      (List.range' 0 count).map (gridFrame 84 60 (cellSize (screenW - 84 - 16) 2)
        (cellSize (screenH - 60 - 16) ((count + 2 - 1) / 2)) 12 2) := by
  have cols : (if count > 2 then 2 else count) = 2 := by split_ifs <;> omega
  rw [tiles, if_neg (by simp; omega)]
  dsimp only
  rw [cols]
  rfl

section

variable {screenW screenH : BitVec 32} {count : ℕ}

theorem OrdinaryScreen.usable (screen : OrdinaryScreen screenW screenH) :
    UsableScreen screenW screenH := ⟨screen.width.1, screen.height.1⟩

theorem UsableScreen.availW (screen : UsableScreen screenW screenH) :
    (screenW - 84 - 16).toNat = screenW.toNat - 100 := by
  have := screen.width
  bv_omega

theorem UsableScreen.availH (screen : UsableScreen screenW screenH) :
    (screenH - 60 - 16).toNat = screenH.toNat - 76 := by
  have := screen.height
  bv_omega

theorem UsableScreen.bottom (screen : UsableScreen screenW screenH) :
    (60 + (screenH - 60 - 16)).toNat = screenH.toNat - 16 := by
  have := screen.height
  have availH := screen.availH
  generalize screenH - 60 - 16 = a at availH ⊢
  bv_omega

/-- The share of the master, computed in 32 bits. -/
theorem UsableScreen.masterShare (screen : UsableScreen screenW screenH) :
    ((screenW - 84 - 16) * 62 / 100).toNat = (screenW.toNat - 100) * 62 % 2 ^ 32 / 100 := by
  rw [BitVec.toNat_udiv, BitVec.toNat_mul, screen.availW]
  rfl

theorem UsableScreen.masterWidth_toNat (screen : UsableScreen screenW screenH)
    (wide : 600 ≤ (screenW.toNat - 100) * 62 % 2 ^ 32) :
    (masterWidth screenW).toNat = (screenW.toNat - 100) * 62 % 2 ^ 32 / 100 - 6 := by
  have share := screen.masterShare
  rw [masterWidth,
    BitVec.toNat_sub_of_le (by rw [BitVec.le_def, share]; change 6 ≤ _; omega), share]
  rfl

theorem UsableScreen.stackWidth (screen : UsableScreen screenW screenH)
    (wide : 600 ≤ (screenW.toNat - 100) * 62 % 2 ^ 32) :
    (screenW - 84 - 16 - masterWidth screenW - 12).toNat =
        screenW.toNat - 112 - (masterWidth screenW).toNat ∧
      (masterWidth screenW).toNat + 113 ≤ screenW.toNat := by
  have width := screen.width
  have availW := screen.availW
  have masterW := screen.masterWidth_toNat wide
  have product := Nat.mod_le ((screenW.toNat - 100) * 62) (2 ^ 32)
  have beside : (masterWidth screenW).toNat + 113 ≤ screenW.toNat := by omega
  refine ⟨?_, beside⟩
  generalize masterWidth screenW = m at beside ⊢
  generalize screenW - 84 - 16 = a at availW ⊢
  bv_omega

/-- The height of one of `n` windows below each other. -/
theorem UsableScreen.cellHeight (screen : UsableScreen screenW screenH) {n : ℕ} (pos : 0 < n)
    (few : n ≤ 16) :
    (cellSize (screenH - 60 - 16) n).toNat = (screenH.toNat - 76 - 12 * (n - 1)) / n ∧
      0 < (cellSize (screenH - 60 - 16) n).toNat ∧
      n * ((cellSize (screenH - 60 - 16) n).toNat + 12) ≤ screenH.toNat - 76 + 12 := by
  have height := screen.height
  have availH := screen.availH
  have size : (cellSize (screenH - 60 - 16) n).toNat = (screenH.toNat - 76 - 12 * (n - 1)) / n := by
    rw [cellSize_toNat pos few (by omega), availH]
  have fits : n * ((screenH.toNat - 76 - 12 * (n - 1)) / n + 12) ≤ screenH.toNat - 76 + 12 :=
    Rect.div_fits pos (by omega)
  have room : 0 < (screenH.toNat - 76 - 12 * (n - 1)) / n := Nat.div_pos (by omega) pos
  rw [← size] at fits room
  exact ⟨size, room, fits⟩

/-- The width of one of two columns. -/
theorem UsableScreen.cellWidth (screen : UsableScreen screenW screenH) :
    (cellSize (screenW - 84 - 16) 2).toNat = (screenW.toNat - 112) / 2 ∧
      2 * ((cellSize (screenW - 84 - 16) 2).toNat + 12) ≤ screenW.toNat - 100 + 12 := by
  have width := screen.width
  have availW := screen.availW
  have size : (cellSize (screenW - 84 - 16) 2).toNat = (screenW.toNat - 112) / 2 := by
    rw [cellSize_toNat (by omega) (by omega) (by omega), availW]
    omega
  exact ⟨size, by omega⟩

/-- The stack fills its column. -/
theorem UsableScreen.column (screen : UsableScreen screenW screenH) {n : ℕ} (few : n < 16)
    (x w : BitVec 32) :
    Column x w 60 (screenH.toNat - 16) (stackFrames x w (cellSize (screenH - 60 - 16) (n + 1)) 12
      (60 + (screenH - 60 - 16)) (n + 1) 60) := by
  have height := screen.height
  obtain ⟨-, pos, fits⟩ := screen.cellHeight (n := n + 1) (by omega) (by omega)
  rw [← screen.bottom]
  apply stackFrames_column pos n 60
  rw [screen.bottom]
  change 60 + _ ≤ _
  omega

/-- The share of the master does not wrap around. -/
theorem OrdinaryScreen.wide (screen : OrdinaryScreen screenW screenH) :
    (screenW.toNat - 100) * 62 % 2 ^ 32 = (screenW.toNat - 100) * 62 ∧
      600 ≤ (screenW.toNat - 100) * 62 % 2 ^ 32 := by
  have := screen.width
  rw [Nat.mod_eq_of_lt (by omega)]
  omega

/-- The master and the stack are tiles, and the last one ends at the corner of the work area. -/
theorem masterStack_tiled (screen : OrdinaryScreen screenW screenH) (two : 2 ≤ count)
    (few : count ≤ 16) :
    Tiled (workArea screenW screenH)
        (tiles { layoutInit with mode := .masterStack } screenW screenH count) ∧
      ∀ f ∈ (tiles { layoutInit with mode := .masterStack } screenW screenH count).getLast?,
        f.rect.x + f.rect.width = screenW.toNat - 16 ∧
          f.rect.y + f.rect.height = screenH.toNat - 16 := by
  obtain ⟨n, rfl⟩ : ∃ n, count = n + 2 := ⟨count - 2, by omega⟩
  have width := screen.width
  have height := screen.height
  have availH := screen.usable.availH
  obtain ⟨exact, wide⟩ := screen.wide
  have masterW := screen.usable.masterWidth_toNat wide
  rw [exact] at masterW
  obtain ⟨stackW, beside⟩ := screen.usable.stackWidth wide
  have area : workArea screenW screenH =
      ⟨84, 60, (screenW.toNat - 16 : ℕ) - 84, (screenH.toNat - 16 : ℕ) - 60⟩ := by
    rw [workArea, Rect.mk.injEq]
    omega
  rw [tiles_masterStack, area]
  have column := screen.usable.column (n := n) (by omega) (84 + masterWidth screenW + 12)
    (screenW - 84 - 16 - masterWidth screenW - 12)
  generalize masterWidth screenW = m at *
  generalize screenW - 84 - 16 - m - 12 = w at *
  obtain ⟨tiled, last⟩ :
      Tiled ⟨84, 60, (screenW.toNat - 16 : ℕ) - 84, (screenH.toNat - 16 : ℕ) - 60⟩
        (⟨84, 60, m, screenH - 60 - 16⟩ :: _) ∧ _ :=
    column.tiled (by omega) (by omega) (by omega) (by omega) (by omega) (by omega)
  refine ⟨tiled, fun f hf => ?_⟩
  rw [stackFrames, List.getLast?_cons_cons, ← stackFrames] at hf
  have := last f hf
  omega

/-- The cells of the grid are tiles. -/
theorem grid_tiled (screen : OrdinaryScreen screenW screenH) (two : 2 ≤ count)
    (few : count ≤ 16) :
    Tiled (workArea screenW screenH)
      (tiles { layoutInit with mode := .grid } screenW screenH count) := by
  have width := screen.width
  have height := screen.height
  obtain ⟨cellW, fitsW⟩ := screen.usable.cellWidth
  obtain ⟨-, posH, fitsH⟩ := screen.usable.cellHeight (n := (count + 2 - 1) / 2) (by omega)
    (by omega)
  have area : workArea screenW screenH =
      ⟨84, 60, (screenW.toNat - 100 : ℕ), (screenH.toNat - 76 : ℕ)⟩ := by
    rw [workArea, Rect.mk.injEq]
    omega
  rw [tiles_grid screenW screenH two, area]
  exact gridFrames_tiled (by omega) (by omega) posH (by omega) (by omega) fitsW fitsH (by omega)

end

/-! ## The layout -/

theorem stackFrames_length (x stackW stackH gap bottom : BitVec 32) (n : ℕ) (currY : BitVec 32) :
    (stackFrames x stackW stackH gap bottom n currY).length = n := by
  induction n generalizing currY with
  | zero => rfl
  | succ n ih => rw [stackFrames, List.length_cons, ih]

/-- Except for floating windows there is one tile for each window. -/
theorem tiles_length {l : LayoutEngine} (tiling : l.mode ≠ .floating)
    (screenW screenH : BitVec 32) {count : ℕ} (pos : 0 < count) :
    (tiles l screenW screenH count).length = count := by
  unfold tiles
  dsimp only
  by_cases same : l.mode = .monocle ∨ count = 1
  · rw [if_pos same, List.length_replicate]
  · rw [if_neg same]
    cases mode : l.mode with
    | masterStack =>
      simp only [List.length_cons, stackFrames_length]
      omega
    | grid => simp only [List.length_map, List.length_range']
    | monocle => exact absurd (.inl mode) same
    | floating => exact absurd mode tiling

section

variable {s : Desktop} {windowList : Option ℕ} {ws : List ℕ} {fuel : ℕ}
  (chain : Chain s.windows windowList ws) (enough : ws.length < fuel)
  (activeWorkspace : BitVec 8)

include chain enough

/-- After a layout the placed windows have the tiles as their frames.  The other windows do not
change, and they keep their surfaces if every live window owns its blocks. -/
theorem layoutApply_frames (screenW screenH : BitVec 32) {l : LayoutEngine}
    (tiling : l.mode ≠ .floating) (nonempty : placed activeWorkspace s.windows ws ≠ []) :
    ∃ s', layoutApply fuel windowList activeWorkspace screenW screenH l s = some s' ∧
      (placed activeWorkspace s.windows ws).map (fun w => (s'.windows w).frame) =
        tiles l screenW screenH (placed activeWorkspace s.windows ws).length ∧
      (∀ w, w ∉ placed activeWorkspace s.windows ws → s'.windows w = s.windows w) ∧
      ∀ live rest, s.Owned live rest → (∀ w ∈ ws, w ∈ live) →
        ∀ w ∈ live, w ∉ placed activeWorkspace s.windows ws → s'.contents w = s.contents w := by
  rw [layoutApply_eq chain enough]
  have member : ∀ w ∈ placed activeWorkspace s.windows ws, w ∈ ws := fun w hw =>
    mem_of_mem_placed hw
  have nodup : (placed activeWorkspace s.windows ws).Nodup := chain.placed_nodup
  generalize placed activeWorkspace s.windows ws = vs at *
  have length := tiles_length tiling screenW screenH (List.length_pos_of_ne_nil nonempty)
  generalize tiles l screenW screenH vs.length = fs at *
  have fst : (vs.zip fs).map Prod.fst = vs := List.map_fst_zip length.ge
  obtain ⟨frames, others⟩ := placeAll_windows (by rwa [fst]) s
  refine ⟨_, rfl, ?_, fun w hw => others w (by rwa [fst]),
    fun live rest owned known w hlive hw => ?_⟩
  · apply List.ext_getElem (by simp [length])
    intro i h₁ h₂
    have hi : i < (vs.zip fs).length := by simpa [length] using h₁
    have frame := frames (vs.zip fs)[i] (List.getElem_mem hi)
    rw [List.getElem_zip] at frame
    rw [List.getElem_map]
    exact frame
  · exact (placeAll_owned owned fun p hp => known _ (member _ (List.of_mem_zip hp).1)).2 w hlive
      (by rwa [fst])

/-- On an ordinary screen with at least two placed windows, in both tiling modes the placed windows
are not empty, lie in the work area and keep the inner gap, and the last stack window ends at the
corner of the work area.  The other windows do not change, and they keep their surfaces if every
live window owns its blocks. -/
theorem layoutApply_tiled {screenW screenH : BitVec 32} (screen : OrdinaryScreen screenW screenH)
    {mode : LayoutMode} (tiling : mode = .masterStack ∨ mode = .grid)
    (two : 2 ≤ (placed activeWorkspace s.windows ws).length) :
    ∃ s', layoutApply fuel windowList activeWorkspace screenW screenH
          { layoutInit with mode } s = some s' ∧
      (∀ w ∈ placed activeWorkspace s.windows ws,
        (s'.windows w).frame.rect.Inside (workArea screenW screenH)) ∧
      (placed activeWorkspace s.windows ws).Pairwise (fun v w =>
        Rect.Apart 12 (s'.windows v).frame.rect (s'.windows w).frame.rect) ∧
      (mode = .masterStack → ∀ w ∈ (placed activeWorkspace s.windows ws).getLast?,
        (s'.windows w).frame.rect.x + (s'.windows w).frame.rect.width = screenW.toNat - 16 ∧
          (s'.windows w).frame.rect.y + (s'.windows w).frame.rect.height = screenH.toNat - 16) ∧
      (∀ w, w ∉ placed activeWorkspace s.windows ws → s'.windows w = s.windows w) ∧
      ∀ live rest, s.Owned live rest → (∀ w ∈ ws, w ∈ live) →
        ∀ w ∈ live, w ∉ placed activeWorkspace s.windows ws → s'.contents w = s.contents w := by
  have few : (placed activeWorkspace s.windows ws).length ≤ 16 := List.length_take_le ..
  obtain ⟨s', apply, frames, untouched⟩ := layoutApply_frames (l := { layoutInit with mode }) chain
    enough activeWorkspace screenW screenH (by obtain rfl | rfl := tiling <;> decide)
    (List.ne_nil_of_length_pos (by omega))
  have tiled : Tiled (workArea screenW screenH) (tiles { layoutInit with mode } screenW screenH
      (placed activeWorkspace s.windows ws).length) := by
    obtain rfl | rfl := tiling
    · exact (masterStack_tiled screen two few).1
    · exact grid_tiled screen two few
  have inside := tiled.inside
  have apart := tiled.apart
  rw [← frames] at inside apart
  rw [List.pairwise_map] at apart
  refine ⟨s', apply, List.forall_mem_map.mp inside, apart, ?_, untouched⟩
  rintro rfl w hw
  apply (masterStack_tiled screen two few).2 _
  rw [← frames, List.getLast?_map, hw]
  rfl

end

/-- Three windows in a list; the second one is on another workspace. -/
def exampleDesktop : Desktop where
  windows w :=
    { surface := if w = 2 then some 4 else none, x := 0, y := 0, width := 100, height := 100,
      workspaceId := if w = 2 then 3 else 1, isMinimized := false, paint := none,
      next := if w = 1 then some 2 else if w = 2 then some 3 else none }
  surfaces _ := { id := 1, width := 98, height := 71, pixels := some 5, flags := 9 }
  pixels _ _ := 7
  kmalloc := .above
  log := [.alloc (some 5), .alloc (some 4), .alloc (some 3), .alloc (some 2), .alloc (some 1)]
  painted := []
  sNextSurfaceId := 2

theorem exampleDesktop_chain : Chain exampleDesktop.windows (some 1) [1, 2, 3] :=
  .cons (.cons (.cons .nil))

theorem exampleDesktop_owned : exampleDesktop.Owned [1, 2, 3] [] := by
  unfold Desktop.Owned Exactly
  decide

/-- The windows on workspace 1 that get a frame. -/
theorem exampleDesktop_placed : placed 1 exampleDesktop.windows [1, 2, 3] = [1, 3] := by decide

theorem layoutApply_tiled_example :
    ∃ s', layoutApply 4 (some 1) 1 1280 800 layoutInit exampleDesktop = some s' ∧
      Rect.Apart 12 (s'.windows 1).frame.rect (s'.windows 3).frame.rect ∧
      (s'.windows 3).frame.rect.x + (s'.windows 3).frame.rect.width = 1264 ∧
      s'.contents 2 = exampleDesktop.contents 2 := by
  have enough : [1, 2, 3].length < 4 := by decide
  have screen : OrdinaryScreen 1280 800 := ⟨by decide, by decide⟩
  have two : 2 ≤ (placed 1 exampleDesktop.windows [1, 2, 3]).length := by decide
  obtain ⟨s', apply, -, apart, last, -, contents⟩ :=
    layoutApply_tiled exampleDesktop_chain enough 1 screen (.inl rfl) two
  rw [exampleDesktop_placed] at apart last contents
  exact ⟨s', apply, by simpa using apart, (last rfl 3 rfl).1,
    contents [1, 2, 3] [] exampleDesktop_owned (by simp) 2 (by simp) (by simp)⟩

end ChefOs
