import ChefOs.Video.Stores

/-!
# What is on the screen

The front buffer shows the back buffer as it was at the last `fb_swap`, and nothing else of it is
ever written.
-/

namespace ChefOs

open Kit

/-- The rows of the front buffer do not overlap, and no index wraps around. -/
structure FbInfo.Regular (g : FbInfo) : Prop where
  width_le : g.width ≤ g.pitch
  small : g.pitch * g.height ≤ 2 ^ 64

/-- The element of the front buffer for a pixel. -/
def FbInfo.frontIndex (g : FbInfo) (x y : ℕ) : ℕ := y * g.pitch + x

section

variable {g : FbInfo}

theorem FbInfo.Regular.frontIndex_lt (regular : g.Regular) {x y : ℕ} (hx : x < g.width)
    (hy : y < g.height) : g.frontIndex x y < 2 ^ 64 :=
  lt_of_lt_of_le (Raster.row_lt (lt_of_lt_of_le hx regular.width_le) hy) regular.small

theorem FbInfo.Regular.index_eq (regular : g.Regular) {x y : ℕ} (hx : x < g.width)
    (hy : y < g.height) : g.index x y = u64 (y * g.width) + x := by
  have bound := regular.frontIndex_lt hx hy
  have rows := Nat.mul_le_mul_left y regular.width_le
  unfold FbInfo.frontIndex at bound
  rw [FbInfo.index, u64, u64, Nat.mod_eq_of_lt (by omega), Nat.mod_eq_of_lt (by omega)]

/-- A row that is copied shows the back buffer, and nothing else changes. -/
theorem copyRow_shows (regular : g.Regular) (front : ℕ → BitVec 32) {y : ℕ} (hy : y < g.height) :
    (∀ x < g.width, copyRow g front y (g.frontIndex x y) = g.backbuffer (g.index x y)) ∧
      ∀ a, (∀ x < g.width, a ≠ g.frontIndex x y) → copyRow g front y a = front a := by
  have row (x : ℕ) (hx : x < g.width) : u64 (y * g.pitch) = y * g.pitch := by
    have bound := regular.frontIndex_lt hx hy
    unfold FbInfo.frontIndex at bound
    exact Nat.mod_eq_of_lt (by omega)
  constructor
  · intro x hx
    rw [regular.index_eq hx hy]
    simp [copyRow, row x hx, FbInfo.frontIndex, hx]
  · intro a other
    unfold copyRow
    dsimp only
    split_ifs with inside
    · have pos : 0 < g.width := by omega
      rw [row 0 pos] at inside
      have here := other (a - y * g.pitch) (by omega)
      unfold FbInfo.frontIndex at here
      omega
    · rfl

/-- The rows below `n` are copied. -/
theorem copyRows_shows (regular : g.Regular) (front : ℕ → BitVec 32) {n : ℕ} (hn : n ≤ g.height) :
    (∀ y < n, ∀ x < g.width,
      (upTo 0 n).foldl (copyRow g) front (g.frontIndex x y) = g.backbuffer (g.index x y)) ∧
    ∀ a, (∀ y < n, ∀ x < g.width, a ≠ g.frontIndex x y) →
      (upTo 0 n).foldl (copyRow g) front a = front a := by
  induction n with
  | zero => simp [upTo]
  | succ n ih =>
    obtain ⟨shown, kept⟩ := ih (Nat.le_of_succ_le hn)
    have last : upTo 0 (n + 1) = upTo 0 n ++ [n] := by
      simp [upTo, List.range'_concat]
    rw [last, List.foldl_append, List.foldl_cons, List.foldl_nil]
    obtain ⟨shown', kept'⟩ := copyRow_shows regular ((upTo 0 n).foldl (copyRow g) front) hn
    constructor
    · intro y hy x hx
      rcases Nat.lt_succ_iff_lt_or_eq.mp hy with before | rfl
      · rw [kept', shown y before x hx]
        intro x' hx' same
        have rows := (Raster.rows_injective (lt_of_lt_of_le hx regular.width_le)
          (lt_of_lt_of_le hx' regular.width_le) same).2
        omega
      · exact shown' x hx
    · intro a other
      rw [kept' a (other n (Nat.lt_succ_self n)), kept a fun y hy => other y (by omega)]

/-- `fb_swap` shows the back buffer. -/
theorem fbSwap_shows (regular : g.Regular) {front : ℕ → BitVec 32}
    (mapped : g.frontbuffer = some front) : ∃ front', (fbSwap g).frontbuffer = some front' ∧
      (∀ y < g.height, ∀ x < g.width, front' (g.frontIndex x y) = g.backbuffer (g.index x y)) ∧
      ∀ a, (∀ y < g.height, ∀ x < g.width, a ≠ g.frontIndex x y) → front' a = front a := by
  unfold fbSwap
  rw [mapped]
  exact ⟨_, rfl, copyRows_shows regular front le_rfl⟩

/-! ## Runs of drawing calls -/

/-- A call other than `fb_swap` leaves the front buffer alone. -/
theorem FbCall.run_front (font : Font) (g : FbInfo) (call : FbCall) :
    (call.run font g).pitch = g.pitch ∧
      (call ≠ .swap → (call.run font g).frontbuffer = g.frontbuffer) := by
  have draws {f : FbInfo → FbInfo} {stores : List Store}
      (h : Draws g.width g.height f stores) :
      (f g).pitch = g.pitch ∧ (f g).frontbuffer = g.frontbuffer := by
    rw [h.eq g rfl rfl]
    exact ⟨rfl, rfl⟩
  cases call with
  | clear color => exact (draws (fbClear_draws ..)).imp_right fun h _ => h
  | putPixel x y color => exact (draws (fbPutPixel_draws ..)).imp_right fun h _ => h
  | drawRect x y w h color => exact (draws (fbDrawRect_draws ..)).imp_right fun h _ => h
  | drawRoundedRect x y w h radius color borderColor =>
    exact (draws (fbDrawRoundedRect_draws _ _ x y w h radius color borderColor)).imp_right
      fun h _ => h
  | drawChar c x y fg bg => exact (draws (fbDrawChar_draws ..)).imp_right fun h _ => h
  | drawString str x y fg bg => exact (draws (fbDrawString_draws ..)).imp_right fun h _ => h
  | putc c =>
    by_cases newline : c = 0x0A
    · simp [FbCall.run, fbPutc, newline, FbInfo.newLine]
    · obtain ⟨cursorX, cursorY, wrapped⟩ := g.wrap_eq
      rw [FbCall.run, fbPutc_stores font g newline, wrapped]
      exact ⟨rfl, fun _ => rfl⟩
  | drawCursor x y => exact (draws (fbDrawCursor_draws ..)).imp_right fun h _ => h
  | swap =>
    refine ⟨?_, fun ne => absurd rfl ne⟩
    simp only [FbCall.run, fbSwap]
    split <;> rfl

/-- A screen of the same shape. -/
structure FbInfo.SameShape (g g' : FbInfo) : Prop where
  width : g'.width = g.width
  height : g'.height = g.height
  pitch : g'.pitch = g.pitch

theorem FbInfo.SameShape.regular {g' : FbInfo} (shape : g.SameShape g') (regular : g.Regular) :
    g'.Regular where
  width_le := (shape.width.trans_le regular.width_le).trans_eq shape.pitch.symm
  small := (congrArg₂ (· * ·) shape.pitch shape.height).trans_le regular.small

/-- Drawing calls keep the shape of the screen. -/
theorem foldl_run_shape (font : Font) (calls : List FbCall) (g : FbInfo) :
    g.SameShape (calls.foldl (FbCall.run font) g) := by
  induction calls generalizing g with
  | nil => exact ⟨rfl, rfl, rfl⟩
  | cons call calls ih =>
    obtain ⟨width, height, pitch⟩ := ih (call.run font g)
    have makes := FbCall.run_makes font g call
    exact ⟨width.trans makes.width, height.trans makes.height,
      pitch.trans (call.run_front font g).1⟩

/-- Without `fb_swap` the front buffer stays as it is. -/
theorem foldl_run_front (font : Font) {calls : List FbCall} (noSwap : FbCall.swap ∉ calls)
    (g : FbInfo) : (calls.foldl (FbCall.run font) g).frontbuffer = g.frontbuffer := by
  induction calls generalizing g with
  | nil => rfl
  | cons call calls ih =>
    obtain ⟨here, later⟩ := not_or.mp (mt List.mem_cons.mpr noSwap)
    rw [List.foldl_cons, ih later, (call.run_front font g).2 (Ne.symm here)]

/-- Drawing calls write the front buffer at the pixels of the screen only. -/
theorem foldl_run_outside (font : Font) (calls : List FbCall) (regular : g.Regular)
    {front : ℕ → BitVec 32} (mapped : g.frontbuffer = some front) :
    ∃ front', (calls.foldl (FbCall.run font) g).frontbuffer = some front' ∧
      ∀ a, (∀ y < g.height, ∀ x < g.width, a ≠ g.frontIndex x y) → front' a = front a := by
  induction calls generalizing g front with
  | nil => exact ⟨front, mapped, fun _ _ => rfl⟩
  | cons call calls ih =>
    have shape : g.SameShape (call.run font g) := foldl_run_shape font [call] g
    have next : ∃ front', (call.run font g).frontbuffer = some front' ∧
        ∀ a, (∀ y < g.height, ∀ x < g.width, a ≠ g.frontIndex x y) → front' a = front a := by
      by_cases swap : call = .swap
      · subst swap
        obtain ⟨front', shown, -, kept⟩ := fbSwap_shows regular mapped
        exact ⟨front', shown, kept⟩
      · exact ⟨front, ((call.run_front font g).2 swap).trans mapped, fun _ _ => rfl⟩
    obtain ⟨front', mapped', kept⟩ := next
    obtain ⟨front'', shown, kept'⟩ := ih (shape.regular regular) mapped'
    refine ⟨front'', shown, fun a other => (kept' a fun y hy x hx => ?_).trans (kept a other)⟩
    have same : (call.run font g).frontIndex x y = g.frontIndex x y :=
      congrArg (fun p => y * p + x) shape.pitch
    rw [same]
    exact other y (shape.height ▸ hy) x (shape.width ▸ hx)

/-- After any drawing calls, the screen shows the back buffer as it was at the last `fb_swap`, and
of the front buffer only the pixels of the screen have been written. -/
theorem frontbuffer_shows (font : Font) (regular : g.Regular) {front : ℕ → BitVec 32}
    (mapped : g.frontbuffer = some front) (before : List FbCall) {after : List FbCall}
    (noSwap : FbCall.swap ∉ after) : ∃ front',
      ((before ++ .swap :: after).foldl (FbCall.run font) g).frontbuffer = some front' ∧
      (∀ y < g.height, ∀ x < g.width, front' (g.frontIndex x y) =
        (before.foldl (FbCall.run font) g).backbuffer (g.index x y)) ∧
      ∀ a, (∀ y < g.height, ∀ x < g.width, a ≠ g.frontIndex x y) → front' a = front a := by
  obtain ⟨front₁, mapped₁, kept₁⟩ := foldl_run_outside font before regular mapped
  have shape := foldl_run_shape font before g
  set s := before.foldl (FbCall.run font) g with hs
  obtain ⟨front₂, mapped₂, shown, kept₂⟩ := fbSwap_shows (shape.regular regular) mapped₁
  have frontIndex (x y : ℕ) : s.frontIndex x y = g.frontIndex x y :=
    congrArg (fun p => y * p + x) shape.pitch
  have index (x y : ℕ) : s.index x y = g.index x y :=
    congrArg (fun w => u64 (y * w + x)) shape.width
  simp only [shape.width, shape.height, frontIndex, index] at shown kept₂
  refine ⟨front₂, ?_, shown, fun a other => (kept₂ a other).trans (kept₁ a other)⟩
  rw [List.foldl_append, List.foldl_cons, foldl_run_front font noSwap, ← hs]
  exact mapped₂

/-- A screen whose rows are longer than what is seen of them. -/
def paddedScreen : FbInfo where
  frontbuffer := some fun _ => 0
  backbuffer _ := 0
  width := 640
  height := 480
  pitch := 1024
  cursorX := 0
  cursorY := 0
  fgColor := colorText

theorem frontbuffer_shows_example : ∃ front',
    (([FbCall.clear colorBg] ++ FbCall.swap :: [FbCall.putPixel 3 1 colorText]).foldl
      (FbCall.run fun _ _ => 0) paddedScreen).frontbuffer = some front' ∧
      front' (paddedScreen.frontIndex 3 1) =
        ([FbCall.clear colorBg].foldl (FbCall.run fun _ _ => 0) paddedScreen).backbuffer
          (paddedScreen.index 3 1) ∧
      front' 1000 = 0 := by
  have regular : paddedScreen.Regular := ⟨by decide, by decide⟩
  have noSwap : FbCall.swap ∉ [FbCall.putPixel 3 1 colorText] := by simp
  obtain ⟨front', mapped, shown, kept⟩ := frontbuffer_shows (fun _ _ => 0) regular rfl
    [.clear colorBg] noSwap
  have pixel := shown 1 (by decide) 3 (by decide)
  refine ⟨front', mapped, pixel, kept 1000 fun y hy x hx => ?_⟩
  change x < 640 at hx
  change 1000 ≠ y * 1024 + x
  omega

end

end ChefOs
