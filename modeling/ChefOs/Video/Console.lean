import ChefOs.Lib.Flow
import ChefOs.Sys.Syscall
import ChefOs.Video.Stores

/-!
# The console

The desktop that `fb_draw_desktop_shell` draws, and the text that `fb_putc` and `fb_puts` print
into its window.  The text flows in columns of 8 pixels and rows of 18.  It keeps inside the right
edge of the screen, but nothing stops it at the lower one.
-/

namespace ChefOs

open Kit

/-! ## The desktop -/

/-- One of the pills for the workspaces. -/
def drawPill (font : Font) (dockX wsY : BitVec 32) (g : FbInfo) (i : ℕ) : FbInfo :=
  let wsLabels := [text "1", text "2", text "3", text "4", text "+"]
  let pillBg := if i = 0 then colorAccent else colorSurfaceAlt
  let pillFg := if i = 0 then colorWhite else colorText
  let g := fbDrawRoundedRect (dockX + 14) (wsY + .ofNat 32 (i * 38)) 28 28 6 pillBg colorBorder g
  fbDrawString font (wsLabels.getD i []) (dockX + 24) (wsY + .ofNat 32 (i * 38) + 6) pillFg 0 g

/-- The dock. -/
def drawDock (font : Font) (g : FbInfo) : FbInfo :=
  let dockX := 12
  let dockY := 12
  let dockW := 56
  let dockH := .ofNat 32 (sub64 g.height 24)
  let g := fbDrawRoundedRect dockX dockY dockW dockH 16 colorSurface colorBorder g
  let g := fbDrawRoundedRect (dockX + 10) (dockY + 12) 36 36 8 colorAccent 0 g
  let g := fbDrawString font (text "C") (dockX + 24) (dockY + 22) colorWhite 0 g
  let wsY := dockY + 60
  let g := (upTo 0 5).foldl (drawPill font dockX wsY) g
  let botY := dockY + dockH - 130
  let g := fbDrawRoundedRect (dockX + 14) botY 28 28 6 colorSurfaceAlt colorBorder g
  let g := fbDrawString font (text "v") (dockX + 24) (botY + 6) colorTextMuted 0 g
  let g := fbDrawRoundedRect (dockX + 14) (botY + 36) 28 28 6 colorSurfaceAlt colorBorder g
  let g := fbDrawString font (text "w") (dockX + 24) (botY + 42) colorTextMuted 0 g
  let g := fbDrawRoundedRect (dockX + 14) (botY + 72) 28 28 6 colorAccent 0 g
  fbDrawString font (text "x") (dockX + 24) (botY + 78) colorWhite 0 g

/-- The island at the top of the screen. -/
def drawIsland (font : Font) (g : FbInfo) : FbInfo :=
  let islandW := 260
  let islandH := 36
  let islandX := .ofNat 32 (sub64 g.width 260 / 2)
  let islandY := 12
  let g := fbDrawRoundedRect islandX islandY islandW islandH 18 colorSurface colorBorder g
  fbDrawString font (text "Chef OS  ::  Ready") (islandX + 48) (islandY + 10) colorText 0 g

/-- The window of the console. -/
def drawConsole (font : Font) (winX winY : BitVec 32) (g : FbInfo) : FbInfo :=
  let winW := .ofNat 32 (sub64 g.width 108)
  let winH := .ofNat 32 (sub64 g.height 80)
  let g := fbDrawRoundedRect winX winY winW winH 12 colorSurface colorBorder g
  let g := fbDrawRoundedRect winX winY winW 30 12 colorSurfaceAlt colorBorder g
  fbDrawString font
    (text "Chef OS Native Kernel Console (v1.0.0-alpha)  [Super+W to close]") (winX + 16)
    (winY + 8) colorText 0 g

/-- `fb_draw_desktop_shell`. -/
def fbDrawDesktopShell (font : Font) (g : FbInfo) : FbInfo :=
  let g := fbClear colorBg g
  let g := drawDock font g
  let g := drawIsland font g
  let winX := 88
  let winY := 60
  let g := drawConsole font winX winY g
  fbSwap { g with cursorX := winX + 16, cursorY := winY + 42 }

/-- The screen has the size. -/
structure FbInfo.Sized (g : FbInfo) (width height : ℕ) : Prop where
  width : g.width = width
  height : g.height = height

section

variable {g : FbInfo} {width height : ℕ} (size : g.Sized width height)
include size

theorem Draws.sized {f : FbInfo → FbInfo} {stores : List Store}
    (draws : Draws width height f stores) : (f g).Sized width height := by
  rw [draws.eq g size.width size.height]
  exact ⟨size.width, size.height⟩

theorem FbInfo.Sized.roundedRect (x y w h radius color borderColor : BitVec 32) :
    (fbDrawRoundedRect x y w h radius color borderColor g).Sized width height :=
  (fbDrawRoundedRect_draws width height x y w h radius color borderColor).sized size

theorem FbInfo.Sized.string (font : Font) (str : List UInt8) (x y fg bg : BitVec 32) :
    (fbDrawString font str x y fg bg g).Sized width height :=
  (fbDrawString_draws width height font str x y fg bg).sized size

theorem FbInfo.Sized.pills (font : Font) (dockX wsY : BitVec 32) (l : List ℕ) :
    (l.foldl (drawPill font dockX wsY) g).Sized width height := by
  induction l generalizing g with
  | nil => exact size
  | cons i l ih => exact ih ((size.roundedRect ..).string ..)

theorem FbInfo.Sized.dock (font : Font) : (drawDock font g).Sized width height :=
  ((((((((((size.roundedRect ..).roundedRect ..).string ..).pills ..).roundedRect ..).string
    ..).roundedRect ..).string ..).roundedRect ..).string ..)

theorem FbInfo.Sized.island (font : Font) : (drawIsland font g).Sized width height :=
  (size.roundedRect ..).string ..

theorem FbInfo.Sized.console (font : Font) (winX winY : BitVec 32) :
    (drawConsole font winX winY g).Sized width height :=
  ((size.roundedRect ..).roundedRect ..).string ..

theorem FbInfo.Sized.swap : (fbSwap g).Sized width height :=
  ⟨(fbSwap_makes g).width.trans size.width, (fbSwap_makes g).height.trans size.height⟩

/-- The desktop is drawn on the screen as it is. -/
theorem FbInfo.Sized.desktopShell (font : Font) :
    (fbDrawDesktopShell font g).Sized width height := by
  have cleared := (fbClear_draws width height colorBg).sized size
  obtain ⟨hw, hh⟩ := ((cleared.dock font).island font).console font 88 60
  exact FbInfo.Sized.swap ⟨hw, hh⟩

theorem FbInfo.Sized.putc (font : Font) (c : UInt8) : (fbPutc font c g).Sized width height :=
  ⟨(fbPutc_makes font g c).width.trans size.width,
    (fbPutc_makes font g c).height.trans size.height⟩

theorem FbInfo.Sized.puts (font : Font) (str : List UInt8) :
    (fbPuts font str g).Sized width height := by
  induction str generalizing g with
  | nil => exact size
  | cons c str ih => exact ih (size.putc font c)

end

theorem fbSwap_cursor (g : FbInfo) :
    (fbSwap g).cursorX = g.cursorX ∧ (fbSwap g).cursorY = g.cursorY := by
  unfold fbSwap
  split <;> exact ⟨rfl, rfl⟩

/-! ## The text -/

/-- A newline. -/
def isNewline (c : UInt8) : Bool := c = 0x0A

/-- The number of columns of the console. -/
def consoleColumns (width : ℕ) : ℕ := (width - 145) / 8

/-- The cursor is at the cell. -/
structure FbInfo.At (g : FbInfo) (p : Cell) : Prop where
  x : g.cursorX = .ofNat 32 (104 + 8 * p.column)
  y : g.cursorY = .ofNat 32 (102 + 18 * p.row)

theorem FbInfo.At.newLine {g : FbInfo} {p : Cell} (here : g.At p) : g.newLine.At p.newLine := by
  refine ⟨rfl, ?_⟩
  change g.cursorY + 18 = .ofNat 32 (102 + 18 * (p.row + 1))
  rw [here.y, Nat.mul_succ, ← Nat.add_assoc]
  exact (BitVec.ofNat_add _ 18).symm

/-- The cursor behind a drawn character. -/
theorem FbInfo.At.advance {g : FbInfo} {p : Cell} (here : g.At p) (stores : List Store) :
    (g.storeAll stores).advance.At ⟨p.row, p.column + 1⟩ := by
  obtain ⟨x, y⟩ := here
  constructor
  · rw [FbInfo.advance, FbInfo.storeAll, x, Nat.mul_succ, ← Nat.add_assoc]
    exact (BitVec.ofNat_add _ 8).symm
  · rw [FbInfo.advance, FbInfo.storeAll, y]

theorem consoleColumns_pos {width : ℕ} (wide : 640 ≤ width) : 0 < consoleColumns width := by
  rw [consoleColumns]
  omega

section

variable {g : FbInfo} {p : Cell} (wide : 640 ≤ g.width) (narrow : g.width ≤ 1920)
include wide narrow

/-- The cursor before a character is drawn. -/
theorem FbInfo.At.wrap (here : g.At p) (column : p.column ≤ consoleColumns g.width) :
    g.wrap.At (p.wrap (consoleColumns g.width)) := by
  have right : (g.cursorX + 8).toNat = 112 + 8 * p.column := by
    rw [consoleColumns] at column
    rw [here.x, BitVec.toNat_add, BitVec.toNat_ofNat]
    change (_ + 8) % 2 ^ 32 = _
    omega
  rw [FbInfo.wrap, Cell.wrap, right, sub64_of_le (by omega) (by omega)]
  by_cases room : p.column < consoleColumns g.width
  · rw [if_pos room, if_neg (by rw [consoleColumns] at room; omega)]
    exact here
  · rw [if_neg room, if_pos (by rw [consoleColumns] at room; omega)]
    exact here.newLine

/-- The cursor after a character. -/
theorem FbInfo.At.putc (font : Font) (c : UInt8) (here : g.At p)
    (column : p.column ≤ consoleColumns g.width) :
    (fbPutc font c g).At (p.step (consoleColumns g.width) isNewline c) := by
  rw [Cell.step, isNewline]
  by_cases newline : c = 0x0A
  · rw [fbPutc, if_pos newline, if_pos (decide_eq_true newline)]
    exact here.newLine
  · rw [fbPutc_stores font g newline, if_neg (by simpa using newline)]
    exact (here.wrap wide narrow column).advance _

end

section

variable {width height : ℕ} (wide : 640 ≤ width) (narrow : width ≤ 1920)
include wide narrow

/-- The cursor moves over the columns as the characters ask for. -/
theorem fbPuts_at (font : Font) {g : FbInfo} (size : g.Sized width height) {p : Cell}
    (here : g.At p) (column : p.column ≤ consoleColumns width) (str : List UInt8) :
    (fbPuts font str g).Sized width height ∧
      (fbPuts font str g).At (str.foldl (Cell.step (consoleColumns width) isNewline) p) ∧
      (str.foldl (Cell.step (consoleColumns width) isNewline) p).column ≤ consoleColumns width := by
  induction str generalizing g p with
  | nil => exact ⟨size, here, column⟩
  | cons c str ih =>
    obtain ⟨rfl, hh⟩ := size
    apply ih
    · exact FbInfo.Sized.putc ⟨rfl, hh⟩ font c
    · exact here.putc wide narrow font c column
    · exact Cell.step_column_le (consoleColumns_pos wide) isNewline p c

/-- Where `fb_putc` draws a character behind a text. -/
theorem desktopText_at (font : Font) {g : FbInfo} (size : g.Sized width height)
    (str : List UInt8) :
    (fbPuts font str (fbDrawDesktopShell font g)).wrap.Sized width height ∧
      (fbPuts font str (fbDrawDesktopShell font g)).wrap.At
        ((linesOf isNewline str).cell (consoleColumns width)) := by
  obtain ⟨x, y⟩ := fbSwap_cursor { drawConsole font 88 60
    (drawIsland font (drawDock font (fbClear colorBg g))) with
      cursorX := 88 + 16, cursorY := 60 + 42 }
  have start : (fbDrawDesktopShell font g).At ⟨0, 0⟩ := ⟨x, y⟩
  obtain ⟨⟨hw, hh⟩, here, last⟩ := fbPuts_at wide narrow font (size.desktopShell font) start
    (Nat.zero_le _) str
  obtain ⟨cursorX, cursorY, wrapped⟩ := (fbPuts font str (fbDrawDesktopShell font g)).wrap_eq
  constructor
  · rw [wrapped]
    exact ⟨hw, hh⟩
  · rw [← wrap_cursorOf (consoleColumns_pos wide)]
    rw [← hw] at wide narrow last here ⊢
    exact here.wrap wide narrow last

end

/-- The 8 by 16 pixels at the cursor are on the screen. -/
def FbInfo.CellOnScreen (g : FbInfo) : Prop :=
  g.cursorX.toNat + 8 ≤ g.width ∧ g.cursorY.toNat + 16 ≤ g.height

/-- A character is on the screen just when its row is. -/
theorem cellOnScreen_iff (font : Font) {g : FbInfo} (wide : 640 ≤ g.width)
    (narrow : g.width ≤ 1920) (str : List UInt8) :
    (fbPuts font str (fbDrawDesktopShell font g)).wrap.CellOnScreen ↔
      (102 + 18 * ((linesOf isNewline str).cell (consoleColumns g.width)).row) % 2 ^ 32 + 16 ≤
        g.height := by
  obtain ⟨⟨hw, hh⟩, ⟨x, y⟩⟩ := desktopText_at wide narrow font ⟨rfl, rfl⟩ str
  have column := Lines.cell_column_lt (consoleColumns_pos wide) (linesOf isNewline str)
  rw [FbInfo.CellOnScreen, x, y, hw, hh, BitVec.toNat_ofNat, BitVec.toNat_ofNat]
  apply and_iff_right
  unfold consoleColumns at column ⊢
  omega

/-- All characters that a text prints on the desktop are on the screen just when the rows they come
to, counted modulo `2 ^ 32`, do not reach below it. -/
theorem console_onScreen_iff (font : Font) {g : FbInfo} (wide : 640 ≤ g.width)
    (narrow : g.width ≤ 1920) (str : List UInt8) :
    (∀ before c after, str = before ++ c :: after → c ≠ 0x0A →
        (fbPuts font before (fbDrawDesktopShell font g)).wrap.CellOnScreen) ↔
      ∀ before c after, str = before ++ c :: after → c ≠ 0x0A →
        (102 + 18 * ((linesOf isNewline before).cell (consoleColumns g.width)).row) % 2 ^ 32 + 16 ≤
          g.height := by
  constructor
  · intro inside before c after parts printed
    exact (cellOnScreen_iff font wide narrow before).mp (inside before c after parts printed)
  · intro rows before c after parts printed
    exact (cellOnScreen_iff font wide narrow before).mpr (rows before c after parts printed)

/-- A screen of the size, with nothing on it. -/
def blankScreen (width height : ℕ) : FbInfo := ⟨none, fun _ => 0, width, height, width, 0, 0, 0⟩

/-- Both characters of two lines are on the smallest screen. -/
theorem console_onScreen_example :
    (fbPuts (fun _ _ => 0xFF) []
        (fbDrawDesktopShell (fun _ _ => 0xFF) (blankScreen 640 480))).wrap.CellOnScreen ∧
      (fbPuts (fun _ _ => 0xFF) [0x41, 0x0A]
        (fbDrawDesktopShell (fun _ _ => 0xFF) (blankScreen 640 480))).wrap.CellOnScreen := by
  have rows : ∀ before ∈ List.inits [0x41, 0x0A, 0x42],
      (102 + 18 * ((linesOf isNewline before).cell (consoleColumns 640)).row) % 2 ^ 32 + 16 ≤
        480 := by decide
  have printed := (console_onScreen_iff (fun _ _ => 0xFF)
    (by decide : 640 ≤ (blankScreen 640 480).width) (by decide) [0x41, 0x0A, 0x42]).mpr
      fun before c after split _ => rows before ((List.mem_inits before _).mpr ⟨_, split.symm⟩)
  exact ⟨printed [] 0x41 [0x0A, 0x42] rfl (by decide), printed [0x41, 0x0A] 0x42 [] rfl (by decide)⟩

/-- A character behind 54 newlines on the largest screen. -/
theorem text_leaves_screen :
    ¬ ∀ (font : Font) (g : FbInfo) (str : List UInt8),
      640 ≤ g.width → g.width ≤ 1920 → 480 ≤ g.height → g.height ≤ 1080 →
        ∀ before c after, str = before ++ c :: after → c ≠ 0x0A →
          (fbPuts font before (fbDrawDesktopShell font g)).wrap.CellOnScreen := by
  intro claim
  have inside := claim (fun _ _ => 0xFF) (blankScreen 1920 1080)
    (List.replicate 54 0x0A ++ [0x41]) (by decide) (by decide) (by decide) (by decide)
    (List.replicate 54 0x0A) 0x41 [] rfl (by decide)
  rw [cellOnScreen_iff _ (by decide) (by decide)] at inside
  revert inside
  decide

end ChefOs
