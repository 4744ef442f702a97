import ChefOs.CString.Strings
import ChefOs.Compositor.Render
import ChefOs.Drivers.Rtc
import ChefOs.Sys.Syscall

/-!
# The dock and the island

`compositor/shell_ui.c`.  The island shows the last toast until it expires, and else the focused
window, the layout and the time.
-/

namespace ChefOs

open Kit

/-- `island_state_t`. -/
inductive IslandState
  | idle
  | audio
  | toast
deriving DecidableEq, Repr

/-- `shell_ui_state_t`; `islandMsg` has 128 bytes. -/
structure ShellUi where
  islandState : IslandState
  islandMsg : List UInt8
  toastExpiryTick : BitVec 64
  launcherOpen : Bool

/-- `s_shell` before `shell_ui_init`. -/
def ShellUi.zero : ShellUi := ⟨.idle, List.replicate 128 0, 0, false⟩

/-- `shell_ui_init`. -/
def shellUiInit (s : ShellUi) : ShellUi where
  islandState := .idle
  islandMsg := s.islandMsg.set 0 0
  toastExpiryTick := 0
  launcherOpen := false

/-- `shell_ui_show_toast`, at a time of `s_ticks`. -/
def shellUiShowToast (msg : Option (List UInt8)) (durationMs : BitVec 32) (sTicks : BitVec 64)
    (s : ShellUi) : Option ShellUi :=
  match msg with
  | none => some s
  | some msg => do
    let islandMsg ← strncpy s.islandMsg msg 127
    return { s with
      islandMsg
      islandState := .toast
      toastExpiryTick := sTicks + durationMs.setWidth 64 }

/-! ## The dock -/

/-- A pill of the workspace switcher. -/
def dockPill (font : Font) (dockX wsY : BitVec 32) (activeWs : BitVec 8) (g : FbInfo) (i : ℕ) :
    FbInfo :=
  let wsLabels := [text "1", text "2", text "3", text "4", text "+"]
  let active := i + 1 = activeWs.toNat
  let pillBg := if active then colorAccent else colorSurfaceAlt
  let pillFg := if active then colorWhite else colorText
  let g := fbDrawRoundedRect (dockX + 14) (wsY + .ofNat 32 (i * 38)) 28 28 6 pillBg colorBorder g
  fbDrawString font (wsLabels.getD i []) (dockX + 24) (wsY + .ofNat 32 (i * 38) + 6) pillFg 0 g

/-- A button of the dock: its pill and its label. -/
def dockButton (font : Font) (dockX y : BitVec 32) (label : List UInt8)
    (bg fg borderColor : BitVec 32) (g : FbInfo) : FbInfo :=
  let g := fbDrawRoundedRect (dockX + 14) y 28 28 6 bg borderColor g
  fbDrawString font label (dockX + 24) (y + 6) fg 0 g

/-- `shell_ui_render_dock`. -/
def shellUiRenderDock (font : Font) (screenH : BitVec 32) (activeWs : BitVec 8) (g : FbInfo) :
    FbInfo :=
  let dockX := 12
  let dockY := 12
  let dockW := 56
  let dockH := screenH - 24
  let g := fbDrawRoundedRect dockX dockY dockW dockH 16 colorSurface colorBorder g
  -- Crest Logo
  let g := fbDrawRoundedRect (dockX + 10) (dockY + 12) 36 36 8 colorAccent 0 g
  let g := fbDrawString font (text "C") (dockX + 24) (dockY + 22) colorWhite 0 g
  -- Workspace Switcher Pills
  let wsY := dockY + 60
  let g := (upTo 0 5).foldl (dockPill font dockX wsY activeWs) g
  -- App Quick-Launchers
  let appY := wsY + 5 * 38 + 12
  let g := dockButton font dockX appY (text ">") colorSurfaceAlt colorText colorBorder g
  let g := dockButton font dockX (appY + 36) (text "#") colorSurfaceAlt colorText colorBorder g
  let g := dockButton font dockX (appY + 72) (text "/") colorSurfaceAlt colorText colorBorder g
  -- Bottom Controls
  let botY := dockY + dockH - 130
  let g := dockButton font dockX botY (text "v") colorSurfaceAlt colorTextMuted colorBorder g
  let g := dockButton font dockX (botY + 36) (text "w") colorSurfaceAlt colorTextMuted colorBorder g
  dockButton font dockX (botY + 72) (text "x") colorAccent colorWhite 0 g

/-! ## The island -/

/-- `layout_get_mode_name`. -/
def layoutGetModeName (sLayout : LayoutEngine) : List UInt8 :=
  match sLayout.mode with
  | .masterStack => text "Master-Stack" ++ [0]
  | .grid => text "Grid" ++ [0]
  | .monocle => text "Monocle" ++ [0]
  | .floating => text "Floating" ++ [0]

theorem layoutGetModeName_string (sLayout : LayoutEngine) :
    0 ∈ layoutGetModeName sLayout ∧ (cstr (layoutGetModeName sLayout)).length ≤ 12 := by
  unfold layoutGetModeName
  cases sLayout.mode <;> decide

/-- The local arrays of `shell_ui_render_island`, as they are before it writes them. -/
structure IslandArrays where
  buf : List UInt8
  timeStr : List UInt8
  winShort : List UInt8
  buf_length : buf.length = 128
  timeStr_length : timeStr.length = 16
  winShort_length : winShort.length = 24

/-- `focused_title && *focused_title`. -/
def hasTitle : Option (List UInt8) → Bool
  | some (c :: _) => c ≠ 0
  | _ => false

/-- The characters of a time of day, and their terminator. -/
def timeText (now : RtcTime) : List UInt8 :=
  [0x30 + now.hour / 10, 0x30 + now.hour % 10, 0x3A, 0x30 + now.minute / 10,
    0x30 + now.minute % 10, 0]

/-- What `shell_ui_render_island` leaves in `buf`. -/
def islandText (arrays : IslandArrays) (focusedTitle layoutName : Option (List UInt8))
    (now : RtcTime) : Option (List UInt8) := do
  let winName := if hasTitle focusedTitle then focusedTitle.getD [] else text "Chef OS" ++ [0]
  let timeStr := timeText now ++ arrays.timeStr.drop 6
  let winShort ← strncpy arrays.winShort winName 18
  let winShort := winShort.set 18 0
  let buf ← strcpy arrays.buf winShort
  [text " [" ++ [0], layoutName.getD (text "Tile" ++ [0]), text "]  ::  " ++ [0], timeStr].foldlM
    strcat buf

/-- A toast has expired. -/
def ShellUi.expire (sTicks : BitVec 64) (s : ShellUi) : ShellUi :=
  if s.islandState = .toast ∧ sTicks ≥ s.toastExpiryTick then { s with islandState := .idle }
  else s

/-- `shell_ui_render_island`.  It runs past the end of `island_msg` when that is no string. -/
def shellUiRenderIsland (font : Font) (arrays : IslandArrays) (now : RtcTime) (screenW : BitVec 32)
    (focusedTitle layoutName : Option (List UInt8)) (cmos : Cmos) (sTicks : BitVec 64) (s : ShellUi)
    (g : FbInfo) : Option (ShellUi × Cmos × FbInfo) := do
  let s := s.expire sTicks
  let islandW := if s.islandState = .toast then 440 else 380
  let islandH := 36
  let islandX := (screenW - islandW) / 2
  let islandY := 12
  let islandBg := if s.islandState = .toast then colorSurfaceAlt else colorSurface
  let g := fbDrawRoundedRect islandX islandY islandW islandH 18 islandBg colorBorder g
  if s.islandState = .toast then
    if 0 ∉ s.islandMsg then none
    return (s, cmos,
      fbDrawString font (cstr s.islandMsg) (islandX + 24) (islandY + 10) colorAccent 0 g)
  else
    match rtcGetTime (some now) cmos with
    | (none, _) => none
    | (some now, cmos) =>
      let buf ← islandText arrays focusedTitle layoutName now
      return (s, cmos, fbDrawString font (cstr buf) (islandX + 24) (islandY + 10) colorText 0 g)

/-! ## Its text -/

/-- The layout of the clock's digits. -/
def clockText (hour minute : ℕ) : List UInt8 :=
  [.ofNat (48 + hour / 10), .ofNat (48 + hour % 10), 0x3A, .ofNat (48 + minute / 10),
    .ofNat (48 + minute % 10)]

/-- What the island shows when there is no toast. -/
def idleText (title layoutName : List UInt8) (hour minute : ℕ) : List UInt8 :=
  title.take 18 ++ text " [" ++ layoutName ++ text "]  ::  " ++ clockText hour minute

theorem timeText_eq {now : RtcTime} {hour minute : ℕ} (hour_lt : hour < 100)
    (minute_lt : minute < 100) (hour_eq : now.hour = .ofNat hour)
    (minute_eq : now.minute = .ofNat minute) :
    timeText now = clockText hour minute ++ [0] ∧ 0 ∉ clockText hour minute := by
  have digits : ∀ n < 100, 0x30 + UInt8.ofNat n / 10 = .ofNat (48 + n / 10) ∧
      0x30 + UInt8.ofNat n % 10 = .ofNat (48 + n % 10) ∧ (0 : UInt8) ≠ .ofNat (48 + n / 10) ∧
      (0 : UInt8) ≠ .ofNat (48 + n % 10) := by decide
  obtain ⟨tens, units, tensNe, unitsNe⟩ := digits hour hour_lt
  obtain ⟨tens', units', tensNe', unitsNe'⟩ := digits minute minute_lt
  constructor
  · rw [timeText, hour_eq, minute_eq, tens, units, tens', units']
    rfl
  · simp only [clockText, List.mem_cons, List.not_mem_nil, or_false, not_or]
    exact ⟨tensNe, unitsNe, by decide, tensNe', unitsNe'⟩

/-- The title that the island shows. -/
def titleText (focusedTitle : Option (List UInt8)) : List UInt8 :=
  match (focusedTitle.map cstr).getD [] with
  | [] => text "Chef OS"
  | title => title

/-- The name that the island shows. -/
theorem winName_string {focusedTitle : Option (List UInt8)} (title : ∀ t ∈ focusedTitle, 0 ∈ t) :
    ∃ winName, winName =
        (if hasTitle focusedTitle then focusedTitle.getD [] else text "Chef OS" ++ [0]) ∧
      0 ∈ winName ∧ cstr winName = titleText focusedTitle := by
  refine ⟨_, rfl, ?_⟩
  rcases focusedTitle with - | - | ⟨c, t⟩
  · exact ⟨by decide, rfl⟩
  · exact absurd (title [] rfl) List.not_mem_nil
  · by_cases hc : c = 0
    · rw [if_neg (by simp [hasTitle, hc]), hc]
      exact ⟨by decide, rfl⟩
    · rw [if_pos (by simp [hasTitle, hc])]
      refine ⟨title _ rfl, ?_⟩
      simp [titleText, cstr_cons hc]

/-- `strncpy` and the terminator behind it. -/
theorem winShort_string (arrays : IslandArrays) {winName : List UInt8}
    (terminated : 0 ∈ winName) :
    ∃ winShort, strncpy arrays.winShort winName 18 = some winShort ∧ 0 ∈ winShort.set 18 0 ∧
      cstr (winShort.set 18 0) = (cstr winName).take 18 := by
  have room : 18 + 1 ≤ arrays.winShort.length := by simp [arrays.winShort_length]
  obtain ⟨front, b, copied, length, -, string⟩ := strncpy_padded terminated room
  have cut : (front ++ b :: arrays.winShort.drop 19).set 18 0 =
      front ++ 0 :: arrays.winShort.drop 19 := by
    rw [List.set_append_right _ _ (by omega), length]
    rfl
  refine ⟨_, copied, ?_, ?_⟩
  · rw [cut]
    simp
  · rw [cut]
    exact string _

/-- The text fits in `buf` when the name of the layout does. -/
theorem islandText_eq (arrays : IslandArrays) {focusedTitle : Option (List UInt8)}
    (title : ∀ t ∈ focusedTitle, 0 ∈ t) {name : List UInt8} (terminated : 0 ∈ name)
    (short : (cstr name).length ≤ 95) {now : RtcTime} {hour minute : ℕ} (hour_lt : hour < 100)
    (minute_lt : minute < 100) (hour_eq : now.hour = .ofNat hour)
    (minute_eq : now.minute = .ofNat minute) :
    ∃ buf, islandText arrays focusedTitle (some name) now = some buf ∧
      cstr buf = idleText (titleText focusedTitle) (cstr name) hour minute := by
  obtain ⟨winName, hWinName, ready, named⟩ := winName_string title
  obtain ⟨winShort, copied, ready, string⟩ := winShort_string arrays ready
  obtain ⟨time, noNul⟩ := timeText_eq hour_lt minute_lt hour_eq minute_eq
  have bound : (cstr (winShort.set 18 0)).length ≤ 18 := by
    rw [string, List.length_take]
    omega
  have room : (cstr (winShort.set 18 0)).length < arrays.buf.length := by
    rw [arrays.buf_length]
    omega
  obtain ⟨buf, start, length, ready, begun⟩ := strcpy_region ready room
  have pieces : ∀ src ∈ [text " [" ++ [0], name, text "]  ::  " ++ [0],
      timeText now ++ arrays.timeStr.drop 6], 0 ∈ src := by
    simp [terminated, time]
  have strings : [text " [" ++ [0], name, text "]  ::  " ++ [0],
      timeText now ++ arrays.timeStr.drop 6].flatMap cstr =
        text " [" ++ cstr name ++ text "]  ::  " ++ clockText hour minute := by
    rw [time, List.append_assoc (clockText hour minute)]
    simp only [List.flatMap_cons, List.flatMap_nil, List.append_nil, List.singleton_append]
    rw [cstr_append_zero noNul]
    have literals : cstr (text " [" ++ [0]) = text " [" ∧
        cstr (text "]  ::  " ++ [0]) = text "]  ::  " := by decide
    rw [literals.1, literals.2, List.append_assoc, List.append_assoc]
  have built := foldlM_strcat pieces ready
  have sizes : (text " [").length = 2 ∧ (text "]  ::  ").length = 7 ∧
      (clockText hour minute).length = 5 := ⟨rfl, rfl, rfl⟩
  rw [begun, strings, if_pos (by
    simp only [List.length_append, sizes, length, arrays.buf_length]
    omega)] at built
  obtain ⟨buf', appended, -, -, whole⟩ := built
  refine ⟨buf', ?_, ?_⟩
  · rw [islandText, ← hWinName, copied]
    change (strcpy arrays.buf (winShort.set 18 0)).bind _ = _
    rw [start]
    exact appended
  · rw [whole, string, named, idleText]
    simp only [List.append_assoc]

/-! ## Toasts -/

/-- A toast and the ticks before it expires. -/
structure Toast where
  text : List UInt8
  left : ℕ

/-- A call of `shell_ui_show_toast` or `shell_ui_render_island`, or a tick of the timer. -/
inductive ShellEvent
  | showToast (msg : Option (List UInt8)) (durationMs : BitVec 32)
  | renderIsland
  | tick
deriving DecidableEq

/-- The toast after an event. -/
def Toast.after (toast : Toast) : ShellEvent → Toast
  | .showToast (some msg) durationMs => ⟨(cstr msg).take 127, durationMs.toNat⟩
  | .tick => { toast with left := toast.left - 1 }
  | _ => toast

/-- The steps of `s_shell` and `s_ticks`; a message is a string. -/
inductive ShellStep : ShellUi × BitVec 64 → ShellEvent → ShellUi × BitVec 64 → Prop
  | showToast {s s' : ShellUi} {sTicks : BitVec 64} {msg : Option (List UInt8)}
      {durationMs : BitVec 32} (string : ∀ m ∈ msg, 0 ∈ m)
      (call : shellUiShowToast msg durationMs sTicks s = some s') :
      ShellStep (s, sTicks) (.showToast msg durationMs) (s', sTicks)
  | renderIsland {font : Font} {arrays : IslandArrays} {now : RtcTime} {screenW : BitVec 32}
      {focusedTitle layoutName : Option (List UInt8)} {cmos cmos' : Cmos} {s s' : ShellUi}
      {sTicks : BitVec 64} {g g' : FbInfo}
      (call : shellUiRenderIsland font arrays now screenW focusedTitle layoutName cmos sTicks s g =
        some (s', cmos', g')) :
      ShellStep (s, sTicks) .renderIsland (s', sTicks)
  | tick {s : ShellUi} {sTicks : BitVec 64} : ShellStep (s, sTicks) .tick (s, sTicks + 1)

/-- The bytes of a message, and its last byte that is never written but with a zero. -/
structure ShellUi.Ready (s : ShellUi) : Prop where
  length : s.islandMsg.length = 128
  last : s.islandMsg[127]? = some 0

/-- The state shows `toast` for as long as it says. -/
structure ToastShown (toast : Toast) (s : ShellUi) (sTicks : BitVec 64) : Prop where
  ready : s.Ready
  text : 0 < toast.left → s.islandState = .toast ∧ cstr s.islandMsg = toast.text
  expiry : s.islandState = .toast → s.toastExpiryTick.toNat ≤ sTicks.toNat + toast.left ∧
    (0 < toast.left → s.toastExpiryTick.toNat = sTicks.toNat + toast.left)

/-- A frame with a text in it. -/
def fillIsland (font : Font) (screenW islandW bg fg : BitVec 32) (text : List UInt8) (g : FbInfo) :
    FbInfo :=
  let islandX := (screenW - islandW) / 2
  fbDrawString font text (islandX + 24) 22 fg 0
    (fbDrawRoundedRect islandX 12 islandW 36 18 bg colorBorder g)

section

variable {toast : Toast} {s s' : ShellUi} {start sTicks : BitVec 64}

theorem shellUiShowToast_eq (ready : s.Ready) {msg : List UInt8} (string : 0 ∈ msg)
    (durationMs : BitVec 32) (sTicks : BitVec 64) :
    ∃ islandMsg, shellUiShowToast (some msg) durationMs sTicks s =
        some { s with
          islandMsg
          islandState := .toast
          toastExpiryTick := sTicks + durationMs.setWidth 64 } ∧
      islandMsg.length = 128 ∧ islandMsg[127]? = some 0 ∧
      cstr islandMsg = (cstr msg).take 127 := by
  have room : 127 + 1 ≤ s.islandMsg.length := ready.length.ge
  obtain ⟨front, b, copied, length, zero, text⟩ := strncpy_padded string room
  have none : s.islandMsg.drop (127 + 1) = [] := List.drop_of_length_le ready.length.le
  have hb : b = 0 := by
    rcases zero with hb | hb
    · exact hb
    · exact Option.some.inj (hb.symm.trans ready.last)
  rw [none, hb] at copied
  refine ⟨front ++ [0], ?_, ?_, ?_, text []⟩
  · rw [shellUiShowToast, copied]
    rfl
  · simp [length]
  · simp [length]

/-- A toast is shown just as long as it has ticks left. -/
theorem ToastShown.expire (shown : ToastShown toast s sTicks) :
    ToastShown toast (s.expire sTicks) sTicks ∧
      ((s.expire sTicks).islandState = .toast ↔ 0 < toast.left) := by
  obtain ⟨ready, text, expiry⟩ := shown
  unfold ShellUi.expire
  split_ifs with expired
  · obtain ⟨state, late⟩ := expired
    have none : ¬ 0 < toast.left := by
      intro left
      have := (expiry state).2 left
      rw [ge_iff_le, BitVec.le_def] at late
      omega
    refine ⟨⟨⟨ready.length, ready.last⟩, fun left => absurd left none, ?_⟩, ?_⟩
    · simp
    · simp [none]
  · refine ⟨⟨ready, text, expiry⟩, fun state => ?_, fun left => (text left).1⟩
    have early : ¬ sTicks ≥ s.toastExpiryTick := fun late => expired ⟨state, late⟩
    have := (expiry state).1
    rw [ge_iff_le, BitVec.le_def] at early
    omega

/-- Rendering the island draws its frame and its text, whatever the uninitialized arrays hold. -/
theorem shellUiRenderIsland_eq (shown : ToastShown toast s sTicks) (font : Font)
    (arrays : IslandArrays) (now : RtcTime) (screenW : BitVec 32)
    {focusedTitle : Option (List UInt8)} (title : ∀ t ∈ focusedTitle, 0 ∈ t) {name : List UInt8}
    (terminated : 0 ∈ name) (short : (cstr name).length ≤ 95) (cmos : Cmos) :
    ∃ cmos', ∀ g, shellUiRenderIsland font arrays now screenW focusedTitle (some name) cmos sTicks s
        g = some (s.expire sTicks, cmos',
        if 0 < toast.left then
          fillIsland font screenW 440 colorSurfaceAlt colorAccent toast.text g
        else
          fillIsland font screenW 380 colorSurface colorText
            (idleText (titleText focusedTitle) (cstr name)
              (cmos.timeAt (cmos.readAt .hour)).hour
              (cmos.timeAt (cmos.readAt .minute)).minute) g) := by
  obtain ⟨after, state⟩ := shown.expire
  simp only [shellUiRenderIsland, state]
  by_cases left : 0 < toast.left
  · have terminated : 0 ∈ (s.expire sTicks).islandMsg := List.mem_of_getElem? after.ready.last
    simp only [left, if_true, terminated, not_true_eq_false, if_false, (after.text left).2]
    exact ⟨cmos, fun g => rfl⟩
  · obtain ⟨stored, -⟩ := rtcGetTime_eq now cmos
    rcases reading : rtcGetTime (some now) cmos with ⟨read, cmos'⟩
    rw [reading] at stored
    obtain rfl := stored
    set read : RtcTime := .ofValues fun r => (cmos.timeAt (cmos.readAt r)).get r
    have hour_eq : read.hour = .ofNat (cmos.timeAt (cmos.readAt .hour)).hour := rfl
    have minute_eq : read.minute = .ofNat (cmos.timeAt (cmos.readAt .minute)).minute := rfl
    obtain ⟨buf, label, string⟩ := islandText_eq arrays title terminated short
      ((cmos.timeAt (cmos.readAt .hour)).get_lt .hour)
      ((cmos.timeAt (cmos.readAt .minute)).get_lt .minute) hour_eq minute_eq
    simp only [left, if_false, label]
    refine ⟨cmos', fun g => ?_⟩
    change some (_, _, fbDrawString font (cstr buf) _ _ _ _ _) = _
    rw [string]
    rfl

/-- Rendering the island changes the state of the shell only when a toast expires. -/
theorem shellUiRenderIsland_state {font : Font} {arrays : IslandArrays} {now : RtcTime}
    {screenW : BitVec 32} {focusedTitle layoutName : Option (List UInt8)} {cmos cmos' : Cmos}
    {g g' : FbInfo}
    (call : shellUiRenderIsland font arrays now screenW focusedTitle layoutName cmos sTicks s g =
      some (s', cmos', g')) : s' = s.expire sTicks := by
  unfold shellUiRenderIsland at call
  dsimp only at call
  split_ifs at call with toast lost
  · cases call
    rfl
  · cases call
  · rcases reading : rtcGetTime (some now) cmos with ⟨- | read, cmos''⟩
    · simp [reading] at call
    · simp only [reading, Option.bind_eq_bind, Option.bind_eq_some_iff] at call
      obtain ⟨buf, -, same⟩ := call
      cases same
      rfl

/-- The invariant of one step; `s_ticks` is far from its end. -/
theorem toastShown_step {e : ShellEvent} {sTicks' : BitVec 64} (shown : ToastShown toast s sTicks)
    (step : ShellStep (s, sTicks) e (s', sTicks')) (small : sTicks.toNat + 2 ^ 32 ≤ 2 ^ 64)
    (more : e = .tick → sTicks.toNat + 1 < 2 ^ 64) : ToastShown (toast.after e) s' sTicks' := by
  cases step with
  | @showToast _ _ _ msg durationMs string call =>
    cases msg with
    | none =>
      cases call
      exact shown
    | some msg =>
      obtain ⟨islandMsg, eq, length, last, text⟩ :=
        shellUiShowToast_eq shown.ready (string msg rfl) durationMs sTicks
      obtain rfl := Option.some.inj (eq.symm.trans call)
      have expiry : (sTicks + durationMs.setWidth 64).toNat = sTicks.toNat + durationMs.toNat := by
        have := durationMs.isLt
        rw [BitVec.toNat_add, BitVec.toNat_setWidth_of_le (by decide)]
        exact Nat.mod_eq_of_lt (by omega)
      exact ⟨⟨length, last⟩, fun _ => ⟨rfl, text⟩, fun _ => ⟨expiry.le, fun _ => expiry⟩⟩
  | renderIsland call =>
    rw [shellUiRenderIsland_state call]
    exact shown.expire.1
  | tick =>
    have next : (sTicks + 1).toNat = sTicks.toNat + 1 := by
      rw [BitVec.toNat_add]
      exact Nat.mod_eq_of_lt (more rfl)
    obtain ⟨ready, text, expiry⟩ := shown
    refine ⟨ready, fun left => text (Nat.lt_of_lt_of_le left (Nat.sub_le ..)), fun state => ?_⟩
    have := expiry state
    rw [next]
    simp only [Toast.after]
    omega

/-- Only a tick changes `s_ticks`. -/
theorem shellStep_ticks {c c' : ShellUi × BitVec 64} {e : ShellEvent} (step : ShellStep c e c')
    (small : c.2.toNat + 1 < 2 ^ 64) :
    c'.2.toNat = c.2.toNat + if e == .tick then 1 else 0 := by
  cases step with
  | showToast string call => rfl
  | renderIsland call => rfl
  | tick =>
    rw [BitVec.toNat_add]
    exact Nat.mod_eq_of_lt small

/-- `shell_ui_init` leaves no toast. -/
theorem toastShown_init : ToastShown ⟨[], 0⟩ (shellUiInit .zero) sTicks := by
  constructor
  · exact ⟨rfl, rfl⟩
  · simp
  · simp [shellUiInit]

/-- In every run the island shows the last toast until as many ticks have come as it was to last,
cut to 127 bytes, and else the title, the layout and the time; no array overflows. -/
theorem shellUi_shows {es : List ShellEvent}
    (run : Run ShellStep (shellUiInit .zero, start) es (s, sTicks))
    (small : start.toNat + es.count .tick + 2 ^ 32 ≤ 2 ^ 64) (font : Font)
    (arrays : IslandArrays) (now : RtcTime) (screenW : BitVec 32)
    {focusedTitle : Option (List UInt8)} (title : ∀ t ∈ focusedTitle, 0 ∈ t) (l : LayoutEngine)
    (cmos : Cmos) (g : FbInfo) :
    ∃ s' cmos', shellUiRenderIsland font arrays now screenW focusedTitle
        (some (layoutGetModeName l)) cmos sTicks s g =
      some (s', cmos',
        if 0 < (es.foldl Toast.after ⟨[], 0⟩).left then
          fillIsland font screenW 440 colorSurfaceAlt colorAccent
            (es.foldl Toast.after ⟨[], 0⟩).text g
        else
          fillIsland font screenW 380 colorSurface colorText
            (idleText (titleText focusedTitle) (cstr (layoutGetModeName l))
              (cmos.timeAt (cmos.readAt .hour)).hour
              (cmos.timeAt (cmos.readAt .minute)).minute) g) := by
  let I (as : List ShellEvent) (c : ShellUi × BitVec 64) : Prop :=
    start.toNat + as.count .tick + 2 ^ 32 ≤ 2 ^ 64 →
      ToastShown (as.foldl Toast.after ⟨[], 0⟩) c.1 c.2 ∧ c.2.toNat = start.toNat + as.count .tick
  have steps : ∀ as c e c', I as c → ShellStep c e c' → I (as ++ [e]) c' := by
    intro as c e c' before step small
    rw [List.count_append, List.count_singleton] at small ⊢
    obtain ⟨shown, time⟩ := before (by omega)
    rw [List.foldl_append]
    refine ⟨toastShown_step shown step (by omega) fun tick => ?_, ?_⟩
    · rw [if_pos (by simp [tick])] at small
      omega
    · rw [← Nat.add_assoc, ← time]
      exact shellStep_ticks step (by omega)
  have initial : I [] (shellUiInit .zero, start) := fun _ => ⟨toastShown_init, rfl⟩
  obtain ⟨shown, -⟩ := run.history steps initial small
  obtain ⟨string, short⟩ := layoutGetModeName_string l
  obtain ⟨cmos', call⟩ := shellUiRenderIsland_eq shown font arrays now screenW title
    string (by omega) cmos
  exact ⟨_, cmos', call g⟩

end

/-- Uninitialized arrays. -/
def exampleArrays : IslandArrays :=
  ⟨.replicate 128 0xAA, .replicate 16 0xAA, .replicate 24 0xAA, rfl, rfl, rfl⟩

/-- A toast for two ticks, one of which has passed. -/
def toastEvents : List ShellEvent := [.showToast (some (text "Saved" ++ [0])) 2, .tick]

theorem run_toast : ∃ s, Run ShellStep (shellUiInit .zero, 7) toastEvents (s, 8) := by
  have string : 0 ∈ text "Saved" ++ [0] := by decide
  have ready : (shellUiInit .zero).Ready := ⟨rfl, rfl⟩
  obtain ⟨islandMsg, call, -⟩ := shellUiShowToast_eq ready string 2 7
  exact ⟨_, .cons (.showToast (by simp) call) (.cons .tick (.nil _))⟩

theorem shellUi_shows_toast : ∃ s s' cmos',
    shellUiRenderIsland (fun _ _ => 0xFF) exampleArrays ⟨0, 0, 0, 0, 0, 0⟩ 640 none
        (some (layoutGetModeName layoutInit)) (tickingOnce beforeEleven 2) 8 s (exampleScreen 0) =
      some (s', cmos', fillIsland (fun _ _ => 0xFF) 640 440 colorSurfaceAlt colorAccent
        (text "Saved") (exampleScreen 0)) := by
  obtain ⟨s, run⟩ := run_toast
  have title : ∀ t ∈ (none : Option (List UInt8)), 0 ∈ t := by simp
  exact ⟨s, shellUi_shows run (by decide) _ exampleArrays _ 640 title layoutInit _ _⟩

end ChefOs
