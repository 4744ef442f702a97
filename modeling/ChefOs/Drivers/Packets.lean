import ChefOs.Drivers.Mouse
import ChefOs.Lib.Ps2

/-!
# The mouse and its pointer

The driver of `drivers/ps2_mouse.c` against what the mouse reports: the pointer follows the
reports, however their bytes are mixed with interrupts that the driver ignores.
-/

namespace ChefOs

open Kit Ps2

/-! ## One packet -/

/-- `ps2_mouse_get_state`, with the numbers of the coordinates. -/
def Mouse.State.pointer (s : Mouse.State) : Pointer where
  x := s.x.toInt
  y := s.y.toInt
  left := s.leftButton
  right := s.rightButton
  middle := s.middleButton

/-- The driver gets back the difference that the mouse has sent. -/
theorem packetDelta_low {d : BitVec 9} {flags signBit : UInt8}
    (sign : flags &&& signBit ≠ 0 ↔ d.msb) :
    (packetDelta ⟨d.setWidth 8⟩ flags signBit).toInt = d.toInt := by
  rw [toInt_low, packetDelta]
  by_cases negative : flags &&& signBit ≠ 0
  · rw [if_pos negative, if_pos (sign.mp negative)]
    exact byte_or_toInt _
  · rw [if_neg negative, if_neg (fun h => negative (sign.mpr h)), sub_zero]
    exact byte_toInt _

/-- The comparisons find the nearest coordinate on the screen. -/
theorem clampCoordinate_toInt {size : BitVec 32} (ok : ScreenSize size) (v : BitVec 32) :
    (clampCoordinate size v).toInt = nearest size.toNat v.toInt := by
  have sizeInt := ok.toInt
  obtain ⟨pos, lt⟩ := ok
  have zero : (0 : BitVec 32).toInt = 0 := rfl
  have last : (size - 1).toInt = size.toInt - 1 := by
    apply BitVec.toInt_sub_of_not_ssubOverflow
    have one : (1 : BitVec 32).toInt = 1 := rfl
    simp only [BitVec.ssubOverflow, Bool.or_eq_true, decide_eq_true_eq, one]
    omega
  unfold clampCoordinate nearest
  simp only [BitVec.slt_iff_toInt_lt, BitVec.sle_iff_toInt_le, zero]
  by_cases negative : v.toInt < 0
  · rw [if_pos negative, zero, if_neg (by omega), zero]
    omega
  · rw [if_neg negative]
    split_ifs
    · omega
    · omega

/-- An addition that does not overflow is one of integers. -/
theorem addInt32_toInt {a b c : BitVec 32} (sum : addInt32 a b = some c) :
    c.toInt = a.toInt + b.toInt := by
  unfold addInt32 at sum
  split_ifs at sum with overflow
  obtain rfl := Option.some.inj sum
  exact BitVec.toInt_add_of_not_saddOverflow overflow

theorem subInt32_toInt {a b c : BitVec 32} (difference : subInt32 a b = some c) :
    c.toInt = a.toInt - b.toInt := by
  unfold subInt32 at difference
  split_ifs at difference with overflow
  obtain rfl := Option.some.inj difference
  exact BitVec.toInt_sub_of_not_ssubOverflow overflow

section

variable {width height : BitVec 32} {m : Mouse}

/-- A packet moves the pointer as the mouse has reported. -/
theorem mousePacket_report (w : ScreenSize width) (h : ScreenSize height)
    (maxX : m.sMaxX = width) (maxY : m.sMaxY = height) (x : Within width m.sMouseState.x)
    (y : Within height m.sMouseState.y) {r : Report} (bytes : m.sMouseBytes.toList = r.bytes) :
    ∃ m', mousePacket m = some m' ∧ m'.Idle width height ∧ m'.sMouseCycle = 0 ∧
      m'.sMouseState.pointer = m.sMouseState.pointer.follow width.toNat height.toNat r := by
  obtain ⟨m', packet, idle, cycle⟩ := mousePacket_spec w h maxX maxY x y
  refine ⟨m', packet, idle, cycle, ?_⟩
  obtain ⟨left, right, middle, signX, signY⟩ :=
    flagsByte_bits r.left r.right r.middle r.dx.msb r.dy.msb r.overflowX r.overflowY
  have held : m.sMouseBytes =
      #v[flagsByte r.left r.right r.middle r.dx.msb r.dy.msb r.overflowX r.overflowY,
        ⟨r.dx.setWidth 8⟩, ⟨r.dy.setWidth 8⟩] := Vector.toList_inj.mp bytes
  have dx := packetDelta_low signX
  have dy := packetDelta_low signY
  have sum := addInt32_within w x (packetDelta_range m.sMouseBytes[1] m.sMouseBytes[0] 0x10)
  have difference := subInt32_within h y (packetDelta_range m.sMouseBytes[2] m.sMouseBytes[0] 0x20)
  have x' := addInt32_toInt sum
  have y' := subInt32_toInt difference
  unfold mousePacket at packet
  dsimp only at packet
  rw [sum, difference] at packet
  obtain rfl := Option.some.inj packet
  simp only [Mouse.State.pointer, Pointer.follow, Pointer.mk.injEq, maxX, maxY,
    clampCoordinate_toInt w, clampCoordinate_toInt h, x', y']
  rw [held]
  exact ⟨congrArg _ (congrArg _ dx), congrArg _ (congrArg _ dy), left, right, middle⟩

/-! ## The stream -/

/-- A byte of the mouse that an interrupt brings. -/
def mouseByte (irq : UInt8 × UInt8) : Option UInt8 := if Accepted irq then some irq.2 else none

/-- Interrupts that bring no byte of the mouse change nothing. -/
theorem foldlM_mouseCallback (irqs : List (UInt8 × UInt8)) :
    irqs.foldlM mouseCallback m =
      (irqs.filterMap mouseByte).foldlM (fun m byte => mouseCallback m (0x20, byte)) m := by
  induction irqs generalizing m with
  | nil => rfl
  | cons irq irqs ih =>
    by_cases accepted : Accepted irq
    · have byte : mouseByte irq = some irq.2 := if_pos accepted
      have mouse : Accepted (0x20, irq.2) := (by decide : (0x20 : UInt8) &&& 0x20 ≠ 0)
      have same : mouseCallback m irq = mouseCallback m (0x20, irq.2) := by
        unfold mouseCallback
        dsimp only
        rw [if_neg accepted, if_neg mouse]
      rw [List.filterMap_cons_some byte, List.foldlM_cons, List.foldlM_cons, same]
      exact congrArg _ (funext fun m => ih)
    · have byte : mouseByte irq = none := if_neg accepted
      have ignored : mouseCallback m irq = some m := if_pos (not_not.mp accepted)
      rw [List.filterMap_cons_none byte, List.foldlM_cons, ignored]
      exact ih

/-- The driver between two packets. -/
structure Mouse.Ready (m : Mouse) (width height : BitVec 32) : Prop where
  idle : m.Idle width height
  cycle : m.sMouseCycle = 0

/-- A byte is stored, and the third one completes the packet. -/
theorem mouseCallback_byte {i : UInt8} (hi : i.toNat < 3) (cycle : m.sMouseCycle = i)
    (byte : UInt8) :
    mouseCallback m (0x20, byte) = (if i + 1 = 3 then mousePacket else some)
      { m with sMouseBytes := m.sMouseBytes.set i.toNat byte hi, sMouseCycle := i + 1 } := by
  have mouse : (0x20 : UInt8) &&& 0x20 ≠ 0 := by decide
  unfold mouseCallback
  dsimp only
  rw [if_neg mouse, cycle, storeByte, dif_pos hi]
  dsimp only
  split_ifs <;> rfl

/-- The three bytes of a report move the pointer. -/
theorem report_follow (w : ScreenSize width) (h : ScreenSize height)
    (ready : m.Ready width height) (r : Report) :
    ∃ m', r.bytes.foldlM (fun m byte => mouseCallback m (0x20, byte)) m = some m' ∧
      m'.Ready width height ∧
      m'.sMouseState.pointer = m.sMouseState.pointer.follow width.toNat height.toNat r := by
  obtain ⟨⟨-, maxX, maxY, x, y⟩, cycle⟩ := ready
  have whole (v : Vector UInt8 3) (a b c : UInt8) :
      (((v.set 0 a).set 1 b).set 2 c).toList = [a, b, c] := by
    have eq : ((v.set 0 a).set 1 b).set 2 c = #v[a, b, c] := by
      ext i hi
      interval_cases i <;> simp
    rw [eq]
    rfl
  obtain ⟨m', packet, idle, zero, moved⟩ := mousePacket_report w h (r := r)
    (m := { m with sMouseBytes := _, sMouseCycle := 3 }) maxX maxY x y
    (whole m.sMouseBytes _ _ _)
  refine ⟨m', ?_, ⟨idle, zero⟩, moved⟩
  unfold Report.bytes
  rw [List.foldlM_cons, mouseCallback_byte (by decide) cycle, if_neg (by decide)]
  change List.foldlM _ _ _ = _
  rw [List.foldlM_cons, mouseCallback_byte (i := 1) (by decide) rfl, if_neg (by decide)]
  change List.foldlM _ _ _ = _
  rw [List.foldlM_cons, mouseCallback_byte (i := 2) (by decide) rfl, if_pos (by decide)]
  exact congrArg (fun o : Option Mouse => o.bind some) packet

/-- After one or two bytes nothing has moved. -/
theorem partial_stays {bytes : List UInt8} (few : bytes.length < 3)
    (ready : m.Ready width height) :
    ∃ m', bytes.foldlM (fun m byte => mouseCallback m (0x20, byte)) m = some m' ∧
      m'.sMouseState = m.sMouseState := by
  have cycle := ready.cycle
  match bytes, few with
  | [], _ => exact ⟨m, rfl, rfl⟩
  | [a], _ =>
    rw [List.foldlM_cons, mouseCallback_byte (by decide) cycle, if_neg (by decide)]
    exact ⟨_, rfl, rfl⟩
  | [a, b], _ =>
    rw [List.foldlM_cons, mouseCallback_byte (by decide) cycle, if_neg (by decide)]
    change ∃ m', List.foldlM _ _ _ = some m' ∧ _
    rw [List.foldlM_cons, mouseCallback_byte (i := 1) (by decide) rfl, if_neg (by decide)]
    exact ⟨_, rfl, rfl⟩

/-- The reports move the pointer, one after the other. -/
theorem reports_follow (w : ScreenSize width) (h : ScreenSize height)
    (ready : m.Ready width height) (rs : List Report) :
    ∃ m', (rs.flatMap Report.bytes).foldlM (fun m byte => mouseCallback m (0x20, byte)) m =
        some m' ∧ m'.Ready width height ∧
      m'.sMouseState.pointer =
        rs.foldl (Pointer.follow width.toNat height.toNat) m.sMouseState.pointer := by
  induction rs generalizing m with
  | nil => exact ⟨m, rfl, ready, rfl⟩
  | cons r rs ih =>
    obtain ⟨m₁, first, ready₁, moved⟩ := report_follow w h ready r
    obtain ⟨m₂, rest, ready₂, moved'⟩ := ih ready₁
    refine ⟨m₂, ?_, ready₂, ?_⟩
    · rw [List.flatMap_cons, List.foldlM_append, first]
      exact rest
    · rw [moved', moved, List.foldl_cons]

/-- The pointer before the first report. -/
def centre (width height : BitVec 32) : Pointer :=
  ⟨width.toNat / 2, height.toNat / 2, false, false, false⟩

theorem ps2MouseInit_centre (w : ScreenSize width) (h : ScreenSize height) (config : UInt8) :
    (ps2MouseInit width height config Mouse.boot).1.sMouseState.pointer = centre width height := by
  have half {size : BitVec 32} (ok : ScreenSize size) : (size / 2).toInt = size.toNat / 2 := by
    obtain ⟨pos, lt⟩ := ok
    have half : (size / 2).toNat = size.toNat / 2 := BitVec.toNat_udiv
    rw [BitVec.toInt_eq_toNat_of_lt (by omega), half]
    rfl
  have x := half w
  have y := half h
  simp only [Mouse.State.pointer, centre, Pointer.mk.injEq]
  exact ⟨x, y, rfl, rfl, rfl⟩

/-- However the bytes of the mouse's reports are mixed with interrupts that bring none, the pointer
follows the reports on the screen, and as long as they do not lead out of it, it is where they lead
together. -/
theorem pointer_follows (w : ScreenSize width) (h : ScreenSize height) (config : UInt8)
    {irqs : List (UInt8 × UInt8)} {rs : List Report} {rest : List UInt8}
    (stream : irqs.filterMap mouseByte = rs.flatMap Report.bytes ++ rest)
    (few : rest.length < 3) :
    ∃ m, irqs.foldlM mouseCallback (ps2MouseInit width height config Mouse.boot).1 = some m ∧
      m.sMouseState.pointer =
        rs.foldl (Pointer.follow width.toNat height.toNat) (centre width height) ∧
      ((∀ rs', rs' <+: rs →
          InScreen width.toNat height.toNat ((centre width height).displaced rs')) →
        (m.sMouseState.x.toInt, m.sMouseState.y.toInt) = (centre width height).displaced rs) := by
  have ready : (ps2MouseInit width height config Mouse.boot).1.Ready width height :=
    ⟨ps2MouseInit_idle w h config, rfl⟩
  obtain ⟨m₁, reports, ready₁, moved⟩ := reports_follow w h ready rs
  obtain ⟨m₂, last, same⟩ := partial_stays few ready₁
  have pointer : m₂.sMouseState.pointer =
      rs.foldl (Pointer.follow width.toNat height.toNat) (centre width height) := by
    rw [← ps2MouseInit_centre w h config, ← moved, same]
  refine ⟨m₂, ?_, pointer, fun inside => ?_⟩
  · rw [foldlM_mouseCallback, stream, List.foldlM_append, reports]
    exact last
  · rw [← foldl_follow inside, ← pointer]
    rfl

end

/-- The left button is pressed, and the mouse moves up and to the left. -/
def exampleReports : List Report :=
  [⟨0, 0, true, false, false, false, false⟩, ⟨-5, 3, true, false, false, false, false⟩]

/-- A key is pressed between the bytes of the reports, and a third report has begun. -/
def exampleIrqs : List (UInt8 × UInt8) :=
  [(0x21, 0x09), (0x21, 0x00), (0x21, 0x00), (0x21, 0x19), (0x01, 0x1E), (0x21, 0xFB),
    (0x21, 0x03), (0x21, 0x08)]

theorem pointer_follows_example :
    ∃ m, exampleIrqs.foldlM mouseCallback (ps2MouseInit 1280 800 0 Mouse.boot).1 = some m ∧
      m.sMouseState.pointer = ⟨635, 397, true, false, false⟩ := by
  have stream : exampleIrqs.filterMap mouseByte =
      exampleReports.flatMap Report.bytes ++ [0x08] := by decide
  have w : ScreenSize 1280 := ⟨by decide, by decide⟩
  have h : ScreenSize 800 := ⟨by decide, by decide⟩
  obtain ⟨m, run, pointer, -⟩ := pointer_follows w h 0 stream (by decide)
  refine ⟨m, run, pointer.trans ?_⟩
  decide

end ChefOs
