import Mathlib.Tactic

/-!
# The mouse

`drivers/ps2_mouse.c`: the driver collects three bytes to a packet and moves the pointer by the
packet's two nine-bit differences.  The pointer stays on the screen, whatever bytes arrive.
-/

namespace ChefOs

/-- `mouse_state_t`. -/
structure Mouse.State where
  x : BitVec 32
  y : BitVec 32
  leftButton : Bool
  rightButton : Bool
  middleButton : Bool
deriving DecidableEq

/-- The static variables of the driver. -/
structure Mouse where
  sMouseState : Mouse.State
  sMouseCycle : UInt8
  sMouseBytes : Vector UInt8 3
  sMaxX : BitVec 32
  sMaxY : BitVec 32
deriving DecidableEq

/-- The static variables before the first call. -/
def Mouse.boot : Mouse where
  sMouseState := ⟨400, 300, false, false, false⟩
  sMouseCycle := 0
  sMouseBytes := #v[0, 0, 0]
  sMaxX := 1280
  sMaxY := 800

/-- `s_mouse_bytes[index] = byte`; `none` where the index is out of range. -/
def storeByte (bytes : Vector UInt8 3) (index byte : UInt8) : Option (Vector UInt8 3) :=
  if h : index.toNat < 3 then some (bytes.set index.toNat byte h) else none

/-- The addition of two `int32_t`; `none` where it overflows. -/
def addInt32 (a b : BitVec 32) : Option (BitVec 32) :=
  if a.saddOverflow b then none else some (a + b)

/-- The subtraction of two `int32_t`; `none` where it overflows. -/
def subInt32 (a b : BitVec 32) : Option (BitVec 32) :=
  if a.ssubOverflow b then none else some (a - b)

/-- A byte of the packet as an `int32_t`, with the sign that the flags give. -/
def packetDelta (byte flags signBit : UInt8) : BitVec 32 :=
  let d := byte.toBitVec.setWidth 32
  if flags &&& signBit ≠ 0 then d ||| 0xFFFFFF00#32 else d

/-- The two comparisons that keep a coordinate between zero and `max - 1`. -/
def clampCoordinate (max v : BitVec 32) : BitVec 32 :=
  let v := if v.slt 0 then 0 else v
  if max.sle v then max - 1 else v

/-- The part of `mouse_callback` that runs when a packet is complete. -/
def mousePacket (m : Mouse) : Option Mouse :=
  let flags := m.sMouseBytes[0]
  let dx := packetDelta m.sMouseBytes[1] flags 0x10
  let dy := packetDelta m.sMouseBytes[2] flags 0x20
  match addInt32 m.sMouseState.x dx, subInt32 m.sMouseState.y dy with
  | some x, some y =>
    some { m with
      sMouseCycle := 0
      sMouseState :=
        { x := clampCoordinate m.sMaxX x
          y := clampCoordinate m.sMaxY y
          leftButton := flags &&& 0x01 ≠ 0
          rightButton := flags &&& 0x02 ≠ 0
          middleButton := flags &&& 0x04 ≠ 0 } }
  | _, _ => none

/-- `mouse_callback`, with what `inb(0x64)` and `inb(0x60)` return.  `none` where the C code leaves
`s_mouse_bytes` or overflows a signed number. -/
def mouseCallback (m : Mouse) (irq : UInt8 × UInt8) : Option Mouse :=
  let (status, byte) := irq
  if status &&& 0x20 = 0 then some m
  else
    match storeByte m.sMouseBytes m.sMouseCycle byte with
    | none => none
    | some bytes =>
      let m := { m with sMouseBytes := bytes, sMouseCycle := m.sMouseCycle + 1 }
      if m.sMouseCycle = 3 then mousePacket m else some m

/-- `mouse_write`: what is written to which port. -/
def mouseWrite (write : UInt8) : List (UInt16 × UInt8) := [(0x64, 0xD4), (0x60, write)]

/-- `ps2_mouse_init`, with the first byte that `inb(0x60)` returns.  Returns also what is written to
which port. -/
def ps2MouseInit (screenWidth screenHeight : BitVec 32) (config : UInt8) (m : Mouse) :
    Mouse × List (UInt16 × UInt8) :=
  ({ m with
      sMaxX := screenWidth
      sMaxY := screenHeight
      sMouseState :=
        { m.sMouseState with x := screenWidth / 2, y := screenHeight / 2 } },
    [(0x64, 0xA8), (0x64, 0x20), (0x64, 0x60), (0x60, config ||| 2)] ++
      mouseWrite 0xF6 ++ mouseWrite 0xF4)

/-! ## The pointer -/

/-- The interrupt brings a byte of the mouse. -/
def Accepted (irq : UInt8 × UInt8) : Prop := irq.1 &&& 0x20 ≠ 0

instance : DecidablePred Accepted := fun _ => inferInstanceAs (Decidable (_ ≠ _))

/-- A coordinate is on a screen of the size. -/
def Within (size v : BitVec 32) : Prop := 0 ≤ v.toInt ∧ v.toInt < size.toNat

/-- The driver between two interrupts, on a screen of the size. -/
structure Mouse.Idle (m : Mouse) (width height : BitVec 32) : Prop where
  cycle : m.sMouseCycle.toNat ≤ 2
  maxX : m.sMaxX = width
  maxY : m.sMaxY = height
  x : Within width m.sMouseState.x
  y : Within height m.sMouseState.y

/-- A size that the driver can compute with. -/
def ScreenSize (size : BitVec 32) : Prop := 1 ≤ size.toNat ∧ size.toNat < 2 ^ 31 - 512

theorem ScreenSize.toInt {size : BitVec 32} (ok : ScreenSize size) : size.toInt = size.toNat :=
  BitVec.toInt_eq_toNat_of_lt (by have := ok.2; omega)

/-- Setting the bits above a byte subtracts 256. -/
theorem byte_or_toInt (b : BitVec 8) :
    (b.setWidth 32 ||| 0xFFFFFF00#32).toInt = (b.toNat : ℤ) - 256 := by
  have byte := b.isLt
  have sum : (b.setWidth 32 ||| 0xFFFFFF00#32).toNat = 2 ^ 8 * 0xFFFFFF + b.toNat := by
    rw [BitVec.toNat_or, BitVec.toNat_setWidth, Nat.mod_eq_of_lt (by omega),
      Nat.two_pow_add_eq_or_of_lt byte, Nat.or_comm]
    rfl
  rw [BitVec.toInt_eq_toNat_cond, sum, if_neg (by omega)]
  push_cast
  ring

theorem byte_toInt (b : BitVec 8) : (b.setWidth 32).toInt = b.toNat := by
  have byte := b.isLt
  have same : (b.setWidth 32).toNat = b.toNat := by
    rw [BitVec.toNat_setWidth, Nat.mod_eq_of_lt (by omega)]
  rw [BitVec.toInt_eq_toNat_of_lt (by omega), same]

/-- A packet moves the pointer by at most 256 along each axis. -/
theorem packetDelta_range (byte flags signBit : UInt8) :
    -256 ≤ (packetDelta byte flags signBit).toInt ∧
      (packetDelta byte flags signBit).toInt ≤ 255 := by
  have small := byte.toBitVec.isLt
  unfold packetDelta
  dsimp only
  split_ifs
  · rw [byte_or_toInt]
    omega
  · rw [byte_toInt]
    omega

/-- The comparisons put every number on the screen. -/
theorem clampCoordinate_within {size : BitVec 32} (ok : ScreenSize size) (v : BitVec 32) :
    Within size (clampCoordinate size v) := by
  have sizeInt := ok.toInt
  obtain ⟨pos, lt⟩ := ok
  have zero : (0 : BitVec 32).toInt = 0 := rfl
  have last : (size - 1).toInt = size.toInt - 1 := by
    apply BitVec.toInt_sub_of_not_ssubOverflow
    have one : (1 : BitVec 32).toInt = 1 := rfl
    simp only [BitVec.ssubOverflow, Bool.or_eq_true, decide_eq_true_eq, one]
    omega
  unfold clampCoordinate Within
  simp only [BitVec.slt_iff_toInt_lt, BitVec.sle_iff_toInt_le, zero]
  by_cases negative : v.toInt < 0
  · rw [if_pos negative, zero, if_neg (by omega), zero]
    omega
  · rw [if_neg negative]
    split_ifs
    · omega
    · omega

/-- No move of the pointer overflows. -/
theorem addInt32_within {size v d : BitVec 32} (ok : ScreenSize size) (inside : Within size v)
    (range : -256 ≤ d.toInt ∧ d.toInt ≤ 255) : addInt32 v d = some (v + d) := by
  obtain ⟨pos, lt⟩ := ok
  obtain ⟨low, high⟩ := inside
  apply if_neg
  simp only [BitVec.saddOverflow, Bool.or_eq_true, decide_eq_true_eq]
  omega

theorem subInt32_within {size v d : BitVec 32} (ok : ScreenSize size) (inside : Within size v)
    (range : -256 ≤ d.toInt ∧ d.toInt ≤ 255) : subInt32 v d = some (v - d) := by
  obtain ⟨pos, lt⟩ := ok
  obtain ⟨low, high⟩ := inside
  apply if_neg
  simp only [BitVec.ssubOverflow, Bool.or_eq_true, decide_eq_true_eq]
  omega

/-- A complete packet starts the next one and leaves the pointer on the screen. -/
theorem mousePacket_spec {m : Mouse} {width height : BitVec 32} (w : ScreenSize width)
    (h : ScreenSize height) (maxX : m.sMaxX = width) (maxY : m.sMaxY = height)
    (x : Within width m.sMouseState.x) (y : Within height m.sMouseState.y) :
    ∃ m', mousePacket m = some m' ∧ m'.Idle width height ∧ m'.sMouseCycle = 0 := by
  have add := addInt32_within w x (packetDelta_range m.sMouseBytes[1] m.sMouseBytes[0] 0x10)
  have sub := subInt32_within h y (packetDelta_range m.sMouseBytes[2] m.sMouseBytes[0] 0x20)
  unfold mousePacket
  dsimp only
  rw [add, sub]
  refine ⟨_, rfl, ⟨Nat.zero_le 2, maxX, maxY, ?_, ?_⟩, rfl⟩
  · subst maxX
    exact clampCoordinate_within w _
  · subst maxY
    exact clampCoordinate_within h _

/-- A byte of the mouse is stored, and the third one completes the packet. -/
theorem mouseCallback_accepted {m : Mouse} {irq : UInt8 × UInt8} (accepted : Accepted irq)
    (cycle : m.sMouseCycle.toNat ≤ 2) :
    (m.sMouseCycle + 1).toNat = m.sMouseCycle.toNat + 1 ∧
      ∃ bytes, mouseCallback m irq =
        (if m.sMouseCycle.toNat = 2 then mousePacket else some)
          { m with sMouseBytes := bytes, sMouseCycle := m.sMouseCycle + 1 } := by
  have one : (1 : UInt8).toNat = 1 := rfl
  have next : (m.sMouseCycle + 1).toNat = m.sMouseCycle.toNat + 1 := by
    rw [UInt8.toNat_add, one]
    exact Nat.mod_eq_of_lt (by omega)
  have third : m.sMouseCycle + 1 = 3 ↔ m.sMouseCycle.toNat = 2 := by
    rw [← UInt8.toNat_inj, next]
    exact Nat.succ_inj
  refine ⟨next, m.sMouseBytes.set m.sMouseCycle.toNat irq.2 (by omega), ?_⟩
  unfold mouseCallback
  dsimp only
  rw [if_neg accepted, storeByte, dif_pos (by omega)]
  dsimp only
  simp only [third]
  split_ifs <;> rfl

/-- One interrupt.  The pointer and the buttons change only with the last byte of a packet. -/
theorem mouseCallback_spec {m : Mouse} {width height : BitVec 32} (w : ScreenSize width)
    (h : ScreenSize height) (idle : m.Idle width height) (irq : UInt8 × UInt8) :
    ∃ m', mouseCallback m irq = some m' ∧ m'.Idle width height ∧
      m'.sMouseCycle.toNat = (m.sMouseCycle.toNat + if Accepted irq then 1 else 0) % 3 ∧
      (m'.sMouseState ≠ m.sMouseState → Accepted irq ∧ m.sMouseCycle.toNat = 2) := by
  obtain ⟨cycle, maxX, maxY, x, y⟩ := idle
  by_cases accepted : Accepted irq
  · obtain ⟨next, bytes, run⟩ := mouseCallback_accepted accepted cycle
    rw [run, if_pos accepted]
    by_cases third : m.sMouseCycle.toNat = 2
    · rw [if_pos third]
      obtain ⟨m', run, idle', zero⟩ := mousePacket_spec w h
        (m := { m with sMouseBytes := bytes, sMouseCycle := m.sMouseCycle + 1 }) maxX maxY x y
      refine ⟨m', run, idle', ?_, fun _ => ⟨accepted, third⟩⟩
      rw [zero, third]
      rfl
    · rw [if_neg third]
      refine ⟨_, rfl, ⟨?_, maxX, maxY, x, y⟩, ?_, fun changed => absurd rfl changed⟩
      · dsimp only
        omega
      · dsimp only
        omega
  · have ignored : mouseCallback m irq = some m := if_pos (not_not.mp accepted)
    rw [ignored, if_neg accepted]
    refine ⟨m, rfl, ⟨cycle, maxX, maxY, x, y⟩, ?_, fun changed => absurd rfl changed⟩
    omega

theorem ScreenSize.half {size : BitVec 32} (ok : ScreenSize size) : Within size (size / 2) := by
  obtain ⟨pos, lt⟩ := ok
  have half : (size / 2).toNat = size.toNat / 2 := BitVec.toNat_udiv
  rw [Within, BitVec.toInt_eq_toNat_of_lt (by omega), half]
  omega

/-- The driver after `ps2_mouse_init`. -/
theorem ps2MouseInit_idle {width height : BitVec 32} (w : ScreenSize width)
    (h : ScreenSize height) (config : UInt8) :
    (ps2MouseInit width height config Mouse.boot).1.Idle width height where
  cycle := Nat.zero_le 2
  maxX := rfl
  maxY := rfl
  x := w.half
  y := h.half

/-- The driver after any interrupts: `s_mouse_cycle` counts the accepted bytes. -/
theorem mouseRun_spec {width height : BitVec 32} (w : ScreenSize width) (h : ScreenSize height)
    (irqs : List (UInt8 × UInt8)) {m : Mouse} (idle : m.Idle width height) :
    ∃ m', irqs.foldlM mouseCallback m = some m' ∧ m'.Idle width height ∧
      m'.sMouseCycle.toNat = (m.sMouseCycle.toNat + irqs.countP Accepted) % 3 := by
  induction irqs generalizing m with
  | nil =>
    refine ⟨m, rfl, idle, ?_⟩
    have := idle.cycle
    rw [List.countP_nil]
    omega
  | cons irq irqs ih =>
    obtain ⟨m₁, first, idle₁, cycle₁, -⟩ := mouseCallback_spec w h idle irq
    obtain ⟨m₂, rest, idle₂, cycle₂⟩ := ih idle₁
    refine ⟨m₂, ?_, idle₂, ?_⟩
    · rw [List.foldlM_cons, first]
      exact rest
    · rw [cycle₂, cycle₁, List.countP_cons]
      simp only [decide_eq_true_eq]
      omega

/-- After any interrupts the pointer is on the screen, nothing has left `s_mouse_bytes` or
overflowed, and the pointer and the buttons change only with every third byte of the mouse. -/
theorem pointer_onScreen {width height : BitVec 32} (w : ScreenSize width)
    (h : ScreenSize height) (config : UInt8) (irqs : List (UInt8 × UInt8)) :
    ∃ m, irqs.foldlM mouseCallback (ps2MouseInit width height config Mouse.boot).1 = some m ∧
      m.Idle width height ∧
      ∀ irq, ∃ m', mouseCallback m irq = some m' ∧
        (m'.sMouseState ≠ m.sMouseState →
          Accepted irq ∧ irqs.countP Accepted % 3 = 2) := by
  obtain ⟨m, run, idle, cycle⟩ := mouseRun_spec w h irqs (ps2MouseInit_idle w h config)
  refine ⟨m, run, idle, fun irq => ?_⟩
  obtain ⟨m', next, -, -, third⟩ := mouseCallback_spec w h idle irq
  refine ⟨m', next, fun changed => ⟨(third changed).1, ?_⟩⟩
  rw [← (third changed).2, cycle]
  exact congrArg (· % 3) (Nat.zero_add _).symm

/-- A packet with a byte between its bytes that is not of the mouse. -/
def packetAndNoise : List (UInt8 × UInt8) :=
  [(0x21, 0x29), (0x00, 0x07), (0x20, 0x05), (0x20, 0xFF)]

theorem pointer_onScreen_example :
    ∃ m, packetAndNoise.foldlM mouseCallback (ps2MouseInit 1280 800 0 Mouse.boot).1 = some m ∧
      m.Idle 1280 800 ∧
      ∀ irq, ∃ m', mouseCallback m irq = some m' ∧
        (m'.sMouseState ≠ m.sMouseState →
          Accepted irq ∧ packetAndNoise.countP Accepted % 3 = 2) :=
  pointer_onScreen ⟨by decide, by decide⟩ ⟨by decide, by decide⟩ 0 packetAndNoise

end ChefOs
