import ChefOs.Arch.Service
import ChefOs.Lib.Pit

/-!
# The timer

`drivers/timer.c`: the programming of channel 0, the tick counter, and `timer_sleep_ms` on a
processor that takes the timer's interrupts through the controllers.
-/

namespace ChefOs

open Kit

/-- `PIT_BASE_HZ`. -/
def pitBaseHz : BitVec 32 := 1193180

/-- The divisor that `timer_init` computes. -/
def timerDivisor (frequencyHz : BitVec 32) : BitVec 16 := (pitBaseHz / frequencyHz).setWidth 16

/-- `timer_init`: the ports it writes.  It does not return when it divides by zero. -/
def timerInit (frequencyHz : BitVec 32) : Option (List (BitVec 16 × BitVec 8)) :=
  if frequencyHz = 0 then none
  else
    let divisor := timerDivisor frequencyHz
    some [(0x43, 0x36), (0x40, (divisor &&& 0xFF).setWidth 8),
      (0x40, ((divisor >>> 8) &&& 0xFF).setWidth 8)]

/-! ## The programmed rate -/

/-- Channel 0 as `timer_init` leaves it. -/
def timerChannel (divisor : BitVec 16) : Pit.Channel where
  access := 3
  mode := 3
  bcd := false
  low := none
  reload := some divisor
  left := 0

/-- The two bytes that are written make up the divisor. -/
theorem divisor_bytes (divisor : BitVec 16) :
    (((divisor >>> 8) &&& 0xFF).setWidth 8).setWidth 16 <<< 8 |||
      ((divisor &&& 0xFF).setWidth 8).setWidth 16 = divisor := by
  ext i hi
  by_cases low : i < 8
  · simp [low]
    interval_cases i <;> simp
  · simp [low]
    interval_cases i <;> simp

/-- The control word of `timer_init` and the two bytes after it, at channel 0. -/
theorem channel_timerInit (c : Pit.Channel) (divisor : BitVec 16) :
    (((c.control 0x36).settings.data ((divisor &&& 0xFF).setWidth 8)).settings.data
      (((divisor >>> 8) &&& 0xFF).setWidth 8)).settings = timerChannel divisor := by
  have control : c.control 0x36 =
      { access := 3, mode := 3, bcd := false, low := none, reload := none, left := 0 } := by
    simp [Pit.Channel.control]
  have bytes := divisor_bytes divisor
  rw [control]
  simp only [Pit.Channel.settings, Pit.Channel.data, timerChannel, Pit.Channel.load]
  simpa using bytes

/-- The writes of `timer_init` on a timer without counts. -/
theorem foldl_timerInit {frequencyHz : BitVec 32} {ports : List (BitVec 16 × BitVec 8)}
    (init : timerInit frequencyHz = some ports) (d : Pit.Device) :
    ports.foldl (fun d w => (d.out w.1 w.2).settings) d.settings =
      ⟨Function.update d.settings.channels 0 (timerChannel (timerDivisor frequencyHz))⟩ := by
  have select (d : Pit.Device) :
      d.out 0x43 0x36 = ⟨Function.update d.channels 0 ((d.channels 0).control 0x36)⟩ := by
    simp [Pit.Device.out]
  have byte (d : Pit.Device) (v : BitVec 8) :
      d.out 0x40 v = ⟨Function.update d.channels 0 ((d.channels 0).data v)⟩ := by
    simp [Pit.Device.out]
  have again : d.settings.settings = d.settings := rfl
  unfold timerInit at init
  split_ifs at init
  cases init
  simp only [List.foldl_cons, List.foldl_nil, select, byte, Pit.Device.settings_update,
    Function.update_self, Function.update_idem, again, channel_timerInit]

/-- The input pulses between two ticks. -/
def timerPeriod (frequencyHz : BitVec 32) : ℕ := Pit.Channel.periodOf (timerDivisor frequencyHz)

/-- A period of the requested frequency, rounded down. -/
def RoundedDown (frequencyHz : BitVec 32) (period : ℕ) : Prop :=
  period * frequencyHz.toNat ≤ pitBaseHz.toNat ∧
    pitBaseHz.toNat < (period + 1) * frequencyHz.toNat

/-- The period is a legal one, rounded down, exactly at the frequencies that fit the divisor. -/
theorem timerPeriod_iff {frequencyHz : BitVec 32} (positive : frequencyHz ≠ 0) :
    2 ≤ timerPeriod frequencyHz ∧ RoundedDown frequencyHz (timerPeriod frequencyHz) ↔
      19 ≤ frequencyHz.toNat ∧ frequencyHz.toNat ≤ 596590 := by
  have base : pitBaseHz.toNat = 1193180 := rfl
  have pos : 0 < frequencyHz.toNat :=
    Nat.pos_of_ne_zero fun zero => positive (BitVec.eq_of_toNat_eq (by simpa using zero))
  have divisor : (timerDivisor frequencyHz).toNat = 1193180 / frequencyHz.toNat % 65536 := by
    rw [timerDivisor, BitVec.toNat_setWidth, BitVec.toNat_udiv, base]
  have period : timerPeriod frequencyHz =
      if 1193180 / frequencyHz.toNat % 65536 = 0 then 65536
      else 1193180 / frequencyHz.toNat % 65536 := by
    have zero : timerDivisor frequencyHz = 0 ↔ 1193180 / frequencyHz.toNat % 65536 = 0 := by
      rw [← divisor, ← BitVec.toNat_inj]
      rfl
    rw [timerPeriod, Pit.Channel.periodOf, if_congr zero rfl rfl, divisor]
  rw [RoundedDown, base]
  generalize frequencyHz.toNat = f at *
  generalize timerPeriod frequencyHz = P at *
  constructor
  · rintro ⟨least, below, above⟩
    have quotient : 1193180 / f = P := Nat.div_eq_of_lt_le below above
    rw [quotient] at period
    have bound : P ≤ 65536 := by
      split_ifs at period <;> omega
    have fits : 2 * f ≤ P * f := Nat.mul_le_mul_right f least
    refine ⟨?_, by omega⟩
    -- below 19 Hz even the longest period is too short
    by_contra small
    have short : P = 65536 ∨ (P + 1) * f ≤ 65536 * 18 := by
      rcases Nat.lt_or_ge P 65536 with less | more
      · exact .inr (Nat.mul_le_mul less (by omega))
      · exact .inl (by omega)
    rcases short with rfl | short <;> omega
  · rintro ⟨low, high⟩
    have upper : 1193180 / f ≤ 1193180 / 19 := Nat.div_le_div_left low (by norm_num)
    have lower : 2 ≤ 1193180 / f := (Nat.le_div_iff_mul_le pos).mpr (by omega)
    have eq : P = 1193180 / f := by
      rw [period, if_neg (by omega)]
      omega
    rw [eq]
    exact ⟨lower, Nat.div_mul_le_self _ _, Nat.lt_mul_of_div_lt (Nat.lt_succ_self _) pos⟩

section

variable {d d' : Pit.Device} {es : List Pit.Event} {frequencyHz : BitVec 32}
  {ports : List (BitVec 16 × BitVec 8)}

theorem timerInit_eq (init : timerInit frequencyHz = some ports) :
    frequencyHz ≠ 0 ∧ ∃ rest, ports = (0x43, 0x36) :: rest := by
  unfold timerInit at init
  split_ifs at init with zero
  cases init
  exact ⟨zero, _, rfl⟩

/-- The settings of the channels behind the writes of `timer_init`. -/
theorem settings_timerInit (run : Run Pit.Step d es d') (init : timerInit frequencyHz = some ports)
    (writes : es.filterMap Pit.Event.write = ports) (i : ℕ) :
    (d'.channels i).settings =
      if i = 0 then timerChannel (timerDivisor frequencyHz) else (d.channels i).settings := by
  have settings := run.project (f := Pit.Event.write) (g := Pit.Device.settings)
    (h := fun d w => (d.out w.1 w.2).settings) (fun _ _ _ step => step.settings)
  rw [writes, foldl_timerInit init] at settings
  have channel := congrFun (congrArg Pit.Device.channels settings) i
  dsimp only at channel
  rw [Function.update_apply] at channel
  exact channel

/-- The control word makes channel 0 wait for a count, whatever it did before. -/
theorem sound_timerInit (run : Run Pit.Step d es d') (init : timerInit frequencyHz = some ports)
    (writes : es.filterMap Pit.Event.write = ports) : (d'.channels 0).Sound := by
  obtain ⟨-, rest, rfl⟩ := timerInit_eq init
  obtain ⟨-, e, es', d₁, d₂, -, -, step, write, after, -⟩ :=
    run.split (show es.filterMap Pit.Event.write = [] ++ (0x43, 0x36) :: rest from writes)
  obtain rfl := step.out_eq write
  have select : (d₁.out 0x43 0x36).channels 0 = (d₁.channels 0).control 0x36 := by
    simp [Pit.Device.out]
  have waiting : ((d₁.out 0x43 0x36).channels 0).Sound := by
    rw [select]
    exact Pit.Channel.sound_control _ (by decide)
  exact after.invariant (I := fun d => (d.channels 0).Sound) (fun _ _ _ h step => step.sound h)
    waiting

/-- Whatever state the timer is in and however it counts meanwhile, `timer_init` programs channel 0
with its divisor and leaves the other channels as they were.  The channel counts with the divisor
unless this is 1, and with the requested period from 19 to 596590 Hz. -/
theorem timerInit_programs (run : Run Pit.Step d es d') (init : timerInit frequencyHz = some ports)
    (writes : es.filterMap Pit.Event.write = ports) :
    (∀ i, (d'.channels i).settings = if i = 0 then timerChannel (timerDivisor frequencyHz)
        else (d.channels i).settings) ∧
      ((d'.channels 0).Counts (timerPeriod frequencyHz) ↔ timerDivisor frequencyHz ≠ 1) ∧
      ((∃ period, (d'.channels 0).Counts period ∧ RoundedDown frequencyHz period) ↔
        19 ≤ frequencyHz.toNat ∧ frequencyHz.toNat ≤ 596590) := by
  have channel := settings_timerInit run init writes
  have sound := sound_timerInit run init writes
  have loaded : (d'.channels 0).reload = some (timerDivisor frequencyHz) :=
    congrArg Pit.Channel.reload (channel 0)
  have counts_iff : (d'.channels 0).Counts (timerPeriod frequencyHz) ↔
      2 ≤ timerPeriod frequencyHz :=
    ⟨fun counts => counts.least,
      fun least => sound.counts loaded (Pit.Channel.two_le_periodOf.mp least)⟩
  refine ⟨channel, counts_iff.trans Pit.Channel.two_le_periodOf, ?_⟩
  rw [← timerPeriod_iff (timerInit_eq init).1, ← counts_iff]
  refine ⟨fun ⟨period, counts, rounded⟩ => ?_, fun ⟨counts, rounded⟩ => ⟨_, counts, rounded⟩⟩
  -- the divisor alone decides about the period
  obtain ⟨r, eq, rfl⟩ := counts.reload
  obtain rfl := Option.some.inj (loaded.symm.trans eq)
  exact ⟨counts, rounded⟩

end

/-- The timer of the kernel, which asks for 1000 ticks a second. -/
theorem timerInit_programs_kernel :
    ∃ d : Pit.Device, (d.channels 0).Counts 1193 ∧ (d.channels 2).settings = timerChannel 0 := by
  let d : Pit.Device := ⟨fun _ => { timerChannel 0 with left := 7 }⟩
  have run : Run Pit.Step d [.out 0x43 0x36, .out 0x40 0xA9, .pulse 2, .out 0x40 0x04, .pulse 0]
      (((((d.out 0x43 0x36).out 0x40 0xA9).pulse 2).out 0x40 0x04).pulse 0) :=
    .cons (.out _ _) (.cons (.out _ _) (.cons (.pulse _) (.cons (.out _ _)
      (.cons (.pulse _) (.nil _)))))
  have init : timerInit 1000 = some [(0x43, 0x36), (0x40, 0xA9), (0x40, 0x04)] := by decide
  obtain ⟨settings, counts, -⟩ := timerInit_programs run init rfl
  exact ⟨_, counts.mpr (by decide), settings 2⟩

end ChefOs
