import ChefOs.Lib.Sampling

/-!
# The real-time clock

`drivers/rtc.c`, and a clock that may tick between any two accesses to its ports.  Six registers are
read in turn, without a check that the clock was not changing them meanwhile.
-/

namespace ChefOs

open Kit

/-! ## The clock -/

/-- The days of a month.  The clock takes every fourth year for a leap year. -/
def daysIn (month year : ℕ) : ℕ :=
  if month = 2 then if year % 4 = 0 then 29 else 28
  else if month = 4 ∨ month = 6 ∨ month = 9 ∨ month = 11 then 30
  else 31

theorem daysIn_range (month year : ℕ) : 28 ≤ daysIn month year ∧ daysIn month year ≤ 31 := by
  unfold daysIn
  split_ifs <;> omega

/-- A time of the clock, with two digits of the year. -/
structure ClockTime where
  second : ℕ
  minute : ℕ
  hour : ℕ
  day : ℕ
  month : ℕ
  year : ℕ
  second_lt : second < 60
  minute_lt : minute < 60
  hour_lt : hour < 24
  day_pos : 1 ≤ day
  day_le : day ≤ daysIn month year
  month_pos : 1 ≤ month
  month_le : month ≤ 12
  year_lt : year < 100

namespace ClockTime

/-- The next day. -/
def nextDay (t : ClockTime) : ClockTime :=
  if h : t.day < daysIn t.month t.year then
    { t with day := t.day + 1, day_pos := Nat.le_add_left 1 t.day, day_le := h }
  else if h : t.month < 12 then
    { t with
      day := 1
      month := t.month + 1
      day_pos := le_rfl
      day_le := le_trans (by decide) (daysIn_range (t.month + 1) t.year).1
      month_pos := Nat.le_add_left 1 t.month
      month_le := h }
  else
    { t with
      day := 1
      month := 1
      year := (t.year + 1) % 100
      day_pos := le_rfl
      day_le := le_trans (by decide) (daysIn_range 1 ((t.year + 1) % 100)).1
      month_pos := le_rfl
      month_le := by decide
      year_lt := Nat.mod_lt _ (by decide) }

/-- The next hour. -/
def nextHour (t : ClockTime) : ClockTime :=
  if h : t.hour < 23 then { t with hour := t.hour + 1, hour_lt := Nat.succ_lt_succ h }
  else nextDay { t with hour := 0, hour_lt := by decide }

/-- The next minute. -/
def nextMinute (t : ClockTime) : ClockTime :=
  if h : t.minute < 59 then { t with minute := t.minute + 1, minute_lt := Nat.succ_lt_succ h }
  else nextHour { t with minute := 0, minute_lt := by decide }

/-- The time with other seconds. -/
def withSecond (t : ClockTime) (second : ℕ) (second_lt : second < 60) : ClockTime :=
  { t with second, second_lt }

/-- A tick of the clock. -/
def tick (t : ClockTime) : ClockTime :=
  if h : t.second < 59 then t.withSecond (t.second + 1) (Nat.succ_lt_succ h)
  else nextMinute (t.withSecond 0 (by decide))

end ClockTime

/-- The registers that the driver reads. -/
inductive RtcRegister
  | second
  | minute
  | hour
  | day
  | month
  | year
deriving DecidableEq

/-- The value of a register. -/
def ClockTime.get (t : ClockTime) : RtcRegister → ℕ
  | .second => t.second
  | .minute => t.minute
  | .hour => t.hour
  | .day => t.day
  | .month => t.month
  | .year => t.year

/-- Two digits in a byte. -/
def toBcd (n : ℕ) : UInt8 := .ofNat (n / 10 * 16 + n % 10)

/-- The clock at its ports: when it started to count, the ticks since then, the register that is
selected, and the ticks before each access to come. -/
structure Cmos where
  start : ClockTime
  elapsed : ℕ
  index : UInt8
  waits : ℕ → ℕ

/-- The time after some ticks. -/
def Cmos.timeAt (c : Cmos) (n : ℕ) : ClockTime := ClockTime.tick^[n] c.start

/-- The clock ticks before an access. -/
def Cmos.wait (c : Cmos) : Cmos :=
  { c with elapsed := c.elapsed + c.waits 0, waits := fun n => c.waits (n + 1) }

/-- The register that a byte selects. -/
def rtcRegister (index : UInt8) : Option RtcRegister :=
  match index with
  | 0x00 => some .second
  | 0x02 => some .minute
  | 0x04 => some .hour
  | 0x07 => some .day
  | 0x08 => some .month
  | 0x09 => some .year
  | _ => none

/-- `outb`. -/
def Cmos.outb (port : UInt16) (val : UInt8) (c : Cmos) : Cmos :=
  if port = 0x70 then { c.wait with index := val } else c.wait

/-- `inb`. -/
def Cmos.inb (port : UInt16) (c : Cmos) : UInt8 × Cmos :=
  if port = 0x71 then
    match rtcRegister c.wait.index with
    | some r => (toBcd ((c.wait.timeAt c.wait.elapsed).get r), c.wait)
    | none => (0xFF, c.wait)
  else (0xFF, c.wait)

/-! ## The driver -/

/-- `rtc_time_t`. -/
structure RtcTime where
  second : UInt8
  minute : UInt8
  hour : UInt8
  day : UInt8
  month : UInt8
  year : BitVec 32
deriving DecidableEq

/-- `get_rtc_register`. -/
def getRtcRegister (reg : UInt8) (c : Cmos) : UInt8 × Cmos := (c.outb 0x70 reg).inb 0x71

/-- `bcd_to_bin`. -/
def bcdToBin (bcd : UInt8) : UInt8 := bcd / 16 * 10 + (bcd &&& 0x0F)

/-- `rtc_get_time`, with what is at `time`; `none` is a `NULL` pointer. -/
def rtcGetTime (time : Option RtcTime) (c : Cmos) : Option RtcTime × Cmos :=
  match time with
  | none => (none, c)
  | some _ =>
    let (second, c) := getRtcRegister 0x00 c
    let (minute, c) := getRtcRegister 0x02 c
    let (hour, c) := getRtcRegister 0x04 c
    let (day, c) := getRtcRegister 0x07 c
    let (month, c) := getRtcRegister 0x08 c
    let (year, c) := getRtcRegister 0x09 c
    (some
      { second := bcdToBin second
        minute := bcdToBin minute
        hour := bcdToBin hour
        day := bcdToBin day
        month := bcdToBin month
        year := 2000 + .ofNat 32 (bcdToBin year).toNat }, c)

/-! ## Ticks -/

namespace ClockTime

/-- A carry into the minutes does not look at the seconds. -/
theorem nextMinute_withSecond (t : ClockTime) (second : ℕ) (second_lt : second < 60) :
    (t.withSecond second second_lt).nextMinute = t.nextMinute.withSecond second second_lt := by
  unfold nextMinute nextHour nextDay withSecond
  split_ifs <;> rfl

theorem withSecond_get (t : ClockTime) (second : ℕ) (second_lt : second < 60) {r : RtcRegister}
    (other : r ≠ .second) : (t.withSecond second second_lt).get r = t.get r := by
  cases r <;> first | rfl | contradiction

theorem nextMinute_second (t : ClockTime) : t.nextMinute.second = t.second := by
  unfold nextMinute nextHour nextDay
  split_ifs <;> rfl

theorem tick_second (t : ClockTime) : t.tick.second = (t.second + 1) % 60 := by
  have := t.second_lt
  unfold tick
  split_ifs with more
  · rw [Nat.mod_eq_of_lt (by omega)]
    rfl
  · rw [nextMinute_second, show t.second + 1 = 60 by omega]
    rfl

/-- The seconds after some ticks. -/
theorem ticks_second (t : ClockTime) (n : ℕ) : (tick^[n] t).second = (t.second + n) % 60 := by
  induction n with
  | zero => exact (Nat.mod_eq_of_lt t.second_lt).symm
  | succ n ih =>
    rw [Function.iterate_succ_apply', tick_second, ih, Nat.mod_add_mod, Nat.add_assoc]

/-- Within a minute only the seconds change. -/
theorem ticks_within (t : ClockTime) {n : ℕ} (within : t.second + n < 60) :
    tick^[n] t = t.withSecond (t.second + n) within := by
  induction n with
  | zero => rfl
  | succ n ih =>
    rw [Function.iterate_succ_apply', ih (by omega), tick]
    exact dif_pos (by change t.second + n < 59; omega)

/-- In the next minute the other registers are those after a carry into the minutes. -/
theorem ticks_beyond (t : ClockTime) {n : ℕ} (beyond : 60 ≤ t.second + n) (short : n < 60)
    {r : RtcRegister} (other : r ≠ .second) : (tick^[n] t).get r = t.nextMinute.get r := by
  have := t.second_lt
  obtain ⟨k, rfl⟩ : ∃ k, n = k + 1 + (59 - t.second) := ⟨n - (60 - t.second), by omega⟩
  have last : (t.withSecond (t.second + (59 - t.second)) (by omega)).tick =
      t.nextMinute.withSecond 0 (by decide) := by
    rw [tick, dif_neg (by change ¬ t.second + (59 - t.second) < 59; omega)]
    exact nextMinute_withSecond t 0 (by decide)
  rw [Function.iterate_add_apply, ticks_within t (by omega), Function.iterate_succ_apply, last,
    ticks_within _ (by change 0 + k < 60; omega), withSecond_get _ _ _ other,
    withSecond_get _ _ _ other]

end ClockTime

/-! ## Readings -/

/-- `bcd_to_bin` reads two digits back. -/
theorem bcdToBin_toBcd : ∀ n < 100, bcdToBin (toBcd n) = .ofNat n := by decide

theorem ClockTime.get_lt (t : ClockTime) (r : RtcRegister) : t.get r < 100 := by
  have := t.day_le.trans (daysIn_range t.month t.year).2
  cases r with
  | second => exact t.second_lt.trans (by decide)
  | minute => exact t.minute_lt.trans (by decide)
  | hour => exact t.hour_lt.trans (by decide)
  | day => exact this.trans_lt (by decide)
  | month => exact t.month_le.trans_lt (by decide)
  | year => exact t.year_lt

/-- The values of the registers as the driver stores them. -/
def RtcTime.ofValues (values : RtcRegister → ℕ) : RtcTime where
  second := .ofNat (values .second)
  minute := .ofNat (values .minute)
  hour := .ofNat (values .hour)
  day := .ofNat (values .day)
  month := .ofNat (values .month)
  year := 2000 + .ofNat 32 (values .year)

/-- A time of the clock as the driver stores it. -/
def ClockTime.value (t : ClockTime) : RtcTime := .ofValues t.get

theorem ofValues_inj {f g : RtcRegister → ℕ} (hf : ∀ r, f r < 100) (hg : ∀ r, g r < 100) :
    RtcTime.ofValues f = RtcTime.ofValues g ↔ ∀ r, f r = g r := by
  have byte : ∀ a b : ℕ, a < 100 → b < 100 → UInt8.ofNat a = UInt8.ofNat b → a = b := by
    intro a b ha hb same
    have := congrArg UInt8.toNat same
    rwa [UInt8.toNat_ofNat', UInt8.toNat_ofNat', Nat.mod_eq_of_lt (by omega),
      Nat.mod_eq_of_lt (by omega)] at this
  constructor
  · intro same r
    obtain ⟨second, minute, hour, day, month, year⟩ := RtcTime.mk.inj same
    cases r with
    | second => exact byte _ _ (hf _) (hg _) second
    | minute => exact byte _ _ (hf _) (hg _) minute
    | hour => exact byte _ _ (hf _) (hg _) hour
    | day => exact byte _ _ (hf _) (hg _) day
    | month => exact byte _ _ (hf _) (hg _) month
    | year =>
      have := congrArg BitVec.toNat ((BitVec.add_right_inj _).mp year)
      rwa [BitVec.toNat_ofNat, BitVec.toNat_ofNat, Nat.mod_eq_of_lt ((hf _).trans (by decide)),
        Nat.mod_eq_of_lt ((hg _).trans (by decide))] at this
  · intro same
    rw [funext same]

/-- The number of ticks at the `k`-th access. -/
def Cmos.instant (c : Cmos) : ℕ → ℕ
  | 0 => c.elapsed
  | k + 1 => c.instant k + c.waits k

/-- The number of ticks when a register is read. -/
def Cmos.readAt (c : Cmos) : RtcRegister → ℕ
  | .second => c.instant 2
  | .minute => c.instant 4
  | .hour => c.instant 6
  | .day => c.instant 8
  | .month => c.instant 10
  | .year => c.instant 12

theorem getRtcRegister_eq (c : Cmos) {reg : UInt8} {r : RtcRegister}
    (selects : rtcRegister reg = some r) :
    getRtcRegister reg c =
      (toBcd ((c.timeAt (c.elapsed + c.waits 0 + c.waits 1)).get r),
        { c with
          elapsed := c.elapsed + c.waits 0 + c.waits 1
          index := reg
          waits := fun n => c.waits (n + 2) }) := by
  have select : c.outb 0x70 reg = { c.wait with index := reg } := if_pos rfl
  rw [getRtcRegister, select, Cmos.inb, if_pos rfl]
  simp only [Cmos.wait, selects]
  rfl

/-- Each register is stored as it was when it was read. -/
theorem rtcGetTime_eq (time : RtcTime) (c : Cmos) :
    (rtcGetTime (some time) c).1 =
        some (.ofValues fun r => (c.timeAt (c.readAt r)).get r) ∧
      (rtcGetTime (some time) c).2.wait.elapsed = c.instant 13 := by
  have stored : ∀ (n : ℕ) (r : RtcRegister),
      bcdToBin (toBcd ((c.timeAt n).get r)) = .ofNat ((c.timeAt n).get r) := fun n r =>
    bcdToBin_toBcd _ ((c.timeAt n).get_lt r)
  have digits : ∀ n : ℕ, (UInt8.ofNat ((c.timeAt n).get .year)).toNat = (c.timeAt n).get .year := by
    intro n
    have := (c.timeAt n).get_lt .year
    rw [UInt8.toNat_ofNat', Nat.mod_eq_of_lt (by omega)]
  have second := fun c : Cmos => getRtcRegister_eq c (rfl : rtcRegister 0x00 = some .second)
  have minute := fun c : Cmos => getRtcRegister_eq c (rfl : rtcRegister 0x02 = some .minute)
  have hour := fun c : Cmos => getRtcRegister_eq c (rfl : rtcRegister 0x04 = some .hour)
  have day := fun c : Cmos => getRtcRegister_eq c (rfl : rtcRegister 0x07 = some .day)
  have month := fun c : Cmos => getRtcRegister_eq c (rfl : rtcRegister 0x08 = some .month)
  have year := fun c : Cmos => getRtcRegister_eq c (rfl : rtcRegister 0x09 = some .year)
  unfold rtcGetTime
  simp only [second, minute, hour, day, month, year]
  refine ⟨congrArg some ?_, rfl⟩
  rw [RtcTime.ofValues, ← stored, ← stored, ← stored, ← stored, ← stored, ← digits, ← stored]
  rfl

/-! ## Times that occurred -/

/-- What the call stores is a time of the clock between the start and the end of the call. -/
def Occurred (time : RtcTime) (c : Cmos) : Prop :=
  ∃ n, (c.elapsed ≤ n ∧ n ≤ (rtcGetTime (some time) c).2.wait.elapsed) ∧
    (rtcGetTime (some time) c).1 = some (c.timeAt n).value

/-- The values of the registers, tick by tick. -/
def Cmos.values (c : Cmos) (n : ℕ) : RtcRegister → ℕ := (c.timeAt n).get

theorem occurred_iff_consistent (time : RtcTime) (c : Cmos) :
    Occurred time c ↔ Consistent c.values c.readAt c.elapsed (c.instant 13) := by
  obtain ⟨stored, stop⟩ := rtcGetTime_eq time c
  unfold Occurred Consistent
  rw [stored, stop]
  refine exists_congr fun n => and_congr_right fun _ => ?_
  rw [Option.some_inj, ClockTime.value, ofValues_inj (fun r => (c.timeAt _).get_lt r)
    (fun r => (c.timeAt n).get_lt r)]
  exact forall_congr' fun r => eq_comm

theorem Cmos.instant_mono (c : Cmos) : Monotone c.instant :=
  monotone_nat_of_le_succ fun _ => Nat.le_add_right _ _

theorem Cmos.readAt_within (c : Cmos) (r : RtcRegister) :
    c.readAt .second ≤ c.readAt r ∧ c.elapsed ≤ c.readAt r ∧ c.readAt r ≤ c.instant 13 := by
  have start : c.elapsed = c.instant 0 := rfl
  rw [start]
  cases r <;> exact ⟨c.instant_mono (by decide), c.instant_mono (by decide),
    c.instant_mono (by decide)⟩

/-- A carry into the minutes comes only after the registers that it changes are read. -/
def Undisturbed (c : Cmos) : Prop :=
  ∀ r, 60 ≤ (c.timeAt (c.readAt .second)).second + (c.readAt r - c.readAt .second) →
    (c.timeAt (c.readAt .second)).nextMinute.get r = (c.timeAt (c.readAt .second)).get r

theorem Cmos.timeAt_add (c : Cmos) (n k : ℕ) :
    c.timeAt (n + k) = ClockTime.tick^[k] (c.timeAt n) := by
  rw [Nat.add_comm, Cmos.timeAt, Function.iterate_add_apply]
  rfl

/-- The seconds are the same after whole minutes. -/
theorem Cmos.values_second (c : Cmos) (n m : ℕ) :
    c.values n .second = c.values m .second ↔ n ≡ m [MOD 60] := by
  change (ClockTime.tick^[n] c.start).second = (ClockTime.tick^[m] c.start).second ↔ _
  rw [ClockTime.ticks_second, ClockTime.ticks_second]
  exact ⟨Nat.ModEq.add_left_cancel' _, Nat.ModEq.add_left _⟩

/-- Within a minute the registers are steady just when no carry disturbs them. -/
theorem steady_iff_undisturbed {c : Cmos} (short : c.instant 13 < c.elapsed + 60) :
    Steady c.values c.readAt .second ↔ Undisturbed c := by
  refine forall_congr' fun r => ?_
  obtain ⟨after, -, before⟩ := c.readAt_within r
  obtain ⟨-, first, -⟩ := c.readAt_within .second
  obtain ⟨k, hk⟩ := Nat.exists_eq_add_of_le after
  rw [hk, Nat.add_sub_cancel_left]
  unfold Cmos.values
  rw [c.timeAt_add]
  by_cases key : r = .second
  · subst key
    obtain rfl : k = 0 := by omega
    have := (c.timeAt (c.readAt .second)).second_lt
    exact iff_of_true rfl fun late => by omega
  · by_cases carry : 60 ≤ (c.timeAt (c.readAt .second)).second + k
    · rw [ClockTime.ticks_beyond _ carry (by omega) key, eq_comm]
      exact ⟨fun same _ => same, fun same => same carry⟩
    · rw [ClockTime.ticks_within _ (by omega), ClockTime.withSecond_get _ _ _ key]
      exact iff_of_true rfl fun late => absurd late carry

/-- In a call within a minute the stored time occurred just when a carry into the minutes came only
after the registers that it changes were read.  In any call it occurred if the other registers were
read as they were with the seconds. -/
theorem rtcGetTime_occurred_iff (time : RtcTime) (c : Cmos) :
    (c.instant 13 < c.elapsed + 60 → (Occurred time c ↔ Undisturbed c)) ∧
      (Steady c.values c.readAt .second → Occurred time c) := by
  rw [occurred_iff_consistent]
  obtain ⟨-, within⟩ := c.readAt_within .second
  refine ⟨fun short => ?_, Steady.consistent within⟩
  rw [← steady_iff_undisturbed short]
  refine consistent_iff_steady within fun n low high same => ?_
  -- the seconds come again only after a minute
  have minutes := (c.values_second _ _).mp same
  unfold Nat.ModEq at minutes
  omega

/-- A clock that ticks once, before an access. -/
def tickingOnce (start : ClockTime) (access : ℕ) : Cmos where
  start := start
  elapsed := 0
  index := 0
  waits k := if k = access then 1 else 0

/-- One second before eleven. -/
def beforeEleven : ClockTime where
  second := 59
  minute := 59
  hour := 10
  day := 1
  month := 1
  year := 26
  second_lt := by decide
  minute_lt := by decide
  hour_lt := by decide
  day_pos := by decide
  day_le := by decide
  month_pos := by decide
  month_le := by decide
  year_lt := by decide

/-- The carry comes when all registers but the year are read. -/
theorem rtcGetTime_occurred_example :
    Occurred ⟨0, 0, 0, 0, 0, 0⟩ (tickingOnce beforeEleven 10) := by
  have holds := (rtcGetTime_occurred_iff ⟨0, 0, 0, 0, 0, 0⟩ (tickingOnce beforeEleven 10)).1
    (by decide)
  refine holds.mpr fun r late => ?_
  cases r <;> revert late <;> decide

/-- The clock goes to eleven o'clock after the seconds are read, and 11:00:59 is stored. -/
theorem carry_between_readings : ¬ ∀ (time : RtcTime) (c : Cmos), Occurred time c := by
  intro claim
  obtain ⟨n, ⟨-, last⟩, stored⟩ := claim ⟨0, 0, 0, 0, 0, 0⟩ (tickingOnce beforeEleven 2)
  have one : n ≤ 1 := last
  interval_cases n
  · revert stored
    decide
  · revert stored
    decide

end ChefOs
