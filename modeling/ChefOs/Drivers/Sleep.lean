import ChefOs.Drivers.Timer

/-!
# Sleeping

`timer_sleep_ms` while the timer ticks through the interrupt controllers: at least as many ticks as
asked for, each of them a period of the timer after the one before.
-/

namespace ChefOs

open Kit Pic

/-- Where `timer_sleep_ms` is. -/
inductive Sleep
  | checking
  | halting
  | asleep
  | done
deriving DecidableEq, Repr

/-- The interrupt system, channel 0 of the timer, `s_ticks`, and the caller of
`timer_sleep_ms`. -/
structure ClockState where
  system : InterruptState
  channel : Pit.Channel
  sTicks : BitVec 64
  sleep : Sleep

/-- `wake` is an acknowledge cycle that ends a `hlt`, `tick` is a call of `timer_callback`. -/
inductive ClockEvent
  | pulse
  | system (e : InterruptEvent)
  | wake (v : BitVec 8)
  | tick
  | check
  | halt
deriving DecidableEq

/-- An edge of the timer is an edge on line 0. -/
def InterruptState.timerEdge (s : InterruptState) : InterruptState :=
  if s.pics.Pending 0 then s else { s with pics := s.pics.raise 0 }

/-- A step of the timer, of the interrupt system, or of `timer_sleep_ms`. -/
inductive ClockStep (sHandlers : ℕ → Option IsrHandler) (start ms : BitVec 64) :
    ClockState → ClockEvent → ClockState → Prop
  | pulse {s : ClockState} :
      ClockStep sHandlers start ms s .pulse
        { s with
          channel := s.channel.pulse.1
          system := if s.channel.pulse.2 then s.system.timerEdge else s.system }
  | system {s : ClockState} {e : InterruptEvent} {system : InterruptState}
      (timer : e ≠ .line (.raise 0) ∧ e ≠ .line (.again 0))
      (other : e = .handler → s.system.phase ≠ .entered 32)
      (awake : (∃ v, e = .acknowledge v) → s.sleep ≠ .asleep)
      (step : InterruptStep sHandlers s.system e system) :
      ClockStep sHandlers start ms s (.system e) { s with system := system }
  | wake {s : ClockState} {v : BitVec 8} {system : InterruptState} (asleep : s.sleep = .asleep)
      (step : InterruptStep sHandlers s.system (.acknowledge v) system) :
      ClockStep sHandlers start ms s (.wake v) { s with system := system, sleep := .checking }
  | tick {s : ClockState} {system : InterruptState} (entered : s.system.phase = .entered 32)
      (step : InterruptStep sHandlers s.system .handler system) :
      ClockStep sHandlers start ms s .tick { s with system := system, sTicks := s.sTicks + 1 }
  | check {s : ClockState} (checking : s.sleep = .checking) (running : s.system.phase = .running) :
      ClockStep sHandlers start ms s .check
        { s with sleep := if s.sTicks - start < ms then .halting else .done }
  | halt {s : ClockState} (halting : s.sleep = .halting) (running : s.system.phase = .running) :
      ClockStep sHandlers start ms s .halt { s with sleep := .asleep }

/-- A tick whose handler has not run yet. -/
def Phase.accepted : Phase → ℕ
  | .entered v => if v = 32 then 1 else 0
  | _ => 0

/-- The ticks on their way from the timer to the counter. -/
noncomputable def InterruptState.inFlight (s : InterruptState) : ℕ :=
  s.requests.held 0 + s.phase.accepted

section

variable {sHandlers : ℕ → Option IsrHandler} {a1 a2 : BitVec 8} {s t : InterruptState}

theorem Requests.held_le (r : Requests) (n : ℕ) : r.held n ≤ 1 := by
  unfold Requests.held
  split_ifs <;> simp

/-- An edge of the timer is one more tick, or it is lost in one that is pending. -/
theorem timerEdge_good (good : s.Good a1 a2) :
    s.timerEdge.Good a1 a2 ∧ s.timerEdge.inFlight ≤ s.inFlight + 1 := by
  have wired : Wired 0 := by simp [Wired]
  unfold InterruptState.timerEdge
  split_ifs with pending
  · exact ⟨good, Nat.le_succ _⟩
  · refine ⟨line_good good rfl (.raise wired pending), ?_⟩
    have bound := Requests.held_le
      (InterruptState.requests { s with pics := s.pics.raise 0 }) 0
    unfold InterruptState.inFlight
    dsimp only
    omega

/-- A tick is accepted by the acknowledge cycle of vector 32. -/
theorem accepted_step {e : InterruptEvent} (step : InterruptStep sHandlers s e t)
    (other : e = .handler → s.phase ≠ .entered 32) :
    t.phase.accepted = s.phase.accepted + if e = .acknowledge 32 then 1 else 0 := by
  cases step with
  | line edge step => simp
  | flag b running => simp
  | sample running enabled high => simp [running, Phase.accepted]
  | @acknowledge pics v sampled vector =>
    simp [sampled, Phase.accepted]
  | @handler v regs regs' ports entered number returns =>
    have ne : v ≠ 32#8 := by
      rintro rfl
      exact other rfl entered
    simp [entered, Phase.accepted, ne]
  | out leaving => simp [leaving, Phase.accepted]
  | iret leaving => simp [leaving, Phase.accepted]

/-- A step of the system makes no tick. -/
theorem inFlight_step (keep : KeepNumber sHandlers) {e : InterruptEvent} (good : s.Good a1 a2)
    (step : InterruptStep sHandlers s e t) (timer : e ≠ .line (.raise 0))
    (other : e = .handler → s.phase ≠ .entered 32) :
    t.Good a1 a2 ∧ t.inFlight ≤ s.inFlight := by
  obtain ⟨good', request⟩ := interruptStep_refines keep good step
  have conserves := requestStep_conserves request (fun m mem => mem.1)
    (show Wired 0 by simp [Wired]) (by norm_num) (by norm_num)
  have accepted := accepted_step step other
  have none : [e].count (.line (.raise 0)) = 0 := List.count_eq_zero.mpr (by simpa using timer.symm)
  have vector : [e].count (.acknowledge (vectorOf 0)) = if e = .acknowledge 32 then 1 else 0 := by
    simp [List.count_singleton, vectorOf]
  rw [none, vector] at conserves
  refine ⟨good', ?_⟩
  unfold InterruptState.inFlight
  omega

/-- The handler of a tick takes it from those on their way. -/
theorem inFlight_tick (keep : KeepNumber sHandlers) (good : s.Good a1 a2)
    (entered : s.phase = .entered 32) (step : InterruptStep sHandlers s .handler t) :
    t.Good a1 a2 ∧ t.inFlight + 1 = s.inFlight ∧ t.phase.accepted = 0 := by
  obtain ⟨good', request⟩ := interruptStep_refines keep good step
  have conserves := requestStep_conserves request (fun m mem => mem.1)
    (show Wired 0 by simp [Wired]) (by norm_num) (by norm_num)
  have left : t.phase.accepted = 0 := by
    cases step with
    | handler => rfl
  simp only [List.count_singleton, beq_iff_eq, reduceCtorEq, if_false, Nat.zero_add,
    Nat.add_zero] at conserves
  have began : s.phase.accepted = 1 := by
    rw [entered]
    rfl
  refine ⟨good', ?_, left⟩
  unfold InterruptState.inFlight
  omega

end

/-! ## The invariant -/

section

variable {sHandlers : ℕ → Option IsrHandler} {a1 a2 : BitVec 8} {start ms : BitVec 64}
  {s t : ClockState} {period : ℕ}

/-- The input pulses that went into the ticks on their way and into the present count. -/
noncomputable def ClockState.energy (period : ℕ) (s : ClockState) : ℕ :=
  period * s.system.inFlight + (period - s.channel.left)

/-- How often the timer has ended a `hlt`. -/
def wakes (es : List ClockEvent) : ℕ := es.count (.wake 32)

/-- The ticks that came while the processor was awake. -/
def awakeTicks (es : List ClockEvent) : ℕ := es.count (.system (.acknowledge 32))

/-- What holds after the events `es` of a sleep that began with the energy `initial`. -/
structure Sleeping (a1 a2 : BitVec 8) (start ms : BitVec 64) (period initial : ℕ)
    (es : List ClockEvent) (s : ClockState) : Prop where
  good : s.system.Good a1 a2
  counts : s.channel.Counts period
  ticks : s.sTicks = start + .ofNat 64 (es.count .tick)
  energy : s.energy period + period * es.count .tick ≤ initial + es.count .pulse
  accepted : es.count .tick + s.system.phase.accepted = wakes es + awakeTicks es
  done : s.sleep = .done → ms.toNat ≤ es.count .tick
  woken : es.count .tick < 2 ^ 64 → wakes es ≤ ms.toNat
  halted : es.count .tick < 2 ^ 64 → s.sleep = .halting ∨ s.sleep = .asleep →
    wakes es < ms.toNat

/-- A pulse adds one to the energy. -/
theorem energy_pulse (good : s.system.Good a1 a2) (counts : s.channel.Counts period)
    {system : InterruptState}
    (edge : system = if s.channel.pulse.2 then s.system.timerEdge else s.system) :
    system.Good a1 a2 ∧
      ClockState.energy period { s with channel := s.channel.pulse.1, system := system } ≤
        s.energy period + 1 := by
  have bound := counts.bound
  have positive := counts.positive
  obtain ⟨good', more⟩ := timerEdge_good good
  rcases counts.left_pulse with ⟨high, last, again⟩ | ⟨low, left⟩
  · rw [high, if_pos rfl] at edge
    subst edge
    have product := Nat.mul_le_mul_left period more
    rw [Nat.mul_add, Nat.mul_one] at product
    refine ⟨good', ?_⟩
    simp only [ClockState.energy, again, last]
    omega
  · rw [low, if_neg Bool.false_ne_true] at edge
    subst edge
    refine ⟨good, ?_⟩
    simp only [ClockState.energy]
    omega

theorem count_snoc (es : List ClockEvent) (a b : ClockEvent) :
    (es ++ [a]).count b = es.count b + if a = b then 1 else 0 := by
  simp [List.count_singleton]

namespace Sleeping

variable {initial : ℕ} {es : List ClockEvent}
  (h : Sleeping a1 a2 start ms period initial es s)

include h

/-- A pulse feeds the timer. -/
theorem pulse {system : InterruptState}
    (edge : system = if s.channel.pulse.2 then s.system.timerEdge else s.system) :
    Sleeping a1 a2 start ms period initial (es ++ [.pulse])
      { s with channel := s.channel.pulse.1, system := system } := by
  obtain ⟨good', more⟩ := energy_pulse h.good h.counts edge
  have kept : system.phase = s.system.phase := by
    rw [edge]
    unfold InterruptState.timerEdge
    split_ifs <;> rfl
  have energy := h.energy
  constructor <;> simp only [wakes, awakeTicks, count_snoc, reduceCtorEq, if_true, if_false,
    Nat.add_zero, kept]
  case good => exact good'
  case counts => exact h.counts.pulse
  case ticks => exact h.ticks
  case energy => omega
  case accepted => exact h.accepted
  case done => exact h.done
  case woken => exact h.woken
  case halted => exact h.halted

/-- A step of the interrupt system moves the ticks on. -/
theorem system (keep : KeepNumber sHandlers) {e : InterruptEvent} {system : InterruptState}
    (timer : e ≠ .line (.raise 0)) (other : e = .handler → s.system.phase ≠ .entered 32)
    (step : InterruptStep sHandlers s.system e system) :
    Sleeping a1 a2 start ms period initial (es ++ [.system e]) { s with system := system } := by
  obtain ⟨good', fewer⟩ := inFlight_step keep h.good step timer other
  have phase := accepted_step step other
  have product := Nat.mul_le_mul_left period fewer
  have energy := h.energy
  have accepted := h.accepted
  unfold ClockState.energy at energy
  unfold wakes awakeTicks at accepted
  constructor <;> simp only [wakes, awakeTicks, count_snoc, reduceCtorEq, if_false, Nat.add_zero,
    ClockEvent.system.injEq, ClockState.energy]
  case good => exact good'
  case counts => exact h.counts
  case ticks => exact h.ticks
  case energy => omega
  case accepted => omega
  case done => exact h.done
  case woken => exact h.woken
  case halted => exact h.halted

/-- An acknowledge cycle ends a `hlt`. -/
theorem wake (keep : KeepNumber sHandlers) {v : BitVec 8} {system : InterruptState}
    (asleep : s.sleep = .asleep) (step : InterruptStep sHandlers s.system (.acknowledge v) system) :
    Sleeping a1 a2 start ms period initial (es ++ [.wake v])
      { s with system := system, sleep := .checking } := by
  obtain ⟨good', fewer⟩ := inFlight_step keep h.good step (by simp) (by simp)
  have phase := accepted_step step (by simp)
  have product := Nat.mul_le_mul_left period fewer
  have energy := h.energy
  have accepted := h.accepted
  unfold ClockState.energy at energy
  unfold wakes awakeTicks at accepted
  simp only [InterruptEvent.acknowledge.injEq] at phase
  constructor <;> simp only [wakes, awakeTicks, count_snoc, reduceCtorEq, if_false, Nat.add_zero,
    ClockEvent.wake.injEq, false_or, false_implies, implies_true, ClockState.energy]
  case good => exact good'
  case counts => exact h.counts
  case ticks => exact h.ticks
  case energy => omega
  case accepted => omega
  case woken =>
    intro small
    have room := h.halted small (.inr asleep)
    unfold wakes at room
    split_ifs <;> omega

/-- `timer_callback` counts a tick that was on its way. -/
theorem tick (keep : KeepNumber sHandlers) {system : InterruptState}
    (entered : s.system.phase = .entered 32)
    (step : InterruptStep sHandlers s.system .handler system) :
    Sleeping a1 a2 start ms period initial (es ++ [.tick])
      { s with system := system, sTicks := s.sTicks + 1 } := by
  obtain ⟨good', fewer, none⟩ := inFlight_tick keep h.good entered step
  have one : s.system.phase.accepted = 1 := by
    rw [entered]
    rfl
  have energy := h.energy
  have accepted := h.accepted
  unfold ClockState.energy at energy
  unfold wakes awakeTicks at accepted
  rw [← fewer, Nat.mul_add, Nat.mul_one] at energy
  constructor <;> simp only [wakes, awakeTicks, count_snoc, reduceCtorEq, if_true, if_false,
    Nat.add_zero, ClockState.energy, Nat.mul_add, Nat.mul_one]
  case good => exact good'
  case counts => exact h.counts
  case ticks =>
    rw [h.ticks, BitVec.add_assoc, BitVec.ofNat_add]
    rfl
  case energy => omega
  case accepted => omega
  case done => exact fun finished => (h.done finished).trans (Nat.le_succ _)
  case woken => exact fun small => h.woken (by omega)
  case halted => exact fun small waits => h.halted (by omega) waits

/-- The loop condition reads the ticks since the start. -/
theorem check (running : s.system.phase = .running) :
    Sleeping a1 a2 start ms period initial (es ++ [.check])
      { s with sleep := if s.sTicks - start < ms then .halting else .done } := by
  have elapsed : (s.sTicks - start).toNat = es.count .tick % 2 ^ 64 := by
    rw [h.ticks, BitVec.add_comm, BitVec.add_sub_cancel, BitVec.toNat_ofNat]
  have read : s.sTicks - start < ms ↔ es.count .tick % 2 ^ 64 < ms.toNat := by
    rw [BitVec.lt_def, elapsed]
  have none : s.system.phase.accepted = 0 := by
    rw [running]
    rfl
  have accepted := h.accepted
  unfold wakes awakeTicks at accepted
  constructor <;> simp only [wakes, awakeTicks, count_snoc, reduceCtorEq, if_false, Nat.add_zero]
  case good => exact h.good
  case counts => exact h.counts
  case ticks => exact h.ticks
  case energy => exact h.energy
  case accepted => exact h.accepted
  case done =>
    intro finished
    split_ifs at finished with less
    rw [read, not_lt] at less
    exact less.trans (Nat.mod_le ..)
  case woken => exact h.woken
  case halted =>
    intro small waits
    split_ifs at waits with less
    · rw [read, Nat.mod_eq_of_lt small] at less
      omega
    · simp at waits

/-- The caller halts. -/
theorem halt (halting : s.sleep = .halting) :
    Sleeping a1 a2 start ms period initial (es ++ [.halt]) { s with sleep := .asleep } := by
  constructor <;> simp only [wakes, awakeTicks, count_snoc, reduceCtorEq, if_false, Nat.add_zero,
    false_implies, false_or, forall_const]
  case good => exact h.good
  case counts => exact h.counts
  case ticks => exact h.ticks
  case energy => exact h.energy
  case accepted => exact h.accepted
  case woken => exact h.woken
  case halted => exact fun small => h.halted small (.inl halting)

/-- A step of the clock keeps the account. -/
theorem step (keep : KeepNumber sHandlers) {e : ClockEvent}
    (step : ClockStep sHandlers start ms s e t) :
    Sleeping a1 a2 start ms period initial (es ++ [e]) t := by
  cases step with
  | pulse => exact h.pulse rfl
  | system timer other awake step => exact h.system keep timer.1 other step
  | wake asleep step => exact h.wake keep asleep step
  | tick entered step => exact h.tick keep entered step
  | check checking running => exact h.check running
  | halt halting running => exact h.halt halting

end Sleeping

/-- A sleep begins in interruptible code. -/
theorem sleeping_start (good : s.system.Good a1 a2) (running : s.system.phase = .running)
    (counts : s.channel.Counts period) (checking : s.sleep = .checking) :
    Sleeping a1 a2 s.sTicks ms period (s.energy period) [] s := by
  constructor <;> simp [wakes, awakeTicks, checking, running, Phase.accepted, good, counts]

theorem energy_start (running : s.system.phase = .running) (counts : s.channel.Counts period) :
    s.energy period < 2 * period := by
  have held := Requests.held_le s.system.requests 0
  have product := Nat.mul_le_mul_left period held
  have positive := counts.positive
  have bound := counts.bound
  simp only [ClockState.energy, InterruptState.inFlight, running, Phase.accepted, Nat.add_zero]
  omega

/-- When `timer_sleep_ms` has returned, as many ticks have been counted as asked for, each but the
first two a period of the timer after the one before.  The timer never wakes the processor more
often than that, and the other ticks came while the caller was awake. -/
theorem timerSleepMs_lasts {b : InterruptState} {bs : List InterruptEvent} {es : List ClockEvent}
    (keep : KeepNumber sHandlers) (remapped : Remapped a1 a2 32 40 b.pics)
    (boot : b.phase = .running) (before : Run (InterruptStep sHandlers) b bs s.system)
    (running : s.system.phase = .running) (counts : s.channel.Counts period)
    (checking : s.sleep = .checking) (run : Run (ClockStep sHandlers s.sTicks ms) s es t) :
    (t.sleep = .done →
      ms.toNat ≤ es.count .tick ∧ period * ms.toNat < es.count .pulse + 2 * period) ∧
      (es.count .tick < 2 ^ 64 →
        wakes es ≤ ms.toNat ∧ es.count .tick ≤ ms.toNat + awakeTicks es) := by
  have good : s.system.Good a1 a2 := before.invariant (I := InterruptState.Good a1 a2)
    (fun _ _ _ good step => (interruptStep_refines keep good step).1)
    (good_of_remapped remapped boot)
  have account := run.history
    (I := Sleeping a1 a2 s.sTicks ms period (s.energy period))
    (fun _ _ _ _ h step => h.step keep step)
    (sleeping_start good running counts checking)
  rw [List.nil_append] at account
  have initial := energy_start running counts
  have energy := account.energy
  have accepted := account.accepted
  refine ⟨fun done => ?_, fun small => ?_⟩
  · have enough := account.done done
    have product := Nat.mul_le_mul_left period enough
    exact ⟨enough, by omega⟩
  · have woken := account.woken small
    exact ⟨woken, by omega⟩

/-- One period before the first tick. -/
def sleeper : ClockState where
  system := quietSystem
  channel := { timerChannel 1193 with left := 1 }
  sTicks := 0xFFFFFFFFFFFFFFFF
  sleep := .checking

/-- A sleep for one tick, in which the counter wraps around. -/
def sleepEvents : List ClockEvent :=
  [.check, .halt, .pulse, .system .sample, .wake 32, .tick, .system (.out 0x20 0x20),
    .system .iret, .check]

theorem run_sleep : ∃ t : ClockState,
    Run (ClockStep driverHandlers sleeper.sTicks 1) sleeper sleepEvents t ∧ t.sleep = .done := by
  let regs := { readRegisters (fun _ => 0) 0 with intNo := 32 }
  let pics := quietSystem.pics.raise 0
  have handled : isrHandler driverHandlers regs = some (regs, [(0x20, 0x20)]) := by decide
  have vector : pics.acknowledge = (pics.acknowledge.1, some 32) := by decide
  have high : pics.master.request.isSome := by decide
  refine ⟨_, .cons (.check rfl rfl) (.cons (.halt rfl rfl) (.cons .pulse
    (.cons (.system (by simp) (by simp) (by simp) (.sample rfl rfl high))
    (.cons (.wake rfl (.acknowledge rfl vector)) (.cons (.tick rfl (.handler rfl rfl handled))
    (.cons (.system (by simp) (by simp) (by simp) (.out rfl))
    (.cons (.system (by simp) (by simp) (by simp) (.iret rfl))
    (.cons (.check rfl rfl) (.nil _))))))))), ?_⟩
  simp [sleeper]

theorem timerSleepMs_lasts_tick :
    1 ≤ sleepEvents.count .tick ∧ 1193 * 1 < sleepEvents.count .pulse + 2 * 1193 := by
  obtain ⟨t, run, done⟩ := run_sleep
  have counts : sleeper.channel.Counts 1193 := ⟨⟨1193, rfl, rfl⟩, by decide, by decide, by decide⟩
  exact (timerSleepMs_lasts keepNumber_drivers remapped_quietSystem rfl (.nil _) rfl counts rfl
    run).1 done

end

end ChefOs
