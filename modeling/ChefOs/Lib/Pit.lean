import ChefOs.Lib.Run

/-!
# Interval timer channels

One channel of an 8254 timer: the control word, the two bytes of the reload value, and the periodic
modes 2 and 3 as edges of the output.
-/

namespace Kit.Pit

/-- A channel: its control word, the low byte that waits for the high one, the reload value once it
is complete, and the input pulses until the next edge. -/
structure Channel where
  access : BitVec 2
  mode : BitVec 3
  bcd : Bool
  low : Option (BitVec 8)
  reload : Option (BitVec 16)
  left : ℕ
deriving DecidableEq, Repr

namespace Channel

/-- The input pulses between two edges in a binary mode: 0 stands for 65536. -/
def periodOf (reload : BitVec 16) : ℕ := if reload = 0 then 65536 else reload.toNat

/-- The channel counts from a complete reload value. -/
def load (c : Channel) (reload : BitVec 16) : Channel :=
  { c with low := none, reload := some reload, left := periodOf reload }

/-- A control word.  Access mode 0 only latches the count. -/
def control (c : Channel) (v : BitVec 8) : Channel :=
  if v.extractLsb' 4 2 = 0 then c
  else
    { access := v.extractLsb' 4 2
      mode := v.extractLsb' 1 3
      bcd := v.getLsbD 0
      low := none
      reload := none
      left := 0 }

/-- A byte of the reload value. -/
def data (c : Channel) (v : BitVec 8) : Channel :=
  if c.access = 1 then c.load (v.setWidth 16)
  else if c.access = 2 then c.load (v.setWidth 16 <<< 8)
  else if c.access = 3 then
    match c.low with
    | none => { c with low := some v }
    | some l => c.load (v.setWidth 16 <<< 8 ||| l.setWidth 16)
  else c

/-- An input pulse, and whether the output has an edge.  The least count of the periodic modes is 2;
a channel with a reload value of 1 has no edges here. -/
def pulse (c : Channel) : Channel × Bool :=
  match c.reload with
  | none => (c, false)
  | some reload =>
    if reload = 1 then (c, false)
    else if c.left ≤ 1 then ({ c with left := periodOf reload }, true)
    else ({ c with left := c.left - 1 }, false)

/-- A periodic channel that counts. -/
structure Counts (c : Channel) (period : ℕ) : Prop where
  reload : ∃ r, c.reload = some r ∧ periodOf r = period
  least : 2 ≤ period
  positive : 0 < c.left
  bound : c.left ≤ period

theorem periodOf_pos (r : BitVec 16) : 0 < periodOf r := by
  unfold periodOf
  split_ifs with h
  · norm_num
  · exact Nat.pos_of_ne_zero fun zero => h (BitVec.eq_of_toNat_eq (by simpa using zero))

/-- Every reload value but 1 is a legal count. -/
theorem two_le_periodOf {r : BitVec 16} : 2 ≤ periodOf r ↔ r ≠ 1 := by
  have pos := periodOf_pos r
  have one : periodOf r = 1 ↔ r = 1 := by
    unfold periodOf
    split_ifs with h
    · simp [h]
    · exact ⟨fun eq => BitVec.eq_of_toNat_eq eq, fun eq => by rw [eq]; rfl⟩
  rw [ne_eq, ← one]
  omega

namespace Counts

variable {c : Channel} {period : ℕ}

theorem reload_ne_one (counts : c.Counts period) {r : BitVec 16} (eq : c.reload = some r) :
    r ≠ 1 := by
  obtain ⟨r', eq', rfl⟩ := counts.reload
  obtain rfl := Option.some.inj (eq.symm.trans eq')
  exact two_le_periodOf.mp counts.least

/-- Pulses keep the period. -/
theorem pulse (counts : c.Counts period) : c.pulse.1.Counts period := by
  obtain ⟨r, eq, rfl⟩ := counts.reload
  have least := counts.least
  have positive := counts.positive
  have bound := counts.bound
  unfold Channel.pulse
  simp only [eq, counts.reload_ne_one eq, if_false]
  split_ifs with last
  · exact ⟨⟨r, rfl, rfl⟩, least, periodOf_pos r, le_rfl⟩
  · exact ⟨⟨r, rfl, rfl⟩, least, by simp only; omega, by simp only; omega⟩

/-- A pulse brings the next edge closer, or it is the edge and a new period begins. -/
theorem left_pulse (counts : c.Counts period) :
    c.pulse.2 = true ∧ c.left = 1 ∧ c.pulse.1.left = period ∨
      c.pulse.2 = false ∧ c.pulse.1.left + 1 = c.left := by
  obtain ⟨r, eq, rfl⟩ := counts.reload
  have positive := counts.positive
  have legal := counts.reload_ne_one eq
  by_cases last : c.left ≤ 1
  · left
    simp only [Channel.pulse, eq, legal, last, if_true, if_false, and_true, true_and]
    omega
  · right
    simp only [Channel.pulse, eq, legal, last, if_false, true_and]
    omega

end Counts

/-- The channel without its count. -/
def settings (c : Channel) : Channel := { c with left := 0 }

theorem settings_pulse (c : Channel) : c.pulse.1.settings = c.settings := by
  unfold pulse
  split
  · rfl
  · split_ifs <;> rfl

theorem settings_control (c : Channel) (v : BitVec 8) :
    (c.control v).settings = (c.settings.control v).settings := by
  unfold control
  split_ifs <;> rfl

theorem settings_data (c : Channel) (v : BitVec 8) :
    (c.data v).settings = (c.settings.data v).settings := by
  unfold data
  have access : c.settings.access = c.access := rfl
  have low : c.settings.low = c.low := rfl
  rw [access, low]
  split_ifs
  · rfl
  · rfl
  · rcases c.low with _ | l <;> rfl
  · rfl

end Channel

/-- The channels of a timer. -/
structure Device where
  channels : ℕ → Channel

namespace Device

/-- A write to an I/O port: 0x43 selects a channel with its upper two bits, 0x40 to 0x42 are the
channels.  A read-back command changes nothing here. -/
def out (port : BitVec 16) (v : BitVec 8) (d : Device) : Device :=
  if port = 0x43 then
    let i := (v.extractLsb' 6 2).toNat
    if i = 3 then d else ⟨Function.update d.channels i ((d.channels i).control v)⟩
  else if 0x40 ≤ port ∧ port ≤ 0x42 then
    let i := port.toNat - 0x40
    ⟨Function.update d.channels i ((d.channels i).data v)⟩
  else d

/-- An input pulse of a channel. -/
def pulse (i : ℕ) (d : Device) : Device :=
  ⟨Function.update d.channels i (d.channels i).pulse.1⟩

/-- The device without its counts. -/
def settings (d : Device) : Device := ⟨fun i => (d.channels i).settings⟩

theorem settings_update {d : Device} {i : ℕ} {c : Channel} :
    settings ⟨Function.update d.channels i c⟩ =
      ⟨Function.update d.settings.channels i c.settings⟩ := by
  unfold settings
  congr 1
  funext j
  by_cases eq : j = i
  · subst eq
    simp
  · simp [eq]

theorem settings_pulse (d : Device) (i : ℕ) : (d.pulse i).settings = d.settings := by
  rw [pulse, settings_update, Channel.settings_pulse]
  exact congrArg Device.mk (Function.update_eq_self i d.settings.channels)

theorem settings_out (d : Device) (port : BitVec 16) (v : BitVec 8) :
    (d.out port v).settings = (d.settings.out port v).settings := by
  have again : d.settings.settings = d.settings := rfl
  unfold out
  dsimp only
  split_ifs
  · exact again.symm
  · rw [settings_update, settings_update, again, Channel.settings_control]
    rfl
  · rw [settings_update, settings_update, again, Channel.settings_data]
    rfl
  · exact again.symm

end Device

/-- What happens at the timer. -/
inductive Event
  | pulse (i : ℕ)
  | out (port : BitVec 16) (v : BitVec 8)
deriving DecidableEq, Repr

/-- The port write of an event. -/
def Event.write : Event → Option (BitVec 16 × BitVec 8)
  | .out port v => some (port, v)
  | .pulse _ => none

inductive Step : Device → Event → Device → Prop
  | pulse {d : Device} (i : ℕ) : Step d (.pulse i) (d.pulse i)
  | out {d : Device} (port : BitVec 16) (v : BitVec 8) : Step d (.out port v) (d.out port v)

/-- Only port writes change more than counts. -/
theorem Step.settings {d d' : Device} {e : Event} (step : Step d e d') :
    d'.settings = e.write.elim d.settings fun w => (d.settings.out w.1 w.2).settings := by
  cases step with
  | pulse i => exact d.settings_pulse i
  | out port v => exact d.settings_out port v

theorem Step.out_eq {d d' : Device} {e : Event} {port : BitVec 16} {v : BitVec 8}
    (step : Step d e d') (write : e.write = some (port, v)) : d' = d.out port v := by
  cases step <;> simp only [Event.write, reduceCtorEq, Option.some.injEq, Prod.mk.injEq] at write
  obtain ⟨rfl, rfl⟩ := write
  rfl

/-- A complete reload value has been loaded into the count. -/
def Channel.Sound (c : Channel) : Prop := ∀ r, c.reload = some r → 0 < c.left ∧ c.left ≤ periodOf r

namespace Channel.Sound

variable {c : Channel}

/-- A channel with a legal count counts. -/
theorem counts (sound : c.Sound) {r : BitVec 16} (eq : c.reload = some r) (legal : r ≠ 1) :
    c.Counts (periodOf r) :=
  ⟨⟨r, eq, rfl⟩, two_le_periodOf.mpr legal, (sound r eq).1, (sound r eq).2⟩

theorem pulse (sound : c.Sound) : c.pulse.1.Sound := by
  intro r eq
  have same : c.pulse.1.settings.reload = c.settings.reload := by rw [settings_pulse]
  have before : c.reload = some r := same.symm.trans eq
  by_cases legal : r = 1
  · have still : c.pulse.1 = c := by simp [Channel.pulse, before, legal]
    rw [still]
    exact sound r before
  · have after := (sound.counts before legal).pulse
    exact ⟨after.positive, after.bound⟩

theorem control (sound : c.Sound) (v : BitVec 8) : (c.control v).Sound := by
  intro r eq
  unfold Channel.control at eq ⊢
  split_ifs at eq ⊢
  exact sound r eq

theorem load (c : Channel) (r : BitVec 16) : (c.load r).Sound := by
  intro r' eq
  cases eq
  exact ⟨periodOf_pos r, le_rfl⟩

theorem data (sound : c.Sound) (v : BitVec 8) : (c.data v).Sound := by
  unfold Channel.data
  split_ifs
  · exact load c _
  · exact load c _
  · split
    · exact sound
    · exact load c _
  · exact sound

end Channel.Sound

/-- A control word that selects an access mode makes the channel wait for its reload value. -/
theorem Channel.sound_control (c : Channel) {v : BitVec 8} (access : v.extractLsb' 4 2 ≠ 0) :
    (c.control v).Sound := by
  intro r eq
  rw [Channel.control, if_neg access] at eq
  contradiction

/-- Every event keeps the counts of the channels sound. -/
theorem Step.sound {d d' : Device} {e : Event} (step : Step d e d') {i : ℕ}
    (sound : (d.channels i).Sound) : (d'.channels i).Sound := by
  have update (j : ℕ) (c : Channel) (new : (d.channels j).Sound → c.Sound) :
      (Function.update d.channels j c i).Sound := by
    by_cases eq : i = j
    · subst eq
      simpa using new sound
    · simpa [eq] using sound
  cases step with
  | pulse j => exact update j _ Channel.Sound.pulse
  | out port v =>
    unfold Device.out
    dsimp only
    split_ifs
    · exact sound
    · exact update _ _ fun h => h.control v
    · exact update _ _ fun h => h.data v
    · exact sound

end Kit.Pit
