import ChefOs.Lib.Run

/-!
# Cascaded interrupt controllers

Two 8259A interrupt controllers, edge-triggered and fully nested.  The output of the slave is
request line 2 of the master, as in a PC.
-/

namespace Kit.Pic

/-- The initialization words that follow the first one. -/
inductive InitWord
  | icw2
  | icw3
  | icw4
deriving DecidableEq, Repr

/-- An 8259A: the requests, the lines in service, the mask and the initialization words. -/
structure Chip where
  irr : Finset ℕ
  isr : Finset ℕ
  imr : BitVec 8
  base : BitVec 8
  cascade : BitVec 8
  mode : BitVec 8
  single : Bool
  needs4 : Bool
  expects : Option InitWord
deriving DecidableEq

namespace Chip

/-- A line that asks for service: requested, not masked, and above all lines in service. -/
def Asks (c : Chip) (i : ℕ) : Prop :=
  i ∈ c.irr ∧ c.imr.getLsbD i = false ∧ ∀ j ∈ c.isr, i < j

instance (c : Chip) (i : ℕ) : Decidable (c.Asks i) :=
  inferInstanceAs (Decidable (_ ∧ _ ∧ ∀ j ∈ c.isr, i < j))

/-- The line for which the chip drives its output. -/
def request (c : Chip) : Option ℕ := (List.range 8).find? fun i => c.Asks i

/-- The acknowledge cycle: the line to serve, or line 7 when there is no request any more. -/
def acknowledge (c : Chip) : Chip × ℕ :=
  match c.request with
  | some i =>
    ({ c with irr := c.irr.erase i
              isr := if c.mode.getLsbD 1 then c.isr else insert i c.isr }, i)
  | none => (c, 7)

/-- The highest line in service. -/
def served (c : Chip) : Option ℕ := (List.range 8).find? fun i => i ∈ c.isr

/-- The end of interrupt that names no line. -/
def endOfInterrupt (c : Chip) : Chip :=
  match c.served with
  | some i => { c with isr := c.isr.erase i }
  | none => c

/-- A write to the command port.  The commands that rotate priorities or select a register change
nothing here. -/
def command (c : Chip) (v : BitVec 8) : Chip :=
  if v.getLsbD 4 then
    { c with irr := ∅
             isr := ∅
             imr := 0
             mode := 0
             single := v.getLsbD 1
             needs4 := v.getLsbD 0
             expects := some .icw2 }
  else if v.getLsbD 3 then c
  else if v &&& 0xE0 = 0x20 then c.endOfInterrupt
  else if v &&& 0xE0 = 0x60 then { c with isr := c.isr.erase (v &&& 7).toNat }
  else c

/-- A write to the data port. -/
def data (c : Chip) (v : BitVec 8) : Chip :=
  let last := if c.needs4 then some InitWord.icw4 else none
  match c.expects with
  | none => { c with imr := v }
  | some .icw2 =>
    { c with base := v &&& 0xF8, expects := if c.single then last else some .icw3 }
  | some .icw3 => { c with cascade := v, expects := last }
  | some .icw4 => { c with mode := v, expects := none }

/-- The line of the output, if any, asks, and no line above it does. -/
theorem request_eq_some {c : Chip} {i : ℕ} :
    c.request = some i ↔ i < 8 ∧ c.Asks i ∧ ∀ k < i, ¬ c.Asks k := by
  unfold request
  rw [List.find?_range_eq_some]
  simp [and_left_comm]

theorem request_eq_none {c : Chip} : c.request = none ↔ ∀ i < 8, ¬ c.Asks i := by
  simp [request]

/-- A line that asks drives the output. -/
theorem request_isSome {c : Chip} {i : ℕ} (bound : i < 8) (asks : c.Asks i) :
    c.request.isSome := by
  rw [Option.isSome_iff_ne_none]
  intro idle
  exact request_eq_none.mp idle i bound asks

/-- The end of interrupt leaves nothing in service when one line was. -/
theorem endOfInterrupt_single {c : Chip} {i : ℕ} (bound : i < 8) (service : c.isr ⊆ {i}) :
    c.endOfInterrupt = { c with isr := ∅ } := by
  unfold endOfInterrupt
  rcases Finset.subset_singleton_iff.mp service with empty | one
  · have found : c.served = none := by
      simp [served, empty]
    rw [found]
    simp [← empty]
  · have found : c.served = some i := by
      unfold served
      rw [List.find?_range_eq_some]
      simp only [one, Finset.mem_singleton, decide_true, List.mem_range, bound, true_and]
      intro j below
      simp [below.ne]
    rw [found]
    simp [one]

end Chip

/-- The two controllers of a PC. -/
structure Pair where
  master : Chip
  slave : Chip
deriving DecidableEq

namespace Pair

/-- A rising output of the slave is a request on line 2 of the master. -/
def relay (p q : Pair) : Pair :=
  if q.slave.request.isSome ∧ ¬ p.slave.request.isSome then
    { q with master := { q.master with irr := insert 2 q.master.irr } }
  else q

/-- An edge on a line: 0 to 7 at the master, 8 to 15 at the slave. -/
def raise (n : ℕ) (p : Pair) : Pair :=
  if n < 8 then { p with master := { p.master with irr := insert n p.master.irr } }
  else p.relay { p with slave := { p.slave with irr := insert (n - 8) p.slave.irr } }

/-- A line that falls before it is acknowledged takes its request back. -/
def withdraw (n : ℕ) (p : Pair) : Pair :=
  if n < 8 then { p with master := { p.master with irr := p.master.irr.erase n } }
  else { p with slave := { p.slave with irr := p.slave.irr.erase (n - 8) } }

/-- A write to an I/O port. -/
def out (port : BitVec 16) (v : BitVec 8) (p : Pair) : Pair :=
  if port = 0x20 then { p with master := p.master.command v }
  else if port = 0x21 then { p with master := p.master.data v }
  else if port = 0xA0 then p.relay { p with slave := p.slave.command v }
  else if port = 0xA1 then p.relay { p with slave := p.slave.data v }
  else p

/-- A read of a mask register. -/
def mask (port : BitVec 16) (p : Pair) : BitVec 8 :=
  if port = 0x21 then p.master.imr else p.slave.imr

/-- The acknowledge cycle and the vector that the processor reads, if a controller drives it. -/
def acknowledge (p : Pair) : Pair × Option (BitVec 8) :=
  let (master, i) := p.master.acknowledge
  if master.cascade.getLsbD i then
    if i = 2 ∧ p.slave.cascade &&& 7 = 2 then
      let (slave, j) := p.slave.acknowledge
      (⟨master, slave⟩, some (slave.base + .ofNat 8 j))
    else ({ p with master := master }, none)
  else ({ p with master := master }, some (master.base + .ofNat 8 i))

end Pair

/-- What happens at the pins and the ports of the pair. -/
inductive Event
  | raise (n : ℕ)
  | again (n : ℕ)
  | withdraw (n : ℕ)
  | out (port : BitVec 16) (v : BitVec 8)
deriving DecidableEq, Repr

/-- A device is on every line but line 2 of the master. -/
def Wired (n : ℕ) : Prop := n < 16 ∧ n ≠ 2

/-- A line has a request that is not served yet. -/
def Pair.Pending (p : Pair) (n : ℕ) : Prop :=
  if n < 8 then n ∈ p.master.irr else n - 8 ∈ p.slave.irr

instance (p : Pair) (n : ℕ) : Decidable (p.Pending n) :=
  inferInstanceAs (Decidable (if n < 8 then n ∈ p.master.irr else n - 8 ∈ p.slave.irr))

/-- The port write of an event. -/
def Event.write : Event → Option (BitVec 16 × BitVec 8)
  | .out port v => some (port, v)
  | _ => none

/-- One event.  The request of the slave may go when its output is low. -/
inductive Step : Pair → Event → Pair → Prop
  | raise {p : Pair} {n : ℕ} (wired : Wired n) (idle : ¬ p.Pending n) :
      Step p (.raise n) (p.raise n)
  | again {p : Pair} {n : ℕ} (wired : Wired n) (pending : p.Pending n) : Step p (.again n) p
  | withdraw {p : Pair} {n : ℕ} (wired : Wired n) (pending : p.Pending n) :
      Step p (.withdraw n) (p.withdraw n)
  | fall {p : Pair} (low : p.slave.request = none) : Step p (.withdraw 2) (p.withdraw 2)
  | out {p : Pair} (port : BitVec 16) (v : BitVec 8) : Step p (.out port v) (p.out port v)

/-! ## What the port writes decide -/

/-- The chip without its requests. -/
def Chip.control (c : Chip) : Chip := { c with irr := ∅ }

/-- The pair without its requests. -/
def Pair.control (p : Pair) : Pair := ⟨p.master.control, p.slave.control⟩

namespace Chip

@[simp] theorem request_control (c : Chip) : c.control.request = none := by
  rw [request_eq_none]
  simp [control, Asks]

theorem control_endOfInterrupt (c : Chip) :
    c.endOfInterrupt.control = c.control.endOfInterrupt := by
  have same : c.control.served = c.served := rfl
  unfold endOfInterrupt
  rw [same]
  rcases c.served <;> rfl

theorem control_command (c : Chip) (v : BitVec 8) :
    (c.command v).control = c.control.command v := by
  unfold command
  split_ifs
  · rfl
  · rfl
  · exact control_endOfInterrupt c
  · rfl
  · rfl

theorem control_data (c : Chip) (v : BitVec 8) : (c.data v).control = c.control.data v := by
  simp only [data, control]
  rcases c.expects with _ | _ | _ | _ <;> rfl

end Chip

namespace Pair

theorem relay_idle {p q : Pair} (idle : q.slave.request = none) : p.relay q = q := by
  simp [relay, idle]

@[simp] theorem control_relay (p q : Pair) : (p.relay q).control = q.control := by
  unfold relay
  split <;> rfl

@[simp] theorem slave_relay (p q : Pair) : (p.relay q).slave = q.slave := by
  unfold relay
  split <;> rfl

theorem control_out (p : Pair) (port : BitVec 16) (v : BitVec 8) :
    (p.out port v).control = p.control.out port v := by
  have command := p.slave.control_command v
  have data := p.slave.control_data v
  unfold out
  split_ifs
  · simp [control, Chip.control_command]
  · simp [control, Chip.control_data]
  · rw [control_relay, relay_idle (by simp [control, ← command])]
    simp [control, command]
  · rw [control_relay, relay_idle (by simp [control, ← data])]
    simp [control, data]
  · rfl

theorem control_raise (p : Pair) (n : ℕ) : (p.raise n).control = p.control := by
  unfold raise
  split_ifs
  · rfl
  · rw [control_relay]
    rfl

theorem control_withdraw (p : Pair) (n : ℕ) : (p.withdraw n).control = p.control := by
  unfold withdraw
  split_ifs <;> rfl

end Pair

/-- Only port writes change more than requests. -/
theorem Step.control {p q : Pair} {e : Event} (step : Step p e q) :
    q.control = e.write.elim p.control fun w => p.control.out w.1 w.2 := by
  cases step with
  | raise wired idle => exact p.control_raise _
  | again wired pending => rfl
  | withdraw wired pending => exact p.control_withdraw _
  | fall low => exact p.control_withdraw _
  | out port v => exact p.control_out port v

/-! ## Requests -/

/-- Requests are on the lines that exist. -/
def Chip.InRange (c : Chip) : Prop := ∀ i ∈ c.irr, i < 8

/-- The slave's requests are on its lines, and its output is known to the master. -/
structure Pair.Relayed (p : Pair) : Prop where
  inRange : p.slave.InRange
  relayed : p.slave.request.isSome → 2 ∈ p.master.irr

namespace Chip

theorem irr_endOfInterrupt (c : Chip) : c.endOfInterrupt.irr = c.irr := by
  unfold endOfInterrupt
  split <;> rfl

theorem irr_data (c : Chip) (v : BitVec 8) : (c.data v).irr = c.irr := by
  simp only [data]
  split <;> rfl

/-- A command makes no request. -/
theorem irr_command (c : Chip) (v : BitVec 8) : (c.command v).irr ⊆ c.irr := by
  unfold command
  split_ifs
  · exact Finset.empty_subset _
  · exact subset_rfl
  · rw [irr_endOfInterrupt]
  · exact subset_rfl
  · exact subset_rfl

/-- Only the first initialization word takes requests away. -/
theorem irr_command_operation (c : Chip) {v : BitVec 8} (operation : v.getLsbD 4 = false) :
    (c.command v).irr = c.irr := by
  unfold command
  rw [operation, if_neg Bool.false_ne_true]
  split_ifs
  · rfl
  · exact irr_endOfInterrupt c
  · rfl
  · rfl

theorem InRange.mono {c d : Chip} (range : c.InRange) (fewer : d.irr ⊆ c.irr) : d.InRange :=
  fun i mem => range i (fewer mem)

theorem InRange.insert {c : Chip} (range : c.InRange) {n : ℕ} (bound : n < 8) :
    Chip.InRange { c with irr := insert n c.irr } := by
  intro i mem
  rcases Finset.mem_insert.mp mem with rfl | mem
  · exact bound
  · exact range i mem

end Chip

namespace Pair

theorem master_inRange_relay {p q : Pair} (range : q.master.InRange) :
    (p.relay q).master.InRange := by
  unfold relay
  split_ifs
  · exact range.insert (by norm_num)
  · exact range

/-- The master gets to know of an output that rises. -/
theorem relayed_relay {p q : Pair} (range : q.slave.InRange)
    (known : p.slave.request.isSome → 2 ∈ q.master.irr) : (p.relay q).Relayed := by
  refine ⟨by rwa [slave_relay], fun high => ?_⟩
  rw [slave_relay] at high
  unfold relay
  split_ifs with rising
  · simp
  · exact known (by_contra fun low => rising ⟨high, low⟩)

theorem master_inRange_out {p : Pair} (range : p.master.InRange) (port : BitVec 16)
    (v : BitVec 8) : (p.out port v).master.InRange := by
  unfold out
  split_ifs
  · exact range.mono (p.master.irr_command v)
  · exact range.mono (p.master.irr_data v).subset
  · exact master_inRange_relay range
  · exact master_inRange_relay range
  · exact range

/-- Only the first initialization word of the master can hide the slave from it. -/
theorem Relayed.out {p : Pair} (relayed : p.Relayed) {port : BitVec 16} {v : BitVec 8}
    (other : port = 0x20 → v.getLsbD 4 = false) : (p.out port v).Relayed := by
  unfold Pair.out
  split_ifs with h
  · refine ⟨relayed.inRange, fun high => ?_⟩
    have kept := p.master.irr_command_operation (other h)
    simpa [kept] using relayed.relayed high
  · refine ⟨relayed.inRange, fun high => ?_⟩
    simpa [Chip.irr_data] using relayed.relayed high
  · exact relayed_relay (relayed.inRange.mono (p.slave.irr_command v)) relayed.relayed
  · exact relayed_relay (relayed.inRange.mono (p.slave.irr_data v).subset) relayed.relayed
  · exact relayed

/-- The first initialization word of the slave takes its requests away. -/
theorem relayed_init (p : Pair) {v : BitVec 8} (init : v.getLsbD 4 = true) :
    (p.out 0xA0 v).Relayed := by
  have none : (p.slave.command v).request = none := by
    rw [Chip.request_eq_none]
    simp [Chip.command, init, Chip.Asks]
  have eq : p.out 0xA0 v = { p with slave := p.slave.command v } := by
    simp [Pair.out, relay_idle, none]
  rw [eq]
  refine ⟨fun i mem => ?_, by simp [none]⟩
  simp [Chip.command, init] at mem

end Pair

/-- The master's requests stay on its lines. -/
theorem Step.master_inRange {p q : Pair} {e : Event} (step : Step p e q)
    (range : p.master.InRange) : q.master.InRange := by
  cases step with
  | @raise n wired idle =>
    unfold Pair.raise
    split_ifs with h
    · exact range.insert h
    · exact Pair.master_inRange_relay range
  | again wired pending => exact range
  | @withdraw n wired pending =>
    unfold Pair.withdraw
    split_ifs
    · exact range.mono (Finset.erase_subset _ _)
    · exact range
  | fall low => exact range.mono (Finset.erase_subset _ _)
  | out port v => exact Pair.master_inRange_out range port v

/-- Fewer requests of the slave drive its output no more than before. -/
theorem Chip.request_isSome_mono {c : Chip} {irr : Finset ℕ} (fewer : irr ⊆ c.irr)
    (high : (Chip.request { c with irr := irr }).isSome) : c.request.isSome := by
  obtain ⟨i, eq⟩ := Option.isSome_iff_exists.mp high
  obtain ⟨bound, ⟨mem, clear, above⟩, -⟩ := Chip.request_eq_some.mp eq
  exact Chip.request_isSome bound ⟨fewer mem, clear, above⟩

/-- The master keeps knowing of the slave's output. -/
theorem Step.relayed {p q : Pair} {e : Event} (step : Step p e q) (relayed : p.Relayed)
    (other : ∀ v, e.write = some (0x20, v) → v.getLsbD 4 = false) : q.Relayed := by
  cases step with
  | @raise n wired idle =>
    unfold Pair.raise
    split_ifs with h
    · exact ⟨relayed.inRange, fun high => Finset.mem_insert_of_mem (relayed.relayed high)⟩
    · refine Pair.relayed_relay (relayed.inRange.insert ?_) relayed.relayed
      have := wired.1
      omega
  | again wired pending => exact relayed
  | @withdraw n wired pending =>
    unfold Pair.withdraw
    split_ifs with h
    · refine ⟨relayed.inRange, fun high => ?_⟩
      exact Finset.mem_erase.mpr ⟨wired.2.symm, relayed.relayed high⟩
    · refine ⟨relayed.inRange.mono (Finset.erase_subset _ _), fun high => ?_⟩
      exact relayed.relayed (Chip.request_isSome_mono (Finset.erase_subset _ _) high)
  | fall low =>
    refine ⟨relayed.inRange, fun high => ?_⟩
    have slave : (p.withdraw 2).slave = p.slave := rfl
    rw [slave, low] at high
    contradiction
  | out port v =>
    apply relayed.out
    rintro rfl
    exact other v rfl

/-- The step of a port write. -/
theorem Step.out_eq {p q : Pair} {e : Event} {port : BitVec 16} {v : BitVec 8} (step : Step p e q)
    (write : e.write = some (port, v)) : q = p.out port v := by
  cases step <;> simp only [Event.write, reduceCtorEq, Option.some.injEq, Prod.mk.injEq] at write
  obtain ⟨rfl, rfl⟩ := write
  rfl

/-- The master's requests stay on its lines in a run. -/
theorem run_master_inRange {p q : Pair} {es : List Event} (run : Run Step p es q)
    (range : p.master.InRange) : q.master.InRange :=
  run.invariant (fun _ _ _ range step => step.master_inRange range) range

/-- The master keeps knowing of the slave's output while it is not initialized again. -/
theorem run_relayed {p q : Pair} {es : List Event} (run : Run Step p es q) (relayed : p.Relayed)
    (other : ∀ w ∈ es.filterMap Event.write, w.1 = 0x20 → w.2.getLsbD 4 = false) :
    q.Relayed := by
  induction run with
  | nil p => exact relayed
  | @cons p r q e es first _ ih =>
    have here (v : BitVec 8) (written : e.write = some (0x20, v)) : v.getLsbD 4 = false :=
      other (0x20, v) (List.mem_filterMap.mpr ⟨e, List.mem_cons_self, written⟩) rfl
    refine ih (first.relayed relayed here) fun w mem => other w ?_
    rw [List.filterMap_cons]
    split
    · exact mem
    · exact List.mem_cons_of_mem _ mem

/-! ## Pending lines -/

namespace Pair

/-- What the slave tells the master is no request of a device. -/
theorem pending_relay {p q : Pair} {n : ℕ} (wired : Wired n) :
    (p.relay q).Pending n ↔ q.Pending n := by
  unfold relay
  split_ifs
  · simp [Pending, wired.2]
  · rfl

theorem pending_raise {p : Pair} {m n : ℕ} (wired : Wired m) :
    (p.raise n).Pending m ↔ m = n ∨ p.Pending m := by
  by_cases small : n < 8
  · rw [raise, if_pos small]
    by_cases small' : m < 8
    · simp [Pending, small']
    · have ne : m ≠ n := by omega
      simp [Pending, small', ne]
  · rw [raise, if_neg small, pending_relay wired]
    by_cases small' : m < 8
    · have ne : m ≠ n := by omega
      simp [Pending, small', ne]
    · have same : m - 8 = n - 8 ↔ m = n := by omega
      simp [Pending, small', same]

theorem pending_withdraw {p : Pair} {m n : ℕ} :
    (p.withdraw n).Pending m ↔ m ≠ n ∧ p.Pending m := by
  by_cases small : n < 8
  · by_cases small' : m < 8
    · simp [withdraw, small, Pending, small']
    · have ne : m ≠ n := by omega
      simp [withdraw, small, Pending, small', ne]
  · by_cases small' : m < 8
    · have ne : m ≠ n := by omega
      simp [withdraw, small, Pending, small', ne]
    · have same : m - 8 = n - 8 ↔ m = n := by omega
      simp [withdraw, small, Pending, small', same]

/-- The end of interrupt at the master. -/
theorem out_master (p : Pair) :
    p.out 0x20 0x20 = { p with master := p.master.endOfInterrupt } := by
  simp [out, Chip.command]

/-- The end of interrupt at the slave. -/
theorem out_slave (p : Pair) :
    p.out 0xA0 0x20 = p.relay { p with slave := p.slave.endOfInterrupt } := by
  simp [out, Chip.command]

/-- An end of interrupt keeps the requests. -/
theorem pending_out_master {p : Pair} {n : ℕ} :
    (p.out 0x20 0x20).Pending n ↔ p.Pending n := by
  rw [out_master]
  simp [Pending, Chip.irr_endOfInterrupt]

theorem pending_out_slave {p : Pair} {n : ℕ} (wired : Wired n) :
    (p.out 0xA0 0x20).Pending n ↔ p.Pending n := by
  rw [out_slave, pending_relay wired]
  simp [Pending, Chip.irr_endOfInterrupt]

end Pair

end Kit.Pic
