import ChefOs.Arch.Pic

/-!
# Hardware interrupts

The processor, the two controllers and `isr_handler` as one system: the lines rise and fall at any
time, and the handler's ends of interrupt are separate port writes.  The system is compared with a
latch for each line, served in the order of the priorities.
-/

namespace ChefOs

open Kit Pic

/-! ## The system -/

/-- Where the processor is: in interruptible code, between the sampling of its interrupt pin and the
acknowledge cycle, before or in the handler of a vector, or after it with ports to write. -/
inductive Phase
  | running
  | sampled
  | entered (v : BitVec 8)
  | leaving (v : BitVec 8) (ports : List (BitVec 16 × BitVec 8))

/-- `enabled` is the interrupt flag of the interruptible code.  Every gate clears the flag, and
`iretq` restores it. -/
structure InterruptState where
  pics : Pair
  enabled : Bool
  phase : Phase

inductive InterruptEvent
  | line (e : Pic.Event)
  | flag (b : Bool)
  | sample
  | acknowledge (v : BitVec 8)
  | handler
  | out (port : BitVec 16) (v : BitVec 8)
  | iret
deriving DecidableEq

/-- A step of a device, of the controllers or of the processor. -/
inductive InterruptStep (sHandlers : ℕ → Option IsrHandler) :
    InterruptState → InterruptEvent → InterruptState → Prop
  | line {s : InterruptState} {e : Pic.Event} {pics : Pair} (edge : e.write = none)
      (step : Pic.Step s.pics e pics) :
      InterruptStep sHandlers s (.line e) { s with pics := pics }
  | flag {s : InterruptState} (b : Bool) (running : s.phase = .running) :
      InterruptStep sHandlers s (.flag b) { s with enabled := b }
  | sample {s : InterruptState} (running : s.phase = .running) (enabled : s.enabled = true)
      (high : s.pics.master.request.isSome) :
      InterruptStep sHandlers s .sample { s with phase := .sampled }
  | acknowledge {s : InterruptState} {pics : Pair} {v : BitVec 8} (sampled : s.phase = .sampled)
      (vector : s.pics.acknowledge = (pics, some v)) :
      InterruptStep sHandlers s (.acknowledge v) { s with pics := pics, phase := .entered v }
  | handler {s : InterruptState} {v : BitVec 8} {regs regs' : Registers}
      {ports : List (BitVec 16 × BitVec 8)} (entered : s.phase = .entered v)
      (number : regs.intNo = v.setWidth 64)
      (returns : isrHandler sHandlers regs = some (regs', ports)) :
      InterruptStep sHandlers s .handler { s with phase := .leaving v ports }
  | out {s : InterruptState} {v : BitVec 8} {port : BitVec 16} {value : BitVec 8}
      {ports : List (BitVec 16 × BitVec 8)}
      (leaving : s.phase = .leaving v ((port, value) :: ports)) :
      InterruptStep sHandlers s (.out port value)
        { s with pics := s.pics.out port value, phase := .leaving v ports }
  | iret {s : InterruptState} {v : BitVec 8} (leaving : s.phase = .leaving v []) :
      InterruptStep sHandlers s .iret { s with phase := .running }

/-! ## What it should do -/

/-- The place of a line in the order of service: the slave's lines come for line 2. -/
def rank (n : ℕ) : ℕ := if n < 2 then n else if n < 8 then n + 8 else n - 6

/-- The lines with a request, and the vector that is being served. -/
structure Requests where
  pending : Set ℕ
  serving : Option (BitVec 8)

/-- A latch for each line.  Vectors 39 and 47 may come without a request. -/
inductive RequestStep (masked : ℕ → Prop) : Requests → InterruptEvent → Requests → Prop
  | raise {r : Requests} {n : ℕ} (idle : n ∉ r.pending) :
      RequestStep masked r (.line (.raise n)) { r with pending := insert n r.pending }
  | again {r : Requests} {n : ℕ} (pending : n ∈ r.pending) :
      RequestStep masked r (.line (.again n)) r
  | withdraw {r : Requests} {n : ℕ} (pending : n ∈ r.pending) :
      RequestStep masked r (.line (.withdraw n)) { r with pending := r.pending \ {n} }
  | fall {r : Requests} : RequestStep masked r (.line (.withdraw 2)) r
  | flag {r : Requests} (b : Bool) (running : r.serving = none) : RequestStep masked r (.flag b) r
  | sample {r : Requests} (running : r.serving = none) : RequestStep masked r .sample r
  | serve {r : Requests} {n : ℕ} (running : r.serving = none) (pending : n ∈ r.pending)
      (unmasked : ¬ masked n) (first : ∀ m ∈ r.pending, ¬ masked m → rank n ≤ rank m) :
      RequestStep masked r (.acknowledge (.ofNat 8 (32 + n)))
        ⟨r.pending \ {n}, some (.ofNat 8 (32 + n))⟩
  | spurious {r : Requests} (running : r.serving = none) (none : ∀ m ∈ r.pending, masked m) :
      RequestStep masked r (.acknowledge 39) { r with serving := some 39 }
  | spuriousSlave {r : Requests} (running : r.serving = none)
      (none : ∀ m ∈ r.pending, ¬ masked m → 3 ≤ m ∧ m < 8) :
      RequestStep masked r (.acknowledge 47) { r with serving := some 47 }
  | handler {r : Requests} {v : BitVec 8} (serving : r.serving = some v) :
      RequestStep masked r .handler r
  | out {r : Requests} {v : BitVec 8} (port : BitVec 16) (value : BitVec 8)
      (serving : r.serving = some v) : RequestStep masked r (.out port value) r
  | iret {r : Requests} {v : BitVec 8} (serving : r.serving = some v) :
      RequestStep masked r .iret { r with serving := none }

/-- A line that a mask of the controllers keeps from the processor. -/
def Masked (a1 a2 : BitVec 8) (n : ℕ) : Prop :=
  if n < 8 then a1.getLsbD n = true else a1.getLsbD 2 = true ∨ a2.getLsbD (n - 8) = true

/-- The vector that is being served. -/
def Phase.serving : Phase → Option (BitVec 8)
  | .running | .sampled => none
  | .entered v | .leaving v _ => some v

/-- What the system has latched and is serving. -/
def InterruptState.requests (s : InterruptState) : Requests where
  pending := {n | Wired n ∧ s.pics.Pending n}
  serving := s.phase.serving

/-- Handlers that leave the number of the interrupt as it is. -/
def KeepNumber (sHandlers : ℕ → Option IsrHandler) : Prop :=
  ∀ n handler, sHandlers n = some handler →
    ∀ regs regs', handler regs = some regs' → regs'.intNo = regs.intNo

/-- `timer_callback`, `keyboard_callback` and `mouse_callback` return and do not touch `*regs`. -/
def driverHandlers (n : ℕ) : Option IsrHandler := if n ∈ [32, 33, 44] then some some else none

theorem keepNumber_drivers : KeepNumber driverHandlers := by
  intro n handler found regs regs' called
  unfold driverHandlers at found
  split_ifs at found
  cases found
  cases called
  rfl

/-! ## The invariant -/

/-- In service is at most the line of the vector, at the slave with line 2 of the master. -/
def Serving (p : Pair) (v : BitVec 8) : Prop :=
  (∃ i < 8, v = .ofNat 8 (32 + i) ∧ p.master.isr ⊆ {i} ∧ p.slave.isr = ∅) ∨
    ∃ j < 8, v = .ofNat 8 (40 + j) ∧ p.master.isr ⊆ {2} ∧ p.slave.isr ⊆ {j}

/-- Nothing is in service. -/
def Free (p : Pair) : Prop := p.master.isr = ∅ ∧ p.slave.isr = ∅

/-- What is in service is what the handler will end. -/
def InService (p : Pair) : Phase → Prop
  | .running | .sampled => Free p
  | .entered v => Serving p v
  | .leaving v ports =>
    ports = picSendEoi (v - 32) ∧ Serving p v ∨
      ports = [(0x20, 0x20)] ∧ p.master.isr ⊆ {2} ∧ p.slave.isr = ∅ ∨ ports = [] ∧ Free p

/-- The chip without requests and lines in service. -/
def settings (c : Chip) : Chip := { c with irr := ∅, isr := ∅ }

/-- The controllers as `idt_init` sets them, with the masks it found. -/
structure Configured (a1 a2 : BitVec 8) (p : Pair) : Prop where
  master : settings p.master = programmed a1 32 4
  slave : settings p.slave = programmed a2 40 2
  inRange : p.master.InRange
  relayed : p.Relayed

/-- What holds in every state of the system. -/
structure InterruptState.Good (a1 a2 : BitVec 8) (s : InterruptState) : Prop where
  configured : Configured a1 a2 s.pics
  service : InService s.pics s.phase

section

variable {a1 a2 : BitVec 8} {p : Pair}

theorem Remapped.configured (remapped : Remapped a1 a2 32 40 p) : Configured a1 a2 p where
  master := by
    have := congrArg settings remapped.master
    simpa [settings, Chip.control, programmed] using this
  slave := by
    have := congrArg settings remapped.slave
    simpa [settings, Chip.control, programmed] using this
  inRange := remapped.inRange
  relayed := remapped.relayed

theorem Remapped.free (remapped : Remapped a1 a2 32 40 p) : Free p :=
  ⟨congrArg Chip.isr remapped.master, congrArg Chip.isr remapped.slave⟩

namespace Configured

theorem master_imr (h : Configured a1 a2 p) : p.master.imr = a1 := congrArg Chip.imr h.master

theorem slave_imr (h : Configured a1 a2 p) : p.slave.imr = a2 := congrArg Chip.imr h.slave

end Configured

/-- Without a line in service, the requests that are not masked ask. -/
theorem asks_iff {c : Chip} (free : c.isr = ∅) {i : ℕ} :
    c.Asks i ↔ i ∈ c.irr ∧ c.imr.getLsbD i = false := by
  simp [Chip.Asks, free]

/-- The acknowledge cycle of a chip with normal end of interrupt. -/
theorem chip_acknowledge {c : Chip} {imr base cascade : BitVec 8}
    (eq : settings c = programmed imr base cascade) (free : c.isr = ∅) :
    c.acknowledge = match c.request with
      | some i => ({ c with irr := c.irr.erase i, isr := {i} }, i)
      | none => (c, 7) := by
  have mode : c.mode = 1 := congrArg Chip.mode eq
  unfold Chip.acknowledge
  rcases c.request with _ | i
  · rfl
  · simp [mode, free]

/-- The acknowledge cycle of the pair. -/
theorem pair_acknowledge (h : Configured a1 a2 p) (free : Free p) :
    (∃ i, i < 8 ∧ i ≠ 2 ∧ p.master.request = some i ∧
      p.acknowledge = (⟨{ p.master with irr := p.master.irr.erase i, isr := {i} }, p.slave⟩,
        some (.ofNat 8 (32 + i)))) ∨
    (∃ j, p.master.request = some 2 ∧ p.slave.request = some j ∧
      p.acknowledge = (⟨{ p.master with irr := p.master.irr.erase 2, isr := {2} },
        { p.slave with irr := p.slave.irr.erase j, isr := {j} }⟩, some (.ofNat 8 (40 + j)))) ∨
    (p.master.request = some 2 ∧ p.slave.request = none ∧
      p.acknowledge = (⟨{ p.master with irr := p.master.irr.erase 2, isr := {2} }, p.slave⟩,
        some 47)) ∨
    p.master.request = none ∧ p.acknowledge = (p, some 39) := by
  have base : p.master.base = 32 := congrArg Chip.base h.master
  have cascade : p.master.cascade = 4 := congrArg Chip.cascade h.master
  have base' : p.slave.base = 40 := congrArg Chip.base h.slave
  have cascade' : p.slave.cascade = 2 := congrArg Chip.cascade h.slave
  have master := chip_acknowledge h.master free.1
  have slave := chip_acknowledge h.slave free.2
  rcases eq : p.master.request with _ | i
  · right; right; right
    rw [eq] at master
    simp [Pair.acknowledge, master, cascade, base]
  · have bound : i < 8 := (Chip.request_eq_some.mp eq).1
    rw [eq] at master
    by_cases two : i = 2
    · subst two
      rcases eq' : p.slave.request with _ | j
      · right; right; left
        rw [eq'] at slave
        simp [Pair.acknowledge, master, slave, cascade, cascade', base']
      · right; left
        rw [eq'] at slave
        refine ⟨j, rfl, rfl, ?_⟩
        simp [Pair.acknowledge, master, slave, cascade, cascade', base', BitVec.ofNat_add]
    · left
      refine ⟨i, bound, two, rfl, ?_⟩
      have line : (4#8).getLsbD i = false := by
        interval_cases i <;> simp_all
      simp [Pair.acknowledge, master, cascade, line, base, BitVec.ofNat_add]

/-- A request at the slave that no mask stops asks there, and line 2 asks at the master. -/
theorem slave_asks (h : Configured a1 a2 p) (free : Free p) {n : ℕ} (large : 8 ≤ n)
    (pending : p.Pending n) (unmasked : ¬ Masked a1 a2 n) :
    p.slave.Asks (n - 8) ∧ n - 8 < 8 ∧ p.master.Asks 2 := by
  have small : ¬ n < 8 := by omega
  simp only [Pair.Pending, small, if_false] at pending
  simp only [Masked, small, if_false, not_or, Bool.not_eq_true] at unmasked
  have asks : p.slave.Asks (n - 8) :=
    (asks_iff free.2).mpr ⟨pending, h.slave_imr ▸ unmasked.2⟩
  have bound := h.relayed.inRange _ pending
  have high := h.relayed.relayed (Chip.request_isSome bound asks)
  exact ⟨asks, bound, (asks_iff free.1).mpr ⟨high, h.master_imr ▸ unmasked.1⟩⟩

/-- A request at the master that its mask does not stop asks there. -/
theorem master_asks (h : Configured a1 a2 p) (free : Free p) {n : ℕ} (small : n < 8)
    (pending : p.Pending n) (unmasked : ¬ Masked a1 a2 n) : p.master.Asks n := by
  simp only [Pair.Pending, small, if_true] at pending
  simp only [Masked, small, if_true, Bool.not_eq_true] at unmasked
  exact (asks_iff free.1).mpr ⟨pending, h.master_imr ▸ unmasked⟩

/-- When the master does not ask, every request is masked. -/
theorem masked_of_idle (h : Configured a1 a2 p) (free : Free p)
    (idle : p.master.request = none) {n : ℕ} (pending : p.Pending n) : Masked a1 a2 n := by
  by_contra unmasked
  rw [Chip.request_eq_none] at idle
  by_cases small : n < 8
  · exact idle n small (master_asks h free small pending unmasked)
  · exact idle 2 (by norm_num) (slave_asks h free (by omega) pending unmasked).2.2

/-- A line that the master puts first is not after any other. -/
theorem first_of_request (h : Configured a1 a2 p) (free : Free p) {i : ℕ}
    (request : p.master.request = some i) {n : ℕ} (pending : p.Pending n)
    (unmasked : ¬ Masked a1 a2 n) :
    (n < 8 → i ≤ n) ∧ (8 ≤ n → i ≤ 2) := by
  obtain ⟨bound, asks, first⟩ := Chip.request_eq_some.mp request
  constructor
  · intro small
    by_contra after
    exact first n (by omega) (master_asks h free small pending unmasked)
  · intro large
    by_contra after
    exact first 2 (by omega) (slave_asks h free large pending unmasked).2.2

/-- A line of the master that it puts first has the best rank. -/
theorem rank_le_master (h : Configured a1 a2 p) (free : Free p) {i : ℕ} (bound : i < 8)
    (two : i ≠ 2) (request : p.master.request = some i) {n : ℕ} (wired : Wired n)
    (pending : p.Pending n) (unmasked : ¬ Masked a1 a2 n) : rank i ≤ rank n := by
  have := first_of_request h free request pending unmasked
  have := wired.2
  unfold rank
  split_ifs <;> omega

/-- So has a line that the slave puts first, when the master puts the slave first. -/
theorem rank_le_slave (h : Configured a1 a2 p) (free : Free p) {j : ℕ}
    (request : p.master.request = some 2) (request' : p.slave.request = some j) {n : ℕ}
    (wired : Wired n) (pending : p.Pending n) (unmasked : ¬ Masked a1 a2 n) :
    rank (8 + j) ≤ rank n := by
  obtain ⟨bound, -, first⟩ := Chip.request_eq_some.mp request'
  have := first_of_request h free request pending unmasked
  have := wired.2
  have slave : 8 ≤ n → j ≤ n - 8 := by
    intro large
    by_contra after
    exact first _ (by omega) (slave_asks h free large pending unmasked).1
  unfold rank
  split_ifs <;> omega

/-- When the slave has no request for the vector it is asked for, those that are left have lower
priority than line 2. -/
theorem below_slave (h : Configured a1 a2 p) (free : Free p)
    (request : p.master.request = some 2) (request' : p.slave.request = none) {n : ℕ}
    (wired : Wired n) (pending : p.Pending n) (unmasked : ¬ Masked a1 a2 n) : 3 ≤ n ∧ n < 8 := by
  have := first_of_request h free request pending unmasked
  have := wired.2
  have master : n < 8 := by
    by_contra large
    obtain ⟨asks, bound, -⟩ := slave_asks h free (by omega) pending unmasked
    exact Chip.request_eq_none.mp request' _ bound asks
  omega

end

/-! ## The steps -/

section

variable {sHandlers : ℕ → Option IsrHandler} {a1 a2 : BitVec 8} {s t : InterruptState}

/-- Edges change the requests only. -/
theorem line_good {e : Pic.Event} {pics : Pair} (good : s.Good a1 a2) (edge : e.write = none)
    (step : Pic.Step s.pics e pics) : InterruptState.Good a1 a2 { s with pics := pics } := by
  have control := step.control
  rw [edge, Option.elim_none] at control
  have master : pics.master.control = s.pics.master.control := congrArg Pair.master control
  have slave : pics.slave.control = s.pics.slave.control := congrArg Pair.slave control
  have isr : pics.master.isr = s.pics.master.isr := (Chip.mk.inj master).2.1
  have isr' : pics.slave.isr = s.pics.slave.isr := (Chip.mk.inj slave).2.1
  refine ⟨⟨?_, ?_, ?_, ?_⟩, ?_⟩
  · exact (congrArg settings master).trans good.configured.master
  · exact (congrArg settings slave).trans good.configured.slave
  · exact step.master_inRange good.configured.inRange
  · apply step.relayed good.configured.relayed
    simp [edge]
  · have service := good.service
    simp only [InService, Serving, Free, isr, isr'] at service ⊢
    exact service

/-- Edges are edges of the latches. -/
theorem line_request {e : Pic.Event} {pics : Pair} (edge : e.write = none)
    (step : Pic.Step s.pics e pics) :
    RequestStep (Masked a1 a2) s.requests (.line e)
      (InterruptState.requests { s with pics := pics }) := by
  cases step with
  | @raise n wired idle =>
    have eq : InterruptState.requests { s with pics := s.pics.raise n } =
        { s.requests with pending := insert n s.requests.pending } := by
      unfold InterruptState.requests
      congr 1
      ext m
      by_cases here : Wired m
      · simp [here, Pair.pending_raise here]
      · have ne : m ≠ n := fun eq => here (eq ▸ wired)
        simp [here, ne]
    rw [eq]
    exact .raise fun mem => idle mem.2
  | again wired pending => exact .again ⟨wired, pending⟩
  | @withdraw n wired pending =>
    have eq : InterruptState.requests { s with pics := s.pics.withdraw n } =
        { s.requests with pending := s.requests.pending \ {n} } := by
      unfold InterruptState.requests
      congr 1
      ext m
      simp [Pair.pending_withdraw]
      tauto
    rw [eq]
    exact .withdraw ⟨wired, pending⟩
  | fall low =>
    have eq : InterruptState.requests { s with pics := s.pics.withdraw 2 } = s.requests := by
      unfold InterruptState.requests
      congr 1
      ext m
      by_cases here : Wired m
      · simp [here, Pair.pending_withdraw, here.2]
      · simp [here]
    rw [eq]
    exact .fall
  | out port v => simp [Event.write] at edge

/-- The handler of a vector of the controllers ends its interrupt. -/
theorem isrHandler_ports (keep : KeepNumber sHandlers) {v : BitVec 8} {regs regs' : Registers}
    {ports : List (BitVec 16 × BitVec 8)} (number : regs.intNo = v.setWidth 64)
    (returns : isrHandler sHandlers regs = some (regs', ports)) (low : 32 ≤ v.toNat)
    (high : v.toNat < 48) : ports = picSendEoi (v - 32) := by
  have value : regs.intNo.toNat = v.toNat := by
    rw [number, BitVec.toNat_setWidth]
    omega
  have range (r : Registers) (eq : r.intNo = regs.intNo) : r.intNo ≥ 32 ∧ r.intNo < 48 := by
    rw [eq, ge_iff_le, BitVec.le_def, BitVec.lt_def, value]
    exact ⟨low, high⟩
  have irq (r : Registers) (eq : r.intNo = regs.intNo) :
      (r.intNo - 32).setWidth 8 = v - 32 := by
    rw [eq, number]
    bv_omega
  have exception : ¬ regs.intNo < 32 := by
    rw [BitVec.lt_def, value]
    exact Nat.not_lt.mpr low
  unfold isrHandler at returns
  rcases found : sHandlers regs.intNo.toNat with _ | handler
  · simp only [found, exception, if_false, Option.bind_eq_bind, Option.bind_some,
      range regs rfl, and_self, if_true, irq regs rfl, Option.pure_def, Option.some.injEq,
      Prod.mk.injEq] at returns
    exact returns.2.symm
  · rcases called : handler regs with _ | r
    · simp [found, called] at returns
    · have kept := keep _ _ found _ _ called
      simp only [found, called, Option.bind_eq_bind, Option.bind_some, range r kept, and_self,
        if_true, irq r kept, Option.pure_def, Option.some.injEq, Prod.mk.injEq] at returns
      exact returns.2.symm

/-- The acknowledge cycle puts the line of the vector in service. -/
theorem acknowledge_good {pics : Pair} {v : BitVec 8} (good : s.Good a1 a2)
    (sampled : s.phase = .sampled) (vector : s.pics.acknowledge = (pics, some v)) :
    InterruptState.Good a1 a2 { s with pics := pics, phase := .entered v } := by
  have config := good.configured
  have free : Free s.pics := by simpa [sampled, InService] using good.service
  rcases pair_acknowledge config free with ⟨i, bound, two, request, eq⟩ |
    ⟨j, request, request', eq⟩ | ⟨request, request', eq⟩ | ⟨request, eq⟩
  · simp only [eq, Prod.mk.injEq, Option.some.injEq] at vector
    obtain ⟨rfl, rfl⟩ := vector
    refine ⟨⟨config.master, config.slave, ?_, config.relayed.inRange, fun high => ?_⟩, ?_⟩
    · exact config.inRange.mono (Finset.erase_subset _ _)
    · exact Finset.mem_erase.mpr ⟨two.symm, config.relayed.relayed high⟩
    · exact .inl ⟨i, bound, rfl, subset_rfl, free.2⟩
  · simp only [eq, Prod.mk.injEq, Option.some.injEq] at vector
    obtain ⟨rfl, rfl⟩ := vector
    obtain ⟨bound, asks, first⟩ := Chip.request_eq_some.mp request'
    refine ⟨⟨config.master, config.slave, ?_, ?_, fun high => ?_⟩, ?_⟩
    · exact config.inRange.mono (Finset.erase_subset _ _)
    · exact config.relayed.inRange.mono (Finset.erase_subset _ _)
    · -- nothing that is left at the slave is above the line in service
      obtain ⟨k, eq⟩ := Option.isSome_iff_exists.mp high
      obtain ⟨-, ⟨mem, clear, above⟩, -⟩ := Chip.request_eq_some.mp eq
      have below : k < j := above j (Finset.mem_singleton_self j)
      have asks' : s.pics.slave.Asks k :=
        (asks_iff free.2).mpr ⟨Finset.mem_of_mem_erase mem, clear⟩
      exact absurd asks' (first k below)
    · exact .inr ⟨j, bound, rfl, subset_rfl, subset_rfl⟩
  · simp only [eq, Prod.mk.injEq, Option.some.injEq] at vector
    obtain ⟨rfl, rfl⟩ := vector
    refine ⟨⟨config.master, config.slave, ?_, config.relayed.inRange, fun high => ?_⟩, ?_⟩
    · exact config.inRange.mono (Finset.erase_subset _ _)
    · rw [request'] at high
      contradiction
    · refine .inr ⟨7, by norm_num, rfl, subset_rfl, ?_⟩
      rw [free.2]
      exact Finset.empty_subset _
  · simp only [eq, Prod.mk.injEq, Option.some.injEq] at vector
    obtain ⟨rfl, rfl⟩ := vector
    refine ⟨config, .inl ⟨7, by norm_num, rfl, ?_, free.2⟩⟩
    rw [free.1]
    exact Finset.empty_subset _

/-- The acknowledge cycle of a line of the master takes its request. -/
theorem requests_master {i : ℕ} {v : BitVec 8} (bound : i < 8) :
    InterruptState.requests { s with
        pics := ⟨{ s.pics.master with irr := s.pics.master.irr.erase i, isr := {i} }, s.pics.slave⟩
        phase := .entered v } = ⟨s.requests.pending \ {i}, some v⟩ := by
  unfold InterruptState.requests
  congr 1
  ext m
  by_cases small : m < 8
  · simp [Pair.Pending, small]
    tauto
  · have ne : m ≠ i := by omega
    simp [Pair.Pending, small, ne]

/-- The acknowledge cycle of a line of the slave takes its request; line 2 is no latch. -/
theorem requests_slave {j : ℕ} {v : BitVec 8} :
    InterruptState.requests { s with
        pics := ⟨{ s.pics.master with irr := s.pics.master.irr.erase 2, isr := {2} },
          { s.pics.slave with irr := s.pics.slave.irr.erase j, isr := {j} }⟩
        phase := .entered v } = ⟨s.requests.pending \ {8 + j}, some v⟩ := by
  unfold InterruptState.requests
  congr 1
  ext m
  by_cases small : m < 8
  · have ne : m ≠ 8 + j := by omega
    by_cases here : Wired m
    · simp [Pair.Pending, small, ne, here.2]
    · simp [here]
  · have same : m - 8 = j ↔ m = 8 + j := by omega
    simp [Pair.Pending, small, same]
    tauto

/-- A cycle that the slave has no request for takes none. -/
theorem requests_spuriousSlave {v : BitVec 8} :
    InterruptState.requests { s with
        pics := ⟨{ s.pics.master with irr := s.pics.master.irr.erase 2, isr := {2} }, s.pics.slave⟩
        phase := .entered v } = { s.requests with serving := some v } := by
  unfold InterruptState.requests
  congr 1
  ext m
  by_cases small : m < 8
  · by_cases here : Wired m
    · simp [Pair.Pending, small, here.2]
    · simp [here]
  · simp [Pair.Pending, small]

/-- The acknowledge cycle serves the first request that is not masked. -/
theorem acknowledge_request {pics : Pair} {v : BitVec 8} (good : s.Good a1 a2)
    (sampled : s.phase = .sampled) (vector : s.pics.acknowledge = (pics, some v)) :
    RequestStep (Masked a1 a2) s.requests (.acknowledge v)
      (InterruptState.requests { s with pics := pics, phase := .entered v }) := by
  have config := good.configured
  have free : Free s.pics := by simpa [sampled, InService] using good.service
  have running : s.requests.serving = none := by
    simp [InterruptState.requests, sampled, Phase.serving]
  rcases pair_acknowledge config free with ⟨i, bound, two, request, eq⟩ |
    ⟨j, request, request', eq⟩ | ⟨request, request', eq⟩ | ⟨request, eq⟩
  · simp only [eq, Prod.mk.injEq, Option.some.injEq] at vector
    obtain ⟨rfl, rfl⟩ := vector
    obtain ⟨-, ⟨mem, clear, -⟩, -⟩ := Chip.request_eq_some.mp request
    have pending : i ∈ s.requests.pending :=
      ⟨⟨by omega, two⟩, by simpa [Pair.Pending, bound] using mem⟩
    have unmasked : ¬ Masked a1 a2 i := by
      simpa [Masked, bound, ← config.master_imr] using clear
    rw [requests_master bound]
    exact .serve running pending unmasked fun m pending =>
      rank_le_master config free bound two request pending.1 pending.2
  · simp only [eq, Prod.mk.injEq, Option.some.injEq] at vector
    obtain ⟨rfl, rfl⟩ := vector
    obtain ⟨-, ⟨-, clear, -⟩, -⟩ := Chip.request_eq_some.mp request
    obtain ⟨bound, ⟨mem, clear', -⟩, -⟩ := Chip.request_eq_some.mp request'
    have pending : 8 + j ∈ s.requests.pending :=
      ⟨⟨by omega, by omega⟩, by simpa [Pair.Pending] using mem⟩
    have unmasked : ¬ Masked a1 a2 (8 + j) := by
      simpa [Masked, ← config.master_imr, ← config.slave_imr] using ⟨clear, clear'⟩
    rw [requests_slave, show 40 + j = 32 + (8 + j) by omega]
    exact .serve running pending unmasked fun m pending =>
      rank_le_slave config free request request' pending.1 pending.2
  · simp only [eq, Prod.mk.injEq, Option.some.injEq] at vector
    obtain ⟨rfl, rfl⟩ := vector
    rw [requests_spuriousSlave]
    exact .spuriousSlave running fun m pending =>
      below_slave config free request request' pending.1 pending.2
  · simp only [eq, Prod.mk.injEq, Option.some.injEq] at vector
    obtain ⟨rfl, rfl⟩ := vector
    exact .spurious running fun m pending => masked_of_idle config free request pending.2

theorem handler_good (keep : KeepNumber sHandlers) {v : BitVec 8} {regs regs' : Registers}
    {ports : List (BitVec 16 × BitVec 8)} (good : s.Good a1 a2) (entered : s.phase = .entered v)
    (number : regs.intNo = v.setWidth 64)
    (returns : isrHandler sHandlers regs = some (regs', ports)) :
    InterruptState.Good a1 a2 { s with phase := .leaving v ports } := by
  have serving : Serving s.pics v := by simpa [entered, InService] using good.service
  refine ⟨good.configured, .inl ⟨?_, serving⟩⟩
  rcases serving with ⟨i, bound, rfl, -⟩ | ⟨j, bound, rfl, -⟩
  · apply isrHandler_ports keep number returns <;> rw [BitVec.toNat_ofNat] <;> omega
  · apply isrHandler_ports keep number returns <;> rw [BitVec.toNat_ofNat] <;> omega

/-- The end of interrupt at the master, when one line is in service there. -/
theorem out_master_good {v : BitVec 8} {i : ℕ} (good : s.Good a1 a2) (bound : i < 8)
    (master : s.pics.master.isr ⊆ {i}) (slave : s.pics.slave.isr = ∅) :
    InterruptState.Good a1 a2
      { s with pics := s.pics.out 0x20 0x20, phase := .leaving v [] } := by
  have config := good.configured
  rw [Pair.out_master, Chip.endOfInterrupt_single bound master]
  exact ⟨⟨config.master, config.slave, config.inRange, config.relayed.inRange,
    config.relayed.relayed⟩, .inr (.inr ⟨rfl, rfl, slave⟩)⟩

/-- The end of interrupt at the slave, when one line is in service there. -/
theorem out_slave_good {v : BitVec 8} {j : ℕ} (good : s.Good a1 a2) (bound : j < 8)
    (master : s.pics.master.isr ⊆ {2}) (slave : s.pics.slave.isr ⊆ {j}) :
    InterruptState.Good a1 a2
      { s with pics := s.pics.out 0xA0 0x20, phase := .leaving v [(0x20, 0x20)] } := by
  have config := good.configured
  have kept : (s.pics.out 0xA0 0x20).master.isr = s.pics.master.isr := by
    rw [Pair.out_slave, Pair.relay]
    split_ifs <;> rfl
  have ended : (s.pics.out 0xA0 0x20).slave = { s.pics.slave with isr := ∅ } := by
    rw [Pair.out_slave, Pair.slave_relay]
    exact Chip.endOfInterrupt_single bound slave
  have other : (0xA0 : BitVec 16) = 0x20 → (0x20 : BitVec 8).getLsbD 4 = false := by simp
  have settled : settings (s.pics.out 0xA0 0x20).master = settings s.pics.master := by
    rw [Pair.out_slave, Pair.relay]
    split_ifs <;> rfl
  refine ⟨⟨settled.trans config.master, ?_, ?_, ?_⟩, ?_⟩
  · rw [ended]
    exact config.slave
  · exact Pair.master_inRange_out config.inRange _ _
  · exact config.relayed.out other
  · exact .inr (.inl ⟨rfl, kept ▸ master, by rw [ended]⟩)

theorem out_good {v : BitVec 8} {port : BitVec 16} {value : BitVec 8}
    {ports : List (BitVec 16 × BitVec 8)} (good : s.Good a1 a2)
    (leaving : s.phase = .leaving v ((port, value) :: ports)) :
    InterruptState.Good a1 a2
      { s with pics := s.pics.out port value, phase := .leaving v ports } ∧
      value = 0x20 ∧ (port = 0x20 ∨ port = 0xA0) := by
  have service := good.service
  simp only [leaving, InService, List.cons.injEq, Prod.mk.injEq, reduceCtorEq, false_and,
    or_false] at service
  rcases service with ⟨eq, serving⟩ | ⟨⟨⟨rfl, rfl⟩, rfl⟩, master, slave⟩
  · rcases serving with ⟨i, bound, rfl, master, slave⟩ | ⟨j, bound, rfl, master, slave⟩
    · have below : ¬ (BitVec.ofNat 8 (32 + i) - 32 ≥ 8) := by
        rw [ge_iff_le, BitVec.le_def]
        bv_omega
      simp only [picSendEoi, below, if_false, List.nil_append, List.cons.injEq,
        Prod.mk.injEq] at eq
      obtain ⟨⟨rfl, rfl⟩, rfl⟩ := eq
      exact ⟨out_master_good good bound master slave, rfl, .inl rfl⟩
    · have above : BitVec.ofNat 8 (40 + j) - 32 ≥ 8 := by
        rw [ge_iff_le, BitVec.le_def]
        bv_omega
      simp only [picSendEoi, above, if_true, List.cons_append, List.nil_append,
        List.cons.injEq, Prod.mk.injEq] at eq
      obtain ⟨⟨rfl, rfl⟩, rfl⟩ := eq
      exact ⟨out_slave_good good bound master slave, rfl, .inr rfl⟩
  · exact ⟨out_master_good good (by norm_num) master slave, rfl, .inl rfl⟩

theorem iret_good {v : BitVec 8} (good : s.Good a1 a2) (leaving : s.phase = .leaving v []) :
    InterruptState.Good a1 a2 { s with phase := .running } := by
  refine ⟨good.configured, ?_⟩
  have service := good.service
  simp only [leaving, InService, picSendEoi, reduceCtorEq, false_and, false_or, true_and]
    at service
  rcases service with ⟨none, -⟩ | free
  · simp at none
  · exact free

/-- An end of interrupt is no request. -/
theorem out_request {v : BitVec 8} {port : BitVec 16} {value : BitVec 8}
    {ports : List (BitVec 16 × BitVec 8)} (good : s.Good a1 a2)
    (leaving : s.phase = .leaving v ((port, value) :: ports)) :
    InterruptState.requests { s with pics := s.pics.out port value, phase := .leaving v ports } =
      s.requests := by
  obtain ⟨-, rfl, rfl | rfl⟩ := out_good good leaving
  · simp only [InterruptState.requests, leaving, Phase.serving, Pair.pending_out_master]
  · simp only [InterruptState.requests, leaving, Phase.serving]
    congr 1
    ext m
    exact and_congr_right Pair.pending_out_slave

/-- One step keeps the invariant and is a step of the latches. -/
theorem interruptStep_refines (keep : KeepNumber sHandlers) {e : InterruptEvent}
    (good : s.Good a1 a2) (step : InterruptStep sHandlers s e t) :
    t.Good a1 a2 ∧ RequestStep (Masked a1 a2) s.requests e t.requests := by
  cases step with
  | line edge step => exact ⟨line_good good edge step, line_request edge step⟩
  | flag b running =>
    refine ⟨⟨good.configured, good.service⟩, .flag b ?_⟩
    simp [InterruptState.requests, running, Phase.serving]
  | sample running enabled high =>
    have free : Free s.pics := by simpa [running, InService] using good.service
    refine ⟨⟨good.configured, free⟩, ?_⟩
    have same : InterruptState.requests { s with phase := .sampled } = s.requests := by
      simp [InterruptState.requests, running, Phase.serving]
    rw [same]
    exact .sample (by simp [InterruptState.requests, running, Phase.serving])
  | acknowledge sampled vector =>
    exact ⟨acknowledge_good good sampled vector, acknowledge_request good sampled vector⟩
  | @handler v regs regs' ports entered number returns =>
    refine ⟨handler_good keep good entered number returns, ?_⟩
    have same : InterruptState.requests { s with phase := .leaving v ports } = s.requests := by
      simp [InterruptState.requests, entered, Phase.serving]
    rw [same]
    exact .handler (v := v) (by simp [InterruptState.requests, entered, Phase.serving])
  | @out v port value ports leaving =>
    refine ⟨(out_good good leaving).1, ?_⟩
    rw [out_request good leaving]
    exact .out (v := v) port value (by simp [InterruptState.requests, leaving, Phase.serving])
  | @iret v leaving =>
    refine ⟨iret_good good leaving, ?_⟩
    exact .iret (v := v) (by simp [InterruptState.requests, leaving, Phase.serving])

theorem good_of_remapped (remapped : Remapped a1 a2 32 40 s.pics)
    (running : s.phase = .running) : s.Good a1 a2 := by
  refine ⟨remapped.configured, ?_⟩
  rw [running]
  exact remapped.free

/-- Whatever the lines do and when, the controllers that `idt_init` has set up and the handler serve
the lines like latches, in the order of their priorities and never behind a mask, and outside a
handler nothing is left in service. -/
theorem interruptRun_refines {es : List InterruptEvent} (keep : KeepNumber sHandlers)
    (remapped : Remapped a1 a2 32 40 s.pics) (running : s.phase = .running)
    (run : Run (InterruptStep sHandlers) s es t) :
    Run (RequestStep (Masked a1 a2)) s.requests es t.requests ∧ InService t.pics t.phase := by
  obtain ⟨good, run'⟩ := run.refine
    (fun _ _ _ good step => interruptStep_refines keep good step)
    (good_of_remapped remapped running)
  exact ⟨run', good.service⟩

end

/-- The system after `idt_init` when no line was masked. -/
def quietSystem : InterruptState where
  pics := ⟨programmed 0 32 4, programmed 0 40 2⟩
  enabled := true
  phase := .running

theorem remapped_quietSystem : Remapped 0 0 32 40 quietSystem.pics where
  master := rfl
  slave := rfl
  inRange := fun i mem => by simp [quietSystem, programmed] at mem
  relayed := ⟨fun i mem => by simp [quietSystem, programmed] at mem, by decide⟩

/-- A timer tick. -/
def tickEvents : List InterruptEvent :=
  [.line (.raise 0), .sample, .acknowledge 32, .handler, .out 0x20 0x20, .iret]

theorem run_tick : ∃ t : InterruptState,
    Run (InterruptStep driverHandlers) quietSystem tickEvents t ∧
      t.phase = .running ∧ t.enabled = true := by
  let regs := { readRegisters (fun _ => 0) 0 with intNo := 32 }
  let pics := quietSystem.pics.raise 0
  have handled : isrHandler driverHandlers regs = some (regs, [(0x20, 0x20)]) := by decide
  have vector : pics.acknowledge = (pics.acknowledge.1, some 32) := by decide
  have high : pics.master.request.isSome := by decide
  exact ⟨_, .cons (.line rfl (.raise (by simp [Wired]) (by decide))) (.cons (.sample rfl rfl high)
    (.cons (.acknowledge rfl vector) (.cons (.handler rfl rfl handled) (.cons (.out rfl)
      (.cons (.iret rfl) (.nil _)))))), rfl, rfl⟩

theorem interruptRun_refines_tick :
    ∃ t : InterruptState,
      Run (RequestStep (Masked 0 0)) quietSystem.requests tickEvents t.requests ∧
      InService t.pics t.phase := by
  obtain ⟨t, run, -⟩ := run_tick
  exact ⟨t, interruptRun_refines keepNumber_drivers remapped_quietSystem rfl run⟩

end ChefOs
