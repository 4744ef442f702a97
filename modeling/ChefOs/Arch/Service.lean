import ChefOs.Arch.Interrupts

/-!
# Service of interrupt requests

No request is lost or served twice, and the processor serves every request that is not masked.
-/

namespace ChefOs

open Kit Pic

/-! ## No request is lost or served twice -/

section

open Classical in
/-- A line that is pending counts as one request. -/
noncomputable def Requests.held (r : Requests) (n : ℕ) : ℕ := if n ∈ r.pending then 1 else 0

theorem Requests.held_congr {r r' : Requests} {n : ℕ} (same : n ∈ r.pending ↔ n ∈ r'.pending) :
    r.held n = r'.held n := by
  classical
  exact if_congr same rfl rfl

@[simp] theorem Requests.held_pending {r : Requests} {n : ℕ} (pending : n ∈ r.pending) :
    r.held n = 1 := if_pos pending

@[simp] theorem Requests.held_idle {r : Requests} {n : ℕ} (idle : n ∉ r.pending) :
    r.held n = 0 := if_neg idle

/-- The vector of a line. -/
def vectorOf (n : ℕ) : BitVec 8 := .ofNat 8 (32 + n)

theorem vectorOf_inj {m n : ℕ} (hm : m < 16) (hn : n < 16) : vectorOf m = vectorOf n ↔ m = n := by
  constructor
  · intro eq
    have := congrArg BitVec.toNat eq
    simp only [vectorOf, BitVec.toNat_ofNat] at this
    omega
  · rintro rfl
    rfl

/-- A step of the latches makes, ends or keeps the request of a line. -/
theorem requestStep_conserves {masked : ℕ → Prop} {r r' : Requests} {e : InterruptEvent}
    (step : RequestStep masked r e r') (wired : ∀ m ∈ r.pending, Wired m) {n : ℕ} (hn : Wired n)
    (master : n ≠ 7) (slave : n ≠ 15) :
    r.held n + [e].count (.line (.raise n)) =
      [e].count (.acknowledge (vectorOf n)) + [e].count (.line (.withdraw n)) + r'.held n := by
  have single (a b : InterruptEvent) : [a].count b = if a = b then 1 else 0 := by
    simp [List.count_cons]
  simp only [single]
  cases step with
  | @raise m idle =>
    by_cases eq : n = m
    · subst eq
      simp [idle]
    · simp [Ne.symm eq]
      exact Requests.held_congr (by simp [eq])
  | again pending => simp
  | @withdraw m pending =>
    by_cases eq : n = m
    · subst eq
      simp [pending]
    · simp [Ne.symm eq]
      exact Requests.held_congr (by simp [eq])
  | fall => simp [hn.2.symm]
  | flag b running => simp
  | sample running => simp
  | @serve m running pending unmasked first =>
    have same : BitVec.ofNat 8 (32 + m) = vectorOf n ↔ m = n :=
      vectorOf_inj (wired m pending).1 hn.1
    by_cases eq : n = m
    · subst eq
      simp [pending, vectorOf]
    · simp [same, Ne.symm eq]
      exact Requests.held_congr (by simp [eq])
  | spurious running none =>
    have other : 39#8 ≠ vectorOf n := fun eq =>
      master ((vectorOf_inj (by norm_num) hn.1).mp (show vectorOf 7 = vectorOf n from eq)).symm
    simp [other]
    exact Requests.held_congr Iff.rfl
  | spuriousSlave running none =>
    have other : 47#8 ≠ vectorOf n := fun eq =>
      slave ((vectorOf_inj (by norm_num) hn.1).mp (show vectorOf 15 = vectorOf n from eq)).symm
    simp [other]
    exact Requests.held_congr Iff.rfl
  | handler serving => simp
  | out port value serving => simp
  | iret serving =>
    simp
    exact Requests.held_congr Iff.rfl

variable {sHandlers : ℕ → Option IsrHandler} {a1 a2 : BitVec 8} {s t : InterruptState}

/-- Over every run, each edge on a line that no spurious vector shares is served once, unless the
line takes it back or it is still pending. -/
theorem interruptRun_conserves {es : List InterruptEvent} (keep : KeepNumber sHandlers)
    (remapped : Remapped a1 a2 32 40 s.pics) (running : s.phase = .running)
    (run : Run (InterruptStep sHandlers) s es t) {n : ℕ} (wired : Wired n) (master : n ≠ 7)
    (slave : n ≠ 15) :
    s.requests.held n + es.count (.line (.raise n)) =
      es.count (.acknowledge (vectorOf n)) + es.count (.line (.withdraw n)) +
        t.requests.held n := by
  have good := good_of_remapped remapped running
  clear remapped running
  induction run with
  | nil s => simp
  | @cons s r t e es first _ ih =>
    obtain ⟨good', step⟩ := interruptStep_refines keep good first
    have here := requestStep_conserves step (fun m mem => mem.1) wired master slave
    have rest := ih good'
    have split (b : InterruptEvent) : ([e] ++ es).count b = [e].count b + es.count b :=
      List.count_append
    rw [← List.singleton_append]
    rw [split, split, split]
    omega

theorem interruptRun_conserves_tick :
    ∃ t : InterruptState, quietSystem.requests.held 0 + tickEvents.count (.line (.raise 0)) =
      tickEvents.count (.acknowledge (vectorOf 0)) + tickEvents.count (.line (.withdraw 0)) +
        t.requests.held 0 := by
  obtain ⟨t, run, -⟩ := run_tick
  exact ⟨t, interruptRun_conserves keepNumber_drivers remapped_quietSystem rfl run
    (by simp [Wired]) (by decide) (by decide)⟩

end

/-! ## Every request is served -/

/-- The requests of a chip behind its mask. -/
def unmasked (c : Chip) : Finset ℕ := c.irr.filter fun i => c.imr.getLsbD i = false

/-- The requests that are left to serve, with one of the master for a slave that has none. -/
def load (p : Pair) : ℕ :=
  (p.master.irr.erase 2).card + (unmasked p.slave).card +
    if 2 ∈ p.master.irr ∧ unmasked p.slave = ∅ then 1 else 0

/-- The steps of the processor itself. -/
def OwnStep (sHandlers : ℕ → Option IsrHandler) (s : InterruptState) (e : InterruptEvent)
    (t : InterruptState) : Prop :=
  ((∀ l, e ≠ .line l) ∧ ∀ b, e ≠ .flag b) ∧ InterruptStep sHandlers s e t

/-- How far the processor is from interruptible code. -/
def Phase.distance : Phase → ℕ
  | .running => 5
  | .sampled => 4
  | .entered _ => 9
  | .leaving _ ports => 6 + ports.length

/-- The measure that the processor's steps lower. -/
def InterruptState.work (s : InterruptState) : ℕ := 10 * load s.pics + s.phase.distance

/-- The processor acknowledges a request only if there is one. -/
structure InterruptState.Steady (a1 a2 : BitVec 8) (s : InterruptState) : Prop where
  good : s.Good a1 a2
  request : s.phase = .sampled → s.pics.master.request.isSome

/-- Nothing is in service, and only masked requests are left. -/
structure InterruptState.Settled (a1 a2 : BitVec 8) (s : InterruptState) : Prop where
  running : s.phase = .running
  free : Free s.pics
  masked : ∀ n, Wired n → s.pics.Pending n → Masked a1 a2 n

/-- Handlers that return. -/
def Return (sHandlers : ℕ → Option IsrHandler) : Prop :=
  ∀ n handler, sHandlers n = some handler → ∀ regs, (handler regs).isSome

section

variable {a1 a2 : BitVec 8} {p : Pair}

/-- Without a line in service, a chip asks if a request is not masked. -/
theorem request_isSome_iff {c : Chip} (range : c.InRange) (free : c.isr = ∅) :
    c.request.isSome ↔ (unmasked c).Nonempty := by
  constructor
  · intro high
    obtain ⟨i, eq⟩ := Option.isSome_iff_exists.mp high
    obtain ⟨-, ⟨mem, clear, -⟩, -⟩ := Chip.request_eq_some.mp eq
    exact ⟨i, Finset.mem_filter.mpr ⟨mem, clear⟩⟩
  · rintro ⟨i, mem⟩
    obtain ⟨mem, clear⟩ := Finset.mem_filter.mp mem
    exact Chip.request_isSome (range i mem) ((asks_iff free).mpr ⟨mem, clear⟩)

/-- Telling the master of the slave adds no load. -/
theorem load_relay (q : Pair) : load (p.relay q) = load q := by
  unfold Pair.relay
  split_ifs with rising
  · obtain ⟨i, eq⟩ := Option.isSome_iff_exists.mp rising.1
    obtain ⟨-, ⟨mem, clear, -⟩, -⟩ := Chip.request_eq_some.mp eq
    have some : unmasked q.slave ≠ ∅ :=
      Finset.ne_empty_of_mem (Finset.mem_filter.mpr ⟨mem, clear⟩)
    simp [load, some]
  · rfl

/-- An end of interrupt adds no load. -/
theorem load_out {port : BitVec 16} (h : port = 0x20 ∨ port = 0xA0) :
    load (p.out port 0x20) = load p := by
  have kept (c : Chip) : unmasked c.endOfInterrupt = unmasked c := by
    unfold unmasked Chip.endOfInterrupt
    split <;> rfl
  rcases h with rfl | rfl
  · rw [Pair.out_master]
    simp [load, Chip.irr_endOfInterrupt]
  · rw [Pair.out_slave, load_relay]
    simp [load, kept]

/-- Serving a request lowers the load. -/
theorem load_acknowledge {q : Pair} {v : BitVec 8} (h : Configured a1 a2 p) (free : Free p)
    (high : p.master.request.isSome) (vector : p.acknowledge = (q, some v)) :
    load q < load p := by
  rcases pair_acknowledge h free with ⟨i, bound, two, request, eq⟩ | ⟨j, request, request', eq⟩ |
    ⟨request, request', eq⟩ | ⟨request, eq⟩
  · simp only [eq, Prod.mk.injEq, Option.some.injEq] at vector
    obtain ⟨rfl, rfl⟩ := vector
    obtain ⟨-, ⟨mem, -⟩, -⟩ := Chip.request_eq_some.mp request
    have fewer := Finset.card_erase_lt_of_mem (Finset.mem_erase.mpr ⟨two, mem⟩)
    simp only [load, Finset.erase_right_comm (a := i), Finset.mem_erase, ne_eq, two.symm,
      not_false_eq_true, true_and]
    omega
  · simp only [eq, Prod.mk.injEq, Option.some.injEq] at vector
    obtain ⟨rfl, rfl⟩ := vector
    obtain ⟨-, ⟨mem, clear, -⟩, -⟩ := Chip.request_eq_some.mp request'
    have here : j ∈ unmasked p.slave := Finset.mem_filter.mpr ⟨mem, clear⟩
    have fewer := Finset.card_erase_lt_of_mem here
    have rest (irr isr : Finset ℕ) (eq : irr = p.slave.irr.erase j) :
        unmasked { p.slave with irr := irr, isr := isr } = (unmasked p.slave).erase j := by
      rw [eq, unmasked, unmasked, Finset.filter_erase]
    simp only [load, rest _ _ rfl, Finset.erase_idem, Finset.mem_erase, ne_eq, not_true_eq_false,
      false_and, if_false]
    omega
  · simp only [eq, Prod.mk.injEq, Option.some.injEq] at vector
    obtain ⟨rfl, rfl⟩ := vector
    obtain ⟨-, ⟨mem, -⟩, -⟩ := Chip.request_eq_some.mp request
    have idle : unmasked p.slave = ∅ := by
      rw [← Finset.not_nonempty_iff_eq_empty, ← request_isSome_iff h.relayed.inRange free.2,
        request']
      simp
    simp [load, mem, idle]
  · rw [request] at high
    contradiction

end

section

variable {sHandlers : ℕ → Option IsrHandler} {a1 a2 : BitVec 8} {s t : InterruptState}

theorem length_picSendEoi (irq : BitVec 8) : (picSendEoi irq).length ≤ 2 := by
  unfold picSendEoi
  split_ifs <;> simp

/-- A handler has at most two ports to write. -/
theorem length_ports {v : BitVec 8} {ports : List (BitVec 16 × BitVec 8)} {p : Pair}
    (service : InService p (.leaving v ports)) : ports.length ≤ 2 := by
  rcases service with ⟨rfl, -⟩ | ⟨rfl, -⟩ | ⟨rfl, -⟩
  · exact length_picSendEoi _
  · simp
  · simp

/-- Every step of the processor brings it closer to having served everything. -/
theorem ownStep_lowers (keep : KeepNumber sHandlers) {e : InterruptEvent}
    (steady : s.Steady a1 a2) (step : OwnStep sHandlers s e t) :
    t.Steady a1 a2 ∧ t.work < s.work := by
  obtain ⟨own, step⟩ := step
  have good := (interruptStep_refines keep steady.good step).1
  have service := good.service
  cases step with
  | line edge step => exact absurd rfl (own.1 _)
  | flag b running => exact absurd rfl (own.2 b)
  | sample running enabled high =>
    refine ⟨⟨good, fun _ => high⟩, ?_⟩
    simp [InterruptState.work, running, Phase.distance]
  | acknowledge sampled vector =>
    refine ⟨⟨good, fun h => by simp at h⟩, ?_⟩
    have free : Free s.pics := by simpa [sampled, InService] using steady.good.service
    have fewer := load_acknowledge steady.good.configured free (steady.request sampled) vector
    simp only [InterruptState.work, sampled, Phase.distance]
    omega
  | handler entered number returns =>
    refine ⟨⟨good, fun h => by simp at h⟩, ?_⟩
    have bound := length_ports service
    simp only [InterruptState.work, entered, Phase.distance]
    omega
  | out leaving =>
    refine ⟨⟨good, fun h => by simp at h⟩, ?_⟩
    obtain ⟨-, rfl, port⟩ := out_good steady.good leaving
    simp only [InterruptState.work, leaving, Phase.distance, load_out port, List.length_cons]
    omega
  | iret leaving =>
    refine ⟨⟨good, fun h => by simp at h⟩, ?_⟩
    simp [InterruptState.work, leaving, Phase.distance]

/-- The processor's steps keep its interrupt flag. -/
theorem ownStep_enabled {e : InterruptEvent} (step : OwnStep sHandlers s e t) :
    t.enabled = s.enabled := by
  obtain ⟨own, step⟩ := step
  cases step with
  | flag b running => exact absurd rfl (own.2 b)
  | _ => rfl

/-- `isr_handler` returns from the vectors of the controllers. -/
theorem isrHandler_returns (returns : Return sHandlers) (regs : Registers)
    (irq : ¬ regs.intNo < 32) : ∃ regs' ports, isrHandler sHandlers regs = some (regs', ports) := by
  unfold isrHandler
  rcases found : sHandlers regs.intNo.toNat with _ | handler
  · simpa using BitVec.not_lt.mp irq
  · obtain ⟨regs', called⟩ := Option.isSome_iff_exists.mp (returns _ _ found regs)
    simp [called]

/-- A processor with nothing left to do has served every request that is not masked. -/
theorem settled_of_stuck (returns : Return sHandlers) (good : s.Good a1 a2)
    (enabled : s.enabled = true) (stuck : ∀ e t, ¬ OwnStep sHandlers s e t) :
    s.Settled a1 a2 := by
  have no {e : InterruptEvent} {t : InterruptState} (step : InterruptStep sHandlers s e t)
      (own : (∀ l, e ≠ .line l) ∧ ∀ b, e ≠ .flag b) : False := stuck e t ⟨own, step⟩
  have service := good.service
  rcases phase : s.phase with _ | _ | v | ⟨v, ports⟩
  · have free : Free s.pics := by simpa [phase, InService] using service
    refine ⟨phase, free, fun n wired pending => ?_⟩
    apply masked_of_idle good.configured free _ pending
    by_contra high
    exact no (.sample phase enabled (Option.isSome_iff_ne_none.mpr high)) (by simp)
  · have free : Free s.pics := by simpa [phase, InService] using service
    rcases pair_acknowledge good.configured free with ⟨i, -, -, -, eq⟩ | ⟨j, -, -, eq⟩ |
      ⟨-, -, eq⟩ | ⟨-, eq⟩
    all_goals exact (no (.acknowledge phase eq) (by simp)).elim
  · have serving : Serving s.pics v := by simpa [phase, InService] using service
    have irq : ¬ v.setWidth 64 < (32 : BitVec 64) := by
      rcases serving with ⟨i, bound, rfl, -⟩ | ⟨j, bound, rfl, -⟩ <;> bv_omega
    let regs := { readRegisters (fun _ => 0) 0 with intNo := v.setWidth 64 }
    obtain ⟨regs', ports, eq⟩ := isrHandler_returns returns regs irq
    exact (no (.handler phase rfl eq) (by simp)).elim
  · rcases ports with _ | ⟨⟨port, value⟩, ports⟩
    · exact (no (.iret phase) (by simp)).elim
    · exact (no (.out phase) (by simp)).elim

/-- From every reachable state of interruptible code with the interrupt flag set, the processor's
own steps end, and they end when every request that is not masked has been served and nothing is in
service. -/
theorem interruptRun_settles {es : List InterruptEvent} (keep : KeepNumber sHandlers)
    (returns : Return sHandlers) (remapped : Remapped a1 a2 32 40 s.pics)
    (running : s.phase = .running) (run : Run (InterruptStep sHandlers) s es t)
    (outside : t.phase = .running) (enabled : t.enabled = true) :
    ∃ n, ∀ fs u, Run (OwnStep sHandlers) t fs u →
      fs.length ≤ n ∧ ((∀ e v, ¬ OwnStep sHandlers u e v) → u.Settled a1 a2) := by
  have good := good_of_remapped remapped running
  have reached : t.Good a1 a2 :=
    run.invariant (I := InterruptState.Good a1 a2)
      (fun _ _ _ good step => (interruptStep_refines keep good step).1) good
  have steady : t.Steady a1 a2 := ⟨reached, fun h => by simp [outside] at h⟩
  refine ⟨t.work, fun fs u own => ?_⟩
  obtain ⟨steady', bound⟩ :=
    own.length_le (fun _ _ _ steady step => ownStep_lowers keep steady step) steady
  refine ⟨by omega, settled_of_stuck returns steady'.good ?_⟩
  exact own.invariant (I := fun u => u.enabled = true)
    (fun _ _ _ eq step => (ownStep_enabled step).trans eq) enabled

theorem return_drivers : Return driverHandlers := by
  intro n handler found regs
  unfold driverHandlers at found
  split_ifs at found
  cases found
  rfl

theorem interruptRun_settles_tick :
    ∃ t n, ∀ fs u, Run (OwnStep driverHandlers) t fs u →
      fs.length ≤ n ∧ ((∀ e v, ¬ OwnStep driverHandlers u e v) → u.Settled 0 0) := by
  obtain ⟨t, run, outside, enabled⟩ := run_tick
  exact ⟨t, interruptRun_settles keepNumber_drivers return_drivers remapped_quietSystem rfl run
    outside enabled⟩

end

end ChefOs
