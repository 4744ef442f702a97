import ChefOs.Arch.Idt
import ChefOs.Lib.Pic

/-!
# The interrupt controllers

`arch/pic.c`: the port writes of the driver, and what they make of a pair of 8259A controllers
whose lines go up and down meanwhile.
-/

namespace ChefOs

open Kit Pic

/-- `io_wait`. -/
def ioWait : BitVec 16 × BitVec 8 := (0x80, 0)

/-- The ports that `pic_remap` writes when it has read the masks `a1` and `a2`. -/
def picRemap (a1 a2 : BitVec 8) (offset1 offset2 : BitVec 32) : List (BitVec 16 × BitVec 8) :=
  [(0x20, 0x11), ioWait, (0xA0, 0x11), ioWait,
    (0x21, offset1.setWidth 8), ioWait, (0xA1, offset2.setWidth 8), ioWait,
    (0x21, 4), ioWait, (0xA1, 2), ioWait,
    (0x21, 0x01), ioWait, (0xA1, 0x01), ioWait,
    (0x21, a1), (0xA1, a2)]

/-- The ports that `pic_disable` writes. -/
def picDisable : List (BitVec 16 × BitVec 8) := [(0x21, 0xFF), (0xA1, 0xFF)]

/-- A chip in 8086 mode with normal end of interrupt that has nothing in service. -/
def programmed (imr base cascade : BitVec 8) : Chip where
  irr := ∅
  isr := ∅
  imr := imr
  base := base &&& 0xF8
  cascade := cascade
  mode := 1
  single := false
  needs4 := true
  expects := none

/-- The controllers serve requests at these vectors, behind these masks. -/
structure Remapped (a1 a2 : BitVec 8) (offset1 offset2 : BitVec 32) (p : Pair) : Prop where
  master : p.master.control = programmed a1 (offset1.setWidth 8) 4
  slave : p.slave.control = programmed a2 (offset2.setWidth 8) 2
  inRange : p.master.InRange
  relayed : p.Relayed

/-- A chip without requests does not ask. -/
theorem request_idle {c : Chip} (idle : c.irr = ∅) : c.request = none := by
  rw [Chip.request_eq_none]
  simp [Chip.Asks, idle]

/-- The writes of `pic_remap` on chips without requests. -/
theorem foldl_picRemap (p : Pair) (a1 a2 : BitVec 8) (offset1 offset2 : BitVec 32) :
    (picRemap a1 a2 offset1 offset2).foldl (fun p w => p.out w.1 w.2) p.control =
      ⟨programmed a1 (offset1.setWidth 8) 4, programmed a2 (offset2.setWidth 8) 2⟩ := by
  simp [picRemap, ioWait, Pair.out, Chip.command, Chip.data, Pair.relay, request_idle,
    Pair.control, programmed, Chip.control]

/-- The writes of `pic_remap` in a run. -/
theorem remapped_of_run {p q : Pair} {es : List Pic.Event} {offset1 offset2 : BitVec 32}
    (run : Run Pic.Step p es q)
    (writes : es.filterMap Event.write = picRemap p.master.imr p.slave.imr offset1 offset2) :
    Remapped p.master.imr p.slave.imr offset1 offset2 q := by
  have control := run.project (f := Event.write) (g := Pair.control) (h := fun p w => p.out w.1 w.2)
    (fun _ _ _ step => step.control)
  rw [writes, foldl_picRemap] at control
  have first : es.filterMap Event.write = [] ++ (0x20, 0x11) :: _ := writes
  obtain ⟨-, e₁, es₁, r₁, q₁, -, -, step₁, write₁, run₁, writes₁⟩ := run.split first
  obtain rfl := step₁.out_eq write₁
  have range : (r₁.out 0x20 0x11).master.InRange := by
    intro i mem
    simp [Pair.out, Chip.command] at mem
  have second : es₁.filterMap Event.write = [ioWait] ++ (0xA0, 0x11) :: _ := writes₁
  obtain ⟨-, e₂, es₂, r₂, q₂, -, -, step₂, write₂, after, writes₂⟩ := run₁.split second
  obtain rfl := step₂.out_eq write₂
  refine ⟨congrArg Pair.master control, congrArg Pair.slave control, ?_, ?_⟩
  · exact run_master_inRange run₁ range
  · apply run_relayed after (r₂.relayed_init (by decide))
    rw [writes₂]
    intro w mem port
    simp [ioWait] at mem
    rcases mem with rfl | rfl | rfl | rfl | rfl | rfl | rfl | rfl | rfl | rfl | rfl | rfl |
      rfl | rfl | rfl <;> simp at port

/-- A chip whose lines are all masked does not ask. -/
theorem request_masked {c : Chip} {base cascade : BitVec 8}
    (masked : c.control = programmed 0xFF base cascade) : c.request = none := by
  have mask : c.imr = 0xFF := congrArg Chip.imr masked
  rw [Chip.request_eq_none]
  rintro i small ⟨-, clear, -⟩
  rw [mask] at clear
  revert i
  decide

/-- Behind `pic_disable` neither controller asks, whatever the lines do. -/
theorem picDisable_silences {a1 a2 : BitVec 8} {offset1 offset2 : BitVec 32} {p q : Pair}
    {es : List Pic.Event} (remapped : Remapped a1 a2 offset1 offset2 p) (run : Run Pic.Step p es q)
    (writes : es.filterMap Event.write = picDisable) :
    q.master.request = none ∧ q.slave.request = none := by
  have control := run.project (f := Event.write) (g := Pair.control) (h := fun p w => p.out w.1 w.2)
    (fun _ _ _ step => step.control)
  have start : p.control =
      ⟨programmed a1 (offset1.setWidth 8) 4, programmed a2 (offset2.setWidth 8) 2⟩ :=
    congrArg₂ Pair.mk remapped.master remapped.slave
  have masked : q.control =
      ⟨programmed 0xFF (offset1.setWidth 8) 4, programmed 0xFF (offset2.setWidth 8) 2⟩ := by
    rw [control, writes, start]
    simp [picDisable, Pair.out, Chip.data, programmed, Pair.relay, request_idle]
  exact ⟨request_masked (congrArg Pair.master masked), request_masked (congrArg Pair.slave masked)⟩

/-- Whatever state the controllers are in and whatever their lines do meanwhile, `pic_remap` sets
the vectors, the cascade and the mode, and leaves the masks as they were.  A later `pic_disable`
silences both. -/
theorem picRemap_remaps {p q : Pair} {es : List Pic.Event} (offset1 offset2 : BitVec 32)
    (run : Run Pic.Step p es q)
    (writes : es.filterMap Event.write = picRemap p.master.imr p.slave.imr offset1 offset2) :
    Remapped p.master.imr p.slave.imr offset1 offset2 q ∧
      ∀ es' r, Run Pic.Step q es' r → es'.filterMap Event.write = picDisable →
        r.master.request = none ∧ r.slave.request = none := by
  have remapped := remapped_of_run run writes
  exact ⟨remapped, fun _ _ => picDisable_silences remapped⟩

/-- Controllers as firmware may leave them: the timer's line asks, other vectors, some masks. -/
def firmwarePics : Pair where
  master := { programmed 0xB8 8 4 with irr := {0} }
  slave := programmed 0x8E 0x70 2

/-- A key is pressed before the last write. -/
theorem picRemap_remaps_firmware : ∃ q, Remapped 0xB8 0x8E 32 40 q ∧ q.Pending 1 := by
  let before := (picRemap 0xB8 0x8E 32 40).dropLast
  have run (p : Pair) (ws : List (BitVec 16 × BitVec 8)) :
      Run Pic.Step p (ws.map fun w => .out w.1 w.2) (ws.foldl (fun p w => p.out w.1 w.2) p) := by
    induction ws generalizing p with
    | nil => exact .nil p
    | cons w ws ih => exact .cons (.out w.1 w.2) (ih _)
  let r := before.foldl (fun p w => p.out w.1 w.2) firmwarePics
  have last : Run Pic.Step r [.raise 1, .out 0xA1 0x8E] ((r.raise 1).out 0xA1 0x8E) :=
    .cons (.raise (by simp [Wired]) (by decide)) (.cons (.out _ _) (.nil _))
  refine ⟨_, (picRemap_remaps (p := firmwarePics) 32 40 ((run _ before).append last) ?_).1, ?_⟩
  · decide
  · decide

end ChefOs
