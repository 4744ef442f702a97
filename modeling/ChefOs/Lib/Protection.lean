import ChefOs.Lib.Run

/-!
# Segments and privilege

The descriptor tables of a 64-bit processor, and what they let user code do.  The kernel's way back
to the user is a list of saved frames; when tables are sound, user code stays in user mode, and
enters the kernel only where the tables say.
-/

namespace Kit.Protection

/-! ## Selectors and descriptors -/

/-- The privilege level that a selector asks for. -/
def rpl (sel : BitVec 16) : BitVec 2 := sel.setWidth 2

/-- A selector that asks for another level. -/
def withRpl (sel : BitVec 16) (level : BitVec 2) : BitVec 16 := sel &&& 0xFFFC ||| level.setWidth 16

/-- The eight bytes of a descriptor, the first one lowest. -/
abbrev Descriptor := BitVec 64

namespace Descriptor

def base (d : Descriptor) : BitVec 32 := d.extractLsb' 56 8 ++ d.extractLsb' 16 24

def limit (d : Descriptor) : BitVec 20 := d.extractLsb' 48 4 ++ d.extractLsb' 0 16

def present (d : Descriptor) : Bool := d.getLsbD 47

def dpl (d : Descriptor) : BitVec 2 := d.extractLsb' 45 2

def isCode (d : Descriptor) : Bool := d.getLsbD 44 && d.getLsbD 43

/-- Code for callers of any lower privilege, which keep theirs. -/
def conforming (d : Descriptor) : Bool := d.getLsbD 42

/-- 64-bit code. -/
def long (d : Descriptor) : Bool := d.getLsbD 53 && !d.getLsbD 54

/-- Data that can be written. -/
def isStack (d : Descriptor) : Bool := d.getLsbD 44 && !d.getLsbD 43 && d.getLsbD 41

def isCallGate (d : Descriptor) : Bool := !d.getLsbD 44 && d.extractLsb' 40 4 == 0xC

end Descriptor

/-- The base of a system segment, from its two descriptors. -/
def systemBase (low high : Descriptor) : BitVec 64 := high.setWidth 32 ++ low.base

/-- A gate of the interrupt table. -/
structure Gate where
  offset : BitVec 64
  selector : BitVec 16
  attributes : BitVec 8
deriving DecidableEq

def Gate.present (g : Gate) : Bool := g.attributes.getLsbD 7

def Gate.dpl (g : Gate) : BitVec 2 := g.attributes.extractLsb' 5 2

/-- The gate clears the interrupt flag. -/
def Gate.masks (g : Gate) : Bool := g.attributes.extractLsb' 0 4 == 0xE

/-- The tables and registers that decide about privilege. -/
structure Tables where
  gdt : ℕ → Option Descriptor
  idt : BitVec 8 → Gate
  levelStack : BitVec 2 → BitVec 64
  star : BitVec 64
  lstar : BitVec 64
  sfmask : BitVec 64

namespace Tables

variable (t : Tables)

/-- The descriptor of a selector.  There is no local table. -/
def lookup (sel : BitVec 16) : Option Descriptor :=
  if sel >>> 3 = 0 ∨ sel.getLsbD 2 = true then none else t.gdt (sel >>> 3).toNat

/-- The segments of `syscall` and `sysret`. -/
def kernelCs : BitVec 16 := t.star.extractLsb' 32 16 &&& 0xFFFC

def kernelSs : BitVec 16 := t.star.extractLsb' 32 16 + 8

def userCs : BitVec 16 := (t.star.extractLsb' 48 16 + 16) ||| 3

def userSs : BitVec 16 := (t.star.extractLsb' 48 16 + 8) ||| 3

/-- The selector is of 64-bit code that runs at the level. -/
def Code (level : BitVec 2) (sel : BitVec 16) : Prop :=
  rpl sel = level ∧ ∃ d, t.lookup sel = some d ∧ d.isCode = true ∧ d.present = true ∧
    d.long = true ∧ d.conforming = false ∧ d.dpl = level

/-- The processor loads the selector into `ss`. -/
def Stack (level : BitVec 2) (sel : BitVec 16) : Prop :=
  rpl sel = level ∧ (sel >>> 2 = 0 ∧ level ≠ 3 ∨
    ∃ d, t.lookup sel = some d ∧ d.isStack = true ∧ d.present = true ∧ d.dpl = level)

/-- The processor jumps to a segment. -/
def MayJump (cpl : BitVec 2) (sel : BitVec 16) : Prop :=
  ∃ d, t.lookup sel = some d ∧ d.isCode = true ∧ d.present = true ∧
    if d.conforming then d.dpl ≤ cpl else rpl sel ≤ cpl ∧ d.dpl = cpl

/-- The processor returns to a segment. -/
def MayReturn (cpl : BitVec 2) (sel : BitVec 16) : Prop :=
  cpl ≤ rpl sel ∧ ∃ d, t.lookup sel = some d ∧ d.isCode = true ∧ d.present = true ∧
    if d.conforming then d.dpl ≤ rpl sel else d.dpl = rpl sel

end Tables

/-! ## The processor -/

/-- What the kernel returns to, saved by `syscall` or by the delivery of an interrupt. -/
structure ReturnFrame where
  rip : BitVec 64
  rflags : BitVec 64
  rsp : BitVec 64
  cs : BitVec 16
  ss : BitVec 16
  fast : Bool
deriving DecidableEq

/-- The registers, and the frames that the kernel has saved. -/
structure Processor where
  cpl : BitVec 2
  cs : BitVec 16
  ss : BitVec 16
  rip : BitVec 64
  rflags : BitVec 64
  rsp : BitVec 64
  frames : List ReturnFrame
deriving DecidableEq

/-- The upper bits of an address repeat the bit below them. -/
def Canonical (address : BitVec 64) : Prop := (address.setWidth 48).signExtend 64 = address

instance : DecidablePred Canonical := fun _ => inferInstanceAs (Decidable (_ = _))

/-- The interrupt flag. -/
def enabled (rflags : BitVec 64) : Bool := rflags.getLsbD 9

namespace Processor

/-- What is saved of a state. -/
def frame (m : Processor) (fast : Bool) : ReturnFrame := ⟨m.rip, m.rflags, m.rsp, m.cs, m.ss, fast⟩

/-- `syscall`. -/
def syscall (t : Tables) (m : Processor) : Processor where
  cpl := 0
  cs := t.kernelCs
  ss := t.kernelSs
  rip := t.lstar
  rflags := m.rflags &&& ~~~t.sfmask
  rsp := m.rsp
  frames := m.frame true :: m.frames

/-- `sysret`. -/
def sysret (t : Tables) (f : ReturnFrame) (fs : List ReturnFrame) : Processor where
  cpl := 3
  cs := t.userCs
  ss := t.userSs
  rip := f.rip
  rflags := f.rflags &&& 0x3C7FD7 ||| 2
  rsp := f.rsp
  frames := fs

/-- The delivery of an interrupt to code of a level.  Another level has its own stack. -/
def interrupt (t : Tables) (g : Gate) (level : BitVec 2) (m : Processor) : Processor where
  cpl := level
  cs := withRpl g.selector level
  ss := if level = m.cpl then m.ss else level.setWidth 16
  rip := g.offset
  rflags := m.rflags &&& if g.masks then ~~~0x34300 else ~~~0x34100
  rsp := (if level = m.cpl then m.rsp else t.levelStack level) &&& ~~~0xF
  frames := m.frame false :: m.frames

/-- `iretq`. -/
def iret (f : ReturnFrame) (fs : List ReturnFrame) : Processor where
  cpl := rpl f.cs
  cs := f.cs
  ss := f.ss
  rip := f.rip
  rflags := f.rflags
  rsp := f.rsp
  frames := fs

end Processor

/-- What the processor executes. -/
inductive Event
  | compute
  | jump (sel : BitVec 16)
  | farReturn (sel : BitVec 16)
  | callGate (sel : BitVec 16)
  | loadSs (sel : BitVec 16)
  | userIret (cs ss : BitVec 16)
  | syscall
  | sysret
  | interrupt (v : BitVec 8)
  | iret
  | enter (cs ss : BitVec 16)
deriving DecidableEq

/-- A step.  The kernel changes the interrupt flag only when it has nothing to return to, and loads
no segments but on its way to the user.  User code may try everything, but not at the very end of
the lower half: the address behind an instruction is canonical. -/
inductive Step (t : Tables) : Processor → Event → Processor → Prop
  | compute {m : Processor} (rip rsp rflags : BitVec 64) (canonical : Canonical rip)
      (flag : m.cpl ≠ 0 ∨ m.frames ≠ [] → enabled rflags = enabled m.rflags) :
      Step t m .compute { m with rip := rip, rsp := rsp, rflags := rflags }
  | jump {m : Processor} {sel : BitVec 16} (rip : BitVec 64) (user : m.cpl = 3)
      (may : t.MayJump m.cpl sel) (canonical : Canonical rip) :
      Step t m (.jump sel) { m with cs := withRpl sel m.cpl, rip := rip }
  | farReturn {m : Processor} {sel : BitVec 16} (rip rsp : BitVec 64) (user : m.cpl = 3)
      (may : t.MayReturn m.cpl sel) (canonical : Canonical rip) :
      Step t m (.farReturn sel) { m with cpl := rpl sel, cs := sel, rip := rip, rsp := rsp }
  | callGate {m : Processor} {sel : BitVec 16} {d : Descriptor} (level : BitVec 2) (cs : BitVec 16)
      (rip rsp : BitVec 64) (user : m.cpl = 3) (found : t.lookup sel = some d)
      (present : d.present = true) (gate : d.isCallGate = true) (may : m.cpl ≤ d.dpl)
      (canonical : Canonical rip) :
      Step t m (.callGate sel) { m with cpl := level, cs := cs, rip := rip, rsp := rsp }
  | loadSs {m : Processor} {sel : BitVec 16} (user : m.cpl = 3) (may : t.Stack m.cpl sel) :
      Step t m (.loadSs sel) { m with ss := sel }
  | userIret {m : Processor} {cs ss : BitVec 16} (rip rsp rflags : BitVec 64) (user : m.cpl = 3)
      (may : t.MayReturn m.cpl cs) (stack : t.Stack (rpl cs) ss)
      (canonical : Canonical rip) (flag : enabled rflags = enabled m.rflags) :
      Step t m (.userIret cs ss) ⟨rpl cs, cs, ss, rip, rflags, rsp, m.frames⟩
  | syscall {m : Processor} (user : m.cpl = 3) : Step t m .syscall (m.syscall t)
  | sysret {m : Processor} {f : ReturnFrame} {fs : List ReturnFrame} (kernel : m.cpl = 0)
      (saved : m.frames = f :: fs) (fast : f.fast = true) (canonical : Canonical f.rip) :
      Step t m .sysret (.sysret t f fs)
  | interrupt {m : Processor} {v : BitVec 8} {d : Descriptor} (present : (t.idt v).present = true)
      (found : t.lookup (t.idt v).selector = some d) (code : d.isCode = true)
      (loaded : d.present = true) (may : d.dpl ≤ m.cpl)
      (cause : v < 32 ∨ enabled m.rflags = true ∨ m.cpl = 3 ∧ m.cpl ≤ (t.idt v).dpl) :
      Step t m (.interrupt v) (m.interrupt t (t.idt v) (if d.conforming then m.cpl else d.dpl))
  | iret {m : Processor} {f : ReturnFrame} {fs : List ReturnFrame} (kernel : m.cpl = 0)
      (saved : m.frames = f :: fs) (slow : f.fast = false) (may : t.MayReturn m.cpl f.cs)
      (stack : t.Stack (rpl f.cs) f.ss) (canonical : Canonical f.rip) : Step t m .iret (.iret f fs)
  | enter {m : Processor} {cs ss : BitVec 16} (rip rsp rflags : BitVec 64) (kernel : m.cpl = 0)
      (nothing : m.frames = []) (may : t.MayReturn m.cpl cs) (stack : t.Stack (rpl cs) ss)
      (canonical : Canonical rip) :
      Step t m (.enter cs ss) ⟨rpl cs, cs, ss, rip, rflags, rsp, []⟩

/-! ## Sound tables -/

/-- The tables know two levels, each with its code and stack, and lead to canonical addresses of the
kernel with the interrupt flag cleared. -/
structure Tables.Sound (t : Tables) : Prop where
  code : ∀ sel d, t.lookup sel = some d → d.isCode = true → d.present = true →
    d.long = true ∧ d.conforming = false ∧ (d.dpl = 0 ∨ d.dpl = 3)
  noCallGate : ∀ sel d, t.lookup sel = some d → d.present = true → d.isCallGate = false
  gates : ∀ v, (t.idt v).present = true → (t.idt v).masks = true ∧
    t.Code 0 (withRpl (t.idt v).selector 0) ∧ Canonical (t.idt v).offset
  kernelCs : t.Code 0 t.kernelCs
  kernelSs : t.Stack 0 t.kernelSs
  userCs : t.Code 3 t.userCs
  userSs : t.Stack 3 t.userSs
  masked : t.sfmask.getLsbD 9 = true
  lstar : Canonical t.lstar

/-- The frames can be returned to, and only the last one may be of user code. -/
def SavedFrames (t : Tables) : List ReturnFrame → Prop
  | [] => True
  | f :: fs => (rpl f.cs = 0 ∨ rpl f.cs = 3 ∧ fs = []) ∧ t.Code (rpl f.cs) f.cs ∧
      t.Stack (rpl f.cs) f.ss ∧ (f.fast = true → rpl f.cs = 3) ∧ Canonical f.rip ∧
      (fs ≠ [] → enabled f.rflags = false) ∧ SavedFrames t fs

/-- The loaded segments are those of the level.  In user mode the kernel has nothing to return to,
and as long as it has, interrupts are off. -/
structure Processor.Sound (t : Tables) (m : Processor) : Prop where
  level : m.cpl = 0 ∨ m.cpl = 3 ∧ m.frames = []
  code : t.Code m.cpl m.cs
  stack : t.Stack m.cpl m.ss
  rip : Canonical m.rip
  masked : m.frames ≠ [] → enabled m.rflags = false
  saved : SavedFrames t m.frames

section

variable {t : Tables} {m m' : Processor} {sel : BitVec 16}

theorem rpl_withRpl (sel : BitVec 16) (level : BitVec 2) : rpl (withRpl sel level) = level := by
  unfold rpl withRpl
  ext i hi
  interval_cases i <;> simp

theorem lookup_withRpl (t : Tables) (sel : BitVec 16) (level : BitVec 2) :
    t.lookup (withRpl sel level) = t.lookup sel := by
  have index : withRpl sel level >>> 3 = sel >>> 3 := by
    unfold withRpl
    ext i hi
    interval_cases i <;> simp
  have table : (withRpl sel level).getLsbD 2 = sel.getLsbD 2 := by simp [withRpl]
  rw [Tables.lookup, Tables.lookup, index, table]

theorem rpl_of_user (le : (3 : BitVec 2) ≤ rpl sel) : rpl sel = 3 := by
  generalize rpl sel = r at le ⊢
  revert r
  decide

namespace Tables

/-- A far jump of user code stays in user code. -/
theorem MayJump.code (sound : t.Sound) (may : t.MayJump 3 sel) : t.Code 3 (withRpl sel 3) := by
  obtain ⟨d, found, isCode, present, allowed⟩ := may
  obtain ⟨long, conforming, -⟩ := sound.code sel d found isCode present
  rw [conforming, if_neg Bool.false_ne_true] at allowed
  refine ⟨rpl_withRpl sel 3, d, ?_, isCode, present, long, conforming, allowed.2⟩
  rw [lookup_withRpl]
  exact found

/-- A far return leads to one of the two levels. -/
theorem MayReturn.code {cpl : BitVec 2} (sound : t.Sound) (may : t.MayReturn cpl sel) :
    t.Code (rpl sel) sel ∧ (rpl sel = 0 ∨ rpl sel = 3) := by
  obtain ⟨-, d, found, isCode, present, allowed⟩ := may
  obtain ⟨long, conforming, level⟩ := sound.code sel d found isCode present
  rw [conforming, if_neg Bool.false_ne_true] at allowed
  refine ⟨⟨rfl, d, found, isCode, present, long, conforming, allowed⟩, ?_⟩
  rw [← allowed]
  exact level

/-- The processor returns to code that it has run. -/
theorem Code.mayReturn (code : t.Code (rpl sel) sel) : t.MayReturn 0 sel := by
  obtain ⟨-, d, found, isCode, present, -, conforming, level⟩ := code
  refine ⟨Nat.zero_le (rpl sel).toNat, d, found, isCode, present, ?_⟩
  rw [conforming, if_neg Bool.false_ne_true]
  exact level

end Tables

theorem enabled_masked (rflags mask : BitVec 64) (h : mask.getLsbD 9 = true) :
    enabled (rflags &&& ~~~mask) = false := by
  simp [enabled, h]

/-- What is saved on the way into the kernel. -/
theorem Processor.Sound.save (sound : m.Sound t) (fast : Bool) (user : fast = true → m.cpl = 3) :
    SavedFrames t (m.frame fast :: m.frames) := by
  have level : rpl m.cs = m.cpl := sound.code.1
  refine ⟨?_, ?_, ?_, ?_, sound.rip, sound.masked, sound.saved⟩
  · exact level ▸ sound.level
  · exact (congrArg (t.Code · m.cs) level).mpr sound.code
  · exact (congrArg (t.Stack · m.ss) level).mpr sound.stack
  · exact fun h => level.trans (user h)

/-- Every step keeps to the levels. -/
theorem step_sound {e : Event} (tables : t.Sound) (sound : m.Sound t) (step : Step t m e m') :
    m'.Sound t := by
  cases step with
  | compute rip rsp rflags canonical flag =>
    refine ⟨sound.level, sound.code, sound.stack, canonical, fun h => ?_, sound.saved⟩
    exact (flag (.inr h)).trans (sound.masked h)
  | jump rip user may canonical =>
    rw [user] at may
    refine ⟨sound.level, ?_, sound.stack, canonical, sound.masked, sound.saved⟩
    exact user ▸ may.code tables
  | farReturn rip rsp user may canonical =>
    rw [user] at may
    have level : rpl _ = m.cpl := (rpl_of_user may.1).trans user.symm
    exact ⟨level ▸ sound.level, (may.code tables).1, level ▸ sound.stack, canonical, sound.masked,
      sound.saved⟩
  | callGate level cs rip rsp user found present gate may canonical =>
    rw [tables.noCallGate _ _ found present] at gate
    contradiction
  | loadSs user may => exact ⟨sound.level, sound.code, may, sound.rip, sound.masked, sound.saved⟩
  | userIret rip rsp rflags user may stack canonical flag =>
    rw [user] at may
    have level : rpl _ = m.cpl := (rpl_of_user may.1).trans user.symm
    refine ⟨level ▸ sound.level, (may.code tables).1, stack, canonical, fun h => ?_, sound.saved⟩
    exact flag.trans (sound.masked h)
  | syscall user =>
    exact ⟨.inl rfl, tables.kernelCs, tables.kernelSs, tables.lstar,
      fun _ => enabled_masked _ _ tables.masked, sound.save true fun _ => user⟩
  | @sysret f fs kernel saved fast canonical =>
    have frames := sound.saved
    rw [saved] at frames
    obtain ⟨level, -, -, user, -, -, rest⟩ := frames
    have last : fs = [] := by
      rcases level with level | level
      · rw [user fast] at level
        contradiction
      · exact level.2
    exact ⟨.inr ⟨rfl, last⟩, tables.userCs, tables.userSs, canonical, fun h => absurd last h, rest⟩
  | @interrupt v d present found code loaded may cause =>
    obtain ⟨masks, kernel, canonical⟩ := tables.gates v present
    have level : (if d.conforming then m.cpl else d.dpl) = 0 := by
      obtain ⟨-, d', found', -, -, -, conforming, level⟩ := kernel
      rw [lookup_withRpl, found] at found'
      obtain rfl := Option.some.inj found'
      rw [conforming, if_neg Bool.false_ne_true, level]
    rw [level]
    refine ⟨.inl rfl, kernel, ?_, canonical, fun _ => ?_, sound.save false nofun⟩
    · change t.Stack 0 (if 0 = m.cpl then m.ss else 0)
      split_ifs with same
      · rw [same]
        exact sound.stack
      · exact ⟨rfl, .inl ⟨rfl, by decide⟩⟩
    · unfold Processor.interrupt
      rw [masks]
      exact enabled_masked _ _ (by decide)
  | iret kernel saved slow may stack canonical =>
    have frames := sound.saved
    rw [saved] at frames
    obtain ⟨level, code, stack, -, -, masked, rest⟩ := frames
    exact ⟨level, code, stack, canonical, masked, rest⟩
  | enter rip rsp rflags kernel nothing may stack canonical =>
    obtain ⟨code, level⟩ := may.code tables
    exact ⟨level.imp_right fun user => ⟨user, rfl⟩, code, stack, canonical, fun h => absurd rfl h,
      trivial⟩

/-- The kernel is entered where the tables say, with interrupts off, and has only the user to return
to. -/
structure Enters (t : Tables) (m m' : Processor) : Prop where
  place : m'.rip = t.lstar ∨ ∃ v, (t.idt v).present = true ∧ m'.rip = (t.idt v).offset ∧
    m'.rsp = t.levelStack 0 &&& ~~~0xF
  masked : enabled m'.rflags = false
  frames : ∃ fast, m'.frames = [m.frame fast]

/-- The only ways out of user mode. -/
theorem step_enters {e : Event} (tables : t.Sound) (sound : m.Sound t) (step : Step t m e m')
    (user : m.cpl = 3) (left : m'.cpl ≠ 3) : Enters t m m' := by
  have sound' := step_sound tables sound step
  have nothing : m.frames = [] := by
    rcases sound.level with level | level
    · rw [user] at level
      contradiction
    · exact level.2
  cases step with
  | compute => exact absurd user left
  | jump => exact absurd user left
  | farReturn rip rsp user may canonical =>
    rw [user] at may
    exact absurd (rpl_of_user may.1) left
  | callGate level cs rip rsp user found present gate may canonical =>
    rw [tables.noCallGate _ _ found present] at gate
    contradiction
  | loadSs => exact absurd user left
  | userIret rip rsp rflags user may stack canonical flag =>
    rw [user] at may
    exact absurd (rpl_of_user may.1) left
  | syscall user =>
    have frames : (m.syscall t).frames = [m.frame true] := by rw [Processor.syscall, nothing]
    exact ⟨.inl rfl, sound'.masked (by rw [frames]; simp), true, frames⟩
  | sysret kernel =>
    rw [user] at kernel
    contradiction
  | @interrupt v d present found code loaded may cause =>
    have kernel := sound'.level.resolve_right fun h => left h.1
    have frames : (m.interrupt t (t.idt v) (if d.conforming then m.cpl else d.dpl)).frames =
        [m.frame false] := by rw [Processor.interrupt, nothing]
    refine ⟨.inr ⟨v, present, rfl, ?_⟩, sound'.masked (by rw [frames]; simp), false, frames⟩
    change (if d.conforming then m.cpl else d.dpl) = 0 at kernel
    rw [kernel, Processor.interrupt, user]
    rfl
  | iret kernel =>
    rw [user] at kernel
    contradiction
  | enter rip rsp rflags kernel =>
    rw [user] at kernel
    contradiction

/-- In every run the segments are those of the level, user mode is left only where the tables say,
and every return of the kernel passes the processor's checks of the segments and of the address. -/
theorem run_confined {es : List Event} (tables : t.Sound) (sound : m.Sound t)
    (run : Run (Step t) m es m') : m'.Sound t ∧
      (∀ e m'', Step t m' e m'' → m'.cpl = 3 → m''.cpl ≠ 3 → Enters t m' m'') ∧
      ∀ f fs, m'.frames = f :: fs →
        t.MayReturn 0 f.cs ∧ t.Stack (rpl f.cs) f.ss ∧ Canonical f.rip := by
  have sound' := run.invariant (I := Processor.Sound t)
    (fun _ _ _ sound step => step_sound tables sound step) sound
  refine ⟨sound', fun e m'' step user left => step_enters tables sound' step user left, ?_⟩
  intro f fs saved
  have frames := sound'.saved
  rw [saved] at frames
  obtain ⟨-, code, stack, -, canonical, -⟩ := frames
  exact ⟨code.mayReturn, stack, canonical⟩

end

end Kit.Protection
