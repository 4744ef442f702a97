import ChefOs.Fs.Tree

/-!
# Kinds of nodes

The creators test the kind of the parent with `flags & FS_DIRECTORY`.  Kinds are numbers and
`FS_CHARDEVICE` has that bit too, so the test lets a character device through.  As long as no call
is given a device, only directories have children.
-/

namespace ChefOs

open Kit

/-- Only directories have children. -/
def OnlyDirs (s : Fs) : Prop :=
  ∀ (n : ℕ) (e : RamfsEntry), s.nodes[n]? = some e → e.children ≠ [] → e.flags = fsDirectory

/-- A call that adds nodes to the tree. -/
inductive KindOp where
  | create (op : TreeOp)
  | devfs (devDir : ℕ)
deriving DecidableEq, Repr

/-- The node a call is given. -/
def KindOp.node : KindOp → ℕ
  | .create op => op.parent
  | .devfs devDir => devDir

/-- The call with the node it returns; `devfs_init` returns none. -/
def KindOp.call : KindOp → Fs → Option (Option ℕ × Fs)
  | .create op, s => op.call s
  | .devfs devDir, s => (devfsInit (some devDir) s).map fun t => (none, t)

/-- What every call should do: keep children under directories only, and refuse files and
devices. -/
structure KindsHold (s : Fs) (op : KindOp) (r : Option ℕ) (t : Fs) : Prop where
  before : OnlyDirs s
  after : OnlyDirs t
  refused : ∀ p, s.nodes[op.node]? = some p → p.flags = fsFile ∨ p.flags = fsChardevice →
    r = none ∧ t = s

/-- A call that does what it should. -/
def GoodStep (s : Fs) (op : KindOp) (t : Fs) : Prop :=
  ∃ r, op.call s = some (r, t) ∧ KindsHold s op r t

/-- A call that is not given a character device. -/
def GuardedStep (s : Fs) (op : KindOp) (t : Fs) : Prop :=
  (∃ r, op.call s = some (r, t)) ∧ ∀ p, s.nodes[op.node]? = some p → p.flags ≠ fsChardevice

/-! ## Devices -/

/-- Overwriting the new node is linking another one. -/
theorem setNode_linked (s : Fs) (parent : ℕ) (p entry entry' : RamfsEntry) (k : ℕ) :
    (s.linked parent p entry k).setNode s.nodes.length entry' = s.linked parent p entry' k := by
  have hnodes : (s.linked parent p entry k).nodes.set s.nodes.length entry' =
      (s.linked parent p entry' k).nodes := by
    change (s.nodes.set parent { p with children := p.children ++ [s.nodes.length] } ++
      [entry]).set s.nodes.length entry' = _
    rw [List.set_append_right _ _ (by simp)]
    simp [Fs.linked, Fs.attach, Fs.withAllocs]
  rw [Fs.setNode, hnodes]
  rfl

/-- A callback setter of `devfs_init` leaves the kind and the children alone. -/
def KeepsKind (device : RamfsEntry → RamfsEntry) : Prop :=
  ∀ e, (device e).flags = e.flags ∧ (device e).children = e.children

/-- One device of `devfs_init`: nothing happens, or a device is linked. -/
theorem devfsCreate_cases {devDir : ℕ} {name : List UInt8} {device : RamfsEntry → RamfsEntry}
    {s t : Fs} (keeps : KeepsKind device) (call : devfsCreate devDir name device s = some t) :
    (∃ p, s.nodes[devDir]? = some p ∧ (p.flags &&& fsDirectory = 0 ∨ 32 ≤ p.children.length) ∧
        t = s) ∨
      ∃ p entry k, s.nodes[devDir]? = some p ∧ p.flags &&& fsDirectory ≠ 0 ∧
        entry.flags = fsChardevice ∧ entry.children = [] ∧ t = s.linked devDir p entry k := by
  simp only [devfsCreate, Option.bind_eq_bind, Option.bind_eq_some_iff] at call
  obtain ⟨⟨r, u⟩, create, call⟩ := call
  rcases ramfsCreateFile_cases create with
    ⟨p, hp, skip, rfl, rfl⟩ | ⟨p, stored, k, hp, dir, -, rfl, rfl⟩
  · exact Or.inl ⟨p, hp, skip, (Option.some.inj call).symm⟩
  · simp only [getElem?_linked hp, if_true, Option.bind_some] at call
    obtain rfl := Option.some.inj call
    obtain ⟨flags, children⟩ := keeps { fileEntry stored (initialBytes none 0) with
      flags := fsChardevice }
    exact Or.inr ⟨p, _, k, hp, dir, flags, children, setNode_linked _ _ _ _ _ k⟩

/-- The creation of one device, with its name and its callback setter. -/
def DeviceStep (devDir : ℕ) (s : Fs) (device : List UInt8 × (RamfsEntry → RamfsEntry)) (t : Fs) :
    Prop :=
  KeepsKind device.2 ∧ devfsCreate devDir device.1 device.2 s = some t

/-- `devfs_init` creates its devices one after the other. -/
theorem devfsInit_run {devDir : ℕ} {s t : Fs} (call : devfsInit (some devDir) s = some t) :
    ∃ first rest, Run (DeviceStep devDir) s (first :: rest) t := by
  simp only [devfsInit, Option.bind_eq_bind, Option.bind_eq_some_iff] at call
  obtain ⟨s₁, first, s₂, second, s₃, third, fourth⟩ := call
  have write : ∀ w : Option WriteFn, KeepsKind fun e => { e with write := w } :=
    fun w e => ⟨rfl, rfl⟩
  have read : ∀ r : Option ReadFn, KeepsKind fun e => { e with read := r } :=
    fun r e => ⟨rfl, rfl⟩
  exact ⟨(_, _), [(_, _), (_, _), (_, _)], .cons ⟨write _, first⟩ (.cons ⟨write _, second⟩
    (.cons ⟨read _, third⟩ (.cons ⟨read _, fourth⟩ (.nil t))))⟩

/-- Creating devices never removes a node. -/
theorem deviceStep_length {devDir : ℕ} {s t : Fs}
    {device : List UInt8 × (RamfsEntry → RamfsEntry)} (step : DeviceStep devDir s device t) :
    s.nodes.length ≤ t.nodes.length := by
  rcases devfsCreate_cases step.1 step.2 with ⟨-, -, -, rfl⟩ | ⟨_, _, _, -, -, -, -, rfl⟩
  · exact le_rfl
  · simp

/-! ## Runs -/

/-- Only directories have children, and every node is a file, a directory or a device. -/
structure KindInv (s : Fs) : Prop where
  onlyDirs : OnlyDirs s
  kind : ∀ (n : ℕ) (e : RamfsEntry), s.nodes[n]? = some e →
    e.flags = fsFile ∨ e.flags = fsDirectory ∨ e.flags = fsChardevice

/-- A node that passes the test and is no device is a directory. -/
theorem KindInv.dir {s : Fs} (inv : KindInv s) {n : ℕ} {p : RamfsEntry}
    (hp : s.nodes[n]? = some p) (dir : p.flags &&& fsDirectory ≠ 0)
    (guard : p.flags ≠ fsChardevice) : p.flags = fsDirectory := by
  rcases inv.kind n p hp with file | isDir | device
  · rw [file] at dir
    exact absurd rfl dir
  · exact isDir
  · exact absurd device guard

/-- Linking a childless node under a directory keeps the invariant. -/
theorem KindInv.linked {s : Fs} (inv : KindInv s) {parent : ℕ} {p entry : RamfsEntry}
    (hp : s.nodes[parent]? = some p) (dir : p.flags = fsDirectory) (childless : entry.children = [])
    (kind : entry.flags = fsFile ∨ entry.flags = fsDirectory ∨ entry.flags = fsChardevice)
    (k : ℕ) : KindInv (s.linked parent p entry k) := by
  constructor
  · intro n e he hc
    rw [getElem?_linked hp] at he
    split_ifs at he
    · rw [← Option.some.inj he] at hc
      exact absurd childless hc
    · rw [← Option.some.inj he]
      exact dir
    · exact inv.onlyDirs n e he hc
  · intro n e he
    rw [getElem?_linked hp] at he
    split_ifs at he
    · rw [← Option.some.inj he]
      exact kind
    · rw [← Option.some.inj he]
      exact inv.kind parent p hp
    · exact inv.kind n e he

theorem TreeOp.entry_kind (op : TreeOp) : op.entry.children = [] ∧
    (op.entry.flags = fsFile ∨ op.entry.flags = fsDirectory ∨ op.entry.flags = fsChardevice) := by
  cases op with
  | createDir parent name => exact ⟨rfl, Or.inr (Or.inl rfl)⟩
  | createFile parent name content size => exact ⟨rfl, Or.inl rfl⟩

/-- `devfs_init` links devices under a node that stays a directory, or does nothing. -/
theorem devfsInit_kindInv {s t : Fs} {devDir : ℕ} (inv : KindInv s)
    (guard : ∀ p, s.nodes[devDir]? = some p → p.flags ≠ fsChardevice)
    (init : devfsInit (some devDir) s = some t) :
    KindInv t ∧ ((∀ p, s.nodes[devDir]? = some p → p.flags &&& fsDirectory = 0) → t = s) := by
  obtain ⟨first, rest, run⟩ := devfsInit_run init
  have outcome : KindInv t ∧ (∀ p, t.nodes[devDir]? = some p → p.flags ≠ fsChardevice) ∧
      ((∀ p, s.nodes[devDir]? = some p → p.flags &&& fsDirectory = 0) → t = s) := by
    refine run.invariant (I := fun u => KindInv u ∧
      (∀ p, u.nodes[devDir]? = some p → p.flags ≠ fsChardevice) ∧
      ((∀ p, s.nodes[devDir]? = some p → p.flags &&& fsDirectory = 0) → u = s)) ?_
      ⟨inv, guard, fun _ => rfl⟩
    rintro u device v ⟨uInv, uGuard, same⟩ ⟨keeps, create⟩
    rcases devfsCreate_cases keeps create with ⟨-, -, -, rfl⟩ |
      ⟨p, entry, k, hp, dir, flags, childless, rfl⟩
    · exact ⟨uInv, uGuard, same⟩
    · have isDir := uInv.dir hp dir (uGuard p hp)
      refine ⟨uInv.linked hp isDir childless (Or.inr (Or.inr flags)) k, fun q hq => ?_,
        fun file => ?_⟩
      · have hlt : devDir < u.nodes.length := (List.getElem?_eq_some_iff.mp hp).1
        rw [getElem?_linked hp, if_neg (by omega), if_pos rfl] at hq
        rw [← Option.some.inj hq]
        exact uGuard p hp
      · rw [same file] at hp
        exact absurd (file p hp) dir
  exact ⟨outcome.1, outcome.2.2⟩

/-- A guarded call keeps the invariant and does what it should. -/
theorem guardedStep_good {s t : Fs} {op : KindOp} (inv : KindInv s) (step : GuardedStep s op t) :
    KindInv t ∧ GoodStep s op t := by
  obtain ⟨⟨r, call⟩, guard⟩ := step
  -- a parent that is refused is a file
  have refusedIsFile : ∀ p, s.nodes[op.node]? = some p →
      p.flags = fsFile ∨ p.flags = fsChardevice → p.flags &&& fsDirectory = 0 := by
    intro p hp kind
    rw [kind.resolve_right (guard p hp)]
    rfl
  cases op with
  | create op =>
    rcases op.call_cases call with ⟨-, -, -, rfl, rfl⟩ | ⟨p, k, hp, dir, rfl, rfl⟩
    · exact ⟨inv, none, call, inv.onlyDirs, inv.onlyDirs, fun _ _ _ => ⟨rfl, rfl⟩⟩
    · obtain ⟨childless, kind⟩ := op.entry_kind
      have inv' := inv.linked hp (inv.dir hp dir (guard p hp)) childless kind k
      refine ⟨inv', _, call, inv.onlyDirs, inv'.onlyDirs, fun q hq refused => ?_⟩
      obtain rfl := Option.some.inj (hp.symm.trans hq)
      exact absurd (refusedIsFile p hp refused) dir
  | devfs devDir =>
    obtain ⟨t', init, rfl, rfl⟩ :
        ∃ t', devfsInit (some devDir) s = some t' ∧ r = none ∧ t = t' := by
      obtain ⟨t', init, h⟩ := Option.map_eq_some_iff.mp call
      exact ⟨t', init, (Prod.ext_iff.mp h).1.symm, (Prod.ext_iff.mp h).2.symm⟩
    obtain ⟨inv', unchanged⟩ := devfsInit_kindInv inv guard init
    refine ⟨inv', none, call, inv.onlyDirs, inv'.onlyDirs, fun p hp refused => ⟨rfl, ?_⟩⟩
    apply unchanged
    intro q hq
    obtain rfl := Option.some.inj (hp.symm.trans hq)
    exact refusedIsFile p hp refused

/-- A call that is given a device adds a child to it, or leaves a device with children behind. -/
theorem goodStep_guarded {s t : Fs} {op : KindOp} (step : GoodStep s op t) :
    GuardedStep s op t := by
  obtain ⟨r, call, hold⟩ := step
  refine ⟨⟨r, call⟩, fun p hp device => ?_⟩
  obtain ⟨rfl, rfl⟩ := hold.refused p hp (Or.inr device)
  have passes : p.flags &&& fsDirectory ≠ 0 := by
    rw [device]
    decide
  have childless : p.children = [] := by
    by_contra children
    have := hold.before _ p hp children
    rw [device] at this
    exact absurd this (by decide)
  have accepted : ¬ (p.flags &&& fsDirectory = 0 ∨ 32 ≤ p.children.length) := by
    rw [childless]
    simpa using passes
  cases op with
  | create op =>
    rcases op.call_cases call with ⟨q, hq, refused, -⟩ | ⟨-, -, -, -, made, -⟩
    · obtain rfl := Option.some.inj (hp.symm.trans hq)
      exact accepted refused
    · exact absurd made (by simp)
  | devfs devDir =>
    obtain ⟨u, init, h⟩ := Option.map_eq_some_iff.mp call
    obtain rfl : u = t := (Prod.ext_iff.mp h).2
    obtain ⟨first, rest, run⟩ := devfsInit_run init
    -- the first device is linked, and the arena only grows from there
    cases run with
    | @cons _ v _ _ _ step run =>
      have grown : v.nodes.length ≤ u.nodes.length :=
        run.invariant (I := fun w => v.nodes.length ≤ w.nodes.length)
          (fun _ _ _ le step => le.trans (deviceStep_length step)) le_rfl
      rcases devfsCreate_cases step.1 step.2 with ⟨q, hq, refused, -⟩ | ⟨_, _, _, -, -, -, -, hv⟩
      · obtain rfl := Option.some.inj (hp.symm.trans hq)
        exact accepted refused
      · rw [hv, length_linked] at grown
        omega

theorem mountRoot_kindInv {boot s : Fs} (empty : boot.nodes = []) (call : mountRoot boot = some s) :
    KindInv s := by
  obtain ⟨nodes, -⟩ := mountRoot_eq empty call
  constructor
  · intro n e he hc
    rw [nodes, List.getElem?_singleton] at he
    split_ifs at he
    rw [← Option.some.inj he] at hc
    exact absurd rfl hc
  · intro n e he
    rw [nodes, List.getElem?_singleton] at he
    split_ifs at he
    rw [← Option.some.inj he]
    exact Or.inr (Or.inl rfl)

/-- A run does what it should, in every state and at every call, if and only if no call of it is
given a character device. -/
theorem kindsRun_iff {boot mounted s : Fs} {ops : List KindOp} (empty : boot.nodes = [])
    (mount : mountRoot boot = some mounted) :
    Run GoodStep mounted ops s ↔ Run GuardedStep mounted ops s := by
  apply Run.iff_of_step_iff (I := KindInv)
  · intro s op t inv
    exact ⟨goodStep_guarded, fun guarded => (guardedStep_good inv guarded).2⟩
  · intro s op t inv good
    exact (guardedStep_good inv (goodStep_guarded good)).1
  · exact mountRoot_kindInv empty mount

/-- A run that does what it should: devices in the root. -/
theorem kindsRun_example : ∃ mounted s, mountRoot bootFs = some mounted ∧
    Run GoodStep mounted [.devfs 0] s := by
  obtain ⟨mounted, mount⟩ := Option.isSome_iff_exists.mp
    (by decide +kernel : (mountRoot bootFs).isSome)
  obtain ⟨nodes, -⟩ := mountRoot_eq rfl mount
  have done : ((mountRoot bootFs).bind (KindOp.devfs 0).call).isSome := by decide +kernel
  rw [mount, Option.bind_some] at done
  obtain ⟨⟨r, s⟩, call⟩ := Option.isSome_iff_exists.mp done
  have guard : ∀ p, mounted.nodes[(KindOp.devfs 0).node]? = some p → p.flags ≠ fsChardevice := by
    intro p hp
    rw [nodes] at hp
    rw [← Option.some.inj hp]
    decide
  exact ⟨mounted, s, mount, (kindsRun_iff rfl mount).mpr (.cons ⟨⟨r, call⟩, guard⟩ (.nil s))⟩

/-- `ramfs_create_file` under the device `serial` makes it a parent. -/
theorem device_gets_child : ∃ mounted s t, mountRoot bootFs = some mounted ∧
    (KindOp.devfs 0).call mounted = some (none, s) ∧
    (KindOp.create (.createFile 1 [0x78] none 0)).call s = some (some 5, t) ∧ ¬ OnlyDirs t := by
  have outcome : (mountRoot bootFs).bind (fun mounted => ((devfsInit (some 0) mounted).bind
      (KindOp.create (.createFile 1 [0x78] none 0)).call).map fun y =>
        (y.1, (y.2.nodes[1]?).map fun e => (e.flags, e.children))) =
      some (some 5, some (fsChardevice, [5])) := by decide +kernel
  simp only [Option.bind_eq_some_iff, Option.map_eq_some_iff, Prod.mk.injEq] at outcome
  obtain ⟨mounted, mount, ⟨r, t⟩, ⟨s, init, create⟩, rfl, e, he, flags, children⟩ := outcome
  refine ⟨mounted, s, t, mount, Option.map_eq_some_iff.mpr ⟨s, init, rfl⟩, create,
    fun onlyDirs => ?_⟩
  have := onlyDirs 1 e he (by simp [children])
  rw [flags] at this
  exact absurd this (by decide)

end ChefOs
