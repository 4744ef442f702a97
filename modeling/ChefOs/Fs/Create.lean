import ChefOs.Fs.Cursors
import ChefOs.Fs.Kinds
import ChefOs.Fs.Paths

/-!
# Creating and finding

`strncpy` cuts the name of a new node at 127 bytes, no creator looks for a child of that name, and
`ramfs_finddir` answers the first child whose name is equal.  A new node is found under the name it
was given when that name fits and is new; what was found before is found after.
-/

namespace ChefOs

open Kit

/-- A call that reaches the tree. -/
inductive DirOp where
  | add (op : KindOp)
  | onFile (op : VfsOp)
deriving DecidableEq, Repr

/-- A call in the history of a directory. -/
def DirStep (s : Fs) : DirOp → Fs → Prop
  | .add op, t => ∃ r, op.call s = some (r, t)
  | .onFile op, t => ∃ r, op.call s = some (r, t)

/-- The string a call gives as a name. -/
def TreeOp.string (op : TreeOp) : List UInt8 := cstr (op.name ++ [0])

/-- The call that made the node `n` is visible: the name finds `n`, and every other name of a child
finds the node it found before.  It is `ramfs_finddir` itself that is asked, about any parent: the
pointer to it is in the `finddir` of directories only. -/
structure Visible (s : Fs) (op : TreeOp) (n : ℕ) (t : Fs) : Prop where
  found : ramfsFinddir op.parent (op.name ++ [0]) t = some (some n)
  others : ∀ name k, 0 ∈ name → cstr name ≠ op.string →
    ramfsFinddir op.parent name s = some (some k) →
      ramfsFinddir op.parent name t = some (some k)

/-! ## Histories -/

theorem EntryNamed.mono {m n : ℕ} {e : RamfsEntry} (named : EntryNamed m e) (le : m ≤ n) :
    EntryNamed n e :=
  ⟨named.terminated, named.short, fun k hk => (named.closed k hk).trans_le le⟩

theorem SameTree.named {s t : Fs} (same : SameTree s t) (named : Named s) : Named t := by
  intro n e' he'
  have live : ∀ k, k < s.nodes.length → k < t.nodes.length := by
    intro k hk
    rcases same.entry k with ⟨none, -⟩ | ⟨_, _, -, some, -⟩
    · exact absurd (List.getElem?_eq_none_iff.mp none) (by omega)
    · exact (List.getElem?_eq_some_iff.mp some).1
  rcases same.entry n with ⟨-, none⟩ | ⟨e, e'', he, he'', name, -, children⟩
  · exact absurd (none.symm.trans he') (by simp)
  · obtain rfl := Option.some.inj (he''.symm.trans he')
    have ok := named n e he
    refine ⟨?_, ?_, fun k hk => live k (ok.closed k ?_)⟩
    · rw [name]
      exact ok.terminated
    · rw [name]
      exact ok.short
    · rwa [← children]

theorem treeStep_named {s t : Fs} {op : TreeOp} (named : Named s) (step : TreeStep s op t) :
    Named t := by
  obtain ⟨r, call⟩ := step
  rcases op.call_cases call with ⟨-, -, -, -, rfl⟩ | ⟨p, k, hp, -, -, rfl⟩
  · exact named
  · intro n e he
    rw [length_linked]
    rw [getElem?_linked hp] at he
    split_ifs at he with last here
    · cases he
      have ok := op.entry_ok (s.nodes.length + 1)
      exact ⟨ok.terminated, ok.short, ok.closed⟩
    · cases he
      have ok := named _ p hp
      refine ⟨ok.terminated, ok.short, fun j hj => ?_⟩
      rcases List.mem_append.mp hj with hj | hj
      · exact (ok.closed j hj).trans (Nat.lt_succ_self _)
      · rw [List.mem_singleton.mp hj]
        exact Nat.lt_succ_self _
    · exact (named n e he).mono (Nat.le_succ _)

/-- A device is a file whose kind and callback are overwritten. -/
theorem devfsCreate_named {s t : Fs} {devDir : ℕ} {chars : List Char}
    {device : RamfsEntry → RamfsEntry} (named : Named s)
    (call : devfsCreate devDir (cString chars) device s = some t)
    (keeps : ∀ e, (device e).name = e.name ∧ (device e).finddir = e.finddir ∧
      (device e).children = e.children) : Named t := by
  simp only [devfsCreate, Option.bind_eq_bind, Option.bind_eq_some_iff] at call
  obtain ⟨⟨r, u⟩, create, call⟩ := call
  have step : TreeStep s (.createFile devDir _ none 0) u := ⟨r, create⟩
  have named' : Named u := treeStep_named named step
  cases r with
  | none =>
    cases call
    exact named'
  | some node =>
    simp only [Option.bind_eq_some_iff] at call
    obtain ⟨e, he, eq⟩ := call
    cases eq
    obtain ⟨name, finddir, children⟩ := keeps { e with flags := fsChardevice }
    refine SameTree.named (t := u.setNode node _) ?_ named'
    apply sameTree_setNode u.allocs he
    rw [RamfsEntry.shape, name, finddir, children]
    rfl

theorem devfsInit_named {s t : Fs} {devDir : ℕ} (named : Named s)
    (call : devfsInit (some devDir) s = some t) : Named t := by
  simp only [devfsInit, Option.bind_eq_bind, Option.bind_eq_some_iff] at call
  obtain ⟨s₁, first, s₂, second, s₃, third, fourth⟩ := call
  have named₁ := devfsCreate_named named first fun _ => ⟨rfl, rfl, rfl⟩
  have named₂ := devfsCreate_named named₁ second fun _ => ⟨rfl, rfl, rfl⟩
  have named₃ := devfsCreate_named named₂ third fun _ => ⟨rfl, rfl, rfl⟩
  exact devfsCreate_named named₃ fourth fun _ => ⟨rfl, rfl, rfl⟩

theorem dirStep_named {s t : Fs} {op : DirOp} (named : Named s) (step : DirStep s op t) :
    Named t := by
  cases op with
  | add op =>
    obtain ⟨r, call⟩ := step
    cases op with
    | create op => exact treeStep_named named ⟨r, call⟩
    | devfs devDir =>
      obtain ⟨u, init, eq⟩ := Option.map_eq_some_iff.mp call
      cases eq
      exact devfsInit_named named init
  | onFile op =>
    obtain ⟨r, call⟩ := step
    exact (VfsOp.sameTree call).named named

/-- Every directory state has names and children in order. -/
theorem dirRun_named {boot mounted s : Fs} {ops : List DirOp} (empty : boot.nodes = [])
    (mount : mountRoot boot = some mounted) (run : Run DirStep mounted ops s) : Named s :=
  run.invariant (I := Named) (fun _ _ _ named step => dirStep_named named step)
    (mountRoot_inv empty mount).named

/-! ## One create -/

theorem TreeOp.cstr_entry (op : TreeOp) : cstr op.entry.name = op.string.take 127 := by
  cases op with
  | createDir parent name => exact cstr_nameField name
  | createFile parent name content size => exact cstr_nameField name

/-- If no child is the first of a name, no child has it. -/
theorem no_child_named {s : Fs} {n : ℕ} {e : RamfsEntry} {c : List UInt8}
    (he : s.nodes[n]? = some e) (none : ∀ k, ¬ FirstChild s n c k) :
    ∀ j ∈ e.children, nodeName s j ≠ some c := by
  intro j hj name
  have found : (e.children.find? fun k => nodeName s k = some c).isSome := by
    rw [List.find?_isSome]
    exact ⟨j, hj, decide_eq_true name⟩
  obtain ⟨k, first⟩ := Option.isSome_iff_exists.mp found
  obtain ⟨named, before, after, split, others⟩ := List.find?_eq_some_iff_append.mp first
  refine none k ⟨e, before, after, he, split, of_decide_eq_true named, fun i hi same => ?_⟩
  simpa [same] using others i hi

section

variable {s t : Fs} {op : TreeOp} {n : ℕ}

/-- What was found before a create is found after it. -/
theorem finddir_kept (named : Named s) (call : op.call s = some (some n, t)) {name : List UInt8}
    (terminated : 0 ∈ name) {d k : ℕ} (found : ramfsFinddir d name s = some (some k)) :
    ramfsFinddir d name t = some (some k) := by
  have named' := treeStep_named named ⟨_, call⟩
  rcases op.call_cases call with ⟨-, -, -, none, -⟩ | ⟨p, a, hp, -, -, rfl⟩
  · exact absurd none (by simp)
  · have hd : d < s.nodes.length := by
      obtain ⟨e, he, -⟩ := Option.bind_eq_some_iff.mp found
      exact (List.getElem?_eq_some_iff.mp he).1
    obtain ⟨r, before, hr⟩ := ramfsFinddir_spec named hd terminated
    obtain rfl := Option.some.inj (before.symm.trans found)
    have first := ((hr k).mp rfl).linked hp op.entry a named
    obtain ⟨r, after, hr'⟩ := ramfsFinddir_spec named'
      (hd.trans_le (by rw [length_linked]; exact Nat.le_succ _)) terminated
    rw [after, (hr' k).mpr first]

/-- The new node is found under its name if the name fits its field and was not found before. -/
theorem finddir_created (named : Named s) (call : op.call s = some (some n, t)) :
    ramfsFinddir op.parent (op.name ++ [0]) t = some (some n) ↔
      op.string.length ≤ 127 ∧ ramfsFinddir op.parent (op.name ++ [0]) s = some none := by
  have terminated : 0 ∈ op.name ++ [0] := by simp
  have named' := treeStep_named named ⟨_, call⟩
  rcases op.call_cases call with ⟨-, -, -, none, -⟩ | ⟨p, a, hp, -, made, rfl⟩
  · exact absurd none (by simp)
  · obtain rfl : n = s.nodes.length := Option.some.inj made
    have hd : op.parent < s.nodes.length := (List.getElem?_eq_some_iff.mp hp).1
    obtain ⟨r, before, hr⟩ := ramfsFinddir_spec named hd terminated
    obtain ⟨r', after, hr'⟩ := ramfsFinddir_spec named'
      (hd.trans_le (by rw [length_linked]; exact Nat.le_succ _)) terminated
    constructor
    · intro found
      obtain rfl := Option.some.inj (after.symm.trans found)
      constructor
      · -- the node has the name that was looked up, and stores at most 127 bytes of it
        obtain ⟨-, -, -, -, -, name, -⟩ := (hr' _).mp rfl
        rw [nodeName_linked_new hp, TreeOp.cstr_entry, Option.some_inj] at name
        rw [← TreeOp.string] at name
        rw [← name]
        exact List.length_take_le _ _
      · -- a child found before would still be found
        rw [before]
        cases r with
        | none => rfl
        | some k =>
          have still := finddir_kept named call terminated before
          rw [found, Option.some_inj, Option.some_inj] at still
          exact absurd ((hr k).mp rfl).lt (by omega)
    · rintro ⟨short, fresh⟩
      obtain rfl := Option.some.inj (before.symm.trans fresh)
      have name : cstr op.entry.name = op.string := by
        rw [TreeOp.cstr_entry, List.take_of_length_le short]
      have others := no_child_named hp fun k first => absurd ((hr k).mpr first) (by simp)
      rw [after, (hr' _).mpr (firstChild_linked hp op.entry a named name others)]

end

/-- In every directory state, a create is visible if and only if its name has at most 127 bytes and
was not found before; what was found before is always found after. -/
theorem create_visible_iff {boot mounted s t : Fs} {ops : List DirOp} {op : TreeOp} {n : ℕ}
    (empty : boot.nodes = []) (mount : mountRoot boot = some mounted)
    (run : Run DirStep mounted ops s) (call : op.call s = some (some n, t)) :
    (Visible s op n t ↔ op.string.length ≤ 127 ∧
      ramfsFinddir op.parent (op.name ++ [0]) s = some none) ∧
    ∀ name k, 0 ∈ name → ramfsFinddir op.parent name s = some (some k) →
      ramfsFinddir op.parent name t = some (some k) := by
  have named := dirRun_named empty mount run
  have kept : ∀ name k, 0 ∈ name → ramfsFinddir op.parent name s = some (some k) →
      ramfsFinddir op.parent name t = some (some k) :=
    fun _ _ terminated found => finddir_kept named call terminated found
  refine ⟨⟨fun visible => ?_, fun fresh => ?_⟩, kept⟩
  · exact (finddir_created named call).mp visible.found
  · exact ⟨(finddir_created named call).mpr fresh, fun name k terminated _ found =>
      kept name k terminated found⟩

/-- A file in `/etc` after the devices were made. -/
theorem create_visible_example : ∃ s t n, Visible s (.createFile 1 [0x66] (some [0x61]) 1) n t ∧
    ramfsFinddir 0 (cString ['e', 't', 'c']) s = some (some 1) := by
  let etc : TreeOp := .createDir 0 [0x65, 0x74, 0x63]
  let op : TreeOp := .createFile 1 [0x66] (some [0x61]) 1
  have outcome : (mountRoot bootFs).bind (fun mounted => (etc.call mounted).bind fun x =>
      ((devfsInit (some 0) x.2).bind fun s => (op.call s).map fun y =>
        (y.1, ramfsFinddir 1 [0x66, 0] s, ramfsFinddir 0 (cString ['e', 't', 'c']) s))) =
      some (some 6, some none, some (some 1)) := by decide +kernel
  simp only [Option.bind_eq_some_iff, Option.map_eq_some_iff, Prod.mk.injEq] at outcome
  obtain ⟨mounted, mount, ⟨r, u⟩, made, s, init, ⟨r', t⟩, call, rfl, fresh, found⟩ := outcome
  have run : Run DirStep mounted [.add (.create etc), .add (.devfs 0)] s :=
    .cons ⟨r, made⟩ (.cons ⟨none, Option.map_eq_some_iff.mpr ⟨s, init, rfl⟩⟩ (.nil s))
  exact ⟨s, t, 6, (create_visible_iff rfl mount run call).1.mpr ⟨by decide, fresh⟩, found⟩

/-- A second `x` in the root is made but not found, and so is a name of 128 bytes. -/
theorem create_not_visible :
    (∃ s t, bootTree [.createDir 0 [0x78]] = some s ∧
      (TreeOp.createFile 0 [0x78] none 0).call s = some (some 2, t) ∧
      ramfsFinddir 0 [0x78, 0] t = some (some 1)) ∧
    ∃ s t, bootTree [] = some s ∧
      (TreeOp.createDir 0 (List.replicate 128 0x61)).call s = some (some 1, t) ∧
      ramfsFinddir 0 (List.replicate 128 0x61 ++ [0]) t = some none := by
  have twice : (bootTree [.createDir 0 [0x78]]).bind (fun s =>
      ((TreeOp.createFile 0 [0x78] none 0).call s).map fun r =>
        (r.1, ramfsFinddir 0 [0x78, 0] r.2)) = some (some 2, some (some 1)) := by decide +kernel
  have long : (bootTree []).bind (fun s =>
      ((TreeOp.createDir 0 (List.replicate 128 0x61)).call s).map fun r =>
        (r.1, ramfsFinddir 0 (List.replicate 128 0x61 ++ [0]) r.2)) =
      some (some 1, some none) := by decide +kernel
  simp only [Option.bind_eq_some_iff, Option.map_eq_some_iff, Prod.mk.injEq] at twice long
  obtain ⟨s, built, ⟨r, t⟩, call, rfl, found⟩ := twice
  obtain ⟨s', built', ⟨r', t'⟩, call', rfl, lost⟩ := long
  exact ⟨⟨s, t, built, call, found⟩, s', t', built', call', lost⟩

end ChefOs
