import ChefOs.Fs.Cursors
import ChefOs.Sys.Descriptors

/-!
# The table of open files

Which descriptors are open follows from the calls and what they returned.  After every run of calls
`vfs_open` takes the lowest descriptor that is not open, and no call reaches a slot but its own.
-/

namespace ChefOs

open Kit

/-- The open descriptors after a call that returned a value. -/
def VfsOp.opened : VfsOp → ℤ → Finset ℤ → Finset ℤ
  | .openPath _ _, value, fds => if 0 ≤ value then insert value fds else fds
  | .closeFd fd, _, fds => fds.erase fd
  | .readFd _ _ _, _, fds => fds
  | .writeFd _ _ _, _, fds => fds

/-- A call on open files, with the descriptors that are open. -/
def FdStep (x : Fs × Finset ℤ) (op : VfsOp) (y : Fs × Finset ℤ) : Prop :=
  ∃ r, op.call x.1 = some (r, y.1) ∧ y.2 = op.opened r.1 x.2

/-- The descriptor that a call is given or returns. -/
def VfsOp.own : VfsOp → ℤ → ℤ
  | .openPath _ _, value => value
  | .closeFd fd, _ => fd
  | .readFd fd _ _, _ => fd
  | .writeFd fd _ _, _ => fd

/-- What a call does to the table, when `fds` are the open descriptors. -/
structure ExactCall (s : Fs) (fds : Finset ℤ) (op : VfsOp) (value : ℤ) (t : Fs) : Prop where
  opens : ∀ path flags node, op = .openPath path flags →
    vfsLookup (path.map (· ++ [0])) s = some (some node) → value ≠ -1 →
      ∃ i : Fin 64, value = i.val ∧ value ∉ fds ∧ (∀ fd, 0 ≤ fd → fd < value → fd ∈ fds) ∧
        t.sFdTable i = ⟨some node, 0, flags⟩
  fails : ∀ path flags, op = .openPath path flags →
    (value = -1 ↔ vfsLookup (path.map (· ++ [0])) s = some none ∨ fds.card = 64)
  isolated : ∀ i : Fin 64, (i.val : ℤ) ≠ op.own value → t.sFdTable i = s.sFdTable i
  idle : (∀ path flags, op ≠ .openPath path flags) → op.own value ∉ fds → t = s

/-! ## Calls -/

section

variable {s t : Fs} {fd value : ℤ}

/-- A call keeps the nodes of the table and all of it but the slot of the descriptor. -/
structure OwnSlot (s : Fs) (fd : ℤ) (t : Fs) : Prop where
  node : ∀ i, (t.sFdTable i).node = (s.sFdTable i).node
  other : ∀ i : Fin 64, (i.val : ℤ) ≠ fd → t.sFdTable i = s.sFdTable i

theorem OwnSlot.refl (s : Fs) (fd : ℤ) : OwnSlot s fd s := ⟨fun _ => rfl, fun _ _ => rfl⟩

theorem OwnSlot.advance {i : Fin 64} (slot : fdSlot fd = some i) (bytes : ℤ)
    (same : t.sFdTable = s.sFdTable) : OwnSlot s fd (advance i bytes t) := by
  rw [fdSlot_eq_some] at slot
  subst slot
  rw [ChefOs.advance]
  split_ifs
  · constructor
    · intro j
      by_cases here : j = i
      · rw [here, Fs.setFd_self, same]
      · rw [Fs.setFd_of_ne here, same]
    · intro j other
      rw [Fs.setFd_of_ne (fun here => other (by rw [here])), same]
  · constructor
    · intro j
      rw [same]
    · intro j _
      rw [same]

/-- A call on a descriptor keeps to its own slot, and does nothing if it is closed. -/
theorem Through.ownSlot (through : Through fd s t) :
    OwnSlot s fd t ∧ (fdNode fd s = none → t = s) := by
  rcases through with rfl | ⟨i, node, bytes, u, opened, keeps, rfl⟩
  · exact ⟨.refl t fd, fun _ => rfl⟩
  · obtain ⟨slot, -⟩ := fdNode_eq_some.mp opened
    exact ⟨.advance slot bytes keeps.table, fun closed => absurd (closed.symm.trans opened)
      (by simp)⟩

end

/-! ## Histories -/

/-- The open descriptors are those of the slots in use. -/
def Tracks (fds : Finset ℤ) (s : Fs) : Prop :=
  ∀ fd, fd ∈ fds ↔ ∃ i : Fin 64, fd = i.val ∧ (s.sFdTable i).node.isSome

section

variable {s t : Fs} {fds : Finset ℤ} {fd value : ℤ}

theorem Tracks.slot (tracks : Tracks fds s) (i : Fin 64) :
    (i.val : ℤ) ∈ fds ↔ (s.sFdTable i).node.isSome := by
  rw [tracks]
  constructor
  · rintro ⟨j, same, taken⟩
    obtain rfl : i = j := Fin.ext (Int.ofNat_inj.mp same)
    exact taken
  · intro taken
    exact ⟨i, rfl, taken⟩

theorem Tracks.range (tracks : Tracks fds s) (mem : fd ∈ fds) : ∃ i : Fin 64, fd = i.val := by
  obtain ⟨i, same, -⟩ := (tracks fd).mp mem
  exact ⟨i, same⟩

/-- All slots are in use just when 64 descriptors are open. -/
theorem Tracks.full (tracks : Tracks fds s) :
    fds.card = 64 ↔ ∀ i, (s.sFdTable i).node.isSome := by
  let all : Finset ℤ := Finset.univ.image fun i : Fin 64 => (i.val : ℤ)
  have card : all.card = 64 := by decide
  have below : fds ⊆ all := by
    intro fd mem
    obtain ⟨i, same⟩ := tracks.range mem
    exact Finset.mem_image.mpr ⟨i, Finset.mem_univ i, same.symm⟩
  constructor
  · intro count i
    rw [← tracks.slot, Finset.eq_of_subset_of_card_le below (by omega)]
    exact Finset.mem_image_of_mem _ (Finset.mem_univ i)
  · intro taken
    have above : all ⊆ fds := by
      intro fd mem
      obtain ⟨i, -, rfl⟩ := Finset.mem_image.mp mem
      exact (tracks.slot i).mpr (taken i)
    rw [Finset.Subset.antisymm below above, card]

theorem Tracks.closed (tracks : Tracks fds s) (notOpen : fd ∉ fds) : fdNode fd s = none := by
  by_contra opened
  obtain ⟨⟨i, node⟩, eq⟩ := Option.ne_none_iff_exists'.mp opened
  obtain ⟨slot, node⟩ := fdNode_eq_some.mp eq
  rw [fdSlot_eq_some] at slot
  apply notOpen
  rw [slot, tracks.slot, node]
  rfl

theorem vfsInit_tracks (s : Fs) : Tracks ∅ (vfsInit s) := by
  intro fd
  constructor
  · intro mem
    exact absurd mem (Finset.notMem_empty fd)
  · rintro ⟨i, -, taken⟩
    exact absurd taken Bool.false_ne_true

theorem Tracks.congr (tracks : Tracks fds s)
    (node : ∀ i, (t.sFdTable i).node = (s.sFdTable i).node) : Tracks fds t := by
  intro fd
  rw [tracks fd]
  simp only [node]

theorem Tracks.setFd (tracks : Tracks fds s) {i : Fin 64} {d : FileDesc}
    (open' : d.node.isSome = true) : Tracks (insert (i.val : ℤ) fds) (s.setFd i d) := by
  intro fd
  rw [Finset.mem_insert, tracks fd]
  constructor
  · rintro (rfl | ⟨j, rfl, taken⟩)
    · exact ⟨i, rfl, by rwa [Fs.setFd_self]⟩
    · refine ⟨j, rfl, ?_⟩
      by_cases here : j = i
      · rwa [here, Fs.setFd_self]
      · rwa [Fs.setFd_of_ne here]
  · rintro ⟨j, rfl, taken⟩
    by_cases here : j = i
    · exact .inl (by rw [here])
    · rw [Fs.setFd_of_ne here] at taken
      exact .inr ⟨j, rfl, taken⟩

theorem Tracks.close (tracks : Tracks fds s) (fd : ℤ) : Tracks (fds.erase fd) (vfsClose fd s) := by
  intro e
  rw [Finset.mem_erase, tracks e]
  constructor
  · rintro ⟨other, i, rfl, taken⟩
    refine ⟨i, rfl, ?_⟩
    rwa [vfsClose_slot, if_neg (Ne.symm other)]
  · rintro ⟨i, rfl, taken⟩
    rw [vfsClose_slot] at taken
    split_ifs at taken with own
    · exact absurd taken Bool.false_ne_true
    · exact ⟨Ne.symm own, i, rfl, taken⟩

theorem vfsClose_other {i : Fin 64} (other : (i.val : ℤ) ≠ fd) :
    (vfsClose fd s).sFdTable i = s.sFdTable i := by
  rw [vfsClose]
  split
  case h_1 => rfl
  case h_2 j node opened =>
    obtain ⟨slot, -⟩ := fdNode_eq_some.mp opened
    rw [fdSlot_eq_some] at slot
    apply Fs.setFd_of_ne
    rintro rfl
    exact other slot.symm

theorem vfsClose_closed (closed : fdNode fd s = none) : vfsClose fd s = s := by
  rw [vfsClose, closed]

/-- The open descriptors after a call. -/
theorem Tracks.opened (tracks : Tracks fds s) {op : VfsOp} {r : VfsResult}
    (call : op.call s = some (r, t)) : Tracks (op.opened r.1 fds) t := by
  cases op with
  | openPath path flags =>
    obtain ⟨⟨value, u⟩, opened, eq⟩ := Option.map_eq_some_iff.mp call
    cases eq
    rcases vfsOpen_cases opened with ⟨failed, same, -⟩ | ⟨node, i, -, -, -, taken, set⟩
    · change Tracks (if 0 ≤ value then insert value fds else fds) u
      rw [if_neg (by omega), same]
      exact tracks
    · change Tracks (if 0 ≤ value then insert value fds else fds) u
      rw [if_pos (by omega), taken, set]
      exact tracks.setFd rfl
  | closeFd fd =>
    cases call
    exact tracks.close fd
  | readFd fd buffer count =>
    obtain ⟨⟨value, out, u⟩, read, eq⟩ := Option.map_eq_some_iff.mp call
    cases eq
    exact tracks.congr (Through.ownSlot (t := u) (vfsRead_through read)).1.node
  | writeFd fd buffer count =>
    obtain ⟨⟨value, u⟩, wrote, eq⟩ := Option.map_eq_some_iff.mp call
    cases eq
    exact tracks.congr (Through.ownSlot (t := u) (vfsWrite_through wrote)).1.node

theorem Tracks.exactOpen (tracks : Tracks fds s) {path : Option (List UInt8)} {flags : ℤ}
    (call : vfsOpen (path.map (· ++ [0])) flags s = some (value, t)) :
    ExactCall s fds (.openPath path flags) value t := by
  rcases vfsOpen_cases call with ⟨rfl, rfl, why⟩ | ⟨node, i, found, free, below, rfl, rfl⟩
  · refine ⟨fun _ _ _ _ _ ne => absurd rfl ne, fun path' flags' eq => ?_, fun _ _ => rfl,
      fun _ _ => rfl⟩
    cases eq
    exact iff_of_true rfl (why.imp_right tracks.full.mpr)
  · have notOpen : (i.val : ℤ) ∉ fds := by
      rw [tracks.slot, free]
      exact Bool.false_ne_true
    refine ⟨fun path' flags' node' eq lookup _ => ?_, fun path' flags' eq => ?_,
      fun j other => ?_, fun ne => absurd rfl (ne path flags)⟩
    · cases eq
      obtain rfl : node = node' := Option.some.inj (Option.some.inj (found.symm.trans lookup))
      refine ⟨i, rfl, notOpen, fun fd nonneg lt => ?_, Fs.setFd_self ..⟩
      lift fd to ℕ using nonneg
      have small : fd < i.val := Int.ofNat_lt.mp lt
      exact (tracks.slot ⟨fd, small.trans i.isLt⟩).mpr (below _ small)
    · cases eq
      apply iff_of_false (by omega)
      rintro (none | full)
      · rw [found] at none
        exact absurd none (by simp)
      · exact notOpen ((tracks.slot i).mpr (tracks.full.mp full i))
    · apply Fs.setFd_of_ne
      rintro rfl
      exact other rfl

theorem Tracks.exactCall (tracks : Tracks fds s) {op : VfsOp} {r : VfsResult}
    (call : op.call s = some (r, t)) : ExactCall s fds op r.1 t := by
  cases op with
  | openPath path flags =>
    obtain ⟨⟨value, u⟩, opened, eq⟩ := Option.map_eq_some_iff.mp call
    cases eq
    exact tracks.exactOpen opened
  | closeFd fd =>
    cases call
    refine ⟨fun _ _ _ other => by contradiction, fun _ _ other => by contradiction,
      fun i other => vfsClose_other other, fun _ notOpen => ?_⟩
    exact vfsClose_closed (tracks.closed notOpen)
  | readFd fd buffer count =>
    obtain ⟨⟨value, out, u⟩, read, eq⟩ := Option.map_eq_some_iff.mp call
    cases eq
    obtain ⟨own, idle⟩ := Through.ownSlot (t := u) (vfsRead_through read)
    exact ⟨fun _ _ _ other => by contradiction, fun _ _ other => by contradiction,
      own.other, fun _ notOpen => idle (tracks.closed notOpen)⟩
  | writeFd fd buffer count =>
    obtain ⟨⟨value, u⟩, wrote, eq⟩ := Option.map_eq_some_iff.mp call
    cases eq
    obtain ⟨own, idle⟩ := Through.ownSlot (t := u) (vfsWrite_through wrote)
    exact ⟨fun _ _ _ other => by contradiction, fun _ _ other => by contradiction,
      own.other, fun _ notOpen => idle (tracks.closed notOpen)⟩

end

/-- After every run of calls, each call is exact. -/
theorem fdRun_exact {boot : Fs} {ops : List VfsOp} {x : Fs × Finset ℤ} {op : VfsOp}
    {r : VfsResult} {t : Fs} (run : Run FdStep (vfsInit boot, ∅) ops x)
    (call : op.call x.1 = some (r, t)) : ExactCall x.1 x.2 op r.1 t := by
  have tracks : Tracks x.2 x.1 := by
    refine run.invariant (I := fun x => Tracks x.2 x.1) (fun x op y tracks step => ?_)
      (vfsInit_tracks boot)
    obtain ⟨r, call, opened⟩ := step
    rw [opened]
    exact tracks.opened call
  exact tracks.exactCall call

/-- A file system with its root only. -/
def rootFs : Fs := { bootFs with nodes := [zeroEntry], gVfsRoot := some 0 }

/-- The root is opened, closed and opened again. -/
theorem fdRun_exact_example : ∃ x r t,
    Run FdStep (vfsInit rootFs, ∅) [.openPath (some [slash]) 0, .closeFd 0] x ∧
      VfsOp.call (.openPath (some [slash]) 0) x.1 = some (r, t) ∧
      ExactCall x.1 x.2 (.openPath (some [slash]) 0) r.1 t := by
  let op : VfsOp := .openPath (some [slash]) 0
  obtain ⟨⟨r, s⟩, first⟩ := Option.isSome_iff_exists.mp
    (by decide +kernel : (op.call (vfsInit rootFs)).isSome)
  obtain ⟨⟨r', t⟩, again⟩ := Option.isSome_iff_exists.mp
    (by decide +kernel : ((op.call (vfsInit rootFs)).bind fun r => op.call (vfsClose 0 r.2)).isSome)
  rw [first, Option.bind_some] at again
  have run : Run FdStep (vfsInit rootFs, ∅) [op, .closeFd 0]
      (vfsClose 0 s, (op.opened r.1 ∅).erase 0) :=
    .cons (t := (s, op.opened r.1 ∅)) ⟨r, first, rfl⟩ (.cons ⟨(0, []), rfl, rfl⟩ (.nil _))
  exact ⟨_, r', t, run, again, fdRun_exact run again⟩

end ChefOs
