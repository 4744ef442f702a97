import ChefOs.Mm.PageTables

/-!
# `vmm_map_page` refines a finite map

Each of the three steps of a call keeps the page tables and their map and ends in a table that
lies below user entries if the call asks for `PTE_USER`; the call then sets one leaf.  A hardware
walk reads the map, so after any calls it finds the last call for the page.
-/

namespace ChefOs

open Kit

/-! ## One step of a call -/

/-- The entry a step leaves in place of a present one. -/
def tagged (e flags : BitVec 64) : BitVec 64 := if flags &&& pteUser ≠ 0 then e ||| pteUser else e

/-- The state after a step that had to allocate a table. -/
def Vmm.grow (s : Vmm) (table idx tableFlags : BitVec 64) : Vmm :=
  (({ s with allocs := s.allocs + 1 } : Vmm).clear (s.pmmAllocPage s.allocs + s.sHhdm)).store
    table idx (s.pmmAllocPage s.allocs ||| tableFlags)

theorem Vmm.load_store (s : Vmm) (table idx e : BitVec 64) :
    (s.store table idx e).load table idx = e := Function.update_self ..

theorem Vmm.store_load (s : Vmm) (table idx : BitVec 64) :
    s.store table idx (s.load table idx) = s := by
  simp only [Vmm.store, Vmm.load, Function.update_eq_self]

theorem nextTable_present {table idx flags tf : BitVec 64} {s : Vmm}
    (present : s.load table idx &&& ptePresent ≠ 0) :
    nextTable table idx flags tf s =
      ((tagged (s.load table idx) flags &&& ~~~0xFFF#64) + s.sHhdm,
        s.store table idx (tagged (s.load table idx) flags)) := by
  rw [nextTable, if_neg present, tagged]
  split_ifs
  · rw [Vmm.load_store]
    rfl
  · rw [Vmm.store_load]

theorem nextTable_vacant {table idx flags tf : BitVec 64} {s : Vmm}
    (vacant : s.load table idx &&& ptePresent = 0) :
    nextTable table idx flags tf s =
      (((s.pmmAllocPage s.allocs ||| tf) &&& ~~~0xFFF#64) + s.sHhdm, s.grow table idx tf) := by
  rw [nextTable, if_pos vacant]
  change (((s.grow table idx tf).load table idx &&& ~~~0xFFF#64) + s.sHhdm, s.grow table idx tf) = _
  rw [Vmm.grow, Vmm.load_store]

theorem nextTable_allocs (table idx flags tf : BitVec 64) (s : Vmm) :
    s.allocs ≤ (nextTable table idx flags tf s).2.allocs := by
  by_cases vacant : s.load table idx &&& ptePresent = 0
  · rw [nextTable_vacant vacant]
    exact Nat.le_succ s.allocs
  · rw [nextTable_present vacant]
    exact le_rfl

theorem nextTable_allocs_le (table idx flags tf : BitVec 64) (s : Vmm) :
    (nextTable table idx flags tf s).2.allocs ≤ s.allocs + 1 := by
  by_cases vacant : s.load table idx &&& ptePresent = 0
  · rw [nextTable_vacant vacant]
    exact le_rfl
  · rw [nextTable_present vacant]
    exact Nat.le_succ s.allocs

/-- The calls of `pmm_alloc_page` from `first` on and before `last` return distinct frames other
than `root`. -/
structure Grants (alloc : ℕ → BitVec 64) (root : BitVec 64) (first last : ℕ) : Prop where
  frame : ∀ k, first ≤ k → k < last → IsFrame (alloc k)
  notRoot : ∀ k, first ≤ k → k < last → alloc k ≠ root
  distinct : ∀ j k, first ≤ j → j < k → k < last → alloc j ≠ alloc k

theorem Grants.shrink {alloc : ℕ → BitVec 64} {root : BitVec 64} {first last last' : ℕ}
    (grants : Grants alloc root first last) (le : last' ≤ last) :
    Grants alloc root first last' where
  frame k hk lt := grants.frame k hk (lt.trans_le le)
  notRoot k hk lt := grants.notRoot k hk (lt.trans_le le)
  distinct j k hj jk lt := grants.distinct j k hj jk (lt.trans_le le)

section

variable {root : BitVec 64} {first last : ℕ} {s : Vmm}
  {node : List (BitVec 9) → Option (BitVec 64)} {map : List (BitVec 9) → Option Mapping}

/-- The next frame is no table yet. -/
theorem PageTables.fresh (inv : PageTables root first s node map)
    (grants : Grants s.pmmAllocPage root first last) (from' : first ≤ s.allocs)
    (room : s.allocs < last) (q : List (BitVec 9)) : node q ≠ some (s.pmmAllocPage s.allocs) := by
  intro hq
  obtain top | ⟨k, hk, lt, eq⟩ := inv.granted q _ hq
  · exact grants.notRoot s.allocs from' room top
  · exact grants.distinct k s.allocs hk lt room eq

/-- What a step with `PTE_USER` asked for or not guarantees about the table it ends in, at the
path `p`. -/
structure Reached (root : BitVec 64) (first : ℕ) (user : Bool) (s s' : Vmm)
    (node node' : List (BitVec 9) → Option (BitVec 64)) (map : List (BitVec 9) → Option Mapping)
    (p : List (BitVec 9)) (table : BitVec 64) : Prop where
  inv : PageTables root first s' node' map
  ext : Extends s s' node node'
  here : ∃ f, node' p = some f ∧ table = f + s'.sHhdm
  allowed : user = true → UserPath s' node' p

/-- The tables seen by a store to an entry. -/
theorem PageTables.entrySet (inv : PageTables root first s node map) {p : List (BitVec 9)}
    {f : BitVec 64} (hf : node p = some f) (i : BitVec 9) (e : BitVec 64) :
    EntrySet s.entry (s.store (f + s.sHhdm) (i.setWidth 64) e).entry node f i e := by
  refine ⟨fun q hq => ?_, fun q g j hg elsewhere => ?_⟩
  · rw [entry_store (inv.frame q f hq) (inv.frame q f hq), if_pos ⟨rfl, rfl⟩]
  · rw [entry_store (inv.frame p f hf) (inv.frame q g hg), if_neg elsewhere]

theorem entry_grow {f g : BitVec 64} (hf : IsFrame f) (hg : IsFrame g)
    (fresh : IsFrame (s.pmmAllocPage s.allocs)) (i j : BitVec 9) (tf : BitVec 64) :
    (s.grow (f + s.sHhdm) (i.setWidth 64) tf).entry g j =
      if g = f ∧ j = i then s.pmmAllocPage s.allocs ||| tf
      else if g = s.pmmAllocPage s.allocs then 0 else s.entry g j := by
  have cleared : (s.alloc.2.clear (s.pmmAllocPage s.allocs + s.sHhdm)).entry g j =
      if g = s.pmmAllocPage s.allocs then 0 else s.entry g j :=
    entry_clear (s := s.alloc.2) fresh hg j
  rw [← cleared]
  exact entry_store (s := s.alloc.2.clear (s.pmmAllocPage s.allocs + s.sHhdm)) hf hg i j _

theorem TableEntry.tagged {e g flags : BitVec 64} {before user : Bool}
    (entry : TableEntry e g before) (asked : flags &&& pteUser ≠ 0 ↔ user = true) :
    TableEntry (tagged e flags) g (before || user) := by
  rw [ChefOs.tagged]
  split_ifs with h
  · rw [asked.mp h, Bool.or_true]
    exact entry.addUser
  · rw [Bool.eq_false_of_not_eq_true (mt asked.mpr h), Bool.or_false]
    exact entry

/-- A step over a missing table. -/
theorem Reached.vacant (inv : PageTables root first s node map)
    (grants : Grants s.pmmAllocPage root first last) (from' : first ≤ s.allocs)
    (room : s.allocs < last) {p : List (BitVec 9)} {f : BitVec 64} {i : BitVec 9} {user : Bool}
    (short : p.length < 3) (hf : node p = some f) (allowed : user = true → UserPath s node p)
    (vacant : s.entry f i &&& ptePresent = 0) :
    ∃ node', Reached root first user s (s.grow (f + s.sHhdm) (i.setWidth 64) (tableFlags user))
      node node' map (p ++ [i])
      (((s.pmmAllocPage s.allocs ||| tableFlags user) &&& ~~~0xFFF#64) + s.sHhdm) := by
  set g := s.pmmAllocPage s.allocs with hg
  set s' := s.grow (f + s.sHhdm) (i.setWidth 64) (tableFlags user) with hs'
  have frame := inv.frame p f hf
  have fresh := inv.fresh grants from' room
  have entry : TableEntry (g ||| tableFlags user) g user := ⟨grants.frame _ from' room, rfl⟩
  have none : node (p ++ [i]) = none := by
    rw [← inv.tree.linked p f i short hf, childOf, if_pos vacant]
  have set : EntrySet s.entry s'.entry node f i (g ||| tableFlags user) := by
    refine ⟨fun q hq => ?_, fun q h j hh elsewhere => ?_⟩
    · rw [hs', entry_grow frame frame entry.frame, if_pos ⟨rfl, rfl⟩]
    · have old : h ≠ s.pmmAllocPage s.allocs := fun same => fresh q (same ▸ hh)
      rw [hs', entry_grow frame (inv.frame q h hh) entry.frame, if_neg elsewhere, if_neg old]
  have ext : Extends s s' node (Function.update node (p ++ [i]) (some g)) := by
    refine ⟨fun q h hq => ?_, fun q h j hq next hu => ?_, rfl, rfl, Nat.le_succ _⟩
    · have old : q ≠ p ++ [i] := fun same => by simp [same, none] at hq
      rw [Function.update_of_ne old, hq]
    · have elsewhere : ¬ (h = f ∧ j = i) := by
        rintro ⟨rfl, rfl⟩
        rw [inv.tree.distinct p q h hf hq] at none
        exact next none
      rwa [set.2 q h j hq elsewhere]
  have empty : ∀ j, s'.entry g j = 0 := by
    intro j
    have other : g ≠ f := fun same => fresh p (by rw [hf, ← same])
    rw [hs', entry_grow frame entry.frame entry.frame, if_neg fun here => other here.1, if_pos hg]
  have inv' : PageTables root first s' _ map :=
    inv.link short hf none entry fresh ⟨s.allocs, from', Nat.lt_succ_self _, rfl⟩ empty set ext
  refine ⟨_, inv', ext, ⟨g, Function.update_self .., by rw [entry.notLow]; rfl⟩, fun asked => ?_⟩
  apply (inv.userPath_extends ext (by simp [hf]) (allowed asked)).snoc
  intro h hh
  obtain rfl := Option.some.inj (hh.symm.trans (ext.tables p f hf))
  rw [set.1 p hf, entry.user_iff, asked]

/-- A step over a table that exists. -/
theorem Reached.present (inv : PageTables root first s node map) {p : List (BitVec 9)}
    {f flags : BitVec 64} {i : BitVec 9} {user : Bool}
    (asked : flags &&& pteUser ≠ 0 ↔ user = true)
    (short : p.length < 3) (hf : node p = some f) (allowed : user = true → UserPath s node p)
    (present : s.entry f i &&& ptePresent ≠ 0) :
    Reached root first user s
      (s.store (f + s.sHhdm) (i.setWidth 64) (tagged (s.entry f i) flags))
      node node map (p ++ [i]) ((tagged (s.entry f i) flags &&& ~~~0xFFF#64) + s.sHhdm) := by
  set e := tagged (s.entry f i) flags
  have set := inv.entrySet hf i e
  have next : node (p ++ [i]) = some (s.entry f i &&& frameMask) := by
    rw [← inv.tree.linked p f i short hf, childOf, if_neg present]
  obtain ⟨before, entry⟩ := inv.table p f i _ short hf next
  have entry' := entry.tagged asked
  have ext : Extends s (s.store (f + s.sHhdm) (i.setWidth 64) e) node node := by
    refine ⟨fun q h hq => hq, fun q h j hq _ hu => ?_, rfl, rfl, le_rfl⟩
    by_cases here : h = f ∧ j = i
    · obtain ⟨rfl, rfl⟩ := here
      rw [set.1 p hf, entry'.user_iff, entry.user_iff.mp hu, Bool.true_or]
    · rwa [set.2 q h j hq here]
  refine ⟨inv.retag short hf next entry' set ext, ext, ⟨_, next, by rw [entry'.notLow]; rfl⟩,
    fun asked => ?_⟩
  refine (inv.userPath_extends ext (by simp [hf]) (allowed asked)).snoc fun h hh => ?_
  obtain rfl := Option.some.inj (hh.symm.trans hf)
  rw [set.1 p hf, entry'.user_iff, asked, Bool.or_true]

/-- A step from the table at `p` ends in the table at `p ++ [i]`. -/
theorem nextTable_reached (inv : PageTables root first s node map)
    (grants : Grants s.pmmAllocPage root first last) (from' : first ≤ s.allocs)
    {p : List (BitVec 9)} {f flags : BitVec 64} (i : BitVec 9) {user : Bool}
    (asked : flags &&& pteUser ≠ 0 ↔ user = true) (short : p.length < 3)
    (hf : node p = some f) (allowed : user = true → UserPath s node p)
    {table : BitVec 64} {s' : Vmm}
    (step : nextTable (f + s.sHhdm) (i.setWidth 64) flags (tableFlags user) s = (table, s'))
    (room : s'.allocs ≤ last) :
    ∃ node', Reached root first user s s' node node' map (p ++ [i]) table := by
  by_cases vacant : s.entry f i &&& ptePresent = 0
  · rw [nextTable_vacant vacant] at step
    obtain ⟨rfl, rfl⟩ := Prod.mk.inj step
    exact Reached.vacant inv grants from' room short hf allowed vacant
  · rw [nextTable_present vacant] at step
    obtain ⟨rfl, rfl⟩ := Prod.mk.inj step
    exact ⟨node, Reached.present inv asked short hf allowed vacant⟩

/-! ## One call -/

/-- The indexes of an address, from the root down. -/
def pathOf (v : BitVec 64) : List (BitVec 9) := [index v 39, index v 30, index v 21, index v 12]

/-- A call of `vmm_map_page` for the tables of one process. -/
structure MapCall where
  virt : BitVec 64
  phys : BitVec 64
  flags : BitVec 64

/-- The argument of a call meets its contract. -/
def MapCall.Ok (c : MapCall) : Prop := IsFrame c.phys ∧ FlagsOk c.flags

instance : DecidablePred MapCall.Ok := fun c =>
  inferInstanceAs (Decidable (IsFrame c.phys ∧ FlagsOk c.flags))

/-- The abstract call. -/
def MapCall.apply (c : MapCall) (map : List (BitVec 9) → Option Mapping) :
    List (BitVec 9) → Option Mapping :=
  Function.update map (pathOf c.virt) (some (c.phys, c.flags))

theorem tableFlags_eq {flags : BitVec 64} {user : Bool}
    (asked : flags &&& pteUser ≠ 0 ↔ user = true) :
    (if flags &&& pteUser ≠ 0 then ptePresent ||| pteWritable ||| pteUser
      else ptePresent ||| pteWritable) = tableFlags user := by
  split_ifs with h
  · rw [asked.mp h]
    decide
  · rw [Bool.eq_false_of_not_eq_true (mt asked.mpr h)]
    decide

theorem vmmMapPage_eq {pml4 virt phys flags pdpt pd pt : BitVec 64} {s s₁ s₂ s₃ : Vmm} {user : Bool}
    (asked : flags &&& pteUser ≠ 0 ↔ user = true)
    (h₁ : nextTable pml4 ((index virt 39).setWidth 64) flags (tableFlags user) s = (pdpt, s₁))
    (h₂ : nextTable pdpt ((index virt 30).setWidth 64) flags (tableFlags user) s₁ = (pd, s₂))
    (h₃ : nextTable pd ((index virt 21).setWidth 64) flags (tableFlags user) s₂ = (pt, s₃)) :
    vmmMapPage pml4 virt phys flags s =
      s₃.store pt ((index virt 12).setWidth 64) (phys ||| flags ||| ptePresent) := by
  simp only [← idx_eq] at h₁ h₂ h₃ ⊢
  simp only [vmmMapPage, tableFlags_eq asked, h₁, h₂, h₃]

theorem vmmMapPage_allocs (pml4 virt phys flags : BitVec 64) (s : Vmm) :
    s.allocs ≤ (vmmMapPage pml4 virt phys flags s).allocs :=
  ((nextTable_allocs ..).trans (nextTable_allocs ..)).trans (nextTable_allocs ..)

/-- A call maps its page and keeps the other pages. -/
theorem vmmMapPage_tables (inv : PageTables root first s node map)
    (grants : Grants s.pmmAllocPage root first last) (from' : first ≤ s.allocs) {c : MapCall}
    (ok : c.Ok)
    (room : (vmmMapPage (root + s.sHhdm) c.virt c.phys c.flags s).allocs ≤ last) :
    ∃ node', PageTables root first (vmmMapPage (root + s.sHhdm) c.virt c.phys c.flags s) node'
        (c.apply map) ∧
      (vmmMapPage (root + s.sHhdm) c.virt c.phys c.flags s).sHhdm = s.sHhdm ∧
      (vmmMapPage (root + s.sHhdm) c.virt c.phys c.flags s).pmmAllocPage = s.pmmAllocPage := by
  obtain ⟨user, asked⟩ : ∃ user : Bool, c.flags &&& pteUser ≠ 0 ↔ user = true :=
    ⟨decide _, (decide_eq_true_iff ..).symm⟩
  rcases h₁ : nextTable (root + s.sHhdm) ((index c.virt 39).setWidth 64) c.flags (tableFlags user) s
    with ⟨pdpt, s₁⟩
  rcases h₂ : nextTable pdpt ((index c.virt 30).setWidth 64) c.flags (tableFlags user) s₁
    with ⟨pd, s₂⟩
  rcases h₃ : nextTable pd ((index c.virt 21).setWidth 64) c.flags (tableFlags user) s₂
    with ⟨pt, s₃⟩
  rw [vmmMapPage_eq asked h₁ h₂ h₃] at room ⊢
  have room₃ : s₃.allocs ≤ last := room
  have room₂ : s₂.allocs ≤ last := by
    have := nextTable_allocs pd ((index c.virt 21).setWidth 64) c.flags (tableFlags user) s₂
    rw [h₃] at this
    exact this.trans room₃
  have room₁ : s₁.allocs ≤ last := by
    have := nextTable_allocs pdpt ((index c.virt 30).setWidth 64) c.flags (tableFlags user) s₁
    rw [h₂] at this
    exact this.trans room₂
  have atRoot : user = true → UserPath s node [] := fun _ q i f hq => by simp at hq
  obtain ⟨node₁, step₁⟩ := nextTable_reached inv grants from' (index c.virt 39) asked (by simp)
    inv.top atRoot h₁ room₁
  obtain ⟨f₁, hf₁, rfl⟩ := step₁.here
  obtain ⟨node₂, step₂⟩ := nextTable_reached step₁.inv (step₁.ext.pmmAllocPage ▸ grants)
    (from'.trans step₁.ext.allocs) (index c.virt 30) asked (by simp) hf₁ step₁.allowed h₂ room₂
  have ext₂ := step₁.ext.trans step₂.ext
  obtain ⟨f₂, hf₂, rfl⟩ := step₂.here
  obtain ⟨node₃, step₃⟩ := nextTable_reached step₂.inv (ext₂.pmmAllocPage ▸ grants)
    (from'.trans ext₂.allocs) (index c.virt 21) asked (by simp) hf₂ step₂.allowed h₃ room₃
  have ext₃ := ext₂.trans step₃.ext
  obtain ⟨f₃, hf₃, rfl⟩ := step₃.here
  have set := step₃.inv.entrySet hf₃ (index c.virt 12) (c.phys ||| c.flags ||| ptePresent)
  refine ⟨node₃, step₃.inv.setLeaf (x := (c.phys, c.flags)) (by simp) hf₃ rfl ok
    (fun hu => step₃.allowed (asked.mp hu)) set ⟨rfl, rfl⟩, ext₃.sHhdm, ext₃.pmmAllocPage⟩

/-! ## Runs -/

/-- The calls, one after the other. -/
def mapPages (pml4 : BitVec 64) (calls : List MapCall) (s : Vmm) : Vmm :=
  calls.foldl (fun s c => vmmMapPage pml4 c.virt c.phys c.flags s) s

theorem mapPages_allocs (pml4 : BitVec 64) (calls : List MapCall) (s : Vmm) :
    s.allocs ≤ (mapPages pml4 calls s).allocs := by
  induction calls generalizing s with
  | nil => exact le_rfl
  | cons c calls ih => exact (vmmMapPage_allocs ..).trans (ih _)

theorem mapPages_tables (inv : PageTables root first s node map)
    (grants : Grants s.pmmAllocPage root first last) (from' : first ≤ s.allocs)
    {calls : List MapCall} (ok : ∀ c ∈ calls, c.Ok)
    (room : (mapPages (root + s.sHhdm) calls s).allocs ≤ last) :
    ∃ node', PageTables root first (mapPages (root + s.sHhdm) calls s) node'
      (calls.foldl (fun map c => c.apply map) map) := by
  induction calls generalizing s node map with
  | nil => exact ⟨node, inv⟩
  | cons c calls ih =>
    obtain ⟨node₁, inv₁, hhdm, alloc⟩ := vmmMapPage_tables inv grants from'
      (ok c List.mem_cons_self) ((mapPages_allocs _ calls _).trans room)
    have later := ih inv₁ (alloc ▸ grants) (from'.trans (vmmMapPage_allocs ..))
      (fun d hd => ok d (List.mem_cons_of_mem c hd))
    rw [hhdm] at later
    exact later room

/-! ## The walk -/

theorem leafEntry_and {phys flags m : BitVec 64} (frame : IsFrame phys)
    (outside : frameMask &&& m = 0#64) (notPresent : ptePresent &&& m = 0#64) :
    leafEntry (some (phys, flags)) &&& m = flags &&& m := by
  rw [leafEntry, BitVec.or_assoc, frame.or_and outside, BitVec.and_comm,
    BitVec.and_or_distrib_left, BitVec.and_comm m ptePresent, notPresent, BitVec.or_zero,
    BitVec.and_comm]

theorem leafEntry_present (x : Mapping) : leafEntry (some x) &&& ptePresent ≠ 0 := by
  rw [leafEntry, BitVec.and_comm, BitVec.and_or_distrib_left, BitVec.and_self]
  intro zero
  have := (BitVec.or_eq_zero_iff.mp zero).2
  exact absurd this (by decide)

theorem leafEntry_frameMask {x : Mapping} (frame : IsFrame x.1) (ok : FlagsOk x.2) :
    leafEntry (some x) &&& frameMask = x.1 := by
  have present : frameMask &&& ptePresent = 0#64 := by decide
  rw [leafEntry, BitVec.and_comm, BitVec.and_or_distrib_left, BitVec.and_or_distrib_left, present,
    BitVec.and_comm _ x.1, BitVec.and_comm _ x.2, frame.mask, ok.and_frameMask, BitVec.or_zero,
    BitVec.or_zero]

/-- An entry on the way either ends the walk in front of unmapped pages or points to the next
table. -/
theorem PageTables.walk_step (inv : PageTables root first s node map) {p : List (BitVec 9)}
    {f : BitVec 64} (short : p.length < 3) (hf : node p = some f) (i : BitVec 9) :
    (s.entry f i &&& ptePresent = 0 ∧ ∀ r j, map (p ++ [i] ++ r ++ [j]) = none) ∨
      ∃ g user, node (p ++ [i]) = some g ∧ TableEntry (s.entry f i) g user := by
  have linked := inv.tree.linked p f i short hf
  by_cases vacant : s.entry f i &&& ptePresent = 0
  · rw [childOf, if_pos vacant] at linked
    refine .inl ⟨vacant, fun r j => ?_⟩
    by_contra mapped
    exact inv.tree.ancestors (inv.present _ j mapped).2 linked.symm
  · rw [childOf, if_neg vacant] at linked
    obtain ⟨user, entry⟩ := inv.table p f i _ short hf linked.symm
    exact .inr ⟨_, user, linked.symm, entry⟩

/-- What a walk ends with for a mapped page. -/
def translation (v : BitVec 64) (x : Mapping) : Translation where
  phys := x.1 + (v &&& 0xFFF)
  user := x.2 &&& pteUser ≠ 0
  writable := x.2 &&& pteWritable ≠ 0

/-- The permissions of a walk are those of its leaf: the tables always allow writing, and user
access if the leaf does. -/
theorem permit_inner {f₁ f₂ f₃ e₁ e₂ e₃ v : BitVec 64} {u₁ u₂ u₃ : Bool} {x : Mapping}
    (h₁ : TableEntry e₁ f₁ u₁) (h₂ : TableEntry e₂ f₂ u₂) (h₃ : TableEntry e₃ f₃ u₃)
    (frame : IsFrame x.1)
    (up : x.2 &&& pteUser ≠ 0 → e₁ &&& pteUser ≠ 0 ∧ e₂ &&& pteUser ≠ 0 ∧ e₃ &&& pteUser ≠ 0) :
    permit [e₁, e₂, e₃, leafEntry (some x)] (x.1 + (v &&& 0xFFF)) = translation v x := by
  have user : leafEntry (some x) &&& pteUser = x.2 &&& pteUser :=
    leafEntry_and frame (by decide) (by decide)
  have writable : leafEntry (some x) &&& pteWritable = x.2 &&& pteWritable :=
    leafEntry_and frame (by decide) (by decide)
  rw [permit, translation, Translation.mk.injEq]
  refine ⟨rfl, ?_, ?_⟩
  · by_cases hu : x.2 &&& pteUser ≠ 0
    · obtain ⟨a₁, a₂, a₃⟩ := up hu
      simp only [List.all_cons, List.all_nil, user, a₁, a₂, a₃, decide_true, Bool.true_and,
        Bool.and_true, ne_eq, not_false_eq_true]
    · simp only [List.all_cons, List.all_nil, user, hu, decide_false, Bool.and_false,
        Bool.false_and]
  · simp only [List.all_cons, List.all_nil, writable, h₁.writable, h₂.writable, h₃.writable,
      decide_true, Bool.true_and, Bool.and_true, ne_eq, not_false_eq_true]

/-- A walk reads the map. -/
theorem hardwareWalk_eq (inv : PageTables root first s node map) (v : BitVec 64) :
    hardwareWalk s root v = (map (pathOf v)).map (translation v) := by
  obtain ⟨vacant, unmapped⟩ | ⟨f₁, u₁, hf₁, e₁⟩ := inv.walk_step (by simp) inv.top (index v 39)
  · have none : map (pathOf v) = none := unmapped [index v 30, index v 21] (index v 12)
    rw [hardwareWalk, if_pos vacant, none]
    rfl
  obtain ⟨vacant, unmapped⟩ | ⟨f₂, u₂, hf₂, e₂⟩ := inv.walk_step (by simp) hf₁ (index v 30)
  · have none : map (pathOf v) = none := unmapped [index v 21] (index v 12)
    rw [hardwareWalk, if_neg e₁.present, e₁.frameMask, if_pos vacant, none]
    rfl
  obtain ⟨vacant, unmapped⟩ | ⟨f₃, u₃, hf₃, e₃⟩ := inv.walk_step (by simp) hf₂ (index v 21)
  · have none : map (pathOf v) = none := unmapped [] (index v 12)
    rw [hardwareWalk, if_neg e₁.present, e₁.frameMask, if_neg e₂.present,
      if_neg (not_not.mpr e₂.inner), e₂.frameMask, if_pos vacant, none]
    rfl
  have leaf : s.entry f₃ (index v 12) = leafEntry (map (pathOf v)) :=
    inv.leaf _ f₃ (index v 12) (by simp) hf₃
  rw [hardwareWalk, if_neg e₁.present, e₁.frameMask, if_neg e₂.present,
    if_neg (not_not.mpr e₂.inner), e₂.frameMask, if_neg e₃.present, if_neg (not_not.mpr e₃.inner),
    e₃.frameMask, leaf]
  cases mapped : map (pathOf v) with
  | none => rfl
  | some x =>
    obtain ⟨frame, ok⟩ := inv.known _ x mapped
    rw [if_neg (leafEntry_present x), leafEntry_frameMask frame ok, Option.map_some]
    refine congrArg some (permit_inner e₁ e₂ e₃ frame fun hu => ?_)
    have path : UserPath s node [index v 39, index v 30, index v 21] :=
      inv.user [index v 39, index v 30, index v 21] (index v 12) x mapped hu
    exact ⟨path [] _ root (by simp) inv.top, path _ _ f₁ (by simp) hf₁, path _ _ f₂ (by simp) hf₂⟩

end

/-! ## The last call for a page -/

/-- The addresses lie in one page: bits 12 to 47 agree. -/
def SamePage (v w : BitVec 64) : Prop := v.extractLsb' 12 36 = w.extractLsb' 12 36

instance (v w : BitVec 64) : Decidable (SamePage v w) :=
  inferInstanceAs (Decidable (v.extractLsb' 12 36 = w.extractLsb' 12 36))

/-- The last call for the page of an address. -/
def lastCall (calls : List MapCall) (v : BitVec 64) : Option MapCall :=
  calls.reverse.find? fun c => SamePage c.virt v

theorem index_eq_iff (v w : BitVec 64) (shift : ℕ) :
    index v shift = index w shift ↔
      ∀ i < 9, v.getLsbD (shift + i) = w.getLsbD (shift + i) := by
  constructor
  · intro same i hi
    have := congrArg (BitVec.getLsbD · i) same
    simpa [index, hi] using this
  · intro bits
    apply BitVec.eq_of_getLsbD_eq
    intro i hi
    simpa [index, hi] using bits i hi

theorem pathOf_eq_iff (v w : BitVec 64) : pathOf v = pathOf w ↔ SamePage v w := by
  have page : SamePage v w ↔ ∀ i < 36, v.getLsbD (12 + i) = w.getLsbD (12 + i) := by
    constructor
    · intro same i hi
      have := congrArg (BitVec.getLsbD · i) same
      simpa [hi] using this
    · intro bits
      apply BitVec.eq_of_getLsbD_eq
      intro i hi
      simpa [hi] using bits i hi
  simp only [pathOf, List.cons.injEq, and_true, index_eq_iff, page]
  constructor
  · rintro ⟨b₁, b₂, b₃, b₄⟩ i hi
    obtain h | h | h | h : i < 9 ∨ (9 ≤ i ∧ i < 18) ∨ (18 ≤ i ∧ i < 27) ∨ 27 ≤ i := by omega
    · exact b₄ i h
    · simpa [show 21 + (i - 9) = 12 + i by omega] using b₃ (i - 9) (by omega)
    · simpa [show 30 + (i - 18) = 12 + i by omega] using b₂ (i - 18) (by omega)
    · simpa [show 39 + (i - 27) = 12 + i by omega] using b₁ (i - 27) (by omega)
  · intro bits
    refine ⟨fun i hi => ?_, fun i hi => ?_, fun i hi => ?_, fun i hi => bits i (by omega)⟩
    · simpa [show 12 + (27 + i) = 39 + i by omega] using bits (27 + i) (by omega)
    · simpa [show 12 + (18 + i) = 30 + i by omega] using bits (18 + i) (by omega)
    · simpa [show 12 + (9 + i) = 21 + i by omega] using bits (9 + i) (by omega)

/-- The map after the calls holds the last call of each page. -/
theorem foldl_apply (calls : List MapCall) (v : BitVec 64) :
    calls.foldl (fun map c => c.apply map) (fun _ => none) (pathOf v) =
      (lastCall calls v).map fun c => (c.phys, c.flags) := by
  induction calls using List.reverseRecOn with
  | nil => rfl
  | append_singleton calls c ih =>
    rw [List.foldl_append, lastCall, List.reverse_append]
    change c.apply _ (pathOf v) = Option.map _ ((c :: calls.reverse).find? _)
    rw [MapCall.apply]
    by_cases same : SamePage c.virt v
    · rw [(pathOf_eq_iff c.virt v).mpr same, Function.update_self,
        List.find?_cons_of_pos (by simpa)]
      rfl
    · rw [Function.update_of_ne fun eq => same ((pathOf_eq_iff c.virt v).mp eq.symm),
        List.find?_cons_of_neg (by simpa), ih, lastCall]

/-! ## The refinement -/

/-- A zeroed table holds the empty map. -/
theorem PageTables.empty {root : BitVec 64} {s : Vmm} (frame : IsFrame root)
    (zero : ∀ i, s.entry root i = 0) :
    PageTables root s.allocs s (fun p => if p = [] then some root else none) (fun _ => none) := by
  have top : ∀ {p : List (BitVec 9)} {f : BitVec 64},
      (if p = [] then some root else none) = some f → p = [] ∧ f = root := by
    intro p f h
    split_ifs at h with nil
    exact ⟨nil, (Option.some.inj h).symm⟩
  refine { tree := ⟨fun p f i _ hf => ?linked, fun p q f hp hq => ?distinct, fun p i _ => ?closed⟩,
           top := if_pos rfl, frame := fun p f hf => (top hf).2 ▸ frame,
           granted := fun p f hf => .inl (top hf).2, table := fun p f i g _ _ hg => ?table,
           leaf := fun p f i len hf => ?leaf, present := fun p i h => absurd rfl h,
           user := fun p i x h => by simp at h, known := fun p x h => by simp at h }
  case linked =>
    rw [(top hf).2, zero i, if_neg (by simp)]
    rfl
  case distinct => rw [(top hp).1, (top hq).1]
  case closed => exact if_neg (by simp)
  case table => exact absurd (top hg).1 (by simp)
  case leaf =>
    rw [(top hf).1] at len
    exact absurd len (by simp)

/-- From a zeroed table at `root`, after any calls a hardware walk of an address ends in a leaf just
when some call mapped the page of the address, with the frame and the permissions of the last such
call.  A call for another page changes nothing for an address. -/
theorem vmmMapPage_refines (s : Vmm) (root : BitVec 64) (calls : List MapCall) (v : BitVec 64)
    (frame : IsFrame root) (zero : ∀ i, s.entry root i = 0) (ok : ∀ c ∈ calls, c.Ok)
    (grants : Grants s.pmmAllocPage root s.allocs (mapPages (root + s.sHhdm) calls s).allocs) :
    hardwareWalk (mapPages (root + s.sHhdm) calls s) root v =
        ((lastCall calls v).map fun c =>
          { phys := c.phys + (v &&& 0xFFF), user := c.flags &&& pteUser ≠ 0,
            writable := c.flags &&& pteWritable ≠ 0 }) ∧
      ∀ earlier c, calls = earlier ++ [c] → ¬ SamePage c.virt v →
        hardwareWalk (mapPages (root + s.sHhdm) calls s) root v =
          hardwareWalk (mapPages (root + s.sHhdm) earlier s) root v := by
  have walk : ∀ calls : List MapCall, (∀ c ∈ calls, c.Ok) →
      Grants s.pmmAllocPage root s.allocs (mapPages (root + s.sHhdm) calls s).allocs →
      hardwareWalk (mapPages (root + s.sHhdm) calls s) root v =
        ((lastCall calls v).map fun c => translation v (c.phys, c.flags)) := by
    intro calls ok grants
    obtain ⟨node, inv⟩ := mapPages_tables (.empty frame zero) grants le_rfl ok le_rfl
    rw [hardwareWalk_eq inv v, foldl_apply, Option.map_map]
    rfl
  refine ⟨walk calls ok grants, ?_⟩
  rintro earlier c rfl other
  have before : (mapPages (root + s.sHhdm) earlier s).allocs ≤
      (mapPages (root + s.sHhdm) (earlier ++ [c]) s).allocs := by
    rw [mapPages, mapPages, List.foldl_append]
    exact vmmMapPage_allocs ..
  rw [walk _ ok grants, walk earlier (fun d hd => ok d (List.mem_append_left [c] hd))
    (grants.shrink before), lastCall, List.reverse_append]
  change Option.map _ ((c :: earlier.reverse).find? _) = _
  rw [List.find?_cons_of_neg (by simpa), lastCall]

/-- An empty memory with the table at `0x1000`, and an allocator that returns the next frames. -/
def exampleVmm : Vmm where
  mem _ := 0
  sHhdm := 0xFFFF800000000000
  pmmAllocPage k := 0x2000 + 0x1000 * BitVec.ofNat 64 k
  allocs := 0

/-- A kernel page, then two user pages below the same tables, then the kernel page again. -/
def exampleCalls : List MapCall :=
  [⟨0x400000, 0x80000, 3⟩, ⟨0x401000, 0x81000, 7⟩, ⟨0x602000, 0x82000, 5⟩, ⟨0x400000, 0x83000, 1⟩]

theorem vmmMapPage_refines_example :
    hardwareWalk (mapPages (0x1000 + exampleVmm.sHhdm) exampleCalls exampleVmm) 0x1000 0x400123 =
      some ⟨0x83123, false, false⟩ := by
  have allocs : (mapPages (0x1000 + exampleVmm.sHhdm) exampleCalls exampleVmm).allocs = 4 := by
    decide +kernel
  have frames : ∀ k < 4, IsFrame (exampleVmm.pmmAllocPage k) ∧
      exampleVmm.pmmAllocPage k ≠ 0x1000 ∧
      ∀ j < k, exampleVmm.pmmAllocPage j ≠ exampleVmm.pmmAllocPage k := by decide +kernel
  have grants : Grants exampleVmm.pmmAllocPage 0x1000 exampleVmm.allocs
      (mapPages (0x1000 + exampleVmm.sHhdm) exampleCalls exampleVmm).allocs := by
    rw [allocs]
    exact ⟨fun k _ hk => (frames k hk).1, fun k _ hk => (frames k hk).2.1,
      fun j k _ jk hk => (frames k hk).2.2 j jk⟩
  exact (vmmMapPage_refines exampleVmm 0x1000 exampleCalls 0x400123 (by decide) (fun _ => rfl)
    (by decide) grants).1.trans (by decide)

end ChefOs
