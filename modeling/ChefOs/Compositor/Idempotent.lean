import ChefOs.Compositor.Leaks
import ChefOs.Compositor.Sizes

/-!
# Laying out again

A second layout finds every window in its tile, with a surface of its size, and does nothing.  The
floating mode does the same to any number of windows but one.
-/

namespace ChefOs

open Kit

/-! ## Windows that are in place -/

section

variable {s : Desktop} {win : ℕ}

/-- The window has a surface of the size that goes with a frame. -/
def Desktop.FitsFrame (s : Desktop) (win : ℕ) (f : Frame) : Prop :=
  s.SurfaceFits win (f.width - 2 * windowBorderWidth)
    (f.height - windowTitlebarHeight - windowBorderWidth)

theorem Desktop.setWindow_same {w : Window} (same : w = s.windows win) :
    s.setWindow win w = s := by
  rw [Desktop.setWindow, same, Function.update_eq_self]

/-- A surface that fits is kept. -/
theorem windowResizeSurface_fits {f : Frame} (fits : s.FitsFrame win f) :
    windowResizeSurface win f.width f.height s =
      s.setWindow win { s.windows win with width := f.width, height := f.height } := by
  rw [windowResizeSurface]
  apply if_pos
  rw [Desktop.SurfaceFits, Desktop.setWindow_self]
  exact fits

/-- A window in its frame whose surface fits stays as it is. -/
theorem place_again {f : Frame} (frame : (s.windows win).frame = f)
    (fits : s.FitsFrame win f) : place win f s = s := by
  subst frame
  have at_self : s.setWindow win ((s.windows win).at (s.windows win).frame) = s :=
    Desktop.setWindow_same rfl
  rw [place, at_self, windowResizeSurface_fits fits]
  exact Desktop.setWindow_same rfl

/-- Whether a surface fits is seen from its contents. -/
theorem fitsFrame_iff {f : Frame} :
    s.FitsFrame win f ↔ ∃ c ∈ s.contents win, c.1.width = f.width - 2 * windowBorderWidth ∧
      c.1.height = f.height - windowTitlebarHeight - windowBorderWidth := by
  unfold Desktop.FitsFrame Desktop.SurfaceFits Desktop.contents
  cases (s.windows win).surface with
  | none => simp
  | some surf => simp

end

theorem placeAll_again {s : Desktop} {pairs : List (ℕ × Frame)}
    (here : ∀ p ∈ pairs, (s.windows p.1).frame = p.2 ∧ s.FitsFrame p.1 p.2) :
    placeAll pairs s = s := by
  induction pairs with
  | nil => rfl
  | cons p pairs ih =>
    obtain ⟨first, later⟩ := List.forall_mem_cons.mp here
    change placeAll pairs (place p.1 p.2 s) = s
    rw [place_again first.1 first.2]
    exact ih later

/-! ## Calls to the heap -/

section

variable {s : Desktop} {win : ℕ}

/-- Without a failed allocation there is a new surface. -/
theorem surfaceCreate_calls (width height flags : BitVec 32) (s : Desktop) :
    ∃ calls, (surfaceCreate width height flags s).2.log = calls ++ s.log ∧
      (.alloc none ∉ calls → (surfaceCreate width height flags s).1 ≠ none) := by
  rw [surfaceCreate, Desktop.kzalloc]
  cases s.kmalloc.result s.log sizeofSurface with
  | none => exact ⟨[.alloc none], rfl, fun succeeds => absurd List.mem_cons_self succeeds⟩
  | some surf =>
    simp only [Desktop.kzalloc, Desktop.zeroPixels_log]
    exact ⟨[.alloc _, .alloc (some surf)], rfl, fun _ => Option.some_ne_none surf⟩

@[simp] theorem surfaceCreate_fst (width height flags : BitVec 32) (s : Desktop) :
    (surfaceCreate width height flags s).1 = s.kmalloc.result s.log sizeofSurface := by
  rw [surfaceCreate, Desktop.kzalloc]
  cases s.kmalloc.result s.log sizeofSurface with
  | none => rfl
  | some surf => rfl

/-- Dropping a surface only frees blocks. -/
theorem dropSurface_calls (s : Desktop) (win : ℕ) :
    ∃ calls, s.dropSurface win = { s with log := calls ++ s.log } ∧
      ((s.windows win).surface = none → calls = []) := by
  unfold Desktop.dropSurface
  cases (s.windows win).surface with
  | none => exact ⟨[], rfl, fun _ => rfl⟩
  | some surf =>
    simp only [surfaceDestroy]
    cases (s.surfaces surf).pixels with
    | none => exact ⟨[.free surf], rfl, fun none => by contradiction⟩
    | some b => exact ⟨[.free surf, .free b], rfl, fun none => by contradiction⟩

/-- A window without a surface of the size gets what `surface_create` returns. -/
theorem windowResizeSurface_surface {f : Frame} (unfit : ¬ s.FitsFrame win f) :
    ∃ t calls, t.log = calls ++ s.log ∧ t.kmalloc = s.kmalloc ∧
      ((s.windows win).surface = none → calls = []) ∧
      ((windowResizeSurface win f.width f.height s).windows win).surface =
        (surfaceCreate (f.width - 2 * windowBorderWidth)
          (f.height - windowTitlebarHeight - windowBorderWidth) surfaceFlagWindow t).1 ∧
      (windowResizeSurface win f.width f.height s).log =
        (surfaceCreate (f.width - 2 * windowBorderWidth)
          (f.height - windowTitlebarHeight - windowBorderWidth) surfaceFlagWindow t).2.log := by
  set s₁ := s.setWindow win { s.windows win with width := f.width, height := f.height } with hs₁
  have same : (s₁.windows win).surface = (s.windows win).surface := by
    rw [hs₁, Desktop.setWindow_self]
  have unfit' : ¬ s₁.FitsFrame win f := by
    rw [Desktop.FitsFrame, Desktop.SurfaceFits, same]
    exact unfit
  rw [Desktop.FitsFrame] at unfit'
  obtain ⟨calls, drop, nothing⟩ := dropSurface_calls s₁ win
  refine ⟨s₁.dropSurface win, calls, ?_, ?_, fun none => nothing (same.trans none), ?_⟩
  · rw [drop]
    rfl
  · rw [drop]
    rfl
  · rw [windowResizeSurface, ← hs₁, if_neg unfit', callPaint_log, Desktop.callPaint_windows,
      Desktop.newSurface]
    dsimp only
    rw [Desktop.setWindow_self]
    exact ⟨rfl, rfl⟩

/-- A placed window has a surface if no allocation failed. -/
theorem place_calls (s : Desktop) (win : ℕ) (f : Frame) :
    ∃ calls, (place win f s).log = calls ++ s.log ∧
      (.alloc none ∉ calls → ((place win f s).windows win).surface ≠ none) := by
  rw [place]
  set s₁ := s.setWindow win ((s.windows win).at f) with hs₁
  have log : s₁.log = s.log := rfl
  by_cases fits : s₁.FitsFrame win f
  · refine ⟨[], ?_, fun _ none => ?_⟩
    · rw [windowResizeSurface_fits fits]
      rfl
    · rw [windowResizeSurface_fits fits, Desktop.setWindow_self] at none
      rw [Desktop.FitsFrame, Desktop.SurfaceFits, none] at fits
      exact fits
  · obtain ⟨t, frees, drops, -, -, surface, calls⟩ := windowResizeSurface_surface fits
    obtain ⟨creates, create, succeeds⟩ := surfaceCreate_calls (f.width - 2 * windowBorderWidth)
      (f.height - windowTitlebarHeight - windowBorderWidth) surfaceFlagWindow t
    refine ⟨creates ++ frees, ?_, fun none => ?_⟩
    · rw [calls, create, drops, log, List.append_assoc]
    · rw [surface]
      exact succeeds fun failed => none (List.mem_append_left frees failed)

end

/-- The placed windows have surfaces if no allocation failed. -/
theorem placeAll_calls {pairs : List (ℕ × Frame)} (distinct : (pairs.map Prod.fst).Nodup)
    (s : Desktop) :
    ∃ calls, (placeAll pairs s).log = calls ++ s.log ∧
      (.alloc none ∉ calls →
        ∀ p ∈ pairs, ((placeAll pairs s).windows p.1).surface ≠ none) := by
  induction pairs generalizing s with
  | nil => exact ⟨[], rfl, by simp⟩
  | cons p pairs ih =>
    obtain ⟨first, later⟩ := List.nodup_cons.mp distinct
    obtain ⟨calls₁, log₁, surface₁⟩ := place_calls s p.1 p.2
    obtain ⟨calls₂, log₂, surface₂⟩ := ih later (place p.1 p.2 s)
    refine ⟨calls₂ ++ calls₁, ?_, fun none => List.forall_mem_cons.mpr ⟨?_, surface₂ ?_⟩⟩
    · change (placeAll pairs (place p.1 p.2 s)).log = _
      rw [log₂, log₁, List.append_assoc]
    · -- the later windows are others
      change ((placeAll pairs (place p.1 p.2 s)).windows p.1).surface ≠ _
      rw [(placeAll_windows later _).2 p.1 first]
      exact surface₁ fun failed => none (List.mem_append_right calls₂ failed)
    · exact fun failed => none (List.mem_append_left calls₁ failed)

/-! ## A second layout -/

/-- Placing windows leaves the list as it is. -/
theorem Chain.placeAll {s : Desktop} {head : Option ℕ} {ws : List ℕ}
    (chain : Chain s.windows head ws) (pairs : List (ℕ × Frame)) :
    Chain (placeAll pairs s).windows head ws := by
  induction pairs generalizing s with
  | nil => exact chain
  | cons p pairs ih =>
    apply ih (s := place p.1 p.2 s)
    obtain ⟨surface, windows⟩ := place_windows p.1 p.2 s
    refine chain.congr fun w _ => ?_
    rw [windows]
    by_cases here : w = p.1
    · rw [here, Function.update_self]
      rfl
    · rw [Function.update_of_ne here]

section

variable {s : Desktop} {windowList : Option ℕ} {ws : List ℕ} {fuel : ℕ}
  {activeWorkspace : BitVec 8} {screenW screenH : BitVec 32} {l : LayoutEngine}

/-- The windows that a layout places, with their frames. -/
def placements (activeWorkspace : BitVec 8) (screenW screenH : BitVec 32) (l : LayoutEngine)
    (ws : List ℕ) (s : Desktop) : List (ℕ × Frame) :=
  (placed activeWorkspace s.windows ws).zip
    (tiles l screenW screenH (placed activeWorkspace s.windows ws).length)

theorem map_fst_zip_sublist {α β : Type*} (as : List α) (bs : List β) :
    ((as.zip bs).map Prod.fst).Sublist as := by
  induction as generalizing bs with
  | nil => exact .refl []
  | cons a as ih =>
    cases bs with
    | nil => exact List.nil_sublist _
    | cons b bs => exact (ih bs).cons_cons a

theorem placements_distinct (chain : Chain s.windows windowList ws) :
    ((placements activeWorkspace screenW screenH l ws s).map Prod.fst).Nodup :=
  chain.placed_nodup.sublist (map_fst_zip_sublist ..)

theorem placements_known {live : List ℕ} (known : ∀ w ∈ ws, w ∈ live) :
    ∀ p ∈ placements activeWorkspace screenW screenH l ws s, p.1 ∈ live := by
  intro p hp
  apply known
  exact mem_of_mem_placed (List.of_mem_zip hp).1

/-- After a layout whose allocations succeed, the same layout does nothing. -/
theorem layoutApply_idempotent (chain : Chain s.windows windowList ws)
    (enough : ws.length < fuel) {live rest : List ℕ} (owned : s.Owned live rest)
    (known : ∀ w ∈ ws, w ∈ live) {s₁ : Desktop}
    (first : layoutApply fuel windowList activeWorkspace screenW screenH l s = some s₁)
    {calls : List HeapEvent} (log : s₁.log = calls ++ s.log) (succeed : .alloc none ∉ calls) :
    layoutApply fuel windowList activeWorkspace screenW screenH l s₁ = some s₁ := by
  rw [layoutApply_eq chain enough, ← placements] at first
  obtain rfl := Option.some.inj first
  have distinct : ((placements activeWorkspace screenW screenH l ws s).map Prod.fst).Nodup :=
    placements_distinct chain
  have known' : ∀ p ∈ placements activeWorkspace screenW screenH l ws s, p.1 ∈ live :=
    placements_known known
  have same : placements activeWorkspace screenW screenH l ws
      (placeAll (placements activeWorkspace screenW screenH l ws s) s) =
        placements activeWorkspace screenW screenH l ws s := by
    rw [placements, placed_eq_take_drawn, placeAll_drawn, ← placed_eq_take_drawn, ← placements]
  rw [layoutApply_eq (chain.placeAll _) enough, ← placements, same]
  apply congrArg some
  apply placeAll_again
  intro p hp
  refine ⟨(placeAll_windows distinct s).1 p hp, ?_⟩
  obtain ⟨calls', log', surfaces⟩ := placeAll_calls distinct s
  obtain rfl := List.append_cancel_right (log.symm.trans log')
  obtain ⟨surf, hsurf⟩ := Option.ne_none_iff_exists'.mp (surfaces succeed p hp)
  rw [fitsFrame_iff]
  exact ⟨_, congrArg (Option.map _) hsurf, placeAll_sizes owned distinct known' p hp _
    (congrArg (Option.map _) hsurf)⟩

end

theorem layoutApply_idempotent_example :
    ∃ s₁, layoutApply 4 (some 1) 1 1280 800 layoutInit exampleDesktop = some s₁ ∧
      layoutApply 4 (some 1) 1 1280 800 layoutInit s₁ = some s₁ := by
  have call := layoutApply_eq exampleDesktop_chain (by decide : [1, 2, 3].length < 4) 1 1280 800
    layoutInit
  refine ⟨_, call, ?_⟩
  apply layoutApply_idempotent exampleDesktop_chain (by decide) exampleDesktop_owned (by simp) call
  case log =>
    exact (rfl : [.alloc (some 128), .alloc (some 64), .alloc (some 32), .alloc (some 16)] ++
      exampleDesktop.log = _)
  case succeed => decide

/-! ## The floating mode -/

/-- The position, the size and the surface of a window are as before. -/
structure SameWindow (s s' : Desktop) (win : ℕ) : Prop where
  frame : (s'.windows win).frame = (s.windows win).frame
  surface : (s'.windows win).surface = (s.windows win).surface
  contents : s'.contents win = s.contents win

/-- The window has the frame and a surface for it, or no surface and no memory for one. -/
def InPlace (s : Desktop) (win : ℕ) (f : Frame) : Prop :=
  (s.windows win).frame = f ∧
    (s.FitsFrame win f ∨
      (s.windows win).surface = none ∧ s.kmalloc.result s.log sizeofSurface = none)

/-- Placing a window keeps it just when it is in place. -/
theorem place_same_iff (s : Desktop) (win : ℕ) (f : Frame) :
    SameWindow s (place win f s) win ↔ InPlace s win f := by
  have moved : ((place win f s).windows win).frame = f := by
    obtain ⟨surface', windows⟩ := place_windows win f s
    rw [windows, Function.update_self]
    rfl
  by_cases fits : s.FitsFrame win f
  · constructor
    · intro same
      exact ⟨same.frame.symm.trans moved, .inl fits⟩
    · rintro ⟨frame, -⟩
      rw [place_again frame fits]
      exact ⟨rfl, rfl, rfl⟩
  · have unfit : ¬ (s.setWindow win ((s.windows win).at f)).FitsFrame win f := by
      rw [Desktop.FitsFrame, Desktop.SurfaceFits, Desktop.setWindow_self]
      exact fits
    obtain ⟨t, calls, log, heap, nothing, surface, -⟩ := windowResizeSurface_surface unfit
    rw [Desktop.setWindow_self] at nothing
    rw [← place, surfaceCreate_fst, heap, log] at surface
    constructor
    · rintro ⟨frame, kept, contents⟩
      -- a kept surface would have the new size
      have bare : (s.windows win).surface = none := by
        by_contra some
        obtain ⟨surf, hsurf⟩ := Option.ne_none_iff_exists'.mp some
        apply fits
        have size := windowResizeSurface_size win f.width f.height
          (s.setWindow win ((s.windows win).at f)) surf (kept.trans hsurf)
        rw [fitsFrame_iff, ← contents]
        exact ⟨_, congrArg (Option.map _) (kept.trans hsurf), size⟩
      rw [kept, bare, nothing bare] at surface
      exact ⟨frame.symm.trans moved, .inr ⟨bare, surface.symm⟩⟩
    · rintro ⟨frame, fits' | ⟨bare, full⟩⟩
      · exact absurd fits' fits
      · rw [nothing bare] at surface
        have bare' := surface.trans full
        refine ⟨moved.trans frame.symm, bare'.trans bare.symm, ?_⟩
        rw [Desktop.contents, Desktop.contents, bare, bare']
        rfl

/-- Placing a window keeps all windows just when it is in place. -/
theorem place_sameWindows_iff {s : Desktop} {live rest : List ℕ} (owned : s.Owned live rest)
    {win : ℕ} (known : win ∈ live) (f : Frame) :
    (∀ w ∈ live, SameWindow s (place win f s) w) ↔ InPlace s win f := by
  rw [← place_same_iff]
  refine ⟨fun same => same win known, fun same w hw => ?_⟩
  by_cases here : w = win
  · rw [here]
    exact same
  · obtain ⟨surface, windows⟩ := place_windows win f s
    have unchanged : (place win f s).windows w = s.windows w := by
      rw [windows, Function.update_of_ne here]
    refine ⟨?_, ?_, (place_owned owned known f).2 w hw here⟩
    · rw [unchanged]
    · rw [unchanged]

section

variable {s : Desktop} {windowList : Option ℕ} {ws : List ℕ} {fuel : ℕ}
  {activeWorkspace : BitVec 8} {screenW screenH : BitVec 32} {l : LayoutEngine}

/-- The floating mode keeps all windows just when the number of visible windows is not one, or the
only one is in place already. -/
theorem floating_same_iff (chain : Chain s.windows windowList ws) (enough : ws.length < fuel)
    {live rest : List ℕ} (owned : s.Owned live rest) (known : ∀ w ∈ ws, w ∈ live)
    (floating : l.mode = .floating) :
    ∃ s', layoutApply fuel windowList activeWorkspace screenW screenH l s = some s' ∧
      ((∀ w ∈ live, SameWindow s s' w) ↔
        ∀ w, placed activeWorkspace s.windows ws = [w] →
          InPlace s w ⟨l.gapOuterX, l.gapOuterY, screenW - l.gapOuterX - 16,
            screenH - l.gapOuterY - 16⟩) := by
  refine ⟨_, layoutApply_eq chain enough activeWorkspace screenW screenH l, ?_⟩
  by_cases single : (placed activeWorkspace s.windows ws).length = 1
  · obtain ⟨w, only⟩ := List.length_eq_one_iff.mp single
    have hw : w ∈ live := by
      apply known
      apply mem_of_mem_placed
      rw [only]
      exact List.mem_cons_self
    rw [only, tiles, if_pos (.inr rfl)]
    apply (place_sameWindows_iff owned hw _).trans
    refine ⟨fun inPlace v same => ?_, fun inPlace => inPlace w rfl⟩
    rw [← List.singleton_inj.mp same]
    exact inPlace
  · have none : tiles l screenW screenH (placed activeWorkspace s.windows ws).length = [] := by
      rw [tiles, if_neg (by simp [floating, single]), floating]
    rw [none, List.zip_nil_right]
    refine iff_of_true (fun w _ => ⟨rfl, rfl, rfl⟩) fun w only => ?_
    rw [only] at single
    exact absurd rfl single

end

/-- Two visible windows float. -/
theorem floating_same_example :
    ∃ s', layoutApply 4 (some 1) 1 1280 800 { layoutInit with mode := .floating }
        exampleDesktop = some s' ∧
      ∀ w ∈ [1, 2, 3], SameWindow exampleDesktop s' w := by
  refine Exists.imp (fun s' => And.imp_right fun same => same.mpr ?_)
    (floating_same_iff exampleDesktop_chain (by decide) exampleDesktop_owned (by simp) rfl)
  intro w only
  rw [exampleDesktop_placed] at only
  simp at only

/-- A single visible window gets a new frame. -/
theorem single_window_moved :
    ∃ s', layoutApply 4 (some 1) 3 1280 800 { layoutInit with mode := .floating }
        exampleDesktop = some s' ∧ ¬ SameWindow exampleDesktop s' 2 := by
  have call := layoutApply_eq exampleDesktop_chain (by decide : [1, 2, 3].length < 4) 3 1280 800
    { layoutInit with mode := .floating }
  refine ⟨_, call, fun same => ?_⟩
  have frame := same.frame
  revert frame
  decide

end ChefOs
