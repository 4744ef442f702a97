import ChefOs.Mm.HeapSafety

/-!
# First fit

`kmalloc` takes the lowest free block that is large enough, and cuts it to the rounded size when
the rest can hold a header and 32 bytes.  A request is rounded up in 64 bits, so one of the last
seven sizes is taken for a request of nothing.
-/

namespace ChefOs

open Kit Kit.Arena

/-! ## Exactly first fit -/

/-- The block list tiles the region of the heap, in multiples of eight bytes. -/
structure HeapTiles (start : ℕ) (s : Heap) (bs : List Block) : Prop where
  walk : BlockList s s.sHead bs
  tiles : Tiles headerSize start bs (start + initialPages * pageSize)
  sizes : ∀ b ∈ bs, 8 ∣ b.size

theorem HeapInv.heapTiles {start : ℕ} {s : Heap} {held : List ℕ} {bs : List Block}
    (inv : HeapInv start (start + initialPages * pageSize) s held bs) : HeapTiles start s bs :=
  ⟨inv.walk, inv.tiles, inv.sizes⟩

/-- `kmalloc` is exactly first fit: it answers `NULL` and changes nothing if no free block is large
enough, and otherwise it takes the lowest one, cuts it if the rest is large enough, and keeps all
other blocks. -/
theorem kmalloc_firstFit {start : ℕ} {s : Heap} {bs : List Block} (heap : HeapTiles start s bs)
    (region : start + initialPages * pageSize < 2 ^ 64) {n : ℕ} (fits : n ≤ 2 ^ 64 - 8) :
    ((∀ b ∈ bs, ¬ (b.free = true ∧ (n + 7) / 8 * 8 ≤ b.size)) →
      kmalloc heapFuel n s = some (s, 0)) ∧
    ((∃ b ∈ bs, b.free = true ∧ (n + 7) / 8 * 8 ≤ b.size) →
      ∃ t front b back, bs = front ++ b :: back ∧
        b.free = true ∧ (n + 7) / 8 * 8 ≤ b.size ∧
        (∀ c ∈ bs, c.free = true → (n + 7) / 8 * 8 ≤ c.size → b.addr ≤ c.addr) ∧
        kmalloc heapFuel n s = some (t, b.addr + headerSize) ∧ b.addr + headerSize ≠ 0 ∧
        BlockList t t.sHead (front ++
          (if (n + 7) / 8 * 8 + 56 ≤ b.size then
            [⟨b.addr, (n + 7) / 8 * 8, false⟩,
              ⟨b.addr + 24 + (n + 7) / 8 * 8, b.size - (n + 7) / 8 * 8 - 24, true⟩]
          else [⟨b.addr, b.size, false⟩]) ++ back)) := by
  have enough := length_lt_heapFuel heap.tiles
  rw [← alignSize_eq fits]
  generalize alignSized : alignSize n = size
  constructor
  · intro none
    apply kmalloc_none heap.walk enough
    rw [alignSized]
    exact alloc_none.mpr none
  · rintro ⟨b₀, mem₀, fit₀⟩
    cases done : alloc headerSize 32 size bs with
    | none => exact absurd fit₀ (alloc_none.mp done b₀ mem₀)
    | some r =>
      obtain ⟨bs', p⟩ := r
      have done' : alloc headerSize 32 (alignSize n) bs = some (bs', p) := by rw [alignSized, done]
      obtain ⟨t, call, walk, -, -⟩ := kmalloc_some heap.walk heap.tiles region le_rfl enough done'
      obtain ⟨front, b, back, rfl, before, free, large, rfl, rfl⟩ := alloc_cases done
      refine ⟨t, front, b, back, rfl, free, large, fun c hc free' large' => ?_, call,
        Nat.succ_ne_zero _, ?_⟩
      · rcases List.mem_append.mp hc with earlier | later
        · exact absurd ⟨free', large'⟩ (before c earlier)
        · rcases List.mem_cons.mp later with rfl | later
          · exact le_rfl
          · exact (heap.tiles.addr_lt (by decide) later).le
      · rw [List.append_assoc]
        exact walk

/-- A heap with a free block of 8 bytes, a used one of 8 bytes, and the rest free. -/
def gapHeap : Heap :=
  let start := 0xFFFF800000100000
  let s : Heap := ⟨fun _ => 0, start, start, 0xFFFF800000000000⟩
  let s := ((s.setSize start 8).setIsFree start true).setNext start (start + 0x20)
  let s := (s.setSize (start + 0x20) 8).setNext (start + 0x20) (start + 0x40)
  (s.setSize (start + 0x40) 0x1FFFFA8).setIsFree (start + 0x40) true

/-- Its blocks. -/
def gapBlocks : List Block :=
  [⟨0xFFFF800000100000, 8, true⟩, ⟨0xFFFF800000100020, 8, false⟩,
    ⟨0xFFFF800000100040, 0x1FFFFA8, true⟩]

theorem gapHeap_tiles : HeapTiles 0xFFFF800000100000 gapHeap gapBlocks where
  walk := ⟨by decide, by decide, by decide, by decide, by decide, by decide, rfl⟩
  tiles := ⟨rfl, rfl, rfl, rfl⟩
  sizes := by decide

/-- The first free block is too small for a request, so it takes the second one and cuts it. -/
theorem kmalloc_firstFit_example : ∃ t,
    kmalloc heapFuel 100 gapHeap = some (t, 0xFFFF800000100058) ∧
      BlockList t t.sHead [⟨0xFFFF800000100000, 8, true⟩, ⟨0xFFFF800000100020, 8, false⟩,
        ⟨0xFFFF800000100040, 104, false⟩, ⟨0xFFFF8000001000C0, 0x1FFFF28, true⟩] := by
  obtain ⟨t, front, b, back, split, free, large, -, call, -, walk⟩ :=
    (kmalloc_firstFit gapHeap_tiles (by decide) (by decide : 100 ≤ 2 ^ 64 - 8)).2
      ⟨_, List.mem_of_getLast? rfl, by decide⟩
  refine ⟨t, ?_⟩
  rcases front with _ | ⟨first, _ | ⟨second, _ | ⟨third, front⟩⟩⟩
  all_goals
    simp only [gapBlocks, List.nil_append, List.cons_append, List.cons.injEq, List.nil_eq] at split
  · obtain ⟨rfl, -⟩ := split
    exact absurd large (by decide)
  · obtain ⟨-, rfl, -⟩ := split
    contradiction
  · obtain ⟨rfl, rfl, rfl, rfl⟩ := split
    exact ⟨call, walk⟩
  · simp at split

/-! ## Requests that are met -/

/-- Some block is free. -/
def HasFree (s : Heap) : Prop := ∃ bs, BlockList s s.sHead bs ∧ ∃ b ∈ bs, b.free = true

/-- The addresses that `memset(p, 0, n)` writes. -/
def clearedBytes (p n : ℕ) : Set ℕ := {a | a < 2 ^ 64 ∧ sub64 a p < n}

/-- A block behind a pointer has at least the requested size, and `kzalloc` clears bytes of the
block only. -/
structure MeetsRequest (n : ℕ) (s : Heap) : Prop where
  kmalloc : ∀ t p, kmalloc heapFuel n s = some (t, p) → p ≠ 0 → n ≤ t.size (p - headerSize)
  kzalloc : ∀ t p, kzalloc heapFuel n s = some (t, p) → p ≠ 0 →
    n ≤ t.size (p - headerSize) ∧ clearedBytes p n ⊆ Set.Ico p (p + t.size (p - headerSize))

theorem Heap.mem_clear (p n a : ℕ) (s : Heap) : (s.clear p n).mem a =
    s.mem a / 256 ^ min 8 (n - sub64 a p) * 256 ^ min 8 (n - sub64 a p) := rfl

/-- A word far from the cleared bytes stays. -/
theorem Heap.size_clear {p n a : ℕ} {s : Heap} (far : n ≤ sub64 a p) :
    (s.clear p n).size a = s.size a := by
  have nothing : min 8 (n - sub64 a p) = 0 := by omega
  rw [Heap.size, Heap.mem_clear, nothing, pow_zero, Nat.div_one, mul_one, Heap.size]

/-- `kzalloc` in terms of `kmalloc`. -/
theorem kzalloc_some {fuel n p : ℕ} {s t : Heap} (call : kzalloc fuel n s = some (t, p))
    (nonzero : p ≠ 0) : ∃ u, kmalloc fuel n s = some (u, p) ∧ t = u.clear p n := by
  unfold kzalloc at call
  cases alloc : ChefOs.kmalloc fuel n s with
  | none => simp [alloc] at call
  | some r =>
    obtain ⟨u, q⟩ := r
    simp only [alloc, Option.bind_eq_bind, Option.bind_some, Option.pure_def, Option.some.injEq,
      Prod.mk.injEq] at call
    obtain ⟨rfl, rfl⟩ := call
    exact ⟨u, rfl, if_pos nonzero⟩

/-- `NULL` meets every request. -/
theorem meets_of_null {n : ℕ} {s : Heap} (null : ChefOs.kmalloc heapFuel n s = some (s, 0)) :
    MeetsRequest n s where
  kmalloc t p call nonzero := by
    rw [null] at call
    exact absurd (congrArg Prod.snd (Option.some.inj call)).symm nonzero
  kzalloc t p call nonzero := by
    obtain ⟨u, alloc, -⟩ := kzalloc_some call nonzero
    rw [null] at alloc
    exact absurd (congrArg Prod.snd (Option.some.inj alloc)).symm nonzero

section

variable {start : ℕ} {s : Heap} {bs : List Block} (heap : HeapTiles start s bs)
  (region : start + initialPages * pageSize < 2 ^ 64)

include heap region

/-- `kmalloc` in terms of the rounded size. -/
theorem HeapTiles.kmalloc_cases (n : ℕ) :
    kmalloc heapFuel n s = some (s, 0) ∧
        (∀ b ∈ bs, ¬ (b.free = true ∧ alignSize n ≤ b.size)) ∨
      (∃ b ∈ bs, b.free = true) ∧
        ∃ t p, kmalloc heapFuel n s = some (t, p) ∧ start + headerSize ≤ p ∧
        alignSize n ≤ t.size (p - headerSize) ∧
        p + t.size (p - headerSize) ≤ start + initialPages * pageSize := by
  have enough := length_lt_heapFuel heap.tiles
  cases done : alloc headerSize 32 (alignSize n) bs with
  | none => exact .inl ⟨kmalloc_none heap.walk enough done, alloc_none.mp done⟩
  | some r =>
    obtain ⟨bs', p⟩ := r
    obtain ⟨t, call, walk, -, -⟩ := kmalloc_some heap.walk heap.tiles region le_rfl enough done
    obtain ⟨front, b, back, hb, free, large, rfl, -, used'⟩ := used_alloc done
    have mem : taken headerSize 32 (alignSize n) b ∈ used bs' :=
      used' ▸ List.mem_append_right _ List.mem_cons_self
    have mem' := (mem_used.mp mem).1
    have size : t.size b.addr = (taken headerSize 32 (alignSize n) b).size := walk.size_eq mem'
    obtain ⟨lo, hi⟩ := (heap.tiles.alloc done).bounds mem'
    refine .inr ⟨⟨b, hb, free⟩, t, b.addr + headerSize, call, Nat.add_le_add_right lo _, ?_, ?_⟩
    · rw [Nat.add_sub_cancel, size]
      exact le_size_taken large
    · rw [Nat.add_sub_cancel, size]
      exact hi

/-- A request of at most `2 ^ 64 - 8` bytes is met. -/
theorem HeapTiles.meets {n : ℕ} (fits : n ≤ 2 ^ 64 - 8) : MeetsRequest n s := by
  have rounded := le_alignSize fits
  rcases heap.kmalloc_cases region n with ⟨null, -⟩ | ⟨-, t, p, call, low, size, high⟩
  · exact meets_of_null null
  · constructor
    case kmalloc =>
      intro t' p' call' nonzero
      obtain ⟨rfl, rfl⟩ := Prod.mk.inj (Option.some.inj (call.symm.trans call'))
      omega
    case kzalloc =>
      intro t' p' call' nonzero
      obtain ⟨u, alloc, rfl⟩ := kzalloc_some call' nonzero
      obtain ⟨rfl, rfl⟩ := Prod.mk.inj (Option.some.inj (call.symm.trans alloc))
      have hh : headerSize = 24 := rfl
      -- the header is in front of the cleared bytes
      have far : n ≤ sub64 (p - headerSize) p := by
        unfold sub64
        omega
      rw [Heap.size_clear far]
      refine ⟨by omega, fun a ⟨word, near⟩ => ?_⟩
      unfold sub64 at near
      rw [Set.mem_Ico]
      omega

/-- A larger request is not, if there is a free block. -/
theorem HeapTiles.short {n : ℕ} (large : 2 ^ 64 - 8 < n) (word : n < 2 ^ 64)
    (free : ∃ b ∈ bs, b.free = true) : ¬ MeetsRequest n s := by
  intro meets
  rcases heap.kmalloc_cases region n with ⟨-, none⟩ | ⟨-, t, p, call, low, -, high⟩
  · obtain ⟨b, hb, free⟩ := free
    rw [alignSize_wraps large word] at none
    exact none b hb ⟨free, Nat.zero_le _⟩
  · have hh : headerSize = 24 := rfl
    have hi : initialPages * pageSize = 33554432 := rfl
    have := meets.kmalloc t p call (by omega)
    omega

end

/-- After every sequence of calls, a request is met exactly if it is at most `2 ^ 64 - 8` bytes, or
no block is free. -/
theorem kmalloc_meets_iff {mem : ℕ → ℕ} {phys hhdmOffset : ℕ} (pages : GotPages phys hhdmOffset)
    {ops : List HeapOp} {s : Heap} {held : List ℕ}
    (run : Run HeapStep (heapInit mem phys hhdmOffset, []) ops (s, held)) {n : ℕ}
    (word : n < 2 ^ 64) : MeetsRequest n s ↔ n ≤ 2 ^ 64 - 8 ∨ ¬ HasFree s := by
  obtain ⟨bs, inv⟩ := heapRun_inv pages run
  have heap := inv.heapTiles
  constructor
  · intro meets
    by_contra unmet
    rw [not_or, not_not] at unmet
    obtain ⟨large, bs', walk, free⟩ := unmet
    obtain rfl := inv.walk.unique walk
    exact heap.short pages.fits (by omega) word free meets
  · rintro (fits | full)
    · exact heap.meets pages.fits fits
    · rcases heap.kmalloc_cases pages.fits n with ⟨null, -⟩ | ⟨free, -⟩
      · exact meets_of_null null
      · exact absurd ⟨bs, inv.walk, free⟩ full

theorem kmalloc_meets_example :
    MeetsRequest 100 (heapInit (fun _ => 0) 0x100000 0xFFFF800000000000) := by
  have pages : GotPages 0x100000 0xFFFF800000000000 := ⟨by decide, by decide⟩
  exact (kmalloc_meets_iff pages (.nil _) (by decide)).mpr (.inl (by decide))

/-- On a new heap the largest request gets an empty block. -/
theorem largest_request_unmet :
    ¬ MeetsRequest (2 ^ 64 - 1) (heapInit (fun _ => 0) 0x100000 0xFFFF800000000000) := by
  have pages : GotPages 0x100000 0xFFFF800000000000 := ⟨by decide, by decide⟩
  have heap := (heapInit_inv (fun _ => 0) pages).heapTiles
  exact heap.short pages.fits (by decide) (by decide) ⟨_, List.mem_singleton_self _, rfl⟩

end ChefOs
