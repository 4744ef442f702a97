import ChefOs.Mm.Pmm

/-!
# The kernel heap

`mm/heap.c` over a memory of 64-bit words.  A `heap_block_t` at address `b` keeps its `size` in the
word at `b`, its `is_free` in the word at `b + 8` and its `next` in the word at `b + 16`; every
header address is the heap's start plus a multiple of 8, so two such words are equal or disjoint.
The loops that follow `next` take fuel, and `none` means that it ran out.
-/

namespace ChefOs

open Kit

/-- `sizeof(heap_block_t)`. -/
def headerSize : ℕ := 24

/-- The pages `heap_init` asks for. -/
def initialPages : ℕ := 8192

/-- The static variables of `heap.c` and the memory they point into. -/
structure Heap where
  mem : ℕ → ℕ
  sHeapStart : ℕ
  sHead : ℕ
  sHhdm : ℕ

namespace Heap

/-- `b->size`. -/
def size (s : Heap) (b : ℕ) : ℕ := s.mem b

/-- `b->is_free`. -/
def isFree (s : Heap) (b : ℕ) : Bool := s.mem (b + 8) != 0

/-- `b->next`. -/
def next (s : Heap) (b : ℕ) : ℕ := s.mem (b + 16)

/-- A store of one word. -/
def store (s : Heap) (a v : ℕ) : Heap := { s with mem := Function.update s.mem a v }

/-- `b->size = v`. -/
def setSize (s : Heap) (b v : ℕ) : Heap := s.store b v

/-- `b->is_free = v`. -/
def setIsFree (s : Heap) (b : ℕ) (v : Bool) : Heap := s.store (b + 8) v.toNat

/-- `b->next = v`. -/
def setNext (s : Heap) (b v : ℕ) : Heap := s.store (b + 16) v

end Heap

/-- `heap_init`, with `phys` the answer of `pmm_alloc_pages(8192)`. -/
def heapInit (mem : ℕ → ℕ) (phys hhdmOffset : ℕ) : Heap :=
  let start := u64 (phys + hhdmOffset)
  let s : Heap := { mem := mem, sHeapStart := start, sHead := start, sHhdm := hhdmOffset }
  let s := s.setSize s.sHead (initialPages * pageSize - headerSize)
  let s := s.setIsFree s.sHead true
  s.setNext s.sHead 0

/-- `(size + 7) & ~7`. -/
def alignSize (size : ℕ) : ℕ := u64 (size + 7) &&& not64 7

/-- The "Split block" branch of `kmalloc`: the free block `curr` keeps `size` bytes and a new free
block takes the rest. -/
def splitBlock (size curr : ℕ) (s : Heap) : Heap :=
  let newBlock := u64 (curr + headerSize + size)
  let s := s.setSize newBlock (sub64 (sub64 (s.size curr) size) headerSize)
  let s := s.setIsFree newBlock true
  let s := s.setNext newBlock (s.next curr)
  let s := s.setSize curr size
  let s := s.setIsFree curr false
  s.setNext curr newBlock

/-- The loop of `kmalloc`, for the aligned size. -/
def kmallocLoop (size : ℕ) : ℕ → ℕ → Heap → Option (Heap × ℕ)
  | 0, _, _ => none
  | fuel + 1, curr, s =>
    if curr = 0 then some (s, 0)
    else if s.isFree curr = true ∧ size ≤ s.size curr then
      if u64 (size + headerSize + 32) ≤ s.size curr then
        some (splitBlock size curr s, u64 (curr + headerSize))
      else some (s.setIsFree curr false, u64 (curr + headerSize))
    else kmallocLoop size fuel (s.next curr) s

/-- `kmalloc`. -/
def kmalloc (fuel size : ℕ) (s : Heap) : Option (Heap × ℕ) :=
  kmallocLoop (alignSize size) fuel s.sHead s

/-- `memset(p, 0, n)`: of the word at `a`, the bytes at a distance of less than `n` from `p`. -/
def Heap.clear (p n : ℕ) (s : Heap) : Heap :=
  { s with
    mem := fun a =>
      let k := min 8 (n - sub64 a p)
      s.mem a / 256 ^ k * 256 ^ k }

/-- `kzalloc`. -/
def kzalloc (fuel size : ℕ) (s : Heap) : Option (Heap × ℕ) := do
  let (s, p) ← kmalloc fuel size s
  return (if p ≠ 0 then s.clear p size else s, p)

/-- The loop body of `kfree` that merges the block after `curr` into it. -/
def absorbNext (curr : ℕ) (s : Heap) : Heap :=
  let s := s.setSize curr (u64 (s.size curr + (headerSize + s.size (s.next curr))))
  s.setNext curr (s.next (s.next curr))

/-- The merge loop of `kfree`. -/
def mergeLoop : ℕ → ℕ → Heap → Option Heap
  | 0, _, _ => none
  | fuel + 1, curr, s =>
    if curr ≠ 0 ∧ s.next curr ≠ 0 then
      if s.isFree curr = true ∧ s.isFree (s.next curr) = true then
        mergeLoop fuel curr (absorbNext curr s)
      else mergeLoop fuel (s.next curr) s
    else some s

/-- `kfree`. -/
def kfree (fuel ptr : ℕ) (s : Heap) : Option Heap :=
  if ptr = 0 then some s
  else
    let block := sub64 ptr headerSize
    mergeLoop fuel s.sHead (s.setIsFree block true)

/-! ## Calls in sequence -/

/-- A call to the allocator. -/
inductive HeapOp where
  | kmalloc (size : ℕ)
  | kfree (ptr : ℕ)
deriving DecidableEq, Repr

/-- Enough iterations for every loop: the heap cannot hold more headers than bytes. -/
def heapFuel : ℕ := initialPages * pageSize

/-- One call, with the pointers the callers hold: `kfree` is given `NULL` or one of them. -/
inductive HeapStep : Heap × List ℕ → HeapOp → Heap × List ℕ → Prop
  | kmalloc {s s' : Heap} {held : List ℕ} {size p : ℕ}
      (call : kmalloc heapFuel size s = some (s', p)) :
      HeapStep (s, held) (.kmalloc size) (s', if p = 0 then held else p :: held)
  | kfree {s s' : Heap} {held : List ℕ} {p : ℕ} (allowed : p = 0 ∨ p ∈ held)
      (call : kfree heapFuel p s = some s') :
      HeapStep (s, held) (.kfree p) (s', held.erase p)

end ChefOs
