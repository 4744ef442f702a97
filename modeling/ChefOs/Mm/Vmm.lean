import Mathlib.Tactic

/-!
# The virtual memory manager

`mm/vmm.c` over a memory of 64-bit words at kernel addresses, of which the physical memory is the
part from `s_hhdm` on.  The page allocator is a parameter: the frames it returns, call by call.
-/

namespace ChefOs

/-- `PTE_PRESENT`. -/
def ptePresent : BitVec 64 := 1#64 <<< 0

/-- `PTE_WRITABLE`. -/
def pteWritable : BitVec 64 := 1#64 <<< 1

/-- `PTE_USER`. -/
def pteUser : BitVec 64 := 1#64 <<< 2

/-- The memory, the static variable of `vmm.c`, and the results of the calls to `pmm_alloc_page`
with the number of calls made. -/
structure Vmm where
  mem : BitVec 64 → BitVec 64
  sHhdm : BitVec 64
  pmmAllocPage : ℕ → BitVec 64
  allocs : ℕ

/-- `table[idx]`. -/
def Vmm.load (s : Vmm) (table idx : BitVec 64) : BitVec 64 := s.mem (table + 8 * idx)

/-- `table[idx] = entry`. -/
def Vmm.store (s : Vmm) (table idx entry : BitVec 64) : Vmm :=
  { s with mem := Function.update s.mem (table + 8 * idx) entry }

/-- `memset(page, 0, PAGE_SIZE)`. -/
def Vmm.clear (s : Vmm) (page : BitVec 64) : Vmm :=
  { s with mem := fun a => if (a - page).toNat < 4096 then 0 else s.mem a }

/-- `pmm_alloc_page()`. -/
def Vmm.alloc (s : Vmm) : BitVec 64 × Vmm :=
  (s.pmmAllocPage s.allocs, { s with allocs := s.allocs + 1 })

/-- The step from a table to the next one, made at three levels: a missing table is allocated, and
`PTE_USER` is added to a present entry. -/
def nextTable (table idx flags tableFlags : BitVec 64) (s : Vmm) : BitVec 64 × Vmm :=
  let s :=
    if s.load table idx &&& ptePresent = 0 then
      let (phys, s) := s.alloc
      let s := s.clear (phys + s.sHhdm)
      s.store table idx (phys ||| tableFlags)
    else if flags &&& pteUser ≠ 0 then
      s.store table idx (s.load table idx ||| pteUser)
    else s
  ((s.load table idx &&& ~~~0xFFF#64) + s.sHhdm, s)

/-- `vmm_map_page`. -/
def vmmMapPage (pml4 virt phys flags : BitVec 64) (s : Vmm) : Vmm :=
  let pml4Idx := (virt >>> 39) &&& 0x1FF#64
  let pdptIdx := (virt >>> 30) &&& 0x1FF#64
  let pdIdx := (virt >>> 21) &&& 0x1FF#64
  let ptIdx := (virt >>> 12) &&& 0x1FF#64
  let tableFlags := ptePresent ||| pteWritable
  let tableFlags := if flags &&& pteUser ≠ 0 then tableFlags ||| pteUser else tableFlags
  let (pdpt, s) := nextTable pml4 pml4Idx flags tableFlags s
  let (pd, s) := nextTable pdpt pdptIdx flags tableFlags s
  let (pt, s) := nextTable pd pdIdx flags tableFlags s
  s.store pt ptIdx (phys ||| flags ||| ptePresent)

/-! ## The hardware -/

/-- The frame address in an entry, bits 12 to 51. -/
def frameMask : BitVec 64 := 0x000FFFFFFFFFF000

/-- The bit that makes an entry of the second or third level a leaf. -/
def ptePageSize : BitVec 64 := 1#64 <<< 7

/-- The outcome of a walk. -/
structure Translation where
  phys : BitVec 64
  user : Bool
  writable : Bool
deriving DecidableEq, Repr

/-- The entry at an index of the table at a physical address. -/
def Vmm.entry (s : Vmm) (frame : BitVec 64) (idx : BitVec 9) : BitVec 64 :=
  s.mem (frame + s.sHhdm + 8 * idx.setWidth 64)

/-- The index of an address at a level, from the shift of that level. -/
def index (v : BitVec 64) (shift : ℕ) : BitVec 9 := v.extractLsb' shift 9

/-- The effective permissions of the entries of a walk. -/
def permit (entries : List (BitVec 64)) (phys : BitVec 64) : Translation where
  phys := phys
  user := entries.all fun e => e &&& pteUser ≠ 0
  writable := entries.all fun e => e &&& pteWritable ≠ 0

/-- The 4-level walk from the table at `root`, with 1 GiB and 2 MiB leaves. -/
def hardwareWalk (s : Vmm) (root v : BitVec 64) : Option Translation :=
  let e₁ := s.entry root (index v 39)
  if e₁ &&& ptePresent = 0 then none
  else
    let e₂ := s.entry (e₁ &&& frameMask) (index v 30)
    if e₂ &&& ptePresent = 0 then none
    else if e₂ &&& ptePageSize ≠ 0 then
      some (permit [e₁, e₂] ((e₂ &&& 0x000FFFFFC0000000) + (v &&& 0x3FFFFFFF)))
    else
      let e₃ := s.entry (e₂ &&& frameMask) (index v 21)
      if e₃ &&& ptePresent = 0 then none
      else if e₃ &&& ptePageSize ≠ 0 then
        some (permit [e₁, e₂, e₃] ((e₃ &&& 0x000FFFFFFFE00000) + (v &&& 0x1FFFFF)))
      else
        let e₄ := s.entry (e₃ &&& frameMask) (index v 12)
        if e₄ &&& ptePresent = 0 then none
        else some (permit [e₁, e₂, e₃, e₄] ((e₄ &&& frameMask) + (v &&& 0xFFF)))

end ChefOs
