import ChefOs.Video.Fb

/-!
# The PCI bus

`drivers/pci.c` on configuration mechanism #1: an address is written to one port and what is there
is read from another one.  The scan goes through the buses in order, and keeps the first 64
functions it finds.
-/

namespace ChefOs

open Kit

/-! ## Configuration space -/

/-- The bytes of the functions on the buses, and the address that is selected. -/
structure PciHost where
  config : BitVec 8 → BitVec 5 → BitVec 3 → Option (BitVec 8 → BitVec 8)
  address : BitVec 32

/-- Two bytes, the lowest first. -/
def wordAt (bytes : BitVec 8 → BitVec 8) (offset : BitVec 8) : BitVec 16 :=
  (bytes (offset + 1)).setWidth 16 <<< 8 ||| (bytes offset).setWidth 16

/-- Four bytes, the lowest first. -/
def dwordAt (bytes : BitVec 8 → BitVec 8) (offset : BitVec 8) : BitVec 32 :=
  (bytes (offset + 3)).setWidth 32 <<< 24 ||| (bytes (offset + 2)).setWidth 32 <<< 16 |||
    (bytes (offset + 1)).setWidth 32 <<< 8 ||| (bytes offset).setWidth 32

/-- `outl` to the address port. -/
def PciHost.outl (val : BitVec 32) (h : PciHost) : PciHost := { h with address := val }

/-- `inl` from the data port.  Where there is no function, all bits are set. -/
def PciHost.inl (h : PciHost) : BitVec 32 :=
  if h.address.getLsbD 31 then
    match h.config (h.address.extractLsb' 16 8) (h.address.extractLsb' 11 5)
        (h.address.extractLsb' 8 3) with
    | some bytes => dwordAt bytes (h.address.extractLsb' 0 8 &&& 0xFC)
    | none => BitVec.allOnes 32
  else BitVec.allOnes 32

/-! ## The driver -/

/-- `address` of `pci_read_dword`. -/
def pciAddress (bus dev func offset : BitVec 8) : BitVec 32 :=
  (1 : BitVec 32) <<< 31 ||| bus.setWidth 32 <<< 16 ||| dev.setWidth 32 <<< 11 |||
    func.setWidth 32 <<< 8 ||| (offset &&& 0xFC).setWidth 32

/-- `pci_read_dword`. -/
def pciReadDword (bus dev func offset : BitVec 8) (h : PciHost) : BitVec 32 × PciHost :=
  let h := h.outl (pciAddress bus dev func offset)
  (h.inl, h)

/-- `pci_read_word`. -/
def pciReadWord (bus dev func offset : BitVec 8) (h : PciHost) : BitVec 16 × PciHost :=
  let (val, h) := pciReadDword bus dev func offset h
  (((val >>> ((offset &&& 2) * 8).toNat) &&& 0xFFFF).setWidth 16, h)

/-- `pci_device_t`. -/
structure PciDevice where
  bus : BitVec 8
  device : BitVec 8
  function : BitVec 8
  vendorId : BitVec 16
  deviceId : BitVec 16
  classCode : BitVec 8
  subclass : BitVec 8
  progIf : BitVec 8
  bar0 : BitVec 32
deriving DecidableEq

/-- A round of the loops of `pci_init`. -/
def pciProbe (bus dev : BitVec 8) (s : List PciDevice × PciHost) : List PciDevice × PciHost :=
  let (devices, h) := s
  let (vendor, h) := pciReadWord bus dev 0 0x00 h
  if vendor = 0xFFFF ∨ vendor = 0x0000 then (devices, h)
  else
    let (deviceId, h) := pciReadWord bus dev 0 0x02 h
    let (classRev, h) := pciReadDword bus dev 0 0x08 h
    let classCode := ((classRev >>> 24) &&& 0xFF).setWidth 8
    let subclass := ((classRev >>> 16) &&& 0xFF).setWidth 8
    let progIf := ((classRev >>> 8) &&& 0xFF).setWidth 8
    let (bar0, h) := pciReadDword bus dev 0 0x10 h
    if devices.length < 64 then
      (devices ++ [⟨bus, dev, 0, vendor, deviceId, classCode, subclass, progIf, bar0⟩], h)
    else (devices, h)

/-- `pci_init`, with the first `s_pci_device_count` elements of `s_pci_devices`. -/
def pciInit (h : PciHost) : List PciDevice × PciHost :=
  (upTo 0 256).foldl (fun s bus =>
    (upTo 0 32).foldl (fun s dev => pciProbe (.ofNat 8 bus) (.ofNat 8 dev) s) s) ([], h)

/-- `pci_find_device`. -/
def pciFindDevice (vendorId deviceId : BitVec 16) (devices : List PciDevice) : Option PciDevice :=
  devices.find? fun d => d.vendorId = vendorId ∧ d.deviceId = deviceId

/-- `pci_find_class`. -/
def pciFindClass (classCode subclass : BitVec 8) (devices : List PciDevice) : Option PciDevice :=
  devices.find? fun d => d.classCode = classCode ∧ d.subclass = subclass

/-! ## What is read -/

/-- The address holds the function and the register, each in its own bits. -/
theorem pciAddress_fields (bus : BitVec 8) (dev : BitVec 5) (func : BitVec 3) (offset : BitVec 8) :
    (pciAddress bus (dev.setWidth 8) (func.setWidth 8) offset).getLsbD 31 = true ∧
      (pciAddress bus (dev.setWidth 8) (func.setWidth 8) offset).extractLsb' 16 8 = bus ∧
      (pciAddress bus (dev.setWidth 8) (func.setWidth 8) offset).extractLsb' 11 5 = dev ∧
      (pciAddress bus (dev.setWidth 8) (func.setWidth 8) offset).extractLsb' 8 3 = func ∧
      (pciAddress bus (dev.setWidth 8) (func.setWidth 8) offset).extractLsb' 0 8 =
        offset &&& 0xFC := by
  unfold pciAddress
  refine ⟨by simp, ?_, ?_, ?_, ?_⟩
  all_goals
    ext i hi
    interval_cases i <;> simp

/-- A dword of function 0 of a device. -/
def PciHost.dword (h : PciHost) (bus : BitVec 8) (dev : BitVec 5) (offset : BitVec 8) : BitVec 32 :=
  match h.config bus dev 0 with
  | some bytes => dwordAt bytes offset
  | none => BitVec.allOnes 32

/-- A word of function 0 of a device. -/
def PciHost.word (h : PciHost) (bus : BitVec 8) (dev : BitVec 5) (offset : BitVec 8) : BitVec 16 :=
  match h.config bus dev 0 with
  | some bytes => wordAt bytes offset
  | none => BitVec.allOnes 16

@[simp] theorem PciHost.outl_outl (a b : BitVec 32) (h : PciHost) :
    (h.outl a).outl b = h.outl b := rfl

@[simp] theorem PciHost.outl_dword (a : BitVec 32) (h : PciHost) :
    (h.outl a).dword = h.dword := rfl

@[simp] theorem PciHost.outl_word (a : BitVec 32) (h : PciHost) : (h.outl a).word = h.word := rfl

/-- The halves of a dword. -/
theorem dwordAt_words (bytes : BitVec 8 → BitVec 8) (offset : BitVec 8) :
    ((dwordAt bytes offset >>> 0) &&& 0xFFFF).setWidth 16 = wordAt bytes offset ∧
      ((dwordAt bytes offset >>> 16) &&& 0xFFFF).setWidth 16 = wordAt bytes (offset + 2) := by
  have next : offset + 2 + 1 = offset + 3 := by rw [BitVec.add_assoc]; rfl
  unfold dwordAt wordAt
  rw [next]
  constructor
  all_goals
    ext i hi
    interval_cases i <;> simp

/-- The bytes of a dword. -/
theorem dwordAt_bytes (bytes : BitVec 8 → BitVec 8) (offset : BitVec 8) :
    ((dwordAt bytes offset >>> 24) &&& 0xFF).setWidth 8 = bytes (offset + 3) ∧
      ((dwordAt bytes offset >>> 16) &&& 0xFF).setWidth 8 = bytes (offset + 2) ∧
      ((dwordAt bytes offset >>> 8) &&& 0xFF).setWidth 8 = bytes (offset + 1) := by
  unfold dwordAt
  refine ⟨?_, ?_, ?_⟩
  all_goals
    ext i hi
    interval_cases i <;> simp

section

variable (h : PciHost) (bus : BitVec 8) (dev : BitVec 5)

theorem pciReadDword_eq (offset : BitVec 8) :
    pciReadDword bus (dev.setWidth 8) 0 offset h =
      (h.dword bus dev (offset &&& 0xFC), h.outl (pciAddress bus (dev.setWidth 8) 0 offset)) := by
  obtain ⟨enabled, hbus, hdev, hfunc, register⟩ := pciAddress_fields bus dev 0 offset
  have zero : (0 : BitVec 3).setWidth 8 = 0 := rfl
  rw [zero] at enabled hbus hdev hfunc register
  generalize address : pciAddress bus (dev.setWidth 8) 0 offset = a at *
  have selected : (h.outl a).inl = h.dword bus dev (offset &&& 0xFC) := by
    have same : (h.outl a).address = a := rfl
    have aligned : offset &&& 0xFC &&& 0xFC = offset &&& 0xFC := by
      rw [BitVec.and_assoc]
      rfl
    rw [PciHost.inl, same, if_pos enabled, hbus, hdev, hfunc, register, aligned]
    rfl
  rw [pciReadDword, address, selected]

/-- The first two words. -/
theorem pciReadWord_eq :
    pciReadWord bus (dev.setWidth 8) 0 0x00 h =
        (h.word bus dev 0x00, h.outl (pciAddress bus (dev.setWidth 8) 0 0x00)) ∧
      pciReadWord bus (dev.setWidth 8) 0 0x02 h =
        (h.word bus dev 0x02, h.outl (pciAddress bus (dev.setWidth 8) 0 0x02)) := by
  simp only [pciReadWord, pciReadDword_eq]
  unfold PciHost.dword PciHost.word
  cases h.config bus dev 0 with
  | none => exact ⟨rfl, rfl⟩
  | some bytes =>
    obtain ⟨low, high⟩ := dwordAt_words bytes 0
    exact ⟨Prod.ext low rfl, Prod.ext high rfl⟩

/-- The device at function 0, from its bytes. -/
def PciDevice.ofBytes (bus : BitVec 8) (dev : BitVec 5) (bytes : BitVec 8 → BitVec 8) :
    Option PciDevice :=
  if wordAt bytes 0x00 = 0xFFFF ∨ wordAt bytes 0x00 = 0x0000 then none
  else some ⟨bus, dev.setWidth 8, 0, wordAt bytes 0x00, wordAt bytes 0x02, bytes 0x0B, bytes 0x0A,
    bytes 0x09, dwordAt bytes 0x10⟩

/-- The device that is seen at a place of a bus. -/
def PciHost.device (bus : BitVec 8) (dev : BitVec 5) : Option PciDevice :=
  (h.config bus dev 0).bind (PciDevice.ofBytes bus dev)

/-- A round of the scan takes the device at its place, as long as there is room. -/
theorem pciProbe_eq {devices : List PciDevice} (room : devices.length ≤ 64) :
    ∃ address, pciProbe bus (dev.setWidth 8) (devices, h) =
      ((devices ++ (h.device bus dev).toList).take 64, h.outl address) := by
  have cut : devices.take 64 = devices := List.take_of_length_le room
  have vendor (h : PciHost) := (pciReadWord_eq h bus dev).1
  have deviceId (h : PciHost) := (pciReadWord_eq h bus dev).2
  unfold pciProbe
  simp only [vendor, deviceId, pciReadDword_eq, PciHost.outl_outl, PciHost.outl_dword,
    PciHost.outl_word]
  unfold PciHost.device PciHost.word PciHost.dword
  cases h.config bus dev 0 with
  | none =>
    refine ⟨pciAddress bus (dev.setWidth 8) 0 0, ?_⟩
    rw [if_pos (.inl rfl)]
    simp [cut]
  | some bytes =>
    obtain ⟨classCode, subclass, progIf⟩ := dwordAt_bytes bytes 8
    have register : (8 : BitVec 8) &&& 0xFC = 8 ∧ (0x10 : BitVec 8) &&& 0xFC = 0x10 := by decide
    simp only [register, classCode, subclass, progIf, Option.bind_some, PciDevice.ofBytes]
    by_cases absent : wordAt bytes 0 = 0xFFFF ∨ wordAt bytes 0 = 0
    · refine ⟨pciAddress bus (dev.setWidth 8) 0 0, ?_⟩
      rw [if_pos absent, if_pos absent]
      simp [cut]
    · refine ⟨pciAddress bus (dev.setWidth 8) 0 0x10, ?_⟩
      rw [if_neg absent, if_neg absent]
      split_ifs with more
      · rw [List.take_of_length_le (by simpa using more)]
        rfl
      · rw [List.take_append_of_le_length (by omega), cut]

/-- The places in the order of the scan. -/
def pciSlots : List (BitVec 8 × BitVec 5) :=
  (upTo 0 256).flatMap fun bus => (upTo 0 32).map fun dev => (.ofNat 8 bus, .ofNat 5 dev)

/-- The devices that are seen, in the order of the scan. -/
def PciHost.devices : List PciDevice := pciSlots.filterMap fun slot => h.device slot.1 slot.2

theorem take_append_take {α : Type*} (n : ℕ) (l r : List α) :
    (l.take n ++ r).take n = (l ++ r).take n := by
  rw [List.take_append, List.take_append, List.take_take, min_self, List.length_take]
  congr 2
  omega

/-- A scan of some places. -/
theorem foldl_pciProbe (slots : List (BitVec 8 × BitVec 5)) {devices : List PciDevice}
    (room : devices.length ≤ 64) :
    (slots.foldl (fun s slot => pciProbe slot.1 (slot.2.setWidth 8) s) (devices, h)).1 =
      (devices ++ slots.filterMap fun slot => h.device slot.1 slot.2).take 64 := by
  induction slots generalizing devices h with
  | nil => simp [List.take_of_length_le room]
  | cons slot slots ih =>
    obtain ⟨address, probe⟩ := pciProbe_eq h slot.1 slot.2 room
    have found : (slot :: slots).filterMap (fun slot => h.device slot.1 slot.2) =
        (h.device slot.1 slot.2).toList ++
          slots.filterMap fun slot => h.device slot.1 slot.2 := by
      rw [List.filterMap_cons]
      cases h.device slot.1 slot.2 <;> rfl
    rw [List.foldl_cons, probe, ih (h.outl address) (by simp), take_append_take, found,
      List.append_assoc]
    rfl

/-- The scan finds the first 64 devices. -/
theorem pciInit_eq : (pciInit h).1 = h.devices.take 64 := by
  have number : ∀ dev ∈ upTo 0 32, (BitVec.ofNat 5 dev).setWidth 8 = .ofNat 8 dev := by
    intro dev mem
    have small := (mem_upTo.mp mem).2
    apply BitVec.eq_of_toNat_eq
    simp only [BitVec.toNat_setWidth, BitVec.toNat_ofNat]
    omega
  have slots (buses : List ℕ) (s : List PciDevice × PciHost) :
      buses.foldl (fun s bus => (upTo 0 32).foldl (fun s dev =>
        pciProbe (.ofNat 8 bus) (.ofNat 8 dev) s) s) s =
      (buses.flatMap fun bus => (upTo 0 32).map fun dev =>
        (BitVec.ofNat 8 bus, BitVec.ofNat 5 dev)).foldl
          (fun s slot => pciProbe slot.1 (slot.2.setWidth 8) s) s := by
    rw [List.foldl_flatMap]
    apply List.foldl_ext
    intro s bus _
    rw [List.foldl_map]
    apply List.foldl_ext
    intro s dev mem
    rw [number dev mem]
  have room : ([] : List PciDevice).length ≤ 64 := Nat.zero_le 64
  have scan := foldl_pciProbe h pciSlots room
  rw [List.nil_append] at scan
  rw [pciInit, slots, ← pciSlots, scan, PciHost.devices]

/-- The first of the devices that pass a test comes before all others that do, and if there are at
most 64 devices, none is missed. -/
structure FindsFirst (test : PciDevice → Bool) (found : Option PciDevice) : Prop where
  some : ∀ d, found = some d → test d = true ∧ ∃ before slot after,
    pciSlots = before ++ slot :: after ∧ h.device slot.1 slot.2 = .some d ∧
      ∀ slot' ∈ before, ∀ d' ∈ h.device slot'.1 slot'.2, test d' = false
  none : h.devices.length ≤ 64 → found = none → ∀ bus dev, ∀ d ∈ h.device bus dev, test d = false

theorem mem_pciSlots (bus : BitVec 8) (dev : BitVec 5) : (bus, dev) ∈ pciSlots := by
  simp only [pciSlots, List.mem_flatMap, List.mem_map, mem_upTo, Prod.mk.injEq]
  exact ⟨bus.toNat, ⟨Nat.zero_le _, bus.isLt⟩, dev.toNat, ⟨Nat.zero_le _, dev.isLt⟩,
    BitVec.ofNat_toNat .., BitVec.ofNat_toNat ..⟩

theorem find_first (test : PciDevice → Bool) :
    FindsFirst h test ((pciInit h).1.find? test) := by
  rw [pciInit_eq]
  constructor
  · intro d found
    obtain ⟨passes, front, back, split, earlier⟩ := List.find?_eq_some_iff_append.mp found
    have whole : h.devices = front ++ d :: (back ++ h.devices.drop 64) := by
      have cut := List.take_append_drop 64 h.devices
      rw [split, List.append_assoc] at cut
      exact cut.symm
    obtain ⟨slots₁, slots₂, eq, first, rest⟩ := List.filterMap_eq_append_iff.mp whole
    obtain ⟨gap, slot, after, eq', absent, here, -⟩ := List.filterMap_eq_cons_iff.mp rest
    refine ⟨passes, slots₁ ++ gap, slot, after, ?_, here, ?_⟩
    · rw [eq, eq', List.append_assoc]
    · intro slot' mem d' seen
      rcases List.mem_append.mp mem with mem | mem
      · have listed : d' ∈ front := by
          rw [← first]
          exact List.mem_filterMap.mpr ⟨slot', mem, seen⟩
        simpa using earlier d' listed
      · rw [absent slot' mem] at seen
        contradiction
  · intro few none bus dev d seen
    rw [List.take_of_length_le few] at none
    have listed : d ∈ h.devices :=
      List.mem_filterMap.mpr ⟨(bus, dev), mem_pciSlots bus dev, seen⟩
    simpa using List.find?_eq_none.mp none d listed

/-- After a scan, the searches return the first device that matches, in the order of buses and
devices; with at most 64 devices they miss none. -/
theorem pciFind_finds (vendorId deviceId : BitVec 16) (classCode subclass : BitVec 8) :
    FindsFirst h (fun d => d.vendorId = vendorId ∧ d.deviceId = deviceId)
        (pciFindDevice vendorId deviceId (pciInit h).1) ∧
      FindsFirst h (fun d => d.classCode = classCode ∧ d.subclass = subclass)
        (pciFindClass classCode subclass (pciInit h).1) :=
  ⟨find_first h _, find_first h _⟩

end

end ChefOs
