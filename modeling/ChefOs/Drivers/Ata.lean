import ChefOs.Lib.Fuel

/-!
# The disk

`drivers/ata.c`, and a drive that follows the protocol: it takes an address of 28 bits and a count
of sectors, where zero stands for 256, and then exchanges the words of the sectors in turn.  How
long the drive is busy is a parameter.
-/

namespace ChefOs

open Kit

/-! ## The drive -/

/-- The 256 words of a sector. -/
abbrev Sector := Vector (BitVec 16) 256

/-- A command to the drive. -/
inductive AtaCommand
  | readPio
  | writePio
deriving DecidableEq

/-- What the drive has still to exchange: the sectors from `lba` on, and of the first one the words
still to be read, or the words already written. -/
structure Transfer where
  command : AtaCommand
  lba : ℕ
  remaining : ℕ
  words : List (BitVec 16)

/-- A drive: its registers, its sectors, its transfer, and for how many reads of the status it is
busy, and for how many more it asks for no data.  The delays to come are a stream.  The sectors have
no end here; a real drive with 28 bits of address serves at most `lba + count ≤ 2 ^ 28`. -/
structure Drive where
  secCount : UInt8
  lbaLo : UInt8
  lbaMid : UInt8
  lbaHi : UInt8
  driveHead : UInt8
  disk : ℕ → Sector
  transfer : Option Transfer
  busy : ℕ
  lag : ℕ
  delays : ℕ → ℕ × ℕ

/-- The address in the registers. -/
def Drive.lba (d : Drive) : ℕ :=
  (d.driveHead &&& 0x0F).toNat * 2 ^ 24 + d.lbaHi.toNat * 2 ^ 16 + d.lbaMid.toNat * 2 ^ 8 +
    d.lbaLo.toNat

/-- The number of sectors in the register. -/
def Drive.sectors (d : Drive) : ℕ := if d.secCount = 0 then 256 else d.secCount.toNat

/-- The words of a sector that a command starts with. -/
def Drive.load (d : Drive) (command : AtaCommand) (lba : ℕ) : List (BitVec 16) :=
  match command with
  | .readPio => (d.disk lba).toList
  | .writePio => []

/-- The drive is busy and then has the transfer. -/
def Drive.start (transfer : Option Transfer) (d : Drive) : Drive :=
  { d with transfer, busy := (d.delays 0).1, lag := (d.delays 0).2,
           delays := fun n => d.delays (n + 1) }

/-- The drive gets a command. -/
def Drive.command (command : AtaCommand) (d : Drive) : Drive :=
  d.start (some ⟨command, d.lba, d.sectors, d.load command d.lba⟩)

/-- A sector is exchanged. -/
def Drive.next (t : Transfer) (d : Drive) : Drive :=
  if t.remaining ≤ 1 then d.start none
  else d.start (some ⟨t.command, t.lba + 1, t.remaining - 1, d.load t.command (t.lba + 1)⟩)

/-- The drive asks for data. -/
def Drive.requests (d : Drive) : Option Transfer :=
  if d.busy = 0 ∧ d.lag = 0 then d.transfer else none

/-- `inb(ATA_PRIMARY_COMM_REGSTAT)`. -/
def Drive.status (d : Drive) : UInt8 × Drive :=
  if d.busy ≠ 0 then (0x80, { d with busy := d.busy - 1 })
  else if d.requests.isSome then (0x58, d)
  else (0x50, { d with lag := d.lag - 1 })

/-- `outb`.  A busy drive ignores it. -/
def Drive.outb (port : UInt16) (val : UInt8) (d : Drive) : Drive :=
  if d.busy ≠ 0 then d
  else
    match port with
    | 0x1F2 => { d with secCount := val }
    | 0x1F3 => { d with lbaLo := val }
    | 0x1F4 => { d with lbaMid := val }
    | 0x1F5 => { d with lbaHi := val }
    | 0x1F6 => { d with driveHead := val }
    | 0x1F7 =>
      match val with
      | 0x20 => d.command .readPio
      | 0x30 => d.command .writePio
      | _ => d
    | _ => d

/-- `inw(ATA_PRIMARY_DATA)`. -/
def Drive.inw (d : Drive) : BitVec 16 × Drive :=
  match d.requests with
  | some ⟨.readPio, lba, remaining, w :: words⟩ =>
    (w, if words = [] then d.next ⟨.readPio, lba, remaining, []⟩
        else { d with transfer := some ⟨.readPio, lba, remaining, words⟩ })
  | _ => (0xFFFF, d)

/-- The sector is on the disk. -/
def Drive.save (lba : ℕ) (sector : Sector) (d : Drive) : Drive :=
  { d with disk := Function.update d.disk lba sector }

/-- The sector of 256 words. -/
def sectorOf (ws : List (BitVec 16)) : Sector := Vector.ofFn fun i => ws.getD i 0

/-- `outw(ATA_PRIMARY_DATA, w)`.  The drive saves a sector when it has all its words. -/
def Drive.outw (w : BitVec 16) (d : Drive) : Drive :=
  match d.requests with
  | some ⟨.writePio, lba, remaining, words⟩ =>
    if (words ++ [w]).length = 256 then
      (d.save lba (sectorOf (words ++ [w]))).next ⟨.writePio, lba, remaining, []⟩
    else { d with transfer := some ⟨.writePio, lba, remaining, words ++ [w]⟩ }
  | _ => d

/-! ## The driver -/

/-- `!(status & ATA_STATUS_BSY)`. -/
def isReady (status : UInt8) : Bool := status &&& 0x80 = 0

/-- `status & ATA_STATUS_DRQ`. -/
def hasData (status : UInt8) : Bool := status &&& 0x08 ≠ 0

/-- `ata_wait_ready`. -/
def ataWaitReady : ℕ → Drive → Option Drive := pollUntil Drive.status isReady

/-- The loop that waits for `ATA_STATUS_DRQ`. -/
def ataWaitData : ℕ → Drive → Option Drive := pollUntil Drive.status hasData

/-- The writes of both functions to the registers. -/
def ataSelect (lba : BitVec 32) (sectorCount command : UInt8) (d : Drive) : Drive :=
  let d := d.outb 0x1F6 (0xE0 ||| .ofNat ((lba >>> 24) &&& 0x0F).toNat)
  let d := d.outb 0x1F2 sectorCount
  let d := d.outb 0x1F3 (.ofNat lba.toNat)
  let d := d.outb 0x1F4 (.ofNat (lba >>> 8).toNat)
  let d := d.outb 0x1F5 (.ofNat (lba >>> 16).toNat)
  d.outb 0x1F7 command

/-- The inner loop of `ata_read_sectors`: `n` words go to the buffer at `p`. -/
def readWords : ℕ → ℕ → (ℕ → BitVec 16) → Drive → (ℕ → BitVec 16) × Drive
  | 0, _, buf, d => (buf, d)
  | n + 1, p, buf, d => readWords n (p + 1) (Function.update buf p d.inw.1) d.inw.2

/-- The outer loop of `ata_read_sectors`. -/
def readSectors (fuel : ℕ) : ℕ → ℕ → (ℕ → BitVec 16) → Drive → Option ((ℕ → BitVec 16) × Drive)
  | 0, _, buf, d => some (buf, d)
  | n + 1, p, buf, d =>
    (ataWaitReady fuel d).bind fun d => (ataWaitData fuel d).bind fun d =>
      readSectors fuel n (p + 256) (readWords 256 p buf d).1 (readWords 256 p buf d).2

/-- `ata_read_sectors`, with the words at `buffer`. -/
def ataReadSectors (fuel : ℕ) (lba : BitVec 32) (sectorCount : UInt8) (buffer : ℕ → BitVec 16)
    (d : Drive) : Option (ℤ × (ℕ → BitVec 16) × Drive) :=
  (ataWaitReady fuel d).bind fun d =>
    (readSectors fuel sectorCount.toNat 0 buffer (ataSelect lba sectorCount 0x20 d)).map fun r =>
      (0, r)

/-- The inner loop of `ata_write_sectors`: `n` words of the buffer from `p` on. -/
def writeWords : ℕ → ℕ → (ℕ → BitVec 16) → Drive → Drive
  | 0, _, _, d => d
  | n + 1, p, buf, d => writeWords n (p + 1) buf (d.outw (buf p))

/-- The outer loop of `ata_write_sectors`. -/
def writeSectors (fuel : ℕ) : ℕ → ℕ → (ℕ → BitVec 16) → Drive → Option Drive
  | 0, _, _, d => some d
  | n + 1, p, buf, d =>
    (ataWaitReady fuel d).bind fun d => (ataWaitData fuel d).bind fun d =>
      writeSectors fuel n (p + 256) buf (writeWords 256 p buf d)

/-- `ata_write_sectors`. -/
def ataWriteSectors (fuel : ℕ) (lba : BitVec 32) (sectorCount : UInt8) (buffer : ℕ → BitVec 16)
    (d : Drive) : Option (ℤ × Drive) :=
  (ataWaitReady fuel d).bind fun d =>
    (writeSectors fuel sectorCount.toNat 0 buffer (ataSelect lba sectorCount 0x30 d)).map fun d =>
      (0, d)

/-! ## Waiting -/

/-- The drive with other delays before it answers. -/
def Drive.waiting (busy lag : ℕ) (d : Drive) : Drive := { d with busy, lag }

theorem status_waiting (busy lag : ℕ) (d : Drive) :
    (d.waiting busy lag).status =
      if busy ≠ 0 then (0x80, d.waiting (busy - 1) lag)
      else if lag = 0 ∧ d.transfer.isSome then (0x58, d.waiting busy lag)
      else (0x50, d.waiting busy (lag - 1)) := by
  unfold Drive.status Drive.requests
  by_cases idle : busy = 0
  · by_cases now : lag = 0
    · simp [Drive.waiting, idle, now]
    · simp [Drive.waiting, idle, now]
  · simp [Drive.waiting, idle]

/-- What the driver sees of the three statuses. -/
theorem status_bits :
    (isReady 0x80 = false ∧ isReady 0x58 = true ∧ isReady 0x50 = true) ∧
      hasData 0x80 = false ∧ hasData 0x58 = true ∧ hasData 0x50 = false := by decide

/-- The drive stops being busy. -/
theorem ataWaitReady_ends (d : Drive) :
    ∃ lag, Ends (fun fuel => ataWaitReady fuel d) (d.waiting 0 lag) := by
  obtain ⟨⟨busy, asks, quiet⟩, -⟩ := status_bits
  have step : ∀ s : Drive, (∃ busy lag, s = d.waiting busy lag) →
      (isReady s.status.1 = true ∧ ∃ lag, s.status.2 = d.waiting 0 lag) ∨
        (isReady s.status.1 = false ∧ (∃ busy lag, s.status.2 = d.waiting busy lag) ∧
          s.status.2.busy < s.busy) := by
    rintro _ ⟨n, lag, rfl⟩
    rw [status_waiting]
    split_ifs with wait now
    · exact .inr ⟨busy, ⟨_, _, rfl⟩, Nat.sub_one_lt wait⟩
    · rw [not_not] at wait
      exact .inl ⟨asks, lag, by rw [wait]⟩
    · rw [not_not] at wait
      exact .inl ⟨quiet, lag - 1, by rw [wait]⟩
  obtain ⟨t, ends, lag, rfl⟩ :=
    pollUntil_ends (Q := fun t => ∃ lag, t = d.waiting 0 lag) Drive.busy step ⟨d.busy, d.lag, rfl⟩
  exact ⟨lag, ends⟩

/-- A drive with a transfer asks for data. -/
theorem ataWaitData_ends {d : Drive} (transfer : d.transfer.isSome) :
    Ends (fun fuel => ataWaitData fuel d) (d.waiting 0 0) := by
  obtain ⟨-, busy, asks, quiet⟩ := status_bits
  have step : ∀ s : Drive, (∃ busy lag, s = d.waiting busy lag) →
      (hasData s.status.1 = true ∧ s.status.2 = d.waiting 0 0) ∨
        (hasData s.status.1 = false ∧ (∃ busy lag, s.status.2 = d.waiting busy lag) ∧
          s.status.2.busy + s.status.2.lag < s.busy + s.lag) := by
    rintro _ ⟨n, lag, rfl⟩
    rw [status_waiting]
    split_ifs with wait now
    · refine .inr ⟨busy, ⟨_, _, rfl⟩, ?_⟩
      simp only [Drive.waiting]
      omega
    · rw [not_not] at wait
      exact .inl ⟨asks, by rw [wait, now.1]⟩
    · refine .inr ⟨quiet, ⟨_, _, rfl⟩, ?_⟩
      have : lag ≠ 0 := fun zero => now ⟨zero, transfer⟩
      simp only [Drive.waiting]
      omega
  obtain ⟨t, ends, rfl⟩ := pollUntil_ends (Q := fun t => t = d.waiting 0 0)
    (fun s : Drive => s.busy + s.lag) step ⟨d.busy, d.lag, rfl⟩
  exact ends

/-- Both loops of a round. -/
theorem wait_ends {β : Type} {d : Drive} (transfer : d.transfer.isSome)
    {body : ℕ → Drive → Option β} {r : β} (ends : Ends (fun fuel => body fuel (d.waiting 0 0)) r) :
    Ends (fun fuel => (ataWaitReady fuel d).bind fun d => (ataWaitData fuel d).bind (body fuel))
      r := by
  obtain ⟨lag, ready⟩ := ataWaitReady_ends d
  exact ready.bind ((ataWaitData_ends (d := d.waiting 0 lag) transfer).bind ends)

/-! ## The registers -/

theorem lba_bytes (n : ℕ) :
    n / 2 ^ 24 % 16 * 2 ^ 24 + n / 2 ^ 16 % 256 * 2 ^ 16 + n / 2 ^ 8 % 256 * 2 ^ 8 + n % 256 =
      n % 2 ^ 28 := by
  omega

theorem driveHead_bits (m : ℕ) :
    ((0xE0 ||| UInt8.ofNat (m % 16)) &&& 0x0F).toNat = m % 16 := by
  have small : m % 16 < 2 ^ 4 := Nat.mod_lt m (by decide)
  have byte : (UInt8.ofNat (m % 16)).toNat = m % 16 := by
    apply UInt8.toNat_ofNat_of_lt'
    rw [UInt8.size]
    omega
  have sum := Nat.two_pow_add_eq_or_of_lt small 14
  rw [UInt8.toNat_and, UInt8.toNat_or, byte]
  change (2 ^ 4 * 14 ||| m % 16) &&& (2 ^ 4 - 1) = m % 16
  rw [← sum, Nat.and_two_pow_sub_one_eq_mod, Nat.mul_add_mod, Nat.mod_eq_of_lt small]

/-- The registers before the command. -/
def Drive.selected (lba : BitVec 32) (sectorCount : UInt8) (d : Drive) : Drive :=
  { d with
    driveHead := 0xE0 ||| .ofNat ((lba >>> 24) &&& 0x0F).toNat
    secCount := sectorCount
    lbaLo := .ofNat lba.toNat
    lbaMid := .ofNat (lba >>> 8).toNat
    lbaHi := .ofNat (lba >>> 16).toNat }

/-- The registers take 28 bits of the address. -/
theorem selected_lba (lba : BitVec 32) (sectorCount : UInt8) (d : Drive) :
    (d.selected lba sectorCount).lba = lba.toNat % 2 ^ 28 := by
  have shift : ∀ k, (lba >>> k).toNat = lba.toNat / 2 ^ k := fun k => by
    rw [BitVec.toNat_ushiftRight, Nat.shiftRight_eq_div_pow]
  have top : ((lba >>> 24) &&& 0x0F).toNat = lba.toNat / 2 ^ 24 % 16 := by
    rw [BitVec.toNat_and, shift]
    exact Nat.and_two_pow_sub_one_eq_mod _ 4
  rw [Drive.lba, Drive.selected]
  dsimp only
  rw [top, driveHead_bits, shift, shift, UInt8.toNat_ofNat', UInt8.toNat_ofNat',
    UInt8.toNat_ofNat']
  exact lba_bytes lba.toNat

/-- The command that a byte stands for. -/
def AtaCommand.code : AtaCommand → UInt8
  | readPio => 0x20
  | writePio => 0x30

/-- A drive that is not busy gets the command. -/
theorem ataSelect_eq {d : Drive} (ready : d.busy = 0) (lba : BitVec 32) (sectorCount : UInt8)
    (command : AtaCommand) :
    ataSelect lba sectorCount command.code d = (d.selected lba sectorCount).command command := by
  simp only [ataSelect, Drive.outb, ready, ne_eq, not_true_eq_false, if_false]
  cases command <;> rfl

/-! ## A sector -/

/-- The drive asks for the data of the transfer. -/
structure Drive.Asks (d : Drive) (t : Transfer) : Prop where
  busy : d.busy = 0
  lag : d.lag = 0
  transfer : d.transfer = some t

theorem Drive.Asks.requests {d : Drive} {t : Transfer} (asks : d.Asks t) :
    d.requests = some t := by
  rw [Drive.requests, if_pos ⟨asks.busy, asks.lag⟩, asks.transfer]

/-- The next sector does not depend on the present transfer. -/
theorem next_transfer (t : Transfer) (transfer : Option Transfer) (d : Drive) :
    Drive.next t { d with transfer } = d.next t := by
  unfold Drive.next
  split <;> rfl

/-- Words that are put into a buffer. -/
def storeWords (p : ℕ) (ws : List (BitVec 16)) (buf : ℕ → BitVec 16) : ℕ → BitVec 16 := fun i =>
  if p ≤ i ∧ i < p + ws.length then ws.getD (i - p) 0 else buf i

theorem storeWords_cons (p : ℕ) (w : BitVec 16) (ws : List (BitVec 16)) (buf : ℕ → BitVec 16) :
    storeWords (p + 1) ws (Function.update buf p w) = storeWords p (w :: ws) buf := by
  funext i
  rw [storeWords, storeWords, List.length_cons]
  by_cases here : i = p
  · subst here
    rw [if_neg (by omega), if_pos (by omega), Function.update_self, Nat.sub_self]
    rfl
  · rw [Function.update_of_ne here]
    by_cases later : p + 1 ≤ i ∧ i < p + 1 + ws.length
    · obtain ⟨j, rfl⟩ := Nat.exists_eq_add_of_le later.1
      rw [if_pos later, if_pos (by omega), Nat.add_sub_cancel_left,
        show p + 1 + j - p = j + 1 by omega, List.getD_cons_succ]
    · rw [if_neg later, if_neg (by omega)]

/-- The inner loop of a read takes the words that the drive has left of its sector. -/
theorem readWords_eq {lba remaining : ℕ} (ws : List (BitVec 16)) (some_left : ws ≠ []) (p : ℕ)
    (buf : ℕ → BitVec 16) {d : Drive} (asks : d.Asks ⟨.readPio, lba, remaining, ws⟩) :
    readWords ws.length p buf d =
      (storeWords p ws buf, d.next ⟨.readPio, lba, remaining, []⟩) := by
  induction ws generalizing p buf d with
  | nil => contradiction
  | cons w ws ih =>
    rw [List.length_cons, readWords, Drive.inw, asks.requests, ← storeWords_cons]
    dsimp only
    by_cases last : ws = []
    · subst last
      rw [if_pos rfl, List.length_nil, readWords]
      refine Prod.ext (funext fun i => ?_) rfl
      exact (if_neg (by rw [List.length_nil]; omega)).symm
    · rw [if_neg last, ih last, next_transfer]
      exact ⟨asks.busy, asks.lag, rfl⟩

/-- Words of a buffer. -/
def bufferWords (buf : ℕ → BitVec 16) (p n : ℕ) : List (BitVec 16) := (List.range' p n).map buf

/-- The inner loop of a write brings the words that the drive has not got of its sector. -/
theorem writeWords_eq {lba remaining : ℕ} (n : ℕ) (ws : List (BitVec 16)) (p : ℕ)
    (buf : ℕ → BitVec 16) (whole : (ws ++ bufferWords buf p (n + 1)).length = 256)
    {d : Drive} (asks : d.Asks ⟨.writePio, lba, remaining, ws⟩) :
    writeWords (n + 1) p buf d =
      (d.save lba (sectorOf (ws ++ bufferWords buf p (n + 1)))).next
        ⟨.writePio, lba, remaining, []⟩ := by
  induction n generalizing ws p d with
  | zero =>
    rw [writeWords, Drive.outw, asks.requests]
    exact if_pos whole
  | succ n ih =>
    have step : ws ++ bufferWords buf p (n + 1 + 1) =
        ws ++ [buf p] ++ bufferWords buf (p + 1) (n + 1) := by
      rw [bufferWords, List.range'_succ, List.append_assoc]
      rfl
    rw [step] at whole ⊢
    have length : (ws ++ [buf p]).length ≠ 256 := by
      rw [List.length_append, bufferWords, List.length_map, List.length_range'] at whole
      omega
    rw [writeWords, Drive.outw, asks.requests]
    dsimp only
    rw [if_neg length]
    set d' : Drive := { d with transfer := some ⟨.writePio, lba, remaining, ws ++ [buf p]⟩ }
    have asks' : d'.Asks ⟨.writePio, lba, remaining, ws ++ [buf p]⟩ := ⟨asks.busy, asks.lag, rfl⟩
    rw [ih (ws ++ [buf p]) (p + 1) whole asks']
    exact next_transfer _ _ (d.save lba _)

/-- The sector in a buffer at `p`. -/
def bufferSector (buf : ℕ → BitVec 16) (p : ℕ) : Sector := Vector.ofFn fun i => buf (p + i)

theorem sectorOf_bufferWords (buf : ℕ → BitVec 16) (p : ℕ) :
    sectorOf (bufferWords buf p 256) = bufferSector buf p := by
  refine congrArg Vector.ofFn (funext fun i => ?_)
  simp [bufferWords]

/-! ## The sectors in turn -/

/-- The transfer of `n` sectors from `lba` on. -/
def Drive.left (command : AtaCommand) (lba n : ℕ) (d : Drive) : Option Transfer :=
  if n = 0 then none else some ⟨command, lba, n, d.load command lba⟩

theorem left_congr {d d' : Drive} (disk : d'.disk = d.disk) (command : AtaCommand) (lba n : ℕ) :
    d'.left command lba n = d.left command lba n := by
  unfold Drive.left Drive.load
  rw [disk]

/-- After a sector one less is left. -/
theorem next_left (command : AtaCommand) (lba n : ℕ) (ws : List (BitVec 16)) (d : Drive) :
    (d.next ⟨command, lba, n + 1, ws⟩).transfer = d.left command (lba + 1) n := by
  unfold Drive.next Drive.left
  by_cases last : n = 0
  · rw [if_pos last, if_pos (by simp [last])]
    rfl
  · rw [if_neg last, if_neg (by simp [last])]
    rfl

theorem next_disk (t : Transfer) (d : Drive) : (d.next t).disk = d.disk := by
  unfold Drive.next
  split <;> rfl

/-- The disk with `n` sectors of a buffer from `lba` on. -/
def storedSectors (lba n : ℕ) (buf : ℕ → BitVec 16) (p : ℕ) (disk : ℕ → Sector) : ℕ → Sector :=
  fun a => if lba ≤ a ∧ a < lba + n then bufferSector buf (p + 256 * (a - lba)) else disk a

theorem storedSectors_succ (lba n : ℕ) (buf : ℕ → BitVec 16) (p : ℕ) (disk : ℕ → Sector) :
    storedSectors (lba + 1) n buf (p + 256) (Function.update disk lba (bufferSector buf p)) =
      storedSectors lba (n + 1) buf p disk := by
  funext a
  rw [storedSectors, storedSectors]
  by_cases here : a = lba
  · subst here
    rw [if_neg (by omega), if_pos (by omega), Function.update_self, Nat.sub_self]
    rfl
  · rw [Function.update_of_ne here]
    by_cases later : lba + 1 ≤ a ∧ a < lba + 1 + n
    · rw [if_pos later, if_pos (by omega)]
      congr 1
      omega
    · rw [if_neg later, if_neg (by omega)]

/-- The outer loop of a write. -/
theorem writeSectors_ends (lba n p : ℕ) (buf : ℕ → BitVec 16) {d : Drive}
    (transfer : d.transfer = d.left .writePio lba n) :
    ∃ d', Ends (fun fuel => writeSectors fuel n p buf d) d' ∧ d'.transfer = none ∧
      d'.disk = storedSectors lba n buf p d.disk := by
  induction n generalizing lba p d with
  | zero =>
    refine ⟨d, .pure d, transfer, funext fun a => ?_⟩
    rw [storedSectors, if_neg (by omega)]
  | succ n ih =>
    have asks : (d.waiting 0 0).Asks ⟨.writePio, lba, n + 1, []⟩ := ⟨rfl, rfl, transfer⟩
    have sector := writeWords_eq 255 [] p buf (by simp [bufferWords]) asks
    rw [List.nil_append, sectorOf_bufferWords] at sector
    obtain ⟨d', ends, done, disk⟩ := ih (lba + 1) (p + 256)
      (d := writeWords 256 p buf (d.waiting 0 0)) (by
        rw [sector, next_left, left_congr (next_disk ..)])
    refine ⟨d', wait_ends ?_ ends, done, ?_⟩
    · rw [transfer]
      rfl
    · rw [disk, sector, next_disk]
      exact storedSectors_succ ..

/-- A buffer with `n` sectors of the disk from `lba` on. -/
def fetchedSectors (lba n : ℕ) (disk : ℕ → Sector) (p : ℕ) (buf : ℕ → BitVec 16) :
    ℕ → BitVec 16 := fun i =>
  if p ≤ i ∧ i < p + 256 * n then (disk (lba + (i - p) / 256)).toList.getD ((i - p) % 256) 0
  else buf i

theorem fetchedSectors_succ (lba n : ℕ) (disk : ℕ → Sector) (p : ℕ) (buf : ℕ → BitVec 16) :
    fetchedSectors (lba + 1) n disk (p + 256) (storeWords p (disk lba).toList buf) =
      fetchedSectors lba (n + 1) disk p buf := by
  funext i
  unfold fetchedSectors storeWords
  rw [Vector.length_toList]
  by_cases first : p ≤ i ∧ i < p + 256
  · have now : ¬ (p + 256 ≤ i ∧ i < p + 256 + 256 * n) := fun later => by omega
    have within : p ≤ i ∧ i < p + 256 * (n + 1) := ⟨first.1, by omega⟩
    rw [if_neg now, if_pos first, if_pos within, Nat.div_eq_of_lt (by omega),
      Nat.mod_eq_of_lt (by omega)]
    rfl
  · rw [if_neg first]
    by_cases later : p + 256 ≤ i ∧ i < p + 256 + 256 * n
    · have within : p ≤ i ∧ i < p + 256 * (n + 1) := by omega
      obtain ⟨j, rfl⟩ := Nat.exists_eq_add_of_le later.1
      rw [if_pos later, if_pos within, Nat.add_sub_cancel_left,
        show p + 256 + j - p = j + 256 by omega, Nat.add_div_right j (by decide),
        Nat.add_mod_right, Nat.add_assoc, Nat.add_comm 1]
    · have outside : ¬ (p ≤ i ∧ i < p + 256 * (n + 1)) := by
        rintro ⟨low, high⟩
        have next : p + 256 ≤ i := Nat.le_of_not_lt fun lt => first ⟨low, lt⟩
        exact later ⟨next, by omega⟩
      rw [if_neg later, if_neg outside]

/-- The outer loop of a read. -/
theorem readSectors_ends (lba n p : ℕ) (buf : ℕ → BitVec 16) {d : Drive}
    (transfer : d.transfer = d.left .readPio lba n) :
    ∃ d', Ends (fun fuel => readSectors fuel n p buf d)
        (fetchedSectors lba n d.disk p buf, d') ∧ d'.transfer = none ∧ d'.disk = d.disk := by
  induction n generalizing lba p buf d with
  | zero =>
    refine ⟨d, ?_, transfer, rfl⟩
    have nothing : fetchedSectors lba 0 d.disk p buf = buf :=
      funext fun i => if_neg (by omega)
    rw [nothing]
    exact .pure _
  | succ n ih =>
    have asks : (d.waiting 0 0).Asks ⟨.readPio, lba, n + 1, (d.disk lba).toList⟩ :=
      ⟨rfl, rfl, transfer⟩
    have length := (d.disk lba).length_toList
    have sector := readWords_eq (d.disk lba).toList
      (List.ne_nil_of_length_pos (by omega)) p buf asks
    rw [length] at sector
    obtain ⟨d', ends, done, disk⟩ := ih (lba + 1) (p + 256)
      (readWords 256 p buf (d.waiting 0 0)).1 (d := (readWords 256 p buf (d.waiting 0 0)).2) (by
        rw [sector, next_left, left_congr (next_disk ..)])
    have disk' : (readWords 256 p buf (d.waiting 0 0)).2.disk = d.disk := by
      rw [sector, next_disk]
      rfl
    have fetched : fetchedSectors (lba + 1) n (readWords 256 p buf (d.waiting 0 0)).2.disk
        (p + 256) (readWords 256 p buf (d.waiting 0 0)).1 =
          fetchedSectors lba (n + 1) d.disk p buf := by
      rw [disk', sector, fetchedSectors_succ]
    rw [fetched] at ends
    refine ⟨d', wait_ends ?_ ends, done, disk.trans disk'⟩
    rw [transfer]
    rfl

/-! ## The calls -/

section

variable (lba : BitVec 32) {sectorCount : UInt8} (d : Drive)

/-- The drive after the address and the command. -/
theorem selected_transfer (command : AtaCommand) (pos : sectorCount ≠ 0) :
    ((d.selected lba sectorCount).command command).transfer =
      d.left command (lba.toNat % 2 ^ 28) sectorCount.toNat := by
  have some : sectorCount.toNat ≠ 0 := fun zero => pos (UInt8.toNat_inj.mp zero)
  have sectors : (d.selected lba sectorCount).sectors = sectorCount.toNat := if_neg pos
  rw [Drive.command, sectors, selected_lba, Drive.left, if_neg some]
  rfl

/-- A command for no sectors is one for 256. -/
theorem selected_zero (command : AtaCommand) :
    ((d.selected lba 0).command command).transfer =
      some ⟨command, lba.toNat % 2 ^ 28, 256, d.load command (lba.toNat % 2 ^ 28)⟩ := by
  rw [Drive.command, selected_lba]
  rfl

variable (buffer : ℕ → BitVec 16)

/-- A write puts its sectors at the address without its upper four bits. -/
theorem ataWriteSectors_ends (pos : sectorCount ≠ 0) :
    ∃ d', Ends (fun fuel => ataWriteSectors fuel lba sectorCount buffer d) (0, d') ∧
      d'.transfer = none ∧
      d'.disk = storedSectors (lba.toNat % 2 ^ 28) sectorCount.toNat buffer 0 d.disk := by
  obtain ⟨lag, ready⟩ := ataWaitReady_ends d
  have select : ataSelect lba sectorCount 0x30 (d.waiting 0 lag) = _ :=
    ataSelect_eq rfl lba sectorCount .writePio
  obtain ⟨d', ends, done, disk⟩ := writeSectors_ends (lba.toNat % 2 ^ 28) sectorCount.toNat 0 buffer
    (d := ataSelect lba sectorCount 0x30 (d.waiting 0 lag)) (by
      rw [select]
      exact selected_transfer lba (d.waiting 0 lag) .writePio pos)
  refine ⟨d', ready.bind (ends.map fun d => ((0 : ℤ), d)), done, ?_⟩
  rw [disk, select]
  rfl

/-- A read takes its sectors from the address without its upper four bits. -/
theorem ataReadSectors_ends (pos : sectorCount ≠ 0) :
    ∃ d', Ends (fun fuel => ataReadSectors fuel lba sectorCount buffer d)
        (0, fetchedSectors (lba.toNat % 2 ^ 28) sectorCount.toNat d.disk 0 buffer, d') ∧
      d'.transfer = none := by
  obtain ⟨lag, ready⟩ := ataWaitReady_ends d
  have select : ataSelect lba sectorCount 0x20 (d.waiting 0 lag) = _ :=
    ataSelect_eq rfl lba sectorCount .readPio
  obtain ⟨d', ends, done, -⟩ := readSectors_ends (lba.toNat % 2 ^ 28) sectorCount.toNat 0 buffer
    (d := ataSelect lba sectorCount 0x20 (d.waiting 0 lag)) (by
      rw [select]
      exact selected_transfer lba (d.waiting 0 lag) .readPio pos)
  have disk : (ataSelect lba sectorCount 0x20 (d.waiting 0 lag)).disk = d.disk := by
    rw [select]
    rfl
  rw [disk] at ends
  exact ⟨d', ready.bind (ends.map fun r => ((0 : ℤ), r)), done⟩

/-- A write of no sectors leaves the drive with a transfer. -/
theorem ataWriteSectors_zero :
    ∃ d', Ends (fun fuel => ataWriteSectors fuel lba 0 buffer d) (0, d') ∧ d'.transfer ≠ none := by
  obtain ⟨lag, ready⟩ := ataWaitReady_ends d
  have select : ataSelect lba 0 0x30 (d.waiting 0 lag) = _ :=
    ataSelect_eq rfl lba 0 .writePio
  refine ⟨_, ready.bind ((Ends.pure _).map fun d => ((0 : ℤ), d)), ?_⟩
  rw [select, selected_zero]
  exact Option.some_ne_none _

end

/-- A write answers with an error, or it stores the sectors at the address and changes no others.  A
read that follows and answers with no error returns the same words.  No transfer is left after
either call. -/
def WritesAndReads (lba : BitVec 32) (sectorCount : UInt8) (buffer buffer' : ℕ → BitVec 16)
    (d : Drive) : Prop :=
  ∃ value d₁ value' words d₂,
    Ends (fun fuel => ataWriteSectors fuel lba sectorCount buffer d) (value, d₁) ∧
    Ends (fun fuel => ataReadSectors fuel lba sectorCount buffer' d₁) (value', words, d₂) ∧
    (value ≠ 0 ∧ d₁.disk = d.disk ∨
      d₁.disk = storedSectors lba.toNat sectorCount.toNat buffer 0 d.disk) ∧
    d₁.transfer = none ∧
    (value' = 0 → ∀ i < 256 * sectorCount.toNat, words i = buffer i) ∧
    d₂.transfer = none

/-- The disk has the `n` sectors of the buffer at `lba`. -/
def HasSectors (disk : ℕ → Sector) (lba n : ℕ) (buffer : ℕ → BitVec 16) : Prop :=
  ∀ k < n, disk (lba + k) = bufferSector buffer (256 * k)

/-- Sectors stored at the address without its upper bits are at the address just when it has none,
or the disk had them in both places. -/
theorem storedSectors_low_iff {a n : ℕ} (few : n ≤ 255) (buffer : ℕ → BitVec 16)
    (disk : ℕ → Sector) :
    storedSectors (a % 2 ^ 28) n buffer 0 disk = storedSectors a n buffer 0 disk ↔
      a < 2 ^ 28 ∨ HasSectors disk a n buffer ∧ HasSectors disk (a % 2 ^ 28) n buffer := by
  have at_offset : ∀ lba k, k < n →
      storedSectors lba n buffer 0 disk (lba + k) = bufferSector buffer (256 * k) := by
    intro lba k hk
    rw [storedSectors, if_pos (by omega), Nat.add_sub_cancel_left, Nat.zero_add]
  by_cases low : a < 2 ^ 28
  · rw [Nat.mod_eq_of_lt low]
    exact iff_of_true rfl (.inl low)
  have far : a % 2 ^ 28 + n ≤ a := by omega
  rw [or_iff_right low]
  constructor
  · intro same
    refine ⟨fun k hk => ?_, fun k hk => ?_⟩
    · rw [← at_offset a k hk, ← same, storedSectors, if_neg (by omega)]
    · rw [← at_offset _ k hk, same, storedSectors, if_neg (by omega)]
  · rintro ⟨high, low⟩
    funext b
    rw [storedSectors, storedSectors]
    by_cases inLow : a % 2 ^ 28 ≤ b ∧ b < a % 2 ^ 28 + n
    · obtain ⟨k, rfl⟩ := Nat.exists_eq_add_of_le inLow.1
      rw [if_pos inLow, if_neg (by omega), low k (by omega), Nat.add_sub_cancel_left, Nat.zero_add]
    · rw [if_neg inLow]
      by_cases inHigh : a ≤ b ∧ b < a + n
      · obtain ⟨k, rfl⟩ := Nat.exists_eq_add_of_le inHigh.1
        rw [if_pos inHigh, high k (by omega), Nat.add_sub_cancel_left, Nat.zero_add]
      · rw [if_neg inHigh]

/-- The words that a read finds after a write. -/
theorem fetched_stored (lba n : ℕ) (buffer buffer' : ℕ → BitVec 16) (disk : ℕ → Sector) :
    ∀ i < 256 * n, fetchedSectors lba n (storedSectors lba n buffer 0 disk) 0 buffer' i =
      buffer i := by
  intro i hi
  have word : i % 256 < 256 := Nat.mod_lt i (by decide)
  have sector : i / 256 < n := Nat.div_lt_of_lt_mul hi
  rw [fetchedSectors, if_pos ⟨Nat.zero_le i, by omega⟩, Nat.sub_zero, storedSectors,
    if_pos (by omega), Nat.add_sub_cancel_left, bufferSector, Vector.toList_ofFn]
  rw [List.getD_eq_getElem?_getD, List.getElem?_ofFn, dif_pos word, Option.getD_some, Nat.zero_add,
    Nat.div_add_mod]

/-- The drive is used as the calls ask just when there are sectors, and their address has 28 bits or
the disk has them already, at the address and at the address without its upper bits. -/
theorem writesAndReads_iff (lba : BitVec 32) (sectorCount : UInt8) (buffer buffer' : ℕ → BitVec 16)
    (d : Drive) :
    WritesAndReads lba sectorCount buffer buffer' d ↔
      sectorCount ≠ 0 ∧ (lba.toNat < 2 ^ 28 ∨
        HasSectors d.disk lba.toNat sectorCount.toNat buffer ∧
          HasSectors d.disk (lba.toNat % 2 ^ 28) sectorCount.toNat buffer) := by
  have few : sectorCount.toNat ≤ 255 := Nat.le_of_lt_succ sectorCount.toNat_lt
  by_cases pos : sectorCount = 0
  · subst pos
    obtain ⟨d', ends, left⟩ := ataWriteSectors_zero lba d buffer
    refine iff_of_false ?_ fun holds => holds.1 rfl
    rintro ⟨value, d₁, value', words, d₂, write, -, -, done, -⟩
    obtain ⟨-, rfl⟩ := Prod.mk.inj (write.unique ends)
    exact left done
  · obtain ⟨d₁, write, done₁, disk⟩ := ataWriteSectors_ends lba d buffer pos
    obtain ⟨d₂, read, done₂⟩ := ataReadSectors_ends lba d₁ buffer' pos
    rw [and_iff_right pos, ← storedSectors_low_iff few, ← disk]
    constructor
    · rintro ⟨value, d₁', value', words, d₂', write', -, stored, -⟩
      obtain ⟨rfl, rfl⟩ := Prod.mk.inj (write'.unique write)
      exact stored.resolve_left fun failed => failed.1 rfl
    · intro stored
      refine ⟨0, d₁, 0, _, d₂, write, read, .inr stored, done₁, fun _ => ?_, done₂⟩
      rw [disk]
      exact fetched_stored _ _ buffer buffer' d.disk

/-- An empty disk that is ready at once. -/
def blankDrive : Drive where
  secCount := 0
  lbaLo := 0
  lbaMid := 0
  lbaHi := 0
  driveHead := 0
  disk := fun _ => Vector.replicate 256 0
  transfer := none
  busy := 0
  lag := 0
  delays := fun _ => (0, 0)

/-- A sector at the first address of 29 bits is written to the first sector of the disk. -/
theorem large_address_overwrites :
    ¬ ∀ (lba : BitVec 32) (sectorCount : UInt8) (buffer buffer' : ℕ → BitVec 16) (d : Drive),
      d.transfer = none → WritesAndReads lba sectorCount buffer buffer' d := by
  intro claim
  obtain ⟨value, d₁, -, -, -, write, -, stored, -⟩ :=
    claim 0x10000000 1 (fun _ => 0xFFFF) (fun _ => 0) blankDrive rfl
  obtain ⟨d', ends, -, disk⟩ := ataWriteSectors_ends 0x10000000 blankDrive (fun _ => 0xFFFF)
    (by decide : (1 : UInt8) ≠ 0)
  obtain ⟨rfl, rfl⟩ := Prod.mk.inj (write.unique ends)
  have same := stored.resolve_left fun failed => failed.1 rfl
  rw [disk, storedSectors_low_iff (by decide)] at same
  rcases same with small | ⟨held, -⟩
  · exact absurd small (by decide)
  · have word := congrArg (fun sector : Sector => sector[0]) (held 0 (by decide))
    revert word
    simp [blankDrive, bufferSector]

end ChefOs
