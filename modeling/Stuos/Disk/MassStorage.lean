import Stuos.Disk.SectorDisk
import Stuos.Memory.Slab
import Stuos.Usb.Keyboard

/-!
# The USB disk driver

`xhci_msd.c`.  A command goes out in a wrapper, the data follow in one direction or the other,
and a status comes back.  Driver and controller share the physical memory; `send_bbb` waits for
the controller three times, and while it waits the rest of the kernel goes on.

`Target.Step` is the documented behaviour of the device: the bulk-only transport, with the
commands that the driver sends.  A command may fail at any time.

* `SendBbb.spec`: what a call of `send_bbb` that returns has done.
* `massStorage_refines_sectorDisk`: the driver with such a device is an array of sectors.
-/

namespace Stuos.Disk.MassStorage

open Stuos.Lib Stuos.Fs.Dev
open Stuos.Memory (pageSize)
open Stuos.Phys (roundUpPages le_roundUpPages)
open Stuos.Usb

/-! ### Wrappers -/

def cbwSignature : Nat := 0x43425355

def cswSignature : Nat := 0x53425355

/-- `struct CommandBlockWrapper`; `direction` is set for a command that reads. -/
structure CommandBlockWrapper where
  signature : Nat
  tag : Nat
  transferLength : Nat
  direction : Bool
  lun : UInt8
  commandLen : UInt8
  command : List UInt8
  deriving DecidableEq, Repr

def CommandBlockWrapper.bytes (c : CommandBlockWrapper) : List UInt8 :=
  leBytes 4 c.signature ++ leBytes 4 c.tag ++ leBytes 4 c.transferLength ++
    [if c.direction then 128 else 0, c.lun, c.commandLen] ++ c.command

/-- `sizeof(struct CommandBlockWrapper)`. -/
def cbwSize : Nat := 31

/-- `struct CommandStatusWrapper`. -/
structure CommandStatusWrapper where
  signature : Nat
  tag : Nat
  dataResidue : Nat
  status : UInt8
  deriving DecidableEq, Repr

def CommandStatusWrapper.bytes (c : CommandStatusWrapper) : List UInt8 :=
  leBytes 4 c.signature ++ leBytes 4 c.tag ++ leBytes 4 c.dataResidue ++ [c.status]

def CommandStatusWrapper.read (m : Mem) (a : Nat) : CommandStatusWrapper where
  signature := leVal (m.read a 4)
  tag := leVal (m.read (a + 4) 4)
  dataResidue := leVal (m.read (a + 8) 4)
  status := m (a + 12)

/-- `sizeof(struct CommandStatusWrapper)`. -/
def cswSize : Nat := 13

/-- The big-endian numbers of the device: the bytes of `val`, in the other order. -/
def flipEndianness (val : Nat) : Nat :=
  let bytes := leBytes 4 val
  (bytes.getD 0 0).toNat <<< 24 ||| (bytes.getD 1 0).toNat <<< 16 |||
    (bytes.getD 2 0).toNat <<< 8 ||| (bytes.getD 3 0).toNat

/-! ### A command -/

/-- What `send_bbb` allocates. -/
structure Pages where
  commandPhys : Nat
  responsePhys : Nat
  statusPhys : Nat

def normalTrb (phys length : Nat) (flags : BitVec 9) : TRB :=
  { TRB.zero with
    parameter := BitVec.ofNat 64 phys
    reserved0 := BitVec.ofNat 32 (length % 2 ^ 17)
    reserved1 := flags
    trbType := trbTypeNormal }

/-- `interrupt_on_completion`. -/
def interruptOnCompletion : BitVec 9 := 16

/-- `interrupt_on_short_packet`. -/
def interruptOnShortPacket : BitVec 9 := 2

def commandTrb (p : Pages) : TRB := normalTrb p.commandPhys cbwSize interruptOnCompletion

def responseTrb (p : Pages) (responseLen : Nat) : TRB :=
  normalTrb p.responsePhys responseLen (interruptOnCompletion ||| interruptOnShortPacket)

def statusTrb (p : Pages) : TRB := normalTrb p.statusPhys cswSize interruptOnCompletion

/-- `send_bbb` up to the first TRB; `responseOut` is the buffer of the caller. -/
def sendBbbStart (p : Pages) (nextFreeTag : Nat) (cbw : CommandBlockWrapper)
    (responseOut : List UInt8) (responseLen : Nat) (isRead : Bool) (m : Mem) : Except Halt Mem := do
  let m := m.write p.commandPhys { cbw with tag := nextFreeTag }.bytes
  ensure (0 < responseLen) .hcf
  return if isRead then m else m.write p.responsePhys (responseOut.take responseLen)

/-- The three assertions after each TRB. -/
def checkTransfer (result : TRB) : Except Halt Unit := do
  ensure (result.trbType = trbTypeTransfer) .hcf
  ensure (result.completionCode = 1) .hcf
  ensure (result.transferLength = 0) .hcf

/-- `send_bbb` after the last TRB: what it copies to the buffer of the caller, and what it
returns. -/
def sendBbbReturn (p : Pages) (responseLen : Nat) (isRead : Bool) (m : Mem) :
    Except Halt (List UInt8 × Nat) := do
  let status := CommandStatusWrapper.read m p.statusPhys
  ensure (status.signature = cswSignature) .hcf
  ensure (status.tag = leVal (m.read (p.commandPhys + 4) 4)) .hcf
  ensure (status.status = 0) .hcf
  let read := (responseLen + 2 ^ 32 - status.dataResidue) % 2 ^ 32
  return (if isRead then m.read p.responsePhys read else [], read)

/-! ### The driver -/

/-- `struct MassStorageDeviceXHCI`, without what names the endpoints. -/
structure MassStorageDeviceXHCI where
  sizeClass : Nat
  lastLba : Nat

/-- What the two requests send: a command of ten bytes, for one block. -/
def blockCommand (opcode : UInt8) (direction : Bool) (msd : MassStorageDeviceXHCI)
    (sectorNumber : Nat) : Except Halt CommandBlockWrapper := do
  ensure (sectorNumber ≤ msd.lastLba) .hcf
  match msd.sizeClass with
  | 10 => do
    ensure (sectorNumber ≤ 0xFFFFFFFF) .hcf
    let bytes := leBytes 8 sectorNumber
    return { signature := cbwSignature
             tag := 0
             transferLength := 512
             direction := direction
             lun := 0
             commandLen := 0x0A
             command := [opcode, 0, bytes.getD 3 0, bytes.getD 2 0, bytes.getD 1 0,
               bytes.getD 0 0, 0, 0x00, 0x01, 0x00, 0, 0, 0, 0, 0, 0] }
  | _ => .error .hcf

/-- `block_read` up to `send_bbb`. -/
def blockReadCommand (msd : MassStorageDeviceXHCI) (sectorNumber : Nat) :
    Except Halt CommandBlockWrapper := blockCommand 0x28 true msd sectorNumber

/-- `block_write` up to `send_bbb`. -/
def blockWriteCommand (msd : MassStorageDeviceXHCI) (sectorNumber : Nat) :
    Except Halt CommandBlockWrapper := blockCommand 0x2A false msd sectorNumber

/-- The assertion at the end of the two requests. -/
def blockReturn (read : Nat) : Except Halt Unit := ensure (read = 512) .hcf

/-- The command that `initialise_msd` sends. -/
def readCapacity10 : CommandBlockWrapper where
  signature := cbwSignature
  tag := 0
  transferLength := 8
  direction := true
  lun := 0
  commandLen := 0x0A
  command := [0x25, 0, 0, 0, 0, 0, 0, 0, 0, 0, 0, 0, 0, 0, 0, 0]

/-- `initialise_msd` after the capacity has come. -/
def initialiseMsdReturn (readCapacity : List UInt8) (read : Nat) :
    Except Halt MassStorageDeviceXHCI := do
  ensure (read = 8) .hcf
  let lastValidLba := leVal (readCapacity.take 4)
  let blockSizeBytes := leVal ((readCapacity.drop 4).take 4)
  ensure (lastValidLba ≠ 0xFFFFFFFF) .hcf
  ensure (flipEndianness blockSizeBytes = 512) .hcf
  return ⟨10, flipEndianness lastValidLba⟩

/-! ### The device -/

/-- What goes over the two endpoints, from the view of the driver. -/
inductive Bulk
  | send (bytes : List UInt8)
  | receive (bytes : List UInt8)

inductive Phase
  | command
  | data (c : CommandBlockWrapper)
  | status (tag residue : Nat) (status : UInt8)

/-- The blocks of the device, and what it waits for. -/
structure Target where
  disk : Nat → Sector
  phase : Phase

/-- The first block of a command of ten bytes, and how many blocks. -/
def CommandBlockWrapper.lba (c : CommandBlockWrapper) : Nat := beVal ((c.command.drop 2).take 4)

def CommandBlockWrapper.blocks (c : CommandBlockWrapper) : Nat :=
  beVal ((c.command.drop 7).take 2)

/-- The contents of `n` blocks from `lba` on. -/
def readBlocks (disk : Nat → Sector) (lba n : Nat) : List UInt8 :=
  (List.range n).flatMap fun i => bytes (disk (lba + i))

/-- The disk when `n` blocks from `lba` on have been written. -/
def writeBlocks (disk : Nat → Sector) (lba n : Nat) (data : List UInt8) : Nat → Sector :=
  fun i => if lba ≤ i ∧ i < lba + n then ofBytes ((data.drop (512 * (i - lba))).take 512)
    else disk i

/-- A wrapper that its 31 bytes hold. -/
structure CommandBlockWrapper.Valid (c : CommandBlockWrapper) : Prop where
  signature : c.signature = cbwSignature
  tag : c.tag < 2 ^ 32
  transferLength : c.transferLength < 2 ^ 32
  command : c.command.length = 16

/-- **The device**, whose last block is `lastLba`. -/
inductive Target.Step (lastLba : Nat) : Target → Bulk → Target → Prop
  | command {disk} {c : CommandBlockWrapper} : c.Valid →
      Step lastLba ⟨disk, .command⟩ (.send c.bytes) ⟨disk, .data c⟩
  | read {disk c} : c.direction = true → c.command.head? = some 0x28 →
      c.lba + c.blocks ≤ lastLba + 1 → c.transferLength = 512 * c.blocks →
      Step lastLba ⟨disk, .data c⟩ (.receive (readBlocks disk c.lba c.blocks))
        ⟨disk, .status c.tag 0 0⟩
  | readCapacity {disk c} : c.direction = true → c.command.head? = some 0x25 →
      c.transferLength = 8 →
      Step lastLba ⟨disk, .data c⟩ (.receive (beBytes 4 (min lastLba 0xFFFFFFFF) ++ beBytes 4 512))
        ⟨disk, .status c.tag 0 0⟩
  | write {disk c data} : c.direction = false → c.command.head? = some 0x2A →
      c.lba + c.blocks ≤ lastLba + 1 → c.transferLength = 512 * c.blocks →
      Step lastLba ⟨disk, .data c⟩ (.send data)
        ⟨writeBlocks disk c.lba c.blocks data, .status c.tag 0 0⟩
  | failRead {disk c data residue status} : c.direction = true → status ≠ 0 →
      Step lastLba ⟨disk, .data c⟩ (.receive data) ⟨disk, .status c.tag residue status⟩
  | failWrite {disk disk' c data residue status} : c.direction = false → status ≠ 0 →
      Step lastLba ⟨disk, .data c⟩ (.send data) ⟨disk', .status c.tag residue status⟩
  | status {disk tag residue status} :
      Step lastLba ⟨disk, .status tag residue status⟩
        (.receive (CommandStatusWrapper.bytes ⟨cswSignature, tag, residue, status⟩)) ⟨disk, .command⟩

/-! ### Driver, controller and device -/

/-- The buffer of a TRB. -/
def bufferAddress (trb : TRB) : Nat := trb.parameter.toNat

def bufferLength (trb : TRB) : Nat := (trb.reserved0.extractLsb' 0 17).toNat

/-- **The controller** moves the bytes of a buffer to the device, or from it, and reports it
with an event.  An event that does not report success says nothing. -/
inductive Serves (lastLba : Nat) (isRead : Bool) (trb : TRB) (m : Mem) (d : Target) :
    TRB → Mem → Target → Prop
  | send {result d'} : isRead = false →
      Target.Step lastLba d (.send (m.read (bufferAddress trb) (bufferLength trb))) d' →
      Serves lastLba isRead trb m d result m d'
  | receive {result data d'} : isRead = true → data.length = bufferLength trb →
      Target.Step lastLba d (.receive data) d' →
      Serves lastLba isRead trb m d result (m.write (bufferAddress trb) data) d'
  | fail {result m' d'} : checkTransfer result ≠ .ok () →
      Serves lastLba isRead trb m d result m' d'

/-- The pages are in memory, and no two of them overlap. -/
structure Pages.Allocated (p : Pages) (responseLen : Nat) : Prop where
  command : p.commandPhys + pageSize ≤ 2 ^ 64
  response : p.responsePhys + roundUpPages responseLen * pageSize ≤ 2 ^ 64
  status : p.statusPhys + pageSize ≤ 2 ^ 64
  commandResponse : p.commandPhys + pageSize ≤ p.responsePhys ∨
    p.responsePhys + roundUpPages responseLen * pageSize ≤ p.commandPhys
  commandStatus : p.commandPhys + pageSize ≤ p.statusPhys ∨
    p.statusPhys + pageSize ≤ p.commandPhys
  responseStatus : p.responsePhys + roundUpPages responseLen * pageSize ≤ p.statusPhys ∨
    p.statusPhys + pageSize ≤ p.responsePhys

/-- The rest of the kernel does not write to the pages. -/
def Pages.Kept (p : Pages) (responseLen : Nat) (m m' : Mem) : Prop :=
  m'.read p.commandPhys cbwSize = m.read p.commandPhys cbwSize ∧
  m'.read p.responsePhys responseLen = m.read p.responsePhys responseLen ∧
  m'.read p.statusPhys cswSize = m.read p.statusPhys cswSize

/-- **A call of `send_bbb` that returns**, with a device in state `d` before and `d'` after. -/
inductive SendBbb (lastLba tag : Nat) (cbw : CommandBlockWrapper) (responseOut : List UInt8)
    (responseLen : Nat) (isRead : Bool) (d : Target) (r : List UInt8 × Nat) (d' : Target) : Prop
  | call {p m m₁ m₂ m₃ m₄ m₅ m₆ m₇ d₁ d₂ result₁ result₂ result₃} :
      p.Allocated responseLen →
      sendBbbStart p tag cbw responseOut responseLen isRead m = .ok m₁ →
      Serves lastLba false (commandTrb p) m₁ d result₁ m₂ d₁ → checkTransfer result₁ = .ok () →
      p.Kept responseLen m₂ m₃ →
      Serves lastLba isRead (responseTrb p responseLen) m₃ d₁ result₂ m₄ d₂ →
      checkTransfer result₂ = .ok () → p.Kept responseLen m₄ m₅ →
      Serves lastLba true (statusTrb p) m₅ d₂ result₃ m₆ d' → checkTransfer result₃ = .ok () →
      p.Kept responseLen m₆ m₇ → sendBbbReturn p responseLen isRead m₇ = .ok r →
      SendBbb lastLba tag cbw responseOut responseLen isRead d r d'

/-- The driver and its device. -/
structure MsdState where
  target : Target
  msd : MassStorageDeviceXHCI

/-- A call of the driver that returns.  All drivers share the counter of tags. -/
inductive Call (lastLba : Nat) (s : MsdState) : SectorOp → MsdState → Prop
  | read {tag sector cbw output r target} : tag < 2 ^ 32 → blockReadCommand s.msd sector = .ok cbw →
      SendBbb lastLba tag cbw output 512 true s.target r target → blockReturn r.2 = .ok () →
      Call lastLba s (.read sector (ofBytes r.1)) ⟨target, s.msd⟩
  | write {tag sector cbw data r target} : tag < 2 ^ 32 → blockWriteCommand s.msd sector = .ok cbw →
      SendBbb lastLba tag cbw (bytes data) 512 false s.target r target → blockReturn r.2 = .ok () →
      Call lastLba s (.write sector data) ⟨target, s.msd⟩

/-- The driver after `initialise_msd`, which has asked the device for its capacity. -/
def massStorage (lastLba : Nat) : Lts MsdState SectorOp where
  init s := ∃ disk tag output r, tag < 2 ^ 32 ∧
    SendBbb lastLba tag readCapacity10 output 8 true ⟨disk, .command⟩ r s.target ∧
    initialiseMsdReturn r.1 r.2 = .ok s.msd
  step s op s' := Call lastLba s op s'

/-! ### Buffers and wrappers -/

theorem bufferAddress_normalTrb {phys : Nat} (length : Nat) (flags : BitVec 9)
    (h : phys < 2 ^ 64) : bufferAddress (normalTrb phys length flags) = phys := by
  rw [bufferAddress, normalTrb, BitVec.toNat_ofNat, Nat.mod_eq_of_lt h]

theorem bufferLength_normalTrb (phys : Nat) {length : Nat} (flags : BitVec 9)
    (h : length < 2 ^ 17) : bufferLength (normalTrb phys length flags) = length := by
  rw [bufferLength, normalTrb, BitVec.extractLsb'_toNat, BitVec.toNat_ofNat]
  omega

theorem CommandBlockWrapper.bytes_length {c : CommandBlockWrapper} (h : c.command.length = 16) :
    c.bytes.length = cbwSize := by
  simp [CommandBlockWrapper.bytes, h, cbwSize]

theorem leBytes_four_inj {v w : Nat} (hv : v < 2 ^ 32) (hw : w < 2 ^ 32)
    (h : leBytes 4 v = leBytes 4 w) : v = w := by
  rw [← leVal_leBytes 4 v hv, h, leVal_leBytes 4 w hw]

/-- **A wrapper is what its bytes say.** -/
theorem CommandBlockWrapper.bytes_inj {c c' : CommandBlockWrapper} (hc : c.Valid) (hc' : c'.Valid)
    (h : c.bytes = c'.bytes) : c = c' := by
  obtain ⟨h, hcommand⟩ := List.append_inj' h (hc.command.trans hc'.command.symm)
  obtain ⟨h, hflags⟩ := List.append_inj' h rfl
  obtain ⟨h, hlength⟩ := List.append_inj' h (by simp)
  obtain ⟨-, htag⟩ := List.append_inj' h (by simp)
  rw [List.cons.injEq, List.cons.injEq, List.cons.injEq] at hflags
  obtain ⟨hdirection, hlun, hlen, -⟩ := hflags
  have hdir : c.direction = c'.direction := by
    cases hd : c.direction <;> cases hd' : c'.direction <;> simp_all
  have hsig := hc.signature.trans hc'.signature.symm
  have htag := leBytes_four_inj hc.tag hc'.tag htag
  have hlength := leBytes_four_inj hc.transferLength hc'.transferLength hlength
  cases c
  cases c'
  simp_all

theorem CommandStatusWrapper.read_eq {m : Mem} {a : Nat} {c : CommandStatusWrapper}
    (h : m.read a cswSize = c.bytes) :
    CommandStatusWrapper.read m a = ⟨c.signature % 2 ^ 32, c.tag % 2 ^ 32, c.dataResidue % 2 ^ 32,
      c.status⟩ := by
  rw [CommandStatusWrapper.bytes, cswSize, Mem.read_add m a 12 1, Mem.read_add m a 8 4,
    Mem.read_add m a 4 4] at h
  obtain ⟨h, hstatus⟩ := List.append_inj h (by simp)
  obtain ⟨h, hresidue⟩ := List.append_inj h (by simp)
  obtain ⟨hsignature, htag⟩ := List.append_inj h (by simp)
  have hbyte : m (a + 12) = c.status := (List.cons.inj hstatus).1
  rw [CommandStatusWrapper.read, hsignature, htag, hresidue, hbyte, leVal_leBytes_mod,
    leVal_leBytes_mod, leVal_leBytes_mod]
  rfl

/-! ### One call of `send_bbb` -/

section

variable {lastLba tag responseLen : Nat} {cbw : CommandBlockWrapper} {responseOut : List UInt8}
  {isRead : Bool} {disk : Nat → Sector} {d d' : Target} {r : List UInt8 × Nat} {p : Pages}
  {m m₁ m' : Mem} {trb result : TRB}

theorem sendBbbStart_spec (hp : p.Allocated responseLen) (hlen : responseLen < 2 ^ 17)
    (hout : isRead = false → responseOut.length = responseLen) (hcommand : cbw.command.length = 16)
    (h : sendBbbStart p tag cbw responseOut responseLen isRead m = .ok m₁) :
    0 < responseLen ∧ m₁.read p.commandPhys cbwSize = { cbw with tag := tag }.bytes ∧
    (isRead = false → m₁.read p.responsePhys responseLen = responseOut) := by
  have hpages := le_roundUpPages (show responseLen < 2 ^ 32 by omega)
  have happart := hp.commandResponse
  have hsize : { cbw with tag := tag }.bytes.length = cbwSize :=
    CommandBlockWrapper.bytes_length hcommand
  simp only [sendBbbStart, bind_eq_ok, ensure_eq_ok] at h
  obtain ⟨_, hpos, h⟩ := h
  obtain rfl := Except.ok.inj h
  refine ⟨hpos, ?_⟩
  cases isRead with
  | true => exact ⟨Mem.read_write_length _ _ hsize, fun h => absurd h (by decide)⟩
  | false =>
    rw [if_neg (by decide), List.take_of_length_le (by rw [hout rfl])]
    refine ⟨?_, fun _ => Mem.read_write_length _ _ (hout rfl)⟩
    rw [Mem.read_write_of_disjoint _ _ (by rw [hout rfl, cbwSize]; rw [pageSize] at *; omega),
      Mem.read_write_length _ _ hsize]

theorem Serves.sent (h : Serves lastLba false trb m d result m' d')
    (hcheck : checkTransfer result = .ok ()) :
    m' = m ∧ Target.Step lastLba d (.send (m.read (bufferAddress trb) (bufferLength trb))) d' := by
  cases h with
  | send _ hstep => exact ⟨rfl, hstep⟩
  | receive hread => exact absurd hread (by decide)
  | fail hfail => exact absurd hcheck hfail

theorem Serves.received (h : Serves lastLba true trb m d result m' d')
    (hcheck : checkTransfer result = .ok ()) :
    ∃ data, data.length = bufferLength trb ∧ m' = m.write (bufferAddress trb) data ∧
      Target.Step lastLba d (.receive data) d' := by
  cases h with
  | send hread => exact absurd hread (by decide)
  | receive _ hlen hstep => exact ⟨_, hlen, rfl, hstep⟩
  | fail hfail => exact absurd hcheck hfail

theorem Target.Step.of_command {c : CommandBlockWrapper} (hc : c.Valid)
    (h : Target.Step lastLba ⟨disk, .command⟩ (.send c.bytes) d') : d' = ⟨disk, .data c⟩ := by
  generalize hbytes : c.bytes = bytes at h
  cases h with
  | command hc' => rw [CommandBlockWrapper.bytes_inj hc hc' hbytes]

theorem Target.Step.of_data {c : CommandBlockWrapper} {b : Bulk}
    (h : Target.Step lastLba ⟨disk, .data c⟩ b d') :
    ∃ disk' residue status, d' = ⟨disk', .status c.tag residue status⟩ := by
  cases h <;> exact ⟨_, _, _, rfl⟩

theorem Target.Step.of_status {residue : Nat} {status : UInt8} {data : List UInt8}
    (h : Target.Step lastLba ⟨disk, .status tag residue status⟩ (.receive data) d') :
    d' = ⟨disk, .command⟩ ∧
    data = CommandStatusWrapper.bytes ⟨cswSignature, tag, residue, status⟩ := by
  cases h
  exact ⟨rfl, rfl⟩

theorem Serves.response (hp : p.Allocated responseLen) (hlen : responseLen < 2 ^ 17)
    (hpos : 0 < responseLen) (hsent : isRead = false → m.read p.responsePhys responseLen = responseOut)
    (h : Serves lastLba isRead (responseTrb p responseLen) m d result m' d')
    (hcheck : checkTransfer result = .ok ()) :
    ∃ data, Target.Step lastLba d (if isRead then .receive data else .send responseOut) d' ∧
      (isRead = true → data.length = responseLen ∧ m'.read p.responsePhys responseLen = data) := by
  have hresponse := hp.response
  rw [pageSize] at hresponse
  have hpages := le_roundUpPages (show responseLen < 2 ^ 32 by omega)
  rw [pageSize] at hpages
  have hlength := bufferLength_normalTrb p.responsePhys
    (interruptOnCompletion ||| interruptOnShortPacket) hlen
  cases isRead with
  | true =>
    obtain ⟨data, hdata, rfl, hstep⟩ := h.received hcheck
    rw [responseTrb, hlength] at hdata
    rw [responseTrb, bufferAddress_normalTrb _ _ (by omega)]
    exact ⟨data, hstep, fun _ => ⟨hdata, Mem.read_write_length _ _ hdata⟩⟩
  | false =>
    obtain ⟨-, hstep⟩ := h.sent hcheck
    rw [responseTrb, bufferAddress_normalTrb _ _ (by omega), hlength, hsent rfl] at hstep
    exact ⟨[], hstep, fun hread => absurd hread (by decide)⟩

/-- **What a call of `send_bbb` that returns has done**: the device has taken the command and
moved the data, with a status of zero, and waits for the next command. -/
theorem SendBbb.spec (hcbw : { cbw with tag := tag }.Valid) (hlen : responseLen < 2 ^ 17)
    (hout : isRead = false → responseOut.length = responseLen)
    (h : SendBbb lastLba tag cbw responseOut responseLen isRead ⟨disk, .command⟩ r d') :
    ∃ data disk' residue, d' = ⟨disk', .command⟩ ∧
      Target.Step lastLba ⟨disk, .data { cbw with tag := tag }⟩
        (if isRead then .receive data else .send responseOut) ⟨disk', .status tag residue 0⟩ ∧
      (isRead = true → data.length = responseLen) ∧
      (residue = 0 → r = (if isRead then data else [], responseLen)) := by
  obtain ⟨hp, hstart, hserve₁, hcheck₁, hkept₁, hserve₂, hcheck₂, hkept₂, hserve₃, hcheck₃, hkept₃,
    hret⟩ := h
  rename_i p m m₁ m₂ m₃ m₄ m₅ m₆ m₇ d₁ d₂ result₁ result₂ result₃
  have hc := hp.command
  have hs := hp.status
  rw [pageSize] at hc hs
  obtain ⟨hpos, hcommand, hresponse⟩ := sendBbbStart_spec hp hlen hout hcbw.command hstart
  -- the command
  obtain ⟨rfl, hstep₁⟩ := hserve₁.sent hcheck₁
  rw [commandTrb, bufferAddress_normalTrb _ _ (by omega), bufferLength_normalTrb _ _ (by decide),
    hcommand] at hstep₁
  obtain rfl := Target.Step.of_command hcbw hstep₁
  -- the data
  obtain ⟨data, hstep₂, hdata⟩ := hserve₂.response hp hlen hpos
    (fun hwrite => hkept₁.2.1.trans (hresponse hwrite)) hcheck₂
  obtain ⟨disk', residue, status, rfl⟩ := Target.Step.of_data hstep₂
  -- the status
  obtain ⟨csw, hcsw, rfl, hstep₃⟩ := hserve₃.received hcheck₃
  obtain ⟨rfl, rfl⟩ := Target.Step.of_status hstep₃
  rw [statusTrb, bufferAddress_normalTrb _ _ (by omega)] at hkept₃
  have hstatus : m₇.read p.statusPhys cswSize =
      CommandStatusWrapper.bytes ⟨cswSignature, tag, residue, status⟩ :=
    hkept₃.2.2.trans (Mem.read_write_length _ _ (by simp [CommandStatusWrapper.bytes, cswSize]))
  simp only [sendBbbReturn, bind_eq_ok, ensure_eq_ok, CommandStatusWrapper.read_eq hstatus] at hret
  obtain ⟨_, -, _, -, _, rfl, hret⟩ := hret
  refine ⟨data, disk', residue, rfl, hstep₂, fun hread => (hdata hread).1, ?_⟩
  rintro rfl
  have hread : (responseLen + 2 ^ 32 - 0 % 2 ^ 32) % 2 ^ 32 = responseLen := by
    rw [Nat.zero_mod, Nat.sub_zero, Nat.add_mod_right, Nat.mod_eq_of_lt (by omega)]
  rw [hread] at hret
  obtain rfl := Except.ok.inj hret
  cases isRead with
  | false => rfl
  | true =>
    -- the status does not overwrite the data
    have hcopied : m₇.read p.responsePhys responseLen = data := by
      have happart := hp.responseStatus
      have hpages := le_roundUpPages (show responseLen < 2 ^ 32 by omega)
      rw [pageSize] at happart hpages
      rw [hkept₃.2.1, Mem.read_write_of_disjoint _ _ (by
        rw [show (CommandStatusWrapper.bytes ⟨cswSignature, tag, 0, 0⟩).length = 13 by
          simp [CommandStatusWrapper.bytes]]
        omega), hkept₂.2.1, (hdata rfl).2]
    rw [if_pos rfl, if_pos rfl, hcopied]

/-- The event for a transfer that has gone well. -/
def transferred : TRB :=
  { TRB.zero with reserved0 := 0x1000000, trbType := trbTypeTransfer }

/-- **A command that the device can answer, `send_bbb` brings to its end.** -/
theorem SendBbb.exists_of_step (data : List UInt8) {disk' : Nat → Sector}
    (hp : p.Allocated responseLen) (hcbw : { cbw with tag := tag }.Valid) (hpos : 0 < responseLen)
    (hlen : responseLen < 2 ^ 17) (hout : isRead = false → responseOut.length = responseLen)
    (hdata : isRead = true → data.length = responseLen)
    (hstep : Target.Step lastLba ⟨disk, .data { cbw with tag := tag }⟩
      (if isRead then .receive data else .send responseOut) ⟨disk', .status tag 0 0⟩) :
    ∃ r, SendBbb lastLba tag cbw responseOut responseLen isRead ⟨disk, .command⟩ r
      ⟨disk', .command⟩ := by
  have hc := hp.command
  have hr := hp.response
  have hs := hp.status
  have hcr := hp.commandResponse
  have hcs := hp.commandStatus
  have hpages := le_roundUpPages (show responseLen < 2 ^ 32 by omega)
  rw [pageSize] at hc hr hs hcr hcs hpages
  obtain ⟨m₁, hstart⟩ : ∃ m₁, sendBbbStart p tag cbw responseOut responseLen isRead (fun _ => 0) =
      .ok m₁ := by
    rw [sendBbbStart, ensure_of hpos]
    exact ⟨_, rfl⟩
  obtain ⟨-, hcommand, hresponse⟩ := sendBbbStart_spec hp hlen hout hcbw.command hstart
  let csw := CommandStatusWrapper.bytes ⟨cswSignature, tag, 0, 0⟩
  have hcsw : csw.length = cswSize := by simp [csw, CommandStatusWrapper.bytes, cswSize]
  let m₄ := if isRead then m₁.write p.responsePhys data else m₁
  have hserve₁ : Serves lastLba false (commandTrb p) m₁ ⟨disk, .command⟩ transferred m₁
      ⟨disk, .data { cbw with tag := tag }⟩ := by
    refine .send rfl ?_
    rw [commandTrb, bufferAddress_normalTrb _ _ (by omega), bufferLength_normalTrb _ _ (by decide),
      hcommand]
    exact .command hcbw
  have hserve₂ : Serves lastLba isRead (responseTrb p responseLen) m₁
      ⟨disk, .data { cbw with tag := tag }⟩ transferred m₄ ⟨disk', .status tag 0 0⟩ := by
    have haddress := bufferAddress_normalTrb responseLen
      (interruptOnCompletion ||| interruptOnShortPacket) (show p.responsePhys < 2 ^ 64 by omega)
    have hlength := bufferLength_normalTrb p.responsePhys
      (interruptOnCompletion ||| interruptOnShortPacket) hlen
    cases isRead with
    | true =>
      have hwrite : m₄ = m₁.write (bufferAddress (responseTrb p responseLen)) data := by
        rw [responseTrb, haddress]
        rfl
      rw [hwrite]
      exact .receive rfl ((hdata rfl).trans hlength.symm) hstep
    | false =>
      refine .send rfl ?_
      rw [responseTrb, haddress, hlength, hresponse rfl]
      exact hstep
  have hserve₃ : Serves lastLba true (statusTrb p) m₄ ⟨disk', .status tag 0 0⟩ transferred
      (m₄.write p.statusPhys csw) ⟨disk', .command⟩ := by
    have hlength := bufferLength_normalTrb p.statusPhys interruptOnCompletion
      (show cswSize < 2 ^ 17 by decide)
    have hwrite : m₄.write p.statusPhys csw =
        m₄.write (bufferAddress (statusTrb p)) csw := by
      rw [statusTrb, bufferAddress_normalTrb _ _ (by omega)]
    rw [hwrite]
    exact .receive rfl (hcsw.trans hlength.symm) .status
  -- the status answers the command that is still in memory
  have hkept : (m₄.write p.statusPhys csw).read p.commandPhys cbwSize =
      m₁.read p.commandPhys cbwSize := by
    rw [Mem.read_write_of_disjoint _ _ (by rw [hcsw, cbwSize, cswSize]; omega)]
    cases isRead with
    | true => exact Mem.read_write_of_disjoint _ _ (by rw [hdata rfl, cbwSize]; omega)
    | false => rfl
  have htag : leVal ((m₄.write p.statusPhys csw).read (p.commandPhys + 4) 4) = tag := by
    have hbytes := hkept.trans hcommand
    rw [CommandBlockWrapper.bytes, List.append_assoc, List.append_assoc, List.append_assoc,
      show cbwSize = 4 + (4 + 23) from rfl, Mem.read_add, Mem.read_add] at hbytes
    obtain ⟨-, hbytes⟩ := List.append_inj hbytes (by simp)
    obtain ⟨hbytes, -⟩ := List.append_inj hbytes (by simp)
    rw [hbytes]
    exact leVal_leBytes 4 tag hcbw.tag
  have hstatus : (m₄.write p.statusPhys csw).read p.statusPhys cswSize = csw :=
    Mem.read_write_length _ _ hcsw
  have hret : ∃ r, sendBbbReturn p responseLen isRead (m₄.write p.statusPhys csw) = .ok r := by
    have hmod : tag % 2 ^ 32 = tag := Nat.mod_eq_of_lt hcbw.tag
    rw [sendBbbReturn, CommandStatusWrapper.read_eq hstatus, htag,
      ensure_of (show cswSignature % 2 ^ 32 = cswSignature by decide), ensure_of hmod,
      ensure_of rfl]
    exact ⟨_, rfl⟩
  obtain ⟨r, hret⟩ := hret
  exact ⟨r, .call hp hstart hserve₁ (by decide) ⟨rfl, rfl, rfl⟩ hserve₂ (by decide) ⟨rfl, rfl, rfl⟩
    hserve₃ (by decide) ⟨rfl, rfl, rfl⟩ hret⟩

/-! ### The commands of the driver -/

theorem flipEndianness_leVal {bs : List UInt8} (h : bs.length = 4) :
    flipEndianness (leVal bs) = beVal bs := by
  obtain ⟨a, b, c, e, rfl⟩ : ∃ a b c e, bs = [a, b, c, e] := by
    match bs, h with
    | [a, b, c, e], _ => exact ⟨a, b, c, e, rfl⟩
  have hbytes : leBytes 4 (leVal [a, b, c, e]) = [a, b, c, e] := leBytes_leVal [a, b, c, e]
  have hb := b.toNat_lt
  have hc := c.toNat_lt
  have he := e.toNat_lt
  show (_ <<< 24 ||| _ <<< 16 ||| _ <<< 8 ||| _ : Nat) = _
  rw [hbytes]
  -- the bytes do not overlap
  have h1 : a.toNat <<< 24 ||| b.toNat <<< 16 = (a.toNat * 256 + b.toNat) <<< 16 := by
    rw [← Nat.shiftLeft_add_eq_or_of_lt (by rw [Nat.shiftLeft_eq]; omega)]
    simp only [Nat.shiftLeft_eq]
    omega
  have h2 : (a.toNat * 256 + b.toNat) <<< 16 ||| c.toNat <<< 8 =
      ((a.toNat * 256 + b.toNat) * 256 + c.toNat) <<< 8 := by
    rw [← Nat.shiftLeft_add_eq_or_of_lt (by rw [Nat.shiftLeft_eq]; omega)]
    simp only [Nat.shiftLeft_eq]
    omega
  show (a.toNat <<< 24 ||| b.toNat <<< 16 ||| c.toNat <<< 8 ||| e.toNat) = leVal [e, c, b, a]
  rw [h1, h2, ← Nat.shiftLeft_add_eq_or_of_lt (by omega)]
  simp only [leVal, Nat.shiftLeft_eq]
  omega

theorem blockCommand_spec {opcode : UInt8} {direction : Bool} {msd : MassStorageDeviceXHCI}
    {sector : Nat} (htag : tag < 2 ^ 32) (h : blockCommand opcode direction msd sector = .ok cbw) :
    sector ≤ msd.lastLba ∧ { cbw with tag := tag }.Valid ∧
    cbw.direction = direction ∧ cbw.command.head? = some opcode ∧ cbw.transferLength = 512 ∧
    CommandBlockWrapper.lba { cbw with tag := tag } = sector ∧
    CommandBlockWrapper.blocks { cbw with tag := tag } = 1 := by
  simp only [blockCommand, bind_eq_ok, ensure_eq_ok] at h
  obtain ⟨_, hlast, h⟩ := h
  split at h
  case h_2 => cases h
  case h_1 =>
    simp only [bind_eq_ok, ensure_eq_ok] at h
    obtain ⟨_, hfits, h⟩ := h
    obtain rfl := Except.ok.inj h
    refine ⟨hlast, ⟨rfl, htag, show 512 < 2 ^ 32 by decide, rfl⟩, rfl, rfl, rfl, ?_, rfl⟩
    exact leVal_leBytes 4 sector (by omega)

theorem Target.Step.of_read {c : CommandBlockWrapper} {data : List UInt8} {disk' : Nat → Sector}
    {residue : Nat} (hcommand : c.command.head? = some 0x28)
    (h : Target.Step lastLba ⟨disk, .data c⟩ (.receive data) ⟨disk', .status tag residue 0⟩) :
    disk' = disk ∧ residue = 0 ∧ data = readBlocks disk c.lba c.blocks := by
  cases h with
  | read => exact ⟨rfl, rfl, rfl⟩
  | readCapacity _ hcommand' => exact absurd (hcommand.symm.trans hcommand') (by decide)
  | failRead _ hne => exact absurd rfl hne

theorem Target.Step.of_write {c : CommandBlockWrapper} {data : List UInt8} {disk' : Nat → Sector}
    {residue : Nat}
    (h : Target.Step lastLba ⟨disk, .data c⟩ (.send data) ⟨disk', .status tag residue 0⟩) :
    disk' = writeBlocks disk c.lba c.blocks data ∧ residue = 0 := by
  cases h with
  | write => exact ⟨rfl, rfl⟩
  | failWrite _ hne => exact absurd rfl hne

theorem Target.Step.of_readCapacity {c : CommandBlockWrapper} {data : List UInt8}
    {disk' : Nat → Sector} {residue : Nat} (hcommand : c.command.head? = some 0x25)
    (h : Target.Step lastLba ⟨disk, .data c⟩ (.receive data) ⟨disk', .status tag residue 0⟩) :
    disk' = disk ∧ residue = 0 ∧ data = beBytes 4 (min lastLba 0xFFFFFFFF) ++ beBytes 4 512 := by
  cases h with
  | read _ hcommand' => exact absurd (hcommand.symm.trans hcommand') (by decide)
  | readCapacity => exact ⟨rfl, rfl, rfl⟩
  | failRead _ hne => exact absurd rfl hne

theorem readBlocks_one (disk : Nat → Sector) (lba : Nat) :
    readBlocks disk lba 1 = bytes (disk lba) := by
  simp [readBlocks]

theorem writeBlocks_one (disk : Nat → Sector) (lba : Nat) (data : Sector) :
    writeBlocks disk lba 1 (bytes data) = Function.update disk lba data := by
  funext i
  by_cases hi : i = lba
  · subst hi
    rw [writeBlocks, if_pos (by omega), Function.update_self, Nat.sub_self, Nat.mul_zero,
      List.drop_zero, List.take_of_length_le (by rw [bytes_length]), ofBytes_bytes]
  · rw [writeBlocks, if_neg (by omega), Function.update_of_ne hi]

end

/-! ### Driver and device together -/

/-- **The driver knows the capacity of its device**, which waits for a command. -/
structure Ready (lastLba : Nat) (s : MsdState) (disk : Nat → Sector) : Prop where
  target : s.target = ⟨disk, .command⟩
  lastLba : s.msd.lastLba = lastLba

section

variable {lastLba : Nat} {s s' : MsdState}

theorem init_ready (h : (massStorage lastLba).init s) : Ready lastLba s s.target.disk := by
  obtain ⟨disk, tag, output, r, htag, hsend, hret⟩ := h
  obtain ⟨data, disk', residue, htarget, hstep, -, hr⟩ := hsend.spec
    ⟨rfl, htag, show 8 < 2 ^ 32 by decide, rfl⟩ (by decide) (fun h => absurd h (by decide))
  obtain ⟨rfl, rfl, rfl⟩ := Target.Step.of_readCapacity rfl hstep
  obtain rfl := hr rfl
  simp only [initialiseMsdReturn, bind_eq_ok, ensure_eq_ok, if_true] at hret
  obtain ⟨_, -, _, hlast, _, -, hret⟩ := hret
  rw [List.take_left' (beBytes_length _ _)] at hlast hret
  refine ⟨by rw [htarget], ?_⟩
  have hlba : lastLba < 0xFFFFFFFF := by
    by_contra hge
    rw [Nat.min_eq_right (by omega)] at hlast
    exact hlast (by decide)
  rw [← Except.ok.inj hret]
  show flipEndianness _ = lastLba
  rw [flipEndianness_leVal (beBytes_length _ _), beVal_beBytes, Nat.min_eq_left (by omega)]
  exact Nat.mod_eq_of_lt (by omega)

/-- **A call of the driver** does to the disk what it says, at a sector that the disk has. -/
theorem Call.sectorDisk {op : SectorOp} {disk : Nat → Sector} (hready : Ready lastLba s disk)
    (h : Call lastLba s op s') :
    op.sector ≤ lastLba ∧ ∃ disk', Disk.sectorDisk.step disk op disk' ∧ Ready lastLba s' disk' := by
  obtain ⟨htarget, hlast⟩ := hready
  cases h with
  | @read tag sector cbw output r target htag hcommand hsend hret =>
    obtain ⟨hle, hvalid, -, hopcode, -, hlba, hblocks⟩ := blockCommand_spec htag hcommand
    rw [htarget] at hsend
    obtain ⟨data, disk', residue, rfl, hstep, -, hr⟩ := hsend.spec hvalid (by decide)
      (fun h => absurd h (by decide))
    obtain ⟨rfl, rfl, rfl⟩ := Target.Step.of_read (c := { cbw with tag := tag }) hopcode hstep
    obtain rfl := hr rfl
    refine ⟨hlast ▸ hle, _, ⟨?_, rfl⟩, rfl, hlast⟩
    rw [hlba, hblocks, if_pos rfl, readBlocks_one, ofBytes_bytes]
  | @write tag sector cbw data r target htag hcommand hsend hret =>
    obtain ⟨hle, hvalid, -, hopcode, -, hlba, hblocks⟩ := blockCommand_spec htag hcommand
    rw [htarget] at hsend
    obtain ⟨_, disk', residue, rfl, hstep, -, -⟩ := hsend.spec hvalid (by decide)
      (fun _ => bytes_length data)
    obtain ⟨rfl, rfl⟩ := Target.Step.of_write hstep
    refine ⟨hlast ▸ hle, _, ?_, rfl, hlast⟩
    rw [hlba, hblocks, writeBlocks_one]
    rfl

theorem blockCommand_ok (opcode : UInt8) (direction : Bool) {msd : MassStorageDeviceXHCI}
    {sector : Nat} (hclass : msd.sizeClass = 10) (hle : sector ≤ msd.lastLba)
    (hfits : sector < 2 ^ 32) : ∃ cbw, blockCommand opcode direction msd sector = .ok cbw := by
  rw [blockCommand, ensure_of hle, hclass, ensure_of (show sector ≤ 0xFFFFFFFF by omega)]
  exact ⟨_, rfl⟩

/-- **The device can answer what an array of sectors does.** -/
theorem Call.exists_of_sectorDisk {op : SectorOp} {disk disk' : Nat → Sector} {p : Pages}
    (hp : p.Allocated 512) (hclass : s.msd.sizeClass = 10) (hlba : lastLba < 2 ^ 32)
    (hready : Ready lastLba s disk) (hle : op.sector ≤ lastLba)
    (h : Disk.sectorDisk.step disk op disk') : ∃ t, Call lastLba s op ⟨t, s.msd⟩ := by
  obtain ⟨htarget, hlast⟩ := hready
  have htag : 69 < 2 ^ 32 := by decide
  cases op with
  | read sector data =>
    obtain ⟨rfl, -⟩ := h
    have hsector : sector ≤ lastLba := hle
    obtain ⟨cbw, hcommand⟩ := blockCommand_ok 0x28 true hclass (hlast ▸ hsector) (by omega)
    obtain ⟨-, hvalid, hdirection, hopcode, hlength, hsec, hblocks⟩ :=
      blockCommand_spec htag hcommand
    have hstep : Target.Step lastLba ⟨disk, .data { cbw with tag := 69 }⟩
        (.receive (readBlocks disk sector 1)) ⟨disk, .status 69 0 0⟩ := by
      rw [← hsec, ← hblocks]
      exact .read hdirection hopcode (by omega) (by rw [hblocks]; exact hlength)
    rw [readBlocks_one] at hstep
    have hexists : ∃ r, SendBbb lastLba 69 cbw [] 512 true ⟨disk, .command⟩ r ⟨disk, .command⟩ :=
      SendBbb.exists_of_step (bytes (disk sector)) hp hvalid (by decide) (by decide)
        (fun h => absurd h (by decide)) (fun _ => bytes_length (disk sector)) hstep
    obtain ⟨r, hsend⟩ := hexists
    obtain ⟨data, disk'', residue, -, hstep', -, hr⟩ := hsend.spec hvalid (by decide)
      (fun h => absurd h (by decide))
    obtain ⟨-, rfl, rfl⟩ := Target.Step.of_read (c := { cbw with tag := 69 }) hopcode hstep'
    obtain rfl := hr rfl
    rw [← htarget] at hsend
    have hdata : ofBytes (readBlocks disk (CommandBlockWrapper.lba { cbw with tag := 69 })
        (CommandBlockWrapper.blocks { cbw with tag := 69 })) = disk sector := by
      rw [hsec, hblocks, readBlocks_one]
      exact ofBytes_bytes _
    rw [← hdata]
    exact ⟨_, Call.read htag hcommand hsend (ensure_of rfl _)⟩
  | write sector data =>
    have hsector : sector ≤ lastLba := hle
    obtain ⟨cbw, hcommand⟩ := blockCommand_ok 0x2A false hclass (hlast ▸ hsector) (by omega)
    obtain ⟨-, hvalid, hdirection, hopcode, hlength, hsec, hblocks⟩ :=
      blockCommand_spec htag hcommand
    have hstep : Target.Step lastLba ⟨disk, .data { cbw with tag := 69 }⟩ (.send (bytes data))
        ⟨writeBlocks disk sector 1 (bytes data), .status 69 0 0⟩ := by
      rw [← hsec, ← hblocks]
      exact .write hdirection hopcode (by omega) (by rw [hblocks]; exact hlength)
    have hexists : ∃ r, SendBbb lastLba 69 cbw (bytes data) 512 false ⟨disk, .command⟩ r
        ⟨writeBlocks disk sector 1 (bytes data), .command⟩ :=
      SendBbb.exists_of_step [] hp hvalid (by decide) (by decide) (fun _ => bytes_length data)
        (fun h => absurd h (by decide)) hstep
    obtain ⟨r, hsend⟩ := hexists
    obtain ⟨_, disk'', residue, -, hstep', -, hr⟩ := hsend.spec hvalid (by decide)
      (fun _ => bytes_length data)
    obtain ⟨-, rfl⟩ := Target.Step.of_write hstep'
    obtain rfl := hr rfl
    rw [← htarget] at hsend
    exact ⟨_, Call.write htag hcommand hsend (ensure_of rfl _)⟩

/-- **No request names a block that the device does not have**, however its call ends. -/
theorem Ready.request_le {disk : Nat → Sector} (h : Ready lastLba s disk) {sector : Nat}
    {cbw : CommandBlockWrapper}
    (hcommand : blockReadCommand s.msd sector = .ok cbw ∨
      blockWriteCommand s.msd sector = .ok cbw) : cbw.lba + cbw.blocks ≤ lastLba + 1 := by
  have hspec : sector ≤ s.msd.lastLba ∧ cbw.lba = sector ∧ cbw.blocks = 1 := by
    rcases hcommand with hcommand | hcommand
    · obtain ⟨hle, -, -, -, -, hlba, hblocks⟩ :=
        blockCommand_spec (show 0 < 2 ^ 32 by decide) hcommand
      exact ⟨hle, hlba, hblocks⟩
    · obtain ⟨hle, -, -, -, -, hlba, hblocks⟩ :=
        blockCommand_spec (show 0 < 2 ^ 32 by decide) hcommand
      exact ⟨hle, hlba, hblocks⟩
  obtain ⟨hle, hlba, hblocks⟩ := hspec
  rw [h.lastLba] at hle
  omega

/-- **The driver with such a device is an array of sectors**: in every run after
`initialise_msd`, of any length and with the pages anywhere in memory, a read gives what was
written to its sector last; and the next request, if the driver sends one, is for a block that the
device has. -/
theorem massStorage_refines_sectorDisk (lastLba : Nat) (s s' : MsdState) (l : List SectorOp)
    (hinit : (massStorage lastLba).init s)
    (hrun : (massStorage lastLba).Run (fun _ _ => True) s l s') :
    Disk.sectorDisk.Run (fun _ op => op.sector ≤ lastLba) s.target.disk l s'.target.disk ∧
      ∀ sector cbw, blockReadCommand s'.msd sector = .ok cbw ∨
        blockWriteCommand s'.msd sector = .ok cbw → cbw.lba + cbw.blocks ≤ lastLba + 1 := by
  have hinv : Disk.sectorDisk.Run (fun _ op => op.sector ≤ lastLba) s.target.disk l
      s'.target.disk ∧ Ready lastLba s' s'.target.disk := by
    refine Lts.Run.invariant (P := fun l s' => Disk.sectorDisk.Run (fun _ op => op.sector ≤ lastLba)
      s.target.disk l s'.target.disk ∧ Ready lastLba s' s'.target.disk) ?_ hrun
      ⟨.nil _, init_ready hinit⟩
    rintro l t op t' ⟨hpre, hready⟩ - hcall
    obtain ⟨hle, disk', hstep, hready'⟩ := hcall.sectorDisk hready
    have hdisk : t'.target.disk = disk' := by rw [hready'.target]
    rw [hdisk]
    exact ⟨hpre.snoc hle hstep, hready'⟩
  exact ⟨hinv.1, fun _ _ hcommand => hinv.2.request_le hcommand⟩

theorem massStorage_refines_sectorDisk_write_read :
    ∃ s s', (massStorage 99).init s ∧
      (massStorage 99).Run (fun _ _ => True) s [.write 5 sevens, .read 5 sevens] s' ∧
      Disk.sectorDisk.Run (fun _ op => op.sector ≤ 99) s.target.disk
        [.write 5 sevens, .read 5 sevens] s'.target.disk := by
  let capacity := beBytes 4 (min 99 0xFFFFFFFF) ++ beBytes 4 512
  let s : MsdState := ⟨⟨fun _ _ => 0, .command⟩, ⟨10, 99⟩⟩
  have hp : ∀ n, n = 8 ∨ n = 512 → (⟨0x1000, 0x2000, 0x3000⟩ : Pages).Allocated n := by
    rintro n (rfl | rfl) <;> constructor <;> decide
  have hvalid : CommandBlockWrapper.Valid { readCapacity10 with tag := 69 } :=
    ⟨rfl, show 69 < 2 ^ 32 by decide, show 8 < 2 ^ 32 by decide, rfl⟩
  have hinit : (massStorage 99).init s := by
    have hexists : ∃ r, SendBbb 99 69 readCapacity10 [] 8 true s.target r s.target :=
      SendBbb.exists_of_step capacity (hp 8 (Or.inl rfl)) hvalid (by decide) (by decide)
        (fun h => absurd h (by decide)) (fun _ => rfl) (.readCapacity rfl rfl rfl)
    obtain ⟨r, hsend⟩ := hexists
    obtain ⟨data, disk', residue, -, hstep, -, hr⟩ := hsend.spec hvalid (by decide)
      (fun h => absurd h (by decide))
    obtain ⟨-, rfl, rfl⟩ :=
      Target.Step.of_readCapacity (c := { readCapacity10 with tag := 69 }) rfl hstep
    obtain rfl := hr rfl
    exact ⟨_, 69, [], _, by decide, hsend, rfl⟩
  have hready : Ready 99 s s.target.disk := init_ready hinit
  obtain ⟨t1, hcall1⟩ := Call.exists_of_sectorDisk (hp 512 (Or.inr rfl)) rfl (by decide) hready
    (show (SectorOp.write 5 sevens).sector ≤ 99 by decide)
    (show Disk.sectorDisk.step s.target.disk (.write 5 sevens) _ from rfl)
  obtain ⟨-, disk1, hstep1, hready1⟩ := hcall1.sectorDisk hready
  obtain ⟨t2, hcall2⟩ := Call.exists_of_sectorDisk (hp 512 (Or.inr rfl)) rfl (by decide) hready1
    (show (SectorOp.read 5 sevens).sector ≤ 99 by decide) (show Disk.sectorDisk.step disk1 (.read 5 sevens) disk1 by
      rw [show disk1 = Function.update s.target.disk 5 sevens from hstep1]
      exact ⟨(Function.update_self 5 sevens s.target.disk).symm, rfl⟩)
  have hrun : (massStorage 99).Run (fun _ _ => True) s
      ([] ++ [.write 5 sevens] ++ [.read 5 sevens]) ⟨t2, s.msd⟩ :=
    ((Lts.Run.nil s).snoc trivial hcall1).snoc trivial hcall2
  obtain ⟨hrefines, -⟩ := massStorage_refines_sectorDisk 99 s _ _ hinit hrun
  exact ⟨s, _, hinit, hrun, hrefines⟩

end

end Stuos.Disk.MassStorage
