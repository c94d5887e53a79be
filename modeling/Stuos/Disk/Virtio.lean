import Stuos.Disk.SectorDisk
import Stuos.Memory.Slab

/-!
# The virtio block driver

`virtio_driver.c`: a request is a packet in a page of its own and a chain of three buffers, which
the device finds through the ring of available chains.  Driver and device share the physical
memory.  A function is cut in two where it waits for the device: up to the notification, and
from the end of the waiting loop on.

`Serves` is the documented behaviour of the device: it takes the next chain of the ring, reads
the request from the buffers that it may read, and writes the answer to the others.

* `virtio_refines_sectorDisk`: the driver with such a device is an array of sectors.
* `Call.exists_of_sectorDisk`: the device can answer whatever an array of sectors answers.
-/

namespace Stuos.Disk.Virtio

open Stuos.Lib Stuos.Fs.Dev
open Stuos.Memory (pageSize)
open Stuos.Phys (roundUpPages le_roundUpPages)

/-! ### The queue -/

/-- `struct VQBuffer`. -/
structure VQBuffer where
  address : Nat
  length : Nat
  flags : Nat
  next : Nat
  deriving DecidableEq, Repr

def VQBuffer.bytes (b : VQBuffer) : List UInt8 :=
  leBytes 8 b.address ++ leBytes 4 b.length ++ leBytes 2 b.flags ++ leBytes 2 b.next

def VQBuffer.read (m : Mem) (a : Nat) : VQBuffer where
  address := leVal (m.read a 8)
  length := leVal (m.read (a + 8) 4)
  flags := leVal (m.read (a + 12) 2)
  next := leVal (m.read (a + 14) 2)

def flagsNotLast : Nat := 1
def flagsWrite : Nat := 2

/-- `struct VirtioQueueMetadata`, with physical addresses. -/
structure VirtioQueueMetadata where
  queueSize : Nat
  buffersArr : Nat
  availableFlags : Nat
  availableIndex : Nat
  availableRingArr : Nat
  usedFlags : Nat
  usedIndex : Nat
  usedRingArr : Nat
  deriving DecidableEq, Repr

/-- The pages of the two parts of a queue. -/
def queuePages (sz : Nat) : Nat × Nat :=
  (roundUpPages (16 * sz + 2 + 2 + 2 * sz + 2), roundUpPages (2 + 2 + 8 * sz + 2))

/-- Where the parts of a queue lie in the pages from `firstPartPhys` on. -/
def layout (sz firstPartPhys : Nat) : VirtioQueueMetadata where
  queueSize := sz
  buffersArr := firstPartPhys
  availableFlags := firstPartPhys + 16 * sz
  availableIndex := firstPartPhys + 16 * sz + 2
  availableRingArr := firstPartPhys + 16 * sz + 2 + 2
  usedFlags := firstPartPhys + pageSize * (queuePages sz).1
  usedIndex := firstPartPhys + pageSize * (queuePages sz).1 + 2
  usedRingArr := firstPartPhys + pageSize * (queuePages sz).1 + 2 + 2

/-- `initialise_queue`, in the pages that `malloc_contiguous_phys` has given: the queue and the
memory afterwards. -/
def initialiseQueue (sz firstPartPhys : Nat) (m : Mem) : VirtioQueueMetadata × Mem :=
  let totalPages := (queuePages sz).1 + (queuePages sz).2
  let m := m.write firstPartPhys (List.replicate (totalPages * pageSize) 0)
  let r := layout sz firstPartPhys
  -- disable interrupts
  (r, m.write r.availableFlags (leBytes 2 1))

/-! ### Requests -/

def vqTypeRead : Nat := 0
def vqTypeWrite : Nat := 1

/-- `PLACEHOLDER_STATUS`. -/
def placeholderStatus : UInt8 := 69

/-- `struct BlockDevicePacket`. -/
def packetBytes (type sector : Nat) (data : List UInt8) : List UInt8 :=
  leBytes 4 type ++ leBytes 4 0 ++ leBytes 8 sector ++ data ++ [placeholderStatus]

/-- The lines that the two requests share: the packet, the chain of buffers and the entry in the
ring. -/
def submit (q : VirtioQueueMetadata) (packetPhys type dataFlags sector : Nat) (data : List UInt8)
    (m : Mem) : Except Halt Mem := do
  ensure (q.queueSize ≠ 0) .hcf
  let m := m.write packetPhys (packetBytes type sector data)
  let m := m.write q.buffersArr (VQBuffer.bytes ⟨packetPhys, 16, flagsNotLast, 1⟩)
  let m := m.write (q.buffersArr + 16) (VQBuffer.bytes ⟨packetPhys + 16, 512, dataFlags, 2⟩)
  let m := m.write (q.buffersArr + 32) (VQBuffer.bytes ⟨packetPhys + 528, 1, flagsWrite, 0⟩)
  let ringSlot := leVal (m.read q.availableIndex 2) % q.queueSize
  let m := m.write (q.availableRingArr + 2 * ringSlot) (leBytes 2 0)
  return m.write q.availableIndex (leBytes 2 (leVal (m.read q.availableIndex 2) + 1))

/-- `virtio_block_read` up to the notification. -/
def virtioBlockReadSubmit (q : VirtioQueueMetadata) (packetPhys sector : Nat) (m : Mem) :
    Except Halt Mem :=
  submit q packetPhys vqTypeRead (flagsNotLast + flagsWrite) sector (List.replicate 512 0) m

/-- `virtio_block_read` when the status has changed. -/
def virtioBlockReadReturn (packetPhys : Nat) (m : Mem) : Except Halt (List UInt8) := do
  ensure (m (packetPhys + 528) = 0) .hcf
  return m.read (packetPhys + 16) 512

/-- `virtio_block_write` up to the notification. -/
def virtioBlockWriteSubmit (q : VirtioQueueMetadata) (packetPhys sector : Nat) (input : List UInt8)
    (m : Mem) : Except Halt Mem :=
  submit q packetPhys vqTypeWrite flagsNotLast sector input m

/-- `virtio_block_write` when the status has changed. -/
def virtioBlockWriteReturn (packetPhys : Nat) (m : Mem) : Except Halt Unit :=
  ensure (m (packetPhys + 528) = 0) .hcf

/-! ### The device -/

/-- The buffers of the chain that starts at index `i`. -/
def chain (m : Mem) (buffersArr : Nat) : Nat → Nat → List VQBuffer
  | 0, _ => []
  | fuel + 1, i =>
    let b := VQBuffer.read m (buffersArr + 16 * i)
    b :: if b.flags.testBit 0 then chain m buffersArr fuel b.next else []

/-- What the device may read. -/
def readable (m : Mem) (c : List VQBuffer) : List UInt8 :=
  (c.filter fun b => !b.flags.testBit 1).flatMap fun b => m.read b.address b.length

/-- What lies in the buffers that the device may write. -/
def writable (m : Mem) (c : List VQBuffer) : List UInt8 :=
  (c.filter fun b => b.flags.testBit 1).flatMap fun b => m.read b.address b.length

/-- The chain that the device, which has taken `last` chains, takes next. -/
def nextChain (q : VirtioQueueMetadata) (m : Mem) (last : Nat) : List VQBuffer :=
  chain m q.buffersArr q.queueSize
    (leVal (m.read (q.availableRingArr + 2 * (last % q.queueSize)) 2))

/-- Outside the buffers that it may write, and the part of the queue that is its own, the device
leaves the memory as it is. -/
def DeviceFrame (q : VirtioQueueMetadata) (c : List VQBuffer) (m m' : Mem) : Prop :=
  ∀ i, (∀ b ∈ c, b.flags.testBit 1 → ¬ (b.address ≤ i ∧ i < b.address + b.length)) →
    ¬ (q.usedFlags ≤ i ∧ i < q.usedRingArr + 8 * q.queueSize + 2) → m' i = m i

/-- The type and the sector of a request. -/
def requestType (r : List UInt8) : Nat := leVal (r.take 4)
def requestSector (r : List UInt8) : Nat := leVal ((r.drop 8).take 8)

/-- **The device** answers the next request of the ring, with status 0 if it succeeds. -/
inductive Serves (q : VirtioQueueMetadata) (last : Nat) (m : Mem) (disk : Nat → Sector) :
    Mem → (Nat → Sector) → Prop
  | read {m'} : requestType (readable m (nextChain q m last)) = 0 →
      writable m' (nextChain q m last) =
        bytes (disk (requestSector (readable m (nextChain q m last)))) ++ [0] →
      DeviceFrame q (nextChain q m last) m m' → Serves q last m disk m' disk
  | write {m' data} : requestType (readable m (nextChain q m last)) = 1 →
      (readable m (nextChain q m last)).drop 16 = bytes data →
      writable m' (nextChain q m last) = [0] → DeviceFrame q (nextChain q m last) m m' →
      Serves q last m disk m'
        (Function.update disk (requestSector (readable m (nextChain q m last))) data)
  | fail {m' status} : (writable m' (nextChain q m last)).getLast? = some status → status ≠ 0 →
      status ≠ placeholderStatus → DeviceFrame q (nextChain q m last) m m' →
      Serves q last m disk m' disk

/-! ### Driver and device -/

/-- The memory, the disk, and how many chains the device has taken, as a `uint16_t`. -/
structure VirtioState where
  mem : Mem
  disk : Nat → Sector
  last : Nat

/-- The end of the pages of a queue that starts at `firstPartPhys`. -/
def queueEnd (sz firstPartPhys : Nat) : Nat :=
  firstPartPhys + ((queuePages sz).1 + (queuePages sz).2) * pageSize

/-- A page that `malloc4k_phys` may give: it is none of the queue's. -/
structure FreePage (sz firstPartPhys packetPhys : Nat) : Prop where
  bound : packetPhys + pageSize ≤ 2 ^ 64
  apart : packetPhys + pageSize ≤ firstPartPhys ∨ queueEnd sz firstPartPhys ≤ packetPhys

/-- The rest of the kernel does not write to the pages of the queue. -/
def Elsewhere (sz firstPartPhys : Nat) (m m' : Mem) : Prop :=
  ∀ i, firstPartPhys ≤ i → i < queueEnd sz firstPartPhys → m' i = m i

/-- A call of the driver that returns. -/
inductive Call (sz firstPartPhys : Nat) (q : VirtioQueueMetadata) (s : VirtioState) :
    SectorOp → VirtioState → Prop
  | read {sector packetPhys m₀ m₁ m₂ disk output} : sector < 2 ^ 64 →
      Elsewhere sz firstPartPhys s.mem m₀ → FreePage sz firstPartPhys packetPhys →
      virtioBlockReadSubmit q packetPhys sector m₀ = .ok m₁ →
      Serves q s.last m₁ s.disk m₂ disk → virtioBlockReadReturn packetPhys m₂ = .ok output →
      Call sz firstPartPhys q s (.read sector (ofBytes output)) ⟨m₂, disk, (s.last + 1) % 2 ^ 16⟩
  | write {sector packetPhys m₀ m₁ m₂ disk data} : sector < 2 ^ 64 →
      Elsewhere sz firstPartPhys s.mem m₀ → FreePage sz firstPartPhys packetPhys →
      virtioBlockWriteSubmit q packetPhys sector (bytes data) m₀ = .ok m₁ →
      Serves q s.last m₁ s.disk m₂ disk → virtioBlockWriteReturn packetPhys m₂ = .ok () →
      Call sz firstPartPhys q s (.write sector data) ⟨m₂, disk, (s.last + 1) % 2 ^ 16⟩

/-- The driver after `initialise_queue`, with a device that has taken no chain. -/
def virtioSystem (sz firstPartPhys : Nat) : Lts VirtioState SectorOp where
  init s := ∃ m, s.mem = (initialiseQueue sz firstPartPhys m).2 ∧ s.last = 0
  step s op s' := Call sz firstPartPhys (layout sz firstPartPhys) s op s'

/-! ### The layout of a queue -/

theorem layout_parts {sz : Nat} (hsz : sz < 2 ^ 16) (first : Nat) :
    first + 16 * sz + 2 + 2 + 2 * sz + 2 ≤ (layout sz first).usedFlags ∧
    (layout sz first).usedRingArr + 8 * sz + 2 ≤ queueEnd sz first := by
  have h1 := le_roundUpPages (show 16 * sz + 2 + 2 + 2 * sz + 2 < 2 ^ 32 by omega)
  have h2 := le_roundUpPages (show 2 + 2 + 8 * sz + 2 < 2 ^ 32 by omega)
  simp only [layout, queueEnd, queuePages, Nat.add_mul, Nat.mul_comm pageSize]
  omega

/-! ### What the device finds -/

@[simp] theorem VQBuffer.bytes_length (b : VQBuffer) : b.bytes.length = 16 := by
  simp [VQBuffer.bytes]

theorem VQBuffer.read_eq {m : Mem} {a : Nat} {b : VQBuffer} (h : m.read a 16 = b.bytes)
    (h1 : b.address < 2 ^ 64) (h2 : b.length < 2 ^ 32) (h3 : b.flags < 2 ^ 16)
    (h4 : b.next < 2 ^ 16) : VQBuffer.read m a = b := by
  rw [VQBuffer.bytes, Mem.read_add m a 14 2, Mem.read_add m a 12 2, Mem.read_add m a 8 4] at h
  obtain ⟨h, hnext⟩ := List.append_inj h (by simp)
  obtain ⟨h, hflags⟩ := List.append_inj h (by simp)
  obtain ⟨haddress, hlength⟩ := List.append_inj h (by simp)
  rw [VQBuffer.read, haddress, hlength, hflags, hnext, leVal_leBytes _ _ h1, leVal_leBytes _ _ h2,
    leVal_leBytes _ _ h3, leVal_leBytes _ _ h4]

theorem packetBytes_length {type sector : Nat} {data : List UInt8} (h : data.length = 512) :
    (packetBytes type sector data).length = 529 := by
  simp [packetBytes, h]

section

variable {sz first packetPhys type dataFlags sector last : Nat} {data : List UInt8} {m m₁ : Mem}

/-- The three buffers of a request. -/
def requestChain (packetPhys dataFlags : Nat) : List VQBuffer :=
  [⟨packetPhys, 16, flagsNotLast, 1⟩, ⟨packetPhys + 16, 512, dataFlags, 2⟩,
    ⟨packetPhys + 528, 1, flagsWrite, 0⟩]

theorem submit_eq (hsz : 3 ≤ sz ∧ sz < 2 ^ 16) (hp : FreePage sz first packetPhys)
    (hdata : data.length = 512)
    (hlast : leVal (m.read (layout sz first).availableIndex 2) = last)
    (he : submit (layout sz first) packetPhys type dataFlags sector data m = .ok m₁) :
    m₁ = ((((((m.write packetPhys (packetBytes type sector data)).write first
      (VQBuffer.bytes ⟨packetPhys, 16, flagsNotLast, 1⟩)).write (first + 16)
      (VQBuffer.bytes ⟨packetPhys + 16, 512, dataFlags, 2⟩)).write (first + 32)
      (VQBuffer.bytes ⟨packetPhys + 528, 1, flagsWrite, 0⟩)).write
      (first + 16 * sz + 4 + 2 * (last % sz)) (leBytes 2 0)).write (first + 16 * sz + 2)
      (leBytes 2 (last + 1))) := by
  obtain ⟨hparts, hend⟩ := layout_parts hsz.2 first
  have hbound := hp.apart
  simp only [layout] at hparts hend
  have hpk : (packetBytes type sector data).length = 529 := packetBytes_length hdata
  rw [pageSize] at hbound
  simp only [layout] at hlast
  -- neither the packet nor the buffers are where the index is
  have hidx : ((((m.write packetPhys (packetBytes type sector data)).write first
      (VQBuffer.bytes ⟨packetPhys, 16, flagsNotLast, 1⟩)).write (first + 16)
      (VQBuffer.bytes ⟨packetPhys + 16, 512, dataFlags, 2⟩)).write (first + 32)
      (VQBuffer.bytes ⟨packetPhys + 528, 1, flagsWrite, 0⟩)).read (first + 16 * sz + 2) 2 =
      m.read (first + 16 * sz + 2) 2 := by
    rw [Mem.read_write_of_disjoint _ _ (by rw [VQBuffer.bytes_length]; omega),
      Mem.read_write_of_disjoint _ _ (by rw [VQBuffer.bytes_length]; omega),
      Mem.read_write_of_disjoint _ _ (by rw [VQBuffer.bytes_length]; omega),
      Mem.read_write_of_disjoint _ _ (by rw [hpk]; omega)]
  have hslot : last % sz < sz := Nat.mod_lt _ (by omega)
  simp only [submit, bind_eq_ok, layout, hidx, hlast] at he
  obtain ⟨_, -, he⟩ := he
  rw [Mem.read_write_of_disjoint _ _ (by rw [leBytes_length]; omega), hidx, hlast] at he
  exact (Except.ok.inj he).symm

theorem read_buffers (m : Mem) (a : Nat) (b0 b1 b2 : VQBuffer) :
    let m' := ((m.write a b0.bytes).write (a + 16) b1.bytes).write (a + 32) b2.bytes
    m'.read a 16 = b0.bytes ∧ m'.read (a + 16) 16 = b1.bytes ∧ m'.read (a + 32) 16 = b2.bytes := by
  refine ⟨?_, ?_, Mem.read_write_length _ _ b2.bytes_length⟩
  · rw [Mem.read_write_of_disjoint _ _ (Or.inl (by omega)),
      Mem.read_write_of_disjoint _ _ (Or.inl (Nat.le_refl _)),
      Mem.read_write_length _ _ b0.bytes_length]
  · rw [Mem.read_write_of_disjoint _ _ (Or.inl (by omega)),
      Mem.read_write_length _ _ b1.bytes_length]

/-- **What the device finds** after a submission: the three buffers at the next place of the
ring, the packet, and an index that is one higher. -/
theorem submit_finds (hsz : 3 ≤ sz ∧ sz < 2 ^ 16) (hp : FreePage sz first packetPhys)
    (hdata : data.length = 512)
    (hflags : dataFlags < 4) (hlast : leVal (m.read (layout sz first).availableIndex 2) = last)
    (he : submit (layout sz first) packetPhys type dataFlags sector data m = .ok m₁)
    (hodd : dataFlags.testBit 0 = true) :
    nextChain (layout sz first) m₁ last = requestChain packetPhys dataFlags ∧
    m₁.read packetPhys 529 = packetBytes type sector data ∧
    m₁.read (layout sz first).availableIndex 2 = leBytes 2 (last + 1) := by
  have hm₁ := submit_eq hsz hp hdata hlast he
  obtain ⟨hparts, hend⟩ := layout_parts hsz.2 first
  have hbound := hp.apart
  have hb := hp.bound
  simp only [layout] at hparts hend
  have hpk : (packetBytes type sector data).length = 529 := packetBytes_length hdata
  rw [pageSize] at hbound hb
  have hslot : last % sz < sz := Nat.mod_lt _ (by omega)
  obtain ⟨h0, h1, h2⟩ := read_buffers (m.write packetPhys (packetBytes type sector data)) first
    ⟨packetPhys, 16, flagsNotLast, 1⟩ ⟨packetPhys + 16, 512, dataFlags, 2⟩
    ⟨packetPhys + 528, 1, flagsWrite, 0⟩
  have hpacket : ((((m.write packetPhys (packetBytes type sector data)).write first
      (VQBuffer.bytes ⟨packetPhys, 16, flagsNotLast, 1⟩)).write (first + 16)
      (VQBuffer.bytes ⟨packetPhys + 16, 512, dataFlags, 2⟩)).write (first + 32)
      (VQBuffer.bytes ⟨packetPhys + 528, 1, flagsWrite, 0⟩)).read packetPhys 529 =
      packetBytes type sector data := by
    rw [Mem.read_write_of_disjoint _ _ (by rw [VQBuffer.bytes_length]; omega),
      Mem.read_write_of_disjoint _ _ (by rw [VQBuffer.bytes_length]; omega),
      Mem.read_write_of_disjoint _ _ (by rw [VQBuffer.bytes_length]; omega),
      Mem.read_write_length _ _ hpk]
  generalize (((m.write packetPhys (packetBytes type sector data)).write first
      (VQBuffer.bytes ⟨packetPhys, 16, flagsNotLast, 1⟩)).write (first + 16)
      (VQBuffer.bytes ⟨packetPhys + 16, 512, dataFlags, 2⟩)).write (first + 32)
      (VQBuffer.bytes ⟨packetPhys + 528, 1, flagsWrite, 0⟩) = m₀ at *
  -- the entry in the ring and the index come after the buffers, and are not in the packet
  have hkept : ∀ a n, a + n ≤ first + 48 ∨ queueEnd sz first ≤ a → m₁.read a n = m₀.read a n := by
    intro a n ha
    rw [hm₁, Mem.read_write_of_disjoint _ _ (by rw [leBytes_length]; omega),
      Mem.read_write_of_disjoint _ _ (by rw [leBytes_length]; omega)]
  have hhead : leVal (m₁.read (first + 16 * sz + 4 + 2 * (last % sz)) 2) = 0 := by
    rw [hm₁, Mem.read_write_of_disjoint _ _ (by rw [leBytes_length]; omega),
      Mem.read_write_length _ _ (leBytes_length _ _)]
    rfl
  have hb0 := VQBuffer.read_eq ((hkept first 16 (by omega)).trans h0)
    (show packetPhys < 2 ^ 64 by omega) (show 16 < 2 ^ 32 by decide) (show 1 < 2 ^ 16 by decide)
    (show 1 < 2 ^ 16 by decide)
  have hb1 := VQBuffer.read_eq ((hkept (first + 16) 16 (by omega)).trans h1)
    (show packetPhys + 16 < 2 ^ 64 by omega) (show 512 < 2 ^ 32 by decide)
    (show dataFlags < 2 ^ 16 by omega) (show 2 < 2 ^ 16 by decide)
  have hb2 := VQBuffer.read_eq ((hkept (first + 32) 16 (by omega)).trans h2)
    (show packetPhys + 528 < 2 ^ 64 by omega) (show 1 < 2 ^ 32 by decide)
    (show 2 < 2 ^ 16 by decide) (show 0 < 2 ^ 16 by decide)
  refine ⟨?_, (hkept packetPhys 529 (by omega)).trans hpacket, ?_⟩
  · obtain ⟨k, rfl⟩ : ∃ k, sz = k + 3 := ⟨sz - 3, by omega⟩
    simp only [nextChain, layout, hhead, chain, Nat.mul_zero, Nat.add_zero, hb0, Nat.mul_one, hb1,
      Nat.reduceMul, hb2, hodd, flagsNotLast, flagsWrite, requestChain]
    simp
  · rw [hm₁]
    exact Mem.read_write_length _ _ (leBytes_length _ _)

/-- The header of a packet. -/
def header (type sector : Nat) : List UInt8 := leBytes 4 type ++ leBytes 4 0 ++ leBytes 8 sector

theorem requestType_header (rest : List UInt8) (h : type < 2 ^ 32) :
    requestType (header type sector ++ rest) = type := by
  rw [requestType, header, List.append_assoc, List.append_assoc, List.take_left' (leBytes_length _ _),
    leVal_leBytes _ _ h]

theorem requestSector_header (rest : List UInt8) (h : sector < 2 ^ 64) :
    requestSector (header type sector ++ rest) = sector := by
  have hlen : (leBytes 4 type ++ leBytes 4 0).length = 8 := by simp
  rw [requestSector, header, List.append_assoc, List.drop_left' hlen,
    List.take_left' (leBytes_length _ _), leVal_leBytes _ _ h]

theorem packet_parts (hdata : data.length = 512)
    (h : m₁.read packetPhys 529 = packetBytes type sector data) :
    m₁.read packetPhys 16 = header type sector ∧ m₁.read (packetPhys + 16) 512 = data := by
  have hpacket : packetBytes type sector data =
      (header type sector ++ data) ++ [placeholderStatus] := by
    rw [packetBytes, header]
  rw [hpacket, Mem.read_add m₁ packetPhys 528 1, Mem.read_add m₁ packetPhys 16 512] at h
  have hheader : (header type sector).length = 16 := by simp [header]
  obtain ⟨h, -⟩ := List.append_inj h (by simp [hheader, hdata])
  exact List.append_inj h (by simp [hheader])

theorem readable_request (m₁ : Mem) (packetPhys : Nat) :
    readable m₁ (requestChain packetPhys (flagsNotLast + flagsWrite)) = m₁.read packetPhys 16 ∧
    readable m₁ (requestChain packetPhys flagsNotLast) =
      m₁.read packetPhys 16 ++ m₁.read (packetPhys + 16) 512 := by
  constructor <;> simp [readable, requestChain, flagsNotLast, flagsWrite, Nat.testBit]

theorem writable_request (m₁ : Mem) (packetPhys : Nat) :
    writable m₁ (requestChain packetPhys (flagsNotLast + flagsWrite)) =
      m₁.read (packetPhys + 16) 512 ++ [m₁ (packetPhys + 528)] ∧
    writable m₁ (requestChain packetPhys flagsNotLast) = [m₁ (packetPhys + 528)] := by
  have hone : m₁.read (packetPhys + 528) 1 = [m₁ (packetPhys + 528)] := rfl
  constructor <;> simp [writable, requestChain, flagsNotLast, flagsWrite, Nat.testBit, hone]

/-- The device leaves the index of the driver alone. -/
theorem frame_index {m₂ : Mem} (hp : FreePage sz first packetPhys) (hsz : 3 ≤ sz ∧ sz < 2 ^ 16)
    (h : DeviceFrame (layout sz first) (requestChain packetPhys dataFlags) m₁ m₂) :
    m₂.read (layout sz first).availableIndex 2 = m₁.read (layout sz first).availableIndex 2 := by
  obtain ⟨hparts, hend⟩ := layout_parts hsz.2 first
  have hbound := hp.apart
  rw [pageSize] at hbound
  apply Mem.read_congr
  intro i h1 h2
  simp only [layout] at hparts hend h1 h2
  refine h i ?_ ?_
  · intro b hb _
    simp only [requestChain, List.mem_cons, List.not_mem_nil, or_false] at hb
    rcases hb with rfl | rfl | rfl <;> dsimp only <;> omega
  · simp only [layout]
    omega

end

/-! ### Driver and device together -/

/-- The state of the driver: the device has taken all chains. -/
structure Idle (sz first : Nat) (s : VirtioState) (disk : Nat → Sector) : Prop where
  disk : s.disk = disk
  index : leVal (s.mem.read (layout sz first).availableIndex 2) = s.last

section

variable {sz first : Nat}

theorem elsewhere_index {m m₀ : Mem} (hsz : 3 ≤ sz ∧ sz < 2 ^ 16) (h : Elsewhere sz first m m₀) :
    m₀.read (layout sz first).availableIndex 2 = m.read (layout sz first).availableIndex 2 := by
  obtain ⟨hparts, hend⟩ := layout_parts hsz.2 first
  apply Mem.read_congr
  intro i h1 h2
  simp only [layout] at hparts hend h1 h2
  exact h i (by omega) (by omega)

theorem next_index {m₁ m₂ : Mem} {last packetPhys dataFlags : Nat}
    (hp : FreePage sz first packetPhys) (hsz : 3 ≤ sz ∧ sz < 2 ^ 16)
    (h : DeviceFrame (layout sz first) (requestChain packetPhys dataFlags) m₁ m₂)
    (hindex : m₁.read (layout sz first).availableIndex 2 = leBytes 2 (last + 1)) :
    leVal (m₂.read (layout sz first).availableIndex 2) = (last + 1) % 2 ^ 16 := by
  rw [frame_index hp hsz h, hindex, leVal_leBytes_mod]
  rfl

/-- **A call of the driver** does to the disk what it says. -/
theorem Call.sectorDisk {s s' : VirtioState} {op : SectorOp} {disk : Nat → Sector}
    (hsz : 3 ≤ sz ∧ sz < 2 ^ 16)
    (hidle : Idle sz first s disk) (h : Call sz first (layout sz first) s op s') :
    ∃ disk', Disk.sectorDisk.step disk op disk' ∧ Idle sz first s' disk' := by
  obtain ⟨rfl, hindex⟩ := hidle
  cases h with
  | @read sector packetPhys m₀ m₁ m₂ disk' output hsector helse hp hsub hserve hret =>
    rw [← elsewhere_index hsz helse] at hindex
    have hzeros : (List.replicate 512 (0 : UInt8)).length = 512 := List.length_replicate
    obtain ⟨hchain, hpacket, hnext⟩ := submit_finds hsz hp hzeros (by decide) hindex hsub (by decide)
    obtain ⟨hheader, -⟩ := packet_parts hzeros hpacket
    have hreadable := (readable_request m₁ packetPhys).1
    have hwritable := (writable_request m₂ packetPhys).1
    rw [hheader] at hreadable
    simp only [virtioBlockReadReturn, bind_eq_ok, ensure_eq_ok] at hret
    obtain ⟨_, hstatus, hret⟩ := hret
    have houtput : m₂.read (packetPhys + 16) 512 = output := Except.ok.inj hret
    have htype : requestType (header 0 sector ++ []) = 0 := requestType_header [] (by decide)
    have hsec : requestSector (header 0 sector ++ []) = sector := requestSector_header [] hsector
    rw [List.append_nil] at htype hsec
    cases hserve with
    | read htype' hwritten hframe =>
      rw [hchain] at hwritten hframe
      rw [hwritable, hreadable, houtput] at hwritten
      obtain ⟨hdata, -⟩ := List.append_inj' hwritten rfl
      refine ⟨s.disk, ⟨?_, rfl⟩, rfl, next_index hp hsz hframe hnext⟩
      rw [hdata, ofBytes_bytes]
      exact congrArg s.disk hsec
    | write htype' hdata hwritten hframe =>
      rw [hchain, hreadable] at htype'
      exact absurd (htype.symm.trans htype') (by decide)
    | @fail status hlast hne _ hframe =>
      rw [hchain, hwritable, List.getLast?_concat, Option.some.injEq] at hlast
      exact absurd (hlast.symm.trans hstatus) hne
  | @write sector packetPhys m₀ m₁ m₂ disk' data hsector helse hp hsub hserve hret =>
    rw [← elsewhere_index hsz helse] at hindex
    obtain ⟨hchain, hpacket, hnext⟩ := submit_finds hsz hp (bytes_length data) (by decide) hindex
      hsub (by decide)
    obtain ⟨hheader, hpdata⟩ := packet_parts (bytes_length data) hpacket
    have hreadable := (readable_request m₁ packetPhys).2
    have hwritable := (writable_request m₂ packetPhys).2
    rw [hheader, hpdata] at hreadable
    have hstatus : m₂ (packetPhys + 528) = 0 := ensure_eq_ok.mp hret
    have htype : requestType (header 1 sector ++ bytes data) = 1 :=
      requestType_header _ (by decide)
    have hsec : requestSector (header 1 sector ++ bytes data) = sector :=
      requestSector_header _ hsector
    cases hserve with
    | read htype' hwritten hframe =>
      rw [hchain, hreadable] at htype'
      exact absurd (htype.symm.trans htype') (by decide)
    | @write data' htype' hdata hwritten hframe =>
      rw [hchain] at hdata hframe
      rw [hreadable, List.drop_left' (by simp [header])] at hdata
      obtain rfl := bytes_injective hdata
      refine ⟨_, ?_, rfl, next_index hp hsz hframe hnext⟩
      show Function.update s.disk _ data = Function.update s.disk sector data
      rw [hchain, hreadable]
      exact congrArg (fun n => Function.update s.disk n data) hsec
    | @fail status hlast hne _ hframe =>
      rw [hchain, hwritable, List.getLast?_singleton, Option.some.injEq] at hlast
      exact absurd (hlast.symm.trans hstatus) hne

/-- **The device can answer what an array of sectors does**, with the packet in any free page. -/
theorem Call.exists_of_sectorDisk {s : VirtioState} {op : SectorOp} {disk disk' : Nat → Sector}
    {packetPhys : Nat} (hsz : 3 ≤ sz ∧ sz < 2 ^ 16) (hp : FreePage sz first packetPhys)
    (hsector : ∀ sector data, op = .read sector data ∨ op = .write sector data → sector < 2 ^ 64)
    (hidle : Idle sz first s disk) (h : Disk.sectorDisk.step disk op disk') :
    ∃ s', Call sz first (layout sz first) s op s' := by
  obtain ⟨rfl, hindex⟩ := hidle
  have hsubmit : ∀ type dataFlags sector data, ∃ m₁,
      submit (layout sz first) packetPhys type dataFlags sector data s.mem = .ok m₁ := by
    intro type dataFlags sector data
    have hne : (layout sz first).queueSize ≠ 0 := by
      show sz ≠ 0
      omega
    rw [submit, ensure, if_pos hne]
    exact ⟨_, rfl⟩
  cases op with
  | read sector data =>
    obtain ⟨rfl, rfl⟩ := h
    have hlt := hsector sector _ (Or.inl rfl)
    obtain ⟨m₁, hsub⟩ := hsubmit vqTypeRead (flagsNotLast + flagsWrite) sector
      (List.replicate 512 0)
    have hzeros : (List.replicate 512 (0 : UInt8)).length = 512 := List.length_replicate
    obtain ⟨hchain, hpacket, -⟩ := submit_finds hsz hp hzeros (by decide) hindex hsub (by decide)
    obtain ⟨hheader, -⟩ := packet_parts hzeros hpacket
    have htype : requestType (header 0 sector ++ []) = 0 := requestType_header [] (by decide)
    have hsec : requestSector (header 0 sector ++ []) = sector := requestSector_header [] hlt
    rw [List.append_nil] at htype hsec
    -- the device writes the contents and the status behind the header
    let m₂ := m₁.write (packetPhys + 16) (bytes (s.disk sector) ++ [0])
    have hanswer : m₂.read (packetPhys + 16) 513 = bytes (s.disk sector) ++ [0] :=
      Mem.read_write_length _ _ (by simp)
    have hdata := hanswer
    rw [Mem.read_add m₂ (packetPhys + 16) 512 1] at hdata
    obtain ⟨hdata, hstatus⟩ := List.append_inj hdata (by simp)
    have hret : virtioBlockReadReturn packetPhys m₂ = .ok (bytes (s.disk sector)) := by
      have hzero : m₂ (packetPhys + 528) = 0 := (List.cons.inj hstatus).1
      rw [virtioBlockReadReturn, ensure, if_pos hzero, hdata]
      rfl
    have hserve : Serves (layout sz first) s.last m₁ s.disk m₂ s.disk := by
      refine Serves.read ?_ ?_ ?_
      · rw [hchain, (readable_request m₁ packetPhys).1, hheader]
        exact htype
      · rw [hchain, (writable_request m₂ packetPhys).1, (readable_request m₁ packetPhys).1, hheader,
          show vqTypeRead = 0 from rfl, hsec, ← hanswer]
        exact (Mem.read_add m₂ (packetPhys + 16) 512 1).symm
      · intro i hi _
        rw [hchain] at hi
        have h1 := hi ⟨packetPhys + 16, 512, flagsNotLast + flagsWrite, 2⟩ (by simp [requestChain])
          (show Nat.testBit 3 1 = true by decide)
        have h2 := hi ⟨packetPhys + 528, 1, flagsWrite, 0⟩ (by simp [requestChain])
          (show Nat.testBit 2 1 = true by decide)
        dsimp only at h1 h2
        rw [show m₂ i = (m₁.write (packetPhys + 16) (bytes (s.disk sector) ++ [0])) i from rfl,
          Mem.write, if_neg (by simp; omega)]
    have hcall := Call.read hlt (fun _ _ _ => rfl) hp hsub hserve hret
    rw [ofBytes_bytes] at hcall
    exact ⟨_, hcall⟩
  | write sector data =>
    have hlt := hsector sector _ (Or.inr rfl)
    obtain ⟨m₁, hsub⟩ := hsubmit vqTypeWrite flagsNotLast sector (bytes data)
    obtain ⟨hchain, hpacket, -⟩ := submit_finds hsz hp (bytes_length data) (by decide) hindex hsub
      (by decide)
    obtain ⟨hheader, hpdata⟩ := packet_parts (bytes_length data) hpacket
    have hreadable := (readable_request m₁ packetPhys).2
    rw [hheader, hpdata] at hreadable
    let m₂ := m₁.write (packetPhys + 528) [0]
    have hstatus : m₂ (packetPhys + 528) = 0 := by
      rw [show m₂ = m₁.write (packetPhys + 528) [0] from rfl,
        Mem.write_of_mem _ _ (Nat.le_refl _) (by simp), Nat.sub_self]
      rfl
    have hret : virtioBlockWriteReturn packetPhys m₂ = .ok () := by
      rw [virtioBlockWriteReturn, ensure, if_pos hstatus]
    have hserve : Serves (layout sz first) s.last m₁ s.disk m₂ (Function.update s.disk
        (requestSector (readable m₁ (nextChain (layout sz first) m₁ s.last))) data) := by
      refine Serves.write ?_ ?_ ?_ ?_
      · rw [hchain, hreadable]
        exact requestType_header (bytes data) (show 1 < 2 ^ 32 by decide)
      · rw [hchain, hreadable, List.drop_left' (by simp [header])]
      · rw [hchain, (writable_request m₂ packetPhys).2, hstatus]
      · intro i hi _
        rw [hchain] at hi
        have h2 := hi ⟨packetPhys + 528, 1, flagsWrite, 0⟩ (by simp [requestChain])
          (show Nat.testBit 2 1 = true by decide)
        dsimp only at h2
        rw [show m₂ i = (m₁.write (packetPhys + 528) [0]) i from rfl, Mem.write,
          if_neg (by simp; omega)]
    exact ⟨_, Call.write hlt (fun _ _ _ => rfl) hp hsub hserve hret⟩

theorem initialiseQueue_index (hsz : 3 ≤ sz ∧ sz < 2 ^ 16) (m : Mem) :
    leVal ((initialiseQueue sz first m).2.read (layout sz first).availableIndex 2) = 0 := by
  obtain ⟨hparts, hend⟩ := layout_parts hsz.2 first
  simp only [layout, queueEnd] at hparts hend
  -- the flags that are set are before the index, which is in the pages that are cleared
  rw [initialiseQueue, Mem.read_write_of_disjoint _ _ (by rw [leBytes_length]; simp [layout])]
  have hzero : (m.write first (List.replicate
      (((queuePages sz).1 + (queuePages sz).2) * pageSize) 0)).read
      (first + 16 * sz + 2) 2 = [0, 0] := by
    have hlen : (List.replicate (((queuePages sz).1 + (queuePages sz).2) * pageSize)
        (0 : UInt8)).length = ((queuePages sz).1 + (queuePages sz).2) * pageSize :=
      List.length_replicate
    rw [Mem.read_cons, Mem.read_cons, Mem.read_zero,
      Mem.write_of_mem _ _ (by omega) (by rw [hlen]; omega),
      Mem.write_of_mem _ _ (by omega) (by rw [hlen]; omega), List.getD_replicate _ (by omega),
      List.getD_replicate _ (by omega)]
  show leVal ((Mem.write _ _ _).read (first + 16 * sz + 2) 2) = 0
  rw [hzero]
  rfl

/-- **The driver with such a device is an array of sectors**: in every run from the
initialisation on, of any length and with packets anywhere in memory, a read gives what was
written to its sector last. -/
theorem virtio_refines_sectorDisk (sz firstPartPhys : Nat) (s s' : VirtioState) (l : List SectorOp)
    (hsz : 3 ≤ sz ∧ sz < 2 ^ 16) (hinit : (virtioSystem sz firstPartPhys).init s)
    (hrun : (virtioSystem sz firstPartPhys).Run (fun _ _ => True) s l s') :
    Disk.sectorDisk.Run (fun _ _ => True) s.disk l s'.disk := by
  have hsim : Lts.Simulation (virtioSystem sz firstPartPhys) Disk.sectorDisk (fun _ _ => True)
      (Idle sz firstPartPhys) := ⟨fun _ _ _ _ hidle _ hs => hs.sectorDisk hsz hidle⟩
  have hidle : Idle sz firstPartPhys s s.disk := by
    obtain ⟨m, hmem, hlast⟩ := hinit
    refine ⟨rfl, ?_⟩
    rw [hmem, hlast]
    exact initialiseQueue_index hsz m
  obtain ⟨disk', hrun', hidle'⟩ := hsim.run hrun hidle
  rw [hidle'.disk]
  exact hrun'

theorem virtio_refines_sectorDisk_write_read :
    ∃ s s', (virtioSystem 256 4096).init s ∧
      (virtioSystem 256 4096).Run (fun _ _ => True) s [.write 5 sevens, .read 5 sevens] s' ∧
      Disk.sectorDisk.Run (fun _ _ => True) s.disk [.write 5 sevens, .read 5 sevens] s'.disk := by
  let s : VirtioState := ⟨(initialiseQueue 256 4096 fun _ => 1).2, fun _ _ => 0, 0⟩
  have hp : FreePage 256 4096 65536 := ⟨by decide, Or.inr (by decide)⟩
  have hinit : (virtioSystem 256 4096).init s := ⟨_, rfl, rfl⟩
  have hidle : Idle 256 4096 s s.disk := ⟨rfl, initialiseQueue_index (by decide) _⟩
  have hlt : ∀ op ∈ [SectorOp.write 5 sevens, .read 5 sevens], ∀ sector data,
      op = .read sector data ∨ op = .write sector data → sector < 2 ^ 64 := by
    simp only [List.mem_cons, List.not_mem_nil, or_false]
    rintro op (rfl | rfl) sector data (h | h) <;> cases h <;> decide
  obtain ⟨s1, hcall1⟩ := Call.exists_of_sectorDisk (by decide) hp (hlt _ (by simp)) hidle
    (show Disk.sectorDisk.step s.disk (.write 5 sevens) _ from rfl)
  obtain ⟨disk1, hstep1, hidle1⟩ := hcall1.sectorDisk (by decide) hidle
  obtain ⟨s2, hcall2⟩ := Call.exists_of_sectorDisk (by decide) hp (hlt _ (by simp)) hidle1
    (show Disk.sectorDisk.step disk1 (.read 5 sevens) disk1 by
      rw [show disk1 = Function.update s.disk 5 sevens from hstep1]
      exact ⟨(Function.update_self 5 sevens s.disk).symm, rfl⟩)
  have hrun : (virtioSystem 256 4096).Run (fun _ _ => True) s
      ([] ++ [.write 5 sevens] ++ [.read 5 sevens]) s2 :=
    ((Lts.Run.nil s).snoc trivial hcall1).snoc trivial hcall2
  exact ⟨s, s2, hinit, hrun, virtio_refines_sectorDisk 256 4096 s s2 _ (by decide) hinit hrun⟩

end

end Stuos.Disk.Virtio
