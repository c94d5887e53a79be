import Stuos.Lib.Laps
import Stuos.Memory.PageTables

/-!
# The rings of the xHCI driver

`xhci_trb.c`.  A ring is a page of TRBs whose last slot is a link back to the start.
Driver and controller share it, and the cycle bit of a TRB alone says which of the two
owns its slot.
-/

namespace Stuos.Usb

open Stuos.Lib
open Stuos.Memory (pageSize)

def trbTypeLink : BitVec 6 := 6

/-- `struct TRB`, with the status word as the minimal view of its union has it. -/
structure TRB where
  parameter : BitVec 64
  reserved0 : BitVec 32
  cycleBit : Bool
  reserved1 : BitVec 9
  trbType : BitVec 6
  reserved2 : BitVec 16
  deriving DecidableEq, Repr

namespace TRB

/-- `sizeof(struct TRB)`. -/
def size : Nat := 16

/-- What `memset(.., 0, ..)` leaves. -/
def zero : TRB :=
  { parameter := 0, reserved0 := 0, cycleBit := false, reserved1 := 0, trbType := 0,
    reserved2 := 0 }

/-- `status.link.toggle_cycle` is the bit after the cycle bit. -/
def toggleCycle (t : TRB) : Bool := t.reserved1.getLsbD 0

/-- The same TRB with another cycle bit. -/
def mark (t : TRB) (b : Bool) : TRB := { t with cycleBit := b }

/-- A TRB without its cycle bit, which belongs to the ring and not to the TRB. -/
def payload (t : TRB) : TRB := t.mark false

@[simp] theorem cycleBit_mark (t : TRB) (b : Bool) : (t.mark b).cycleBit = b := rfl

@[simp] theorem trbType_mark (t : TRB) (b : Bool) : (t.mark b).trbType = t.trbType := rfl

@[simp] theorem payload_mark (t : TRB) (b : Bool) : (t.mark b).payload = t.payload := rfl

@[simp] theorem mark_mark (t : TRB) (b b' : Bool) : (t.mark b).mark b' = t.mark b' := rfl

/-- The link TRB of `create_ring`: to the start of the ring, with `toggle_cycle` set. -/
def link (trbPhys : BitVec 64) : TRB :=
  { zero with parameter := trbPhys, trbType := trbTypeLink, reserved1 := 1 }

end TRB

/-- `struct Ring`, as `create_ring` makes it: `trbs` points to a page. -/
structure Ring where
  count : Nat
  idx : Nat
  trbsPhys : BitVec 64
  trbs : Nat → TRB
  ringCycleState : Bool

/-- `create_ring`, on the page `malloc4k_phys` returned. -/
def createRing (trbPhys : BitVec 64) : Ring :=
  let count := pageSize / TRB.size
  { count := count
    idx := 0
    trbsPhys := trbPhys
    trbs := Function.update (fun _ => TRB.zero) (count - 1) (TRB.link trbPhys)
    ringCycleState := true }

def enqueueRing (ring : Ring) (trb : TRB) : Ring :=
  let ring := { ring with
    trbs := Function.update ring.trbs ring.idx (trb.mark ring.ringCycleState)
    idx := ring.idx + 1 }
  if ring.idx = ring.count - 1 then
    -- now pointing to the link element: flip its cycle bit and loop round
    { ring with
      trbs := Function.update ring.trbs ring.idx
        ((ring.trbs ring.idx).mark (!(ring.trbs ring.idx).cycleBit))
      idx := 0
      ringCycleState := !ring.ringCycleState }
  else ring

/-- `dequeue_ring`: `none` is the return value `-1`. -/
def dequeueRing (ring : Ring) : Option (TRB × Ring) :=
  if (ring.trbs ring.idx).cycleBit ≠ ring.ringCycleState then none
  else
    let trbOut := ring.trbs ring.idx
    let ring := { ring with idx := ring.idx + 1 }
    if ring.idx = ring.count then
      some (trbOut, { ring with idx := 0, ringCycleState := !ring.ringCycleState })
    else some (trbOut, ring)

theorem payload_take_succ {seen items : List TRB} {t : TRB} (b : Bool)
    (h : seen.map TRB.payload = (items.take seen.length).map TRB.payload)
    (ht : items[seen.length]? = some t) :
    (seen ++ [t.mark b]).map TRB.payload =
      (items.take (seen ++ [t.mark b]).length).map TRB.payload := by
  have hlen : (seen ++ [t.mark b]).length = seen.length + 1 := by simp
  rw [hlen, List.take_add_one, ht, List.map_append, List.map_append, h]
  rfl

end Stuos.Usb
