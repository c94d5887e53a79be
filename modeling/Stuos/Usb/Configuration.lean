import Mathlib.Data.List.Nodup
import Stuos.Usb.Descriptors

/-!
# Well-formed configurations

A configuration as a device describes it: a header, and interfaces with their endpoints and with
descriptors that belong to a class.  Every descriptor may be longer than the fields that are
known of it.  `bytes` is what the device sends.

* `endpointDesc_of_holds`: the fields of an endpoint are taken from the right bytes.
* `items_ends`: the inner loop, over what follows an interface descriptor.
* `interfaces_ends`: the outer loop.
* `configuration_recorded`: **every interface is recorded, with its endpoints in order**.
-/

namespace Stuos.Usb

open Stuos.Lib

/-! ### What a device sends -/

structure EndpointDescriptor where
  endpointNum : Fin 16
  reserved0 : Fin 8
  direction : Bool
  transferType : Fin 4
  reserved1 : Fin 64
  maxPacketSize : Fin 65536
  interval : UInt8
  rest : List UInt8
  length_lt : 7 + rest.length < 256

namespace EndpointDescriptor

def address (e : EndpointDescriptor) : UInt8 :=
  UInt8.ofNat (e.endpointNum + 16 * e.reserved0 + 128 * e.direction.toNat)

def attributes (e : EndpointDescriptor) : UInt8 := UInt8.ofNat (e.transferType + 4 * e.reserved1)

def bytes (e : EndpointDescriptor) : List UInt8 :=
  [UInt8.ofNat (7 + e.rest.length), descriptorTypeEndpoint, e.address, e.attributes,
    UInt8.ofNat e.maxPacketSize, UInt8.ofNat (e.maxPacketSize / 256), e.interval] ++ e.rest

/-- What is to be recorded. -/
def recorded (e : EndpointDescriptor) : ExternEpDesc :=
  ⟨UInt8.ofNat e.endpointNum, e.direction, UInt8.ofNat e.transferType, e.maxPacketSize, e.interval⟩

end EndpointDescriptor

/-- A descriptor that belongs to a class. -/
structure ClassDescriptor where
  type : UInt8
  body : List UInt8
  type_ne : type ≠ descriptorTypeInterface ∧ type ≠ descriptorTypeEndpoint
  length_lt : 2 + body.length < 256

def ClassDescriptor.bytes (c : ClassDescriptor) : List UInt8 :=
  [UInt8.ofNat (2 + c.body.length), c.type] ++ c.body

/-- What can follow an interface descriptor. -/
inductive Item
  | endpoint (e : EndpointDescriptor)
  | classSpecific (c : ClassDescriptor)

def Item.bytes : Item → List UInt8
  | .endpoint e => e.bytes
  | .classSpecific c => c.bytes

def Item.endpoint? : Item → Option EndpointDescriptor
  | .endpoint e => some e
  | .classSpecific _ => none

/-- An interface descriptor and what follows it. -/
structure Interface where
  interfaceNum : UInt8
  alternateSet : UInt8
  classCode : UInt8
  subClass : UInt8
  protocol : UInt8
  interfaceStr : UInt8
  rest : List UInt8
  items : List Item
  length_lt : 9 + rest.length < 256
  endpoints_le : (items.filterMap Item.endpoint?).length ≤ 16

namespace Interface

def endpoints (f : Interface) : List EndpointDescriptor := f.items.filterMap Item.endpoint?

def numEndpoints (f : Interface) : UInt8 := UInt8.ofNat f.endpoints.length

theorem toNat_numEndpoints (f : Interface) : f.numEndpoints.toNat = f.endpoints.length :=
  UInt8.toNat_ofNat_of_lt' (Nat.lt_of_le_of_lt f.endpoints_le (by decide))

/-- The class triple. -/
def desc (f : Interface) : ExternIfDesc :=
  ⟨f.numEndpoints, f.classCode, f.subClass, f.protocol, fun _ => .zero⟩

/-- The descriptor itself. -/
def header (f : Interface) : List UInt8 :=
  [UInt8.ofNat (9 + f.rest.length), descriptorTypeInterface, f.interfaceNum, f.alternateSet,
    f.numEndpoints, f.classCode, f.subClass, f.protocol, f.interfaceStr] ++ f.rest

def bytes (f : Interface) : List UInt8 := f.header ++ f.items.flatMap Item.bytes

end Interface

structure Configuration where
  numInterfaces : UInt8
  configVal : UInt8
  configString : UInt8
  attributes : UInt8
  maxPower : UInt8
  interfaces : List Interface
  distinct : (interfaces.map Interface.interfaceNum).Nodup
  fits : 9 + (interfaces.flatMap Interface.bytes).length < 65536

namespace Configuration

def totalLength (c : Configuration) : Nat := 9 + (c.interfaces.flatMap Interface.bytes).length

def header (c : Configuration) : List UInt8 :=
  [9, descriptorTypeConfiguration, UInt8.ofNat c.totalLength, UInt8.ofNat (c.totalLength / 256),
    c.numInterfaces, c.configVal, c.configString, c.attributes, c.maxPower]

def bytes (c : Configuration) : List UInt8 := c.header ++ c.interfaces.flatMap Interface.bytes

end Configuration

/-- `desc` is the interface's class triple and its endpoints in order. -/
structure Records (desc : ExternIfDesc) (f : Interface) : Prop where
  numEndpoints : desc.numEndpoints.toNat = f.endpoints.length
  classCode : desc.classCode = f.classCode
  subClass : desc.subClass = f.subClass
  protocol : desc.protocol = f.protocol
  endpoints : ∀ i, desc.endpoints i = (f.endpoints.map EndpointDescriptor.recorded).getD i .zero

/-! ### Bytes in the buffer -/

variable {data : Mem} {n p q i : Nat} {r : ExternConfigDesc} {bs cs : List UInt8}

/-- The bytes `bs` are at `data + p`. -/
def Holds (data : Mem) (p : Nat) (bs : List UInt8) : Prop := data.read p bs.length = bs

theorem holds_cons {b : UInt8} : Holds data p (b :: bs) ↔ data p = b ∧ Holds data (p + 1) bs := by
  rw [Holds, List.length_cons, Mem.read_cons, List.cons.injEq]
  rfl

theorem holds_append :
    Holds data p (bs ++ cs) ↔ Holds data p bs ∧ Holds data (p + bs.length) cs := by
  rw [Holds, List.length_append, Mem.read_add]
  exact ⟨fun h => List.append_inj h (Mem.read_length data p bs.length),
    fun ⟨h, h'⟩ => congrArg₂ (· ++ ·) h h'⟩

theorem holds_bytesAt (bs : List UInt8) : Holds (bytesAt bs) 0 bs := by
  refine List.ext_getElem (Mem.read_length _ _ _) fun i hi hi' => ?_
  simp [Mem.read, bytesAt, hi']

theorem endpoint_start {e : EndpointDescriptor} (h : Holds data p e.bytes) :
    data (p + 1) = descriptorTypeEndpoint ∧ (data p).toNat = e.bytes.length := by
  rw [EndpointDescriptor.bytes, holds_append] at h
  simp only [holds_cons] at h
  obtain ⟨⟨hlength, htype, -⟩, -⟩ := h
  refine ⟨htype, ?_⟩
  rw [hlength, UInt8.toNat_ofNat_of_lt' e.length_lt]
  simp only [EndpointDescriptor.bytes, List.length_append, List.length_cons, List.length_nil]

/-- **The fields of an endpoint are taken from the right bytes.** -/
theorem endpointDesc_of_holds {e : EndpointDescriptor} (h : Holds data p e.bytes) :
    endpointDesc data p = e.recorded := by
  rw [EndpointDescriptor.bytes, holds_append] at h
  simp only [holds_cons, Nat.add_assoc, Nat.reduceAdd] at h
  obtain ⟨⟨-, -, haddress, hattributes, hlow, hhigh, hinterval, -⟩, -⟩ := h
  have hnum := e.endpointNum.isLt
  have hreserved := e.reserved0.isLt
  have htransfer := e.transferType.isLt
  have hreserved' := e.reserved1.isLt
  have hsize := e.maxPacketSize.isLt
  have hdirection : e.direction.toNat ≤ 1 := Bool.toNat_le e.direction
  have haddress' : e.address.toNat =
      e.endpointNum + 16 * e.reserved0 + 128 * e.direction.toNat :=
    UInt8.toNat_ofNat_of_lt' (show _ < 256 by omega)
  have hattributes' : e.attributes.toNat = e.transferType + 4 * e.reserved1 :=
    UInt8.toNat_ofNat_of_lt' (show _ < 256 by omega)
  rw [endpointDesc, haddress, hattributes, hlow, hhigh, hinterval, EndpointDescriptor.recorded]
  congr 1
  · rw [← UInt8.toNat_inj, UInt8.toNat_mod, haddress',
      UInt8.toNat_ofNat_of_lt' (Nat.lt_trans hnum (by decide))]
    show _ % 16 = _
    omega
  · have hbit : e.address / 128 = 1 ↔ e.direction = true := by
      rw [← UInt8.toNat_inj, UInt8.toNat_div, haddress']
      show _ / 128 = 1 ↔ _
      cases e.direction with
      | false => simp; omega
      | true => simp; omega
    simp only [hbit, Bool.decide_eq_true]
  · rw [← UInt8.toNat_inj, UInt8.toNat_mod, hattributes',
      UInt8.toNat_ofNat_of_lt' (Nat.lt_trans htransfer (by decide))]
    show _ % 4 = _
    omega
  · exact leVal_leBytes 2 _ (by omega)

theorem classDescriptor_start {c : ClassDescriptor} (h : Holds data p c.bytes) :
    data (p + 1) = c.type ∧ (data p).toNat = c.bytes.length := by
  rw [ClassDescriptor.bytes, holds_append] at h
  simp only [holds_cons] at h
  obtain ⟨⟨hlength, htype, -⟩, -⟩ := h
  refine ⟨htype, ?_⟩
  rw [hlength, UInt8.toNat_ofNat_of_lt' c.length_lt]
  simp only [ClassDescriptor.bytes, List.length_append, List.length_cons, List.length_nil]

theorem interface_start {f : Interface} (h : Holds data p f.bytes) :
    data (p + 1) = descriptorTypeInterface ∧ (data p).toNat = f.header.length ∧
      data (p + 2) = f.interfaceNum ∧ data (p + 4) = f.numEndpoints ∧
      interfaceDesc data p = f.desc ∧
      Holds data (p + f.header.length) (f.items.flatMap Item.bytes) := by
  rw [Interface.bytes, holds_append] at h
  obtain ⟨hheader, hitems⟩ := h
  rw [Interface.header, holds_append] at hheader
  simp only [holds_cons, Nat.add_assoc, Nat.reduceAdd] at hheader
  obtain ⟨⟨hlength, htype, hnum, -, hendpoints, hclass, hsub, hprotocol, -⟩, -⟩ := hheader
  refine ⟨htype, ?_, hnum, hendpoints, ?_, hitems⟩
  · rw [hlength, UInt8.toNat_ofNat_of_lt' f.length_lt]
    simp only [Interface.header, List.length_append, List.length_cons, List.length_nil]
  · rw [interfaceDesc, hendpoints, hclass, hsub, hprotocol, Interface.desc]

/-! ### What the loops store -/

/-- The endpoints `es` stored from `endpoints[i]` on. -/
def storeEndpoints (r : ExternConfigDesc) (interfaceNum : UInt8) :
    Nat → List EndpointDescriptor → ExternConfigDesc
  | _, [] => r
  | i, e :: es => storeEndpoints (r.setEndpoint interfaceNum i e.recorded) interfaceNum (i + 1) es

/-- An interface stored with its endpoints. -/
def storeInterface (r : ExternConfigDesc) (f : Interface) : ExternConfigDesc :=
  storeEndpoints (r.setInterface f.interfaceNum f.desc) f.interfaceNum 0 f.endpoints

theorem two_le_length_bytes (item : Item) : 2 ≤ item.bytes.length := by
  cases item <;> simp [Item.bytes, EndpointDescriptor.bytes, ClassDescriptor.bytes]

/-- Two bytes are the shortest descriptor, so the one that is left alone with them is the last. -/
theorem last_of_short {item : Item} {items : List Item} (hp : ¬ p + 2 < n)
    (hle : p + item.bytes.length + (items.flatMap Item.bytes).length ≤ n) : items = [] := by
  have hitem := two_le_length_bytes item
  cases items with
  | nil => rfl
  | cons next items =>
    have hnext := two_le_length_bytes next
    rw [List.flatMap_cons, List.length_append] at hle
    omega

theorem inside_of_endpoint {e : EndpointDescriptor} {k : Nat}
    (h : p + (Item.endpoint e).bytes.length + k ≤ n) : p + 6 < n := by
  simp only [Item.bytes, EndpointDescriptor.bytes, List.length_append, List.length_cons] at h
  omega

/-- After the items comes the next interface, or nothing. -/
def Follows (data : Mem) (n p : Nat) : Prop :=
  p = n ∨ p + 2 < n ∧ data (p + 1) = descriptorTypeInterface

/-- **The inner loop**, over what follows an interface descriptor. -/
theorem items_ends {items : List Item} (h : Holds data p (items.flatMap Item.bytes))
    (hq : q + 7 < n) (hnum : (data (q + 4)).toNat = i + (items.filterMap Item.endpoint?).length)
    (hnext : Follows data n (p + (items.flatMap Item.bytes).length))
    {o : Except ParseHalt ExternConfigDesc} :
    Loop.Ends (parseRound data n) ⟨.inner q i p, r⟩ o ↔
      Loop.Ends (parseRound data n) ⟨.outer (p + (items.flatMap Item.bytes).length),
        storeEndpoints r (data (q + 2)) i (items.filterMap Item.endpoint?)⟩ o := by
  induction items generalizing p i r with
  | nil =>
    refine Loop.ends_again ?_
    rw [parseRound_inner]
    rcases hnext with hend | ⟨hp, htype⟩
    · exact inner_over (by simp at hend; omega)
    · exact inner_interface hp htype
  | cons item items ih =>
    rw [List.flatMap_cons, holds_append] at h
    obtain ⟨hitem, hitems⟩ := h
    rw [List.flatMap_cons, List.length_append, ← Nat.add_assoc] at hnext ⊢
    have hle : p + item.bytes.length + (items.flatMap Item.bytes).length ≤ n := by
      rcases hnext with hend | ⟨hp, -⟩ <;> omega
    cases item with
    | endpoint e =>
      obtain ⟨htype, hlength⟩ := endpoint_start hitem
      have hnum' : (data (q + 4)).toNat = i + 1 + (items.filterMap Item.endpoint?).length := by
        have hcons : (Item.endpoint e :: items).filterMap Item.endpoint? =
            e :: items.filterMap Item.endpoint? := rfl
        rw [hnum, hcons, List.length_cons]
        omega
      have hround := inner_endpoint (i := i) (r := r) hq htype (by omega) (inside_of_endpoint hle)
      rw [endpointDesc_of_holds hitem, hlength] at hround
      rw [Loop.ends_again (parseRound_inner.trans hround)]
      exact ih hitems hnum' hnext
    | classSpecific c =>
      obtain ⟨htype, hlength⟩ := classDescriptor_start hitem
      by_cases hp : p + 2 < n
      · have hround := inner_other (q := q) (i := i) (r := r) hp (htype ▸ c.type_ne.1)
          (htype ▸ c.type_ne.2)
        rw [hlength] at hround
        rw [Loop.ends_again (parseRound_inner.trans hround)]
        exact ih hitems hnum hnext
      · -- both loops stop in front of it, and there is nothing behind it
        obtain rfl := last_of_short hp hle
        have hend : ¬ p + (Item.classSpecific c).bytes.length +
            (([] : List Item).flatMap Item.bytes).length + 2 < n := by omega
        rw [Loop.ends_again (parseRound_inner.trans (inner_over hp)),
          Loop.ends_done (parseRound_outer.trans (outer_done hp)),
          Loop.ends_done (parseRound_outer.trans (outer_done hend))]
        rfl

theorem interface_follows {f : Interface} (h : Holds data p f.bytes)
    (hle : p + f.bytes.length ≤ n) : Follows data n p := by
  obtain ⟨htype, -⟩ := interface_start h
  refine .inr ⟨?_, htype⟩
  simp only [Interface.bytes, Interface.header, List.length_append, List.length_cons] at hle
  omega

/-- **The outer loop.** -/
theorem interfaces_ends {fs : List Interface} (h : Holds data p (fs.flatMap Interface.bytes))
    (hend : p + (fs.flatMap Interface.bytes).length = n) {o : Except ParseHalt ExternConfigDesc} :
    Loop.Ends (parseRound data n) ⟨.outer p, r⟩ o ↔ o = .ok (fs.foldl storeInterface r) := by
  induction fs generalizing p r with
  | nil => exact Loop.ends_done (parseRound_outer.trans (outer_done (by simp at hend; omega)))
  | cons f fs ih =>
    rw [List.flatMap_cons, holds_append] at h
    obtain ⟨hf, hfs⟩ := h
    rw [List.flatMap_cons, List.length_append, ← Nat.add_assoc] at hend
    obtain ⟨htype, hlength, hinterfaceNum, hendpoints, hdesc, hitems⟩ := interface_start hf
    have hnum := f.toNat_numEndpoints
    have hbytes : f.bytes.length = f.header.length + (f.items.flatMap Item.bytes).length :=
      List.length_append
    have hheader : 9 ≤ f.header.length := by
      simp only [Interface.header, List.length_append, List.length_cons]
      omega
    have hle : data (p + 4) ≤ 16 := by
      rw [hendpoints, UInt8.le_iff_toNat_le, hnum]
      exact f.endpoints_le
    have hround := outer_again (r := r) htype hle (by omega : p + 7 < n)
    rw [hlength, hinterfaceNum, hdesc] at hround
    -- what follows the items is the next interface, or the end
    have hnext : Follows data n (p + f.header.length + (f.items.flatMap Item.bytes).length) := by
      rw [Nat.add_assoc, ← hbytes]
      cases fs with
      | nil => exact .inl hend
      | cons g gs =>
        rw [List.flatMap_cons, holds_append] at hfs
        rw [List.flatMap_cons, List.length_append] at hend
        exact interface_follows hfs.1 (by omega)
    rw [Loop.ends_again (parseRound_outer.trans hround),
      items_ends hitems (by omega) (by rw [hendpoints, hnum, Nat.zero_add]; rfl) hnext,
      Nat.add_assoc, ← hbytes, hinterfaceNum]
    exact ih hfs hend

/-! ### What they have stored -/

theorem storeEndpoints_spec (k : UInt8) (es : List EndpointDescriptor) :
    (storeEndpoints r k i es).numInterfaces = r.numInterfaces ∧
      (storeEndpoints r k i es).configurationValue = r.configurationValue ∧
      (storeEndpoints r k i es).interfaces = Function.update r.interfaces k
        { r.interfaces k with
          endpoints := fun j => if i ≤ j then (es.map EndpointDescriptor.recorded).getD (j - i)
            ((r.interfaces k).endpoints j) else (r.interfaces k).endpoints j } := by
  induction es generalizing r i with
  | nil => simp [storeEndpoints]
  | cons e es ih =>
    rw [storeEndpoints]
    obtain ⟨hnum, hvalue, hinterfaces⟩ := ih (r := r.setEndpoint k i e.recorded) (i := i + 1)
    refine ⟨hnum, hvalue, ?_⟩
    rw [hinterfaces]
    simp only [ExternConfigDesc.setEndpoint, ExternConfigDesc.setInterface, Function.update_idem,
      Function.update_self]
    congr 2
    funext j
    rcases Nat.lt_trichotomy j i with hj | rfl | hj
    · rw [if_neg (by omega), if_neg (by omega), Function.update_of_ne (by omega)]
    · rw [if_neg (by omega), if_pos (by omega), Function.update_self, Nat.sub_self]
      rfl
    · obtain ⟨d, rfl⟩ := Nat.exists_eq_add_of_lt hj
      rw [if_pos (by omega), if_pos (by omega), Function.update_of_ne (by omega),
        show i + d + 1 - (i + 1) = d by omega, show i + d + 1 - i = d + 1 by omega]
      rfl

theorem storeInterface_spec (f : Interface) :
    (storeInterface r f).numInterfaces = r.numInterfaces ∧
      (storeInterface r f).configurationValue = r.configurationValue ∧
      Records ((storeInterface r f).interfaces f.interfaceNum) f ∧
      ∀ k, k ≠ f.interfaceNum → (storeInterface r f).interfaces k = r.interfaces k := by
  obtain ⟨hnum, hvalue, hinterfaces⟩ := storeEndpoints_spec (i := 0)
    (r := r.setInterface f.interfaceNum f.desc) f.interfaceNum f.endpoints
  refine ⟨hnum, hvalue, ?_, fun k hk => ?_⟩
  · rw [storeInterface, hinterfaces, Function.update_self]
    simp only [ExternConfigDesc.setInterface, Function.update_self, Nat.zero_le, if_true,
      Nat.sub_zero]
    exact ⟨f.toNat_numEndpoints, rfl, rfl, rfl, fun _ => rfl⟩
  · rw [storeInterface, hinterfaces, Function.update_of_ne hk]
    exact Function.update_of_ne hk _ _

theorem foldl_storeInterface_spec {fs : List Interface} (h : (fs.map Interface.interfaceNum).Nodup) :
    (fs.foldl storeInterface r).numInterfaces = r.numInterfaces ∧
      (fs.foldl storeInterface r).configurationValue = r.configurationValue ∧
      (∀ f ∈ fs, Records ((fs.foldl storeInterface r).interfaces f.interfaceNum) f) ∧
      ∀ k, (∀ f ∈ fs, f.interfaceNum ≠ k) →
        (fs.foldl storeInterface r).interfaces k = r.interfaces k := by
  induction fs generalizing r with
  | nil => simp
  | cons f fs ih =>
    rw [List.map_cons, List.nodup_cons] at h
    obtain ⟨hnotin, hnodup⟩ := h
    obtain ⟨hnum, hvalue, hrecords, hothers⟩ := storeInterface_spec (r := r) f
    obtain ⟨hnum', hvalue', hrecords', hothers'⟩ := ih (r := storeInterface r f) hnodup
    rw [List.foldl_cons]
    refine ⟨hnum'.trans hnum, hvalue'.trans hvalue, fun g hg => ?_, fun k hk => ?_⟩
    · rcases List.mem_cons.mp hg with rfl | hg
      · -- no later interface has its number
        rw [hothers' g.interfaceNum fun f' hf' heq => hnotin (List.mem_map.mpr ⟨f', hf', heq⟩)]
        exact hrecords
      · exact hrecords' g hg
    · rw [hothers' k fun f' hf' => hk f' (List.mem_cons_of_mem f hf')]
      exact hothers k (hk f List.mem_cons_self).symm

/-- **Every interface is recorded, with its endpoints in order**, and nothing else is. -/
theorem configuration_recorded (c : Configuration) :
    ∃ fuel result, readConfigurationDescriptor (bytesAt (c.bytes.take 9)) (bytesAt c.bytes) fuel =
        some (.ok result) ∧
      result.numInterfaces = c.numInterfaces ∧ result.configurationValue = c.configVal ∧
      (∀ f ∈ c.interfaces, Records (result.interfaces f.interfaceNum) f) ∧
      ∀ k, (∀ f ∈ c.interfaces, f.interfaceNum ≠ k) → result.interfaces k = .zero := by
  have hfirst : c.bytes.take 9 = c.header := List.take_left' rfl
  have hlength : (ConfigurationDescriptor.ofBytes (bytesAt c.header)).totalLength = c.totalLength :=
    leVal_leBytes 2 _ c.fits
  have haccepted : (ConfigurationDescriptor.ofBytes (bytesAt c.header)).Accepted := by
    refine ⟨rfl, rfl, ?_⟩
    rw [hlength]
    exact Nat.le_add_right 9 _
  have hholds := (holds_append.mp (holds_bytesAt c.bytes)).2
  have hend : 0 + c.header.length + (c.interfaces.flatMap Interface.bytes).length = c.totalLength := by
    rw [Nat.zero_add]
    rfl
  obtain ⟨fuel, hfuel⟩ := (interfaces_ends
    (r := (ConfigurationDescriptor.ofBytes (bytesAt c.header)).start.result) hholds hend).mpr rfl
  obtain ⟨hnum, hvalue, hrecords, hothers⟩ := foldl_storeInterface_spec
    (r := (ConfigurationDescriptor.ofBytes (bytesAt c.header)).start.result) c.distinct
  refine ⟨fuel, _, ?_, hnum, hvalue, hrecords, hothers⟩
  rw [hfirst]
  simp only [readConfigurationDescriptor, if_pos haccepted, hlength]
  exact hfuel

/-! ### A keyboard with a mouse -/

/-- An interrupt endpoint for eight bytes. -/
def interruptEndpoint (endpointNum : Fin 16) (direction : Bool) : EndpointDescriptor where
  endpointNum := endpointNum
  reserved0 := 0
  direction := direction
  transferType := 3
  reserved1 := 0
  maxPacketSize := 8
  interval := 4
  rest := []
  length_lt := by decide

/-- An HID descriptor, for a report descriptor of 63 bytes. -/
def hidDescriptor : ClassDescriptor where
  type := 0x21
  body := [0x11, 1, 0, 1, 0x22, 63, 0]
  type_ne := by decide
  length_lt := by decide

def keyboardInterface : Interface where
  interfaceNum := 0
  alternateSet := 0
  classCode := 3
  subClass := 1
  protocol := 1
  interfaceStr := 0
  rest := []
  items := [.classSpecific hidDescriptor, .endpoint (interruptEndpoint 1 true)]
  length_lt := by decide
  endpoints_le := by decide

def mouseInterface : Interface where
  interfaceNum := 1
  alternateSet := 0
  classCode := 3
  subClass := 1
  protocol := 2
  interfaceStr := 0
  rest := []
  items := [.classSpecific hidDescriptor, .endpoint (interruptEndpoint 2 true),
    .endpoint (interruptEndpoint 3 false)]
  length_lt := by decide
  endpoints_le := by decide

def keyboardWithMouse : Configuration where
  numInterfaces := 2
  configVal := 1
  configString := 0
  attributes := 0xA0
  maxPower := 50
  interfaces := [keyboardInterface, mouseInterface]
  distinct := by decide
  fits := by decide

theorem configuration_recorded_keyboardWithMouse : ∃ fuel result,
    readConfigurationDescriptor (bytesAt (keyboardWithMouse.bytes.take 9))
      (bytesAt keyboardWithMouse.bytes) fuel = some (.ok result) ∧
    (result.interfaces 0).protocol = 1 ∧
    (result.interfaces 0).endpoints 0 = ⟨1, true, 3, 8, 4⟩ ∧
    (result.interfaces 1).protocol = 2 ∧
    (result.interfaces 1).endpoints 1 = ⟨3, false, 3, 8, 4⟩ ∧
    result.interfaces 2 = .zero := by
  obtain ⟨fuel, result, hread, -, -, hrecords, hothers⟩ := configuration_recorded keyboardWithMouse
  have hkeyboard := hrecords keyboardInterface (by simp [keyboardWithMouse])
  have hmouse := hrecords mouseInterface (by simp [keyboardWithMouse])
  refine ⟨fuel, result, hread, hkeyboard.protocol, hkeyboard.endpoints 0, hmouse.protocol,
    hmouse.endpoints 1, hothers 2 ?_⟩
  simp [keyboardWithMouse, keyboardInterface, mouseInterface]

end Stuos.Usb
