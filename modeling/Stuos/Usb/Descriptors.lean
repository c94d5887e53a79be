import Mathlib.Logic.Function.Basic
import Stuos.Lib.Bytes
import Stuos.Lib.Halt
import Stuos.Lib.Loop

/-!
# The configuration descriptor

`read_configuration_descriptor` in `xhci_driver.c`.  It hops from one descriptor to the next by
the length bytes that the device put into them.  A pointer is its distance from `data`, and a
read behind the `total_length` bytes that were received stops the model with `outside`.

* `outer_again`, `inner_endpoint`, `inner_other`, ...: the rounds of the two loops.
* `parse_safe_iff`: **the loops end and stay inside exactly if the hops meet no descriptor that is
  cut off or has length 0**, as far as the asserts let them get.
-/

namespace Stuos.Usb

open Stuos.Lib

def descriptorTypeConfiguration : UInt8 := 2

def descriptorTypeInterface : UInt8 := 4

def descriptorTypeEndpoint : UInt8 := 5

/-- An assert has failed, or a field is not in what was received. -/
inductive ParseHalt
  | hcf
  | outside
  deriving DecidableEq, Repr

structure ExternEpDesc where
  endpointNum : UInt8
  isIn : Bool
  transferType : UInt8
  maxPacketSize : Nat
  interval : UInt8
  deriving DecidableEq, Repr

def ExternEpDesc.zero : ExternEpDesc := ⟨0, false, 0, 0, 0⟩

/-- `endpoints` has 16 entries. -/
structure ExternIfDesc where
  numEndpoints : UInt8
  classCode : UInt8
  subClass : UInt8
  protocol : UInt8
  endpoints : Nat → ExternEpDesc

def ExternIfDesc.zero : ExternIfDesc := ⟨0, 0, 0, 0, fun _ => .zero⟩

structure ExternConfigDesc where
  numInterfaces : UInt8
  configurationValue : UInt8
  interfaces : UInt8 → ExternIfDesc

/-- `struct ConfigurationDescriptor`, without the fields that nothing reads. -/
structure ConfigurationDescriptor where
  length : UInt8
  type : UInt8
  totalLength : Nat
  numInterfaces : UInt8
  configVal : UInt8

/-- What a transfer of the nine bytes has put into `initial_config`. -/
def ConfigurationDescriptor.ofBytes (initial : Mem) : ConfigurationDescriptor where
  length := initial 0
  type := initial 1
  totalLength := leVal [initial 2, initial 3]
  numInterfaces := initial 4
  configVal := initial 5

/-- A read at `data + p`. -/
def byteAt (data : Mem) (totalLength p : Nat) : Except ParseHalt UInt8 := do
  ensure (p < totalLength) .outside
  return data p

/-- The fields of the endpoint descriptor at `p`. -/
def readEndpoint (data : Mem) (totalLength p : Nat) : Except ParseHalt ExternEpDesc := do
  let address ← byteAt data totalLength (p + 2)
  let attributes ← byteAt data totalLength (p + 3)
  let low ← byteAt data totalLength (p + 4)
  let high ← byteAt data totalLength (p + 5)
  let interval ← byteAt data totalLength (p + 6)
  return {
    -- the bit fields of the two bytes
    endpointNum := address % 16
    isIn := address / 128 = 1
    transferType := attributes % 4
    maxPacketSize := leVal [low, high]
    interval := interval }

/-- Where the loops are. -/
inductive Cursor
  | outer (currInterface : Nat)
  | inner (currInterface endpointIndex currEndpoint : Nat)

structure ParseState where
  cursor : Cursor
  result : ExternConfigDesc

/-- `result.interfaces[interface_num] = ..` -/
def ExternConfigDesc.setInterface (result : ExternConfigDesc) (interfaceNum : UInt8)
    (desc : ExternIfDesc) : ExternConfigDesc :=
  { result with interfaces := Function.update result.interfaces interfaceNum desc }

/-- `result.interfaces[interface_num].endpoints[endpoint_index] = ..` -/
def ExternConfigDesc.setEndpoint (result : ExternConfigDesc) (interfaceNum : UInt8)
    (endpointIndex : Nat) (desc : ExternEpDesc) : ExternConfigDesc :=
  let interface := result.interfaces interfaceNum
  result.setInterface interfaceNum
    { interface with endpoints := Function.update interface.endpoints endpointIndex desc }

/-- The outer loop: its condition, and its body as far as the inner loop. -/
def outerRound (data : Mem) (totalLength currInterface : Nat) (result : ExternConfigDesc) :
    Except ParseHalt (Loop.Step ParseState ExternConfigDesc) :=
  if currInterface + 2 < totalLength then do
    let type ← byteAt data totalLength (currInterface + 1)
    ensure (type = descriptorTypeInterface) .hcf
    let numEndpoints ← byteAt data totalLength (currInterface + 4)
    ensure (numEndpoints ≤ 16) .hcf
    let interfaceNum ← byteAt data totalLength (currInterface + 2)
    let classCode ← byteAt data totalLength (currInterface + 5)
    let subClass ← byteAt data totalLength (currInterface + 6)
    let protocol ← byteAt data totalLength (currInterface + 7)
    let length ← byteAt data totalLength currInterface
    return .again
      { cursor := .inner currInterface 0 (currInterface + length.toNat)
        result := result.setInterface interfaceNum
          { numEndpoints := numEndpoints
            classCode := classCode
            subClass := subClass
            protocol := protocol
            endpoints := fun _ => .zero } }
  else .ok (.done result)

/-- The inner loop.  When it is over, the next interface is where it has stopped. -/
def innerRound (data : Mem) (totalLength currInterface endpointIndex currEndpoint : Nat)
    (result : ExternConfigDesc) : Except ParseHalt (Loop.Step ParseState ExternConfigDesc) :=
  if currEndpoint + 2 < totalLength then do
    let type ← byteAt data totalLength (currEndpoint + 1)
    if type = descriptorTypeInterface then
      return .again ⟨.outer currEndpoint, result⟩
    else if type = descriptorTypeEndpoint then
      let numEndpoints ← byteAt data totalLength (currInterface + 4)
      ensure (endpointIndex < numEndpoints.toNat) .hcf
      let interfaceNum ← byteAt data totalLength (currInterface + 2)
      let desc ← readEndpoint data totalLength currEndpoint
      let length ← byteAt data totalLength currEndpoint
      return .again
        { cursor := .inner currInterface (endpointIndex + 1) (currEndpoint + length.toNat)
          result := result.setEndpoint interfaceNum endpointIndex desc }
    else
      let length ← byteAt data totalLength currEndpoint
      return .again ⟨.inner currInterface endpointIndex (currEndpoint + length.toNat), result⟩
  else .ok (.again ⟨.outer currEndpoint, result⟩)

def parseRound (data : Mem) (totalLength : Nat) (s : ParseState) :
    Except ParseHalt (Loop.Step ParseState ExternConfigDesc) :=
  match s.cursor with
  | .outer currInterface => outerRound data totalLength currInterface s.result
  | .inner currInterface endpointIndex currEndpoint =>
    innerRound data totalLength currInterface endpointIndex currEndpoint s.result

/-- The asserts on the first nine bytes. -/
def ConfigurationDescriptor.Accepted (initialConfig : ConfigurationDescriptor) : Prop :=
  initialConfig.length = 9 ∧ initialConfig.type = descriptorTypeConfiguration ∧
    initialConfig.length.toNat ≤ initialConfig.totalLength

instance (initialConfig : ConfigurationDescriptor) : Decidable initialConfig.Accepted :=
  inferInstanceAs (Decidable (_ ∧ _ ∧ _))

/-- The state at the start of the loops. -/
def ConfigurationDescriptor.start (initialConfig : ConfigurationDescriptor) : ParseState where
  cursor := .outer initialConfig.length.toNat
  result :=
    { numInterfaces := initialConfig.numInterfaces
      configurationValue := initialConfig.configVal
      interfaces := fun _ => .zero }

/-- `read_configuration_descriptor` for at most `fuel` rounds.  `initial` is what the first
transfer brought, and `data` what the second one did. -/
def readConfigurationDescriptor (initial data : Mem) (fuel : Nat) :
    Option (Except ParseHalt ExternConfigDesc) :=
  let initialConfig := ConfigurationDescriptor.ofBytes initial
  if initialConfig.Accepted then
    Loop.run (parseRound data initialConfig.totalLength) fuel initialConfig.start
  else some (.error .hcf)

/-! ### The rounds -/

variable {data : Mem} {n p q i : Nat} {r : ExternConfigDesc}

theorem byteAt_of (h : p < n) : byteAt data n p = .ok (data p) := by
  rw [byteAt, ensure_of h]
  rfl

theorem byteAt_of_not (h : ¬ p < n) : byteAt data n p = .error .outside := by
  rw [byteAt, ensure_of_not h]
  rfl

/-- What the outer loop records for the descriptor at `p`. -/
def interfaceDesc (data : Mem) (p : Nat) : ExternIfDesc :=
  ⟨data (p + 4), data (p + 5), data (p + 6), data (p + 7), fun _ => .zero⟩

/-- What the inner loop records for the descriptor at `p`. -/
def endpointDesc (data : Mem) (p : Nat) : ExternEpDesc :=
  ⟨data (p + 2) % 16, data (p + 2) / 128 = 1, data (p + 3) % 4,
    leVal [data (p + 4), data (p + 5)], data (p + 6)⟩

theorem readEndpoint_of (h : p + 6 < n) : readEndpoint data n p = .ok (endpointDesc data p) := by
  rw [readEndpoint, byteAt_of (by omega : p + 2 < n), byteAt_of (by omega : p + 3 < n),
    byteAt_of (by omega : p + 4 < n), byteAt_of (by omega : p + 5 < n), byteAt_of h]
  rfl

theorem readEndpoint_of_not (hp : p + 2 < n) (h : ¬ p + 6 < n) :
    readEndpoint data n p = .error .outside := by
  rw [readEndpoint, byteAt_of hp, ok_bind]
  by_cases h3 : p + 3 < n
  · by_cases h4 : p + 4 < n
    · by_cases h5 : p + 5 < n
      · rw [byteAt_of h3, byteAt_of h4, byteAt_of h5, byteAt_of_not h]
        rfl
      · rw [byteAt_of h3, byteAt_of h4, byteAt_of_not h5]
        rfl
    · rw [byteAt_of h3, byteAt_of_not h4]
      rfl
  · rw [byteAt_of_not h3]
    rfl

@[simp] theorem parseRound_outer :
    parseRound data n ⟨.outer p, r⟩ = outerRound data n p r := rfl

@[simp] theorem parseRound_inner :
    parseRound data n ⟨.inner q i p, r⟩ = innerRound data n q i p r := rfl

theorem outer_done (hp : ¬ p + 2 < n) : outerRound data n p r = .ok (.done r) := if_neg hp

theorem outer_halt (hp : p + 2 < n) (htype : data (p + 1) ≠ descriptorTypeInterface) :
    outerRound data n p r = .error .hcf := by
  rw [outerRound, if_pos hp, byteAt_of (by omega), ok_bind, ensure_of_not htype]
  rfl

/-- An interface descriptor of which too little is left. -/
def CutInterface (data : Mem) (n p : Nat) : Prop :=
  ¬ p + 4 < n ∨ data (p + 4) ≤ 16 ∧ ¬ p + 7 < n

theorem inside_of_not_cut (hwhole : ¬ CutInterface data n p) (hnum : data (p + 4) ≤ 16) :
    p + 7 < n := by
  by_contra h7
  exact hwhole (.inr ⟨hnum, h7⟩)

theorem outer_outside (hp : p + 2 < n) (htype : data (p + 1) = descriptorTypeInterface)
    (hcut : CutInterface data n p) : outerRound data n p r = .error .outside := by
  rw [outerRound, if_pos hp, byteAt_of (by omega), ok_bind, ensure_of htype, ok_bind]
  by_cases h4 : p + 4 < n
  · obtain ⟨hnum, h7⟩ := hcut.resolve_left (not_not_intro h4)
    rw [byteAt_of h4, ok_bind, ensure_of hnum, ok_bind, byteAt_of hp, ok_bind]
    by_cases h5 : p + 5 < n
    · by_cases h6 : p + 6 < n
      · rw [byteAt_of h5, byteAt_of h6, byteAt_of_not h7]
        rfl
      · rw [byteAt_of h5, byteAt_of_not h6]
        rfl
    · rw [byteAt_of_not h5]
      rfl
  · rw [byteAt_of_not h4]
    rfl

theorem outer_many (hp : p + 2 < n) (htype : data (p + 1) = descriptorTypeInterface)
    (h4 : p + 4 < n) (hnum : ¬ data (p + 4) ≤ 16) : outerRound data n p r = .error .hcf := by
  rw [outerRound, if_pos hp, byteAt_of (by omega), ok_bind, ensure_of htype, ok_bind,
    byteAt_of h4, ok_bind, ensure_of_not hnum]
  rfl

theorem outer_again (htype : data (p + 1) = descriptorTypeInterface) (hnum : data (p + 4) ≤ 16)
    (h7 : p + 7 < n) :
    outerRound data n p r = .ok (.again ⟨.inner p 0 (p + (data p).toNat),
      r.setInterface (data (p + 2)) (interfaceDesc data p)⟩) := by
  rw [outerRound, if_pos (by omega), byteAt_of (by omega), ok_bind, ensure_of htype, ok_bind,
    byteAt_of (by omega), ok_bind, ensure_of hnum, byteAt_of (by omega : p + 2 < n),
    byteAt_of (by omega : p + 5 < n), byteAt_of (by omega : p + 6 < n), byteAt_of h7,
    byteAt_of (by omega : p < n)]
  rfl

theorem inner_over (hp : ¬ p + 2 < n) : innerRound data n q i p r = .ok (.again ⟨.outer p, r⟩) :=
  if_neg hp

theorem inner_interface (hp : p + 2 < n) (htype : data (p + 1) = descriptorTypeInterface) :
    innerRound data n q i p r = .ok (.again ⟨.outer p, r⟩) := by
  rw [innerRound, if_pos hp, byteAt_of (by omega), ok_bind, if_pos htype]
  rfl

theorem inner_endpoint_eq (hq : q + 7 < n) (hp : p + 2 < n)
    (htype : data (p + 1) = descriptorTypeEndpoint) :
    innerRound data n q i p r = (do
      ensure (i < (data (q + 4)).toNat) .hcf
      let desc ← readEndpoint data n p
      return .again ⟨.inner q (i + 1) (p + (data p).toNat), r.setEndpoint (data (q + 2)) i desc⟩) := by
  have hne : ¬ data (p + 1) = descriptorTypeInterface := by
    rw [htype]
    decide
  rw [innerRound, if_pos hp, byteAt_of (by omega), ok_bind, if_neg hne, if_pos htype,
    byteAt_of (by omega), ok_bind, byteAt_of (by omega : q + 2 < n), byteAt_of (by omega : p < n)]
  rfl

theorem inner_full (hq : q + 7 < n) (hp : p + 2 < n)
    (htype : data (p + 1) = descriptorTypeEndpoint) (hi : ¬ i < (data (q + 4)).toNat) :
    innerRound data n q i p r = .error .hcf := by
  rw [inner_endpoint_eq hq hp htype, ensure_of_not hi]
  rfl

theorem inner_outside (hq : q + 7 < n) (hp : p + 2 < n)
    (htype : data (p + 1) = descriptorTypeEndpoint) (hi : i < (data (q + 4)).toNat)
    (hcut : ¬ p + 6 < n) : innerRound data n q i p r = .error .outside := by
  rw [inner_endpoint_eq hq hp htype, ensure_of hi, readEndpoint_of_not hp hcut]
  rfl

theorem inner_endpoint (hq : q + 7 < n) (htype : data (p + 1) = descriptorTypeEndpoint)
    (hi : i < (data (q + 4)).toNat) (h6 : p + 6 < n) :
    innerRound data n q i p r = .ok (.again ⟨.inner q (i + 1) (p + (data p).toNat),
      r.setEndpoint (data (q + 2)) i (endpointDesc data p)⟩) := by
  rw [inner_endpoint_eq hq (by omega) htype, ensure_of hi, readEndpoint_of h6]
  rfl

theorem inner_other (hp : p + 2 < n) (hinterface : data (p + 1) ≠ descriptorTypeInterface)
    (hendpoint : data (p + 1) ≠ descriptorTypeEndpoint) :
    innerRound data n q i p r = .ok (.again ⟨.inner q i (p + (data p).toNat), r⟩) := by
  rw [innerRound, if_pos hp, byteAt_of (by omega), ok_bind, if_neg hinterface, if_neg hendpoint,
    byteAt_of (by omega)]
  rfl

/-! ### The hops -/

/-- The hops from one length byte to the next, as far as the asserts let them get.  At `p` the
interface may have `left` more endpoints; in front of the first interface there is none. -/
inductive Reaches (data : Mem) (n : Nat) : Nat → Option Nat → Prop
  | start : Reaches data n 9 none
  | interface {p : Nat} {left : Option Nat} : Reaches data n p left → p + 2 < n →
      data (p + 1) = descriptorTypeInterface → data (p + 4) ≤ 16 →
      Reaches data n (p + (data p).toNat) (some (data (p + 4)).toNat)
  | endpoint {p left : Nat} : Reaches data n p (some (left + 1)) → p + 2 < n →
      data (p + 1) = descriptorTypeEndpoint → Reaches data n (p + (data p).toNat) (some left)
  | other {p left : Nat} : Reaches data n p (some left) → p + 2 < n →
      data (p + 1) ≠ descriptorTypeInterface → data (p + 1) ≠ descriptorTypeEndpoint →
      Reaches data n (p + (data p).toNat) (some left)

/-- No descriptor that the hops get to is cut off, and none that they leave again has length 0.
An endpoint of length 0 is left out: the asserts stop it. -/
structure Sound (data : Mem) (n : Nat) : Prop where
  interface {p : Nat} {left : Option Nat} : Reaches data n p left → p + 2 < n →
    data (p + 1) = descriptorTypeInterface →
    ¬ CutInterface data n p ∧ (data (p + 4) ≤ 16 → data p ≠ 0)
  endpoint {p left : Nat} : Reaches data n p (some (left + 1)) → p + 2 < n →
    data (p + 1) = descriptorTypeEndpoint → p + 6 < n
  other {p left : Nat} : Reaches data n p (some left) → p + 2 < n →
    data (p + 1) ≠ descriptorTypeInterface → data (p + 1) ≠ descriptorTypeEndpoint → data p ≠ 0

/-- The inner loop is at `p`, with `left` endpoints to go. -/
def InnerAt (data : Mem) (n : Nat) (s : ParseState) (p left : Nat) : Prop :=
  ∃ q i, s.cursor = .inner q i p ∧ q + 7 < n ∧ (data (q + 4)).toNat = i + left ∧ i + left ≤ 16

theorem InnerAt.exists_inner {s : ParseState} {left : Nat} (h : InnerAt data n s p left) :
    ∃ q i r, s = ⟨.inner q i p, r⟩ ∧ q + 7 < n ∧ (data (q + 4)).toNat = i + left ∧
      i + left ≤ 16 := by
  obtain ⟨q, i, hat, hrest⟩ := h
  exact ⟨q, i, s.result, by rw [← hat], hrest⟩

/-- The loops are at a descriptor that the hops reach. -/
def OnHops (data : Mem) (n : Nat) (s : ParseState) : Prop :=
  ∃ p left, Reaches data n p left ∧
    (s.cursor = .outer p ∨ ∃ k, left = some k ∧ InnerAt data n s p k)

/-- What is left to do. -/
def hopMeasure (data : Mem) (n : Nat) (s : ParseState) : Nat :=
  match s.cursor with
  | .outer p => 40 * (n - p)
  | .inner q i p => 40 * (n - p) + ((data (q + 4)).toNat - i) + 1

theorem toNat_pos_of_ne_zero {x : UInt8} (h : x ≠ 0) : 0 < x.toNat := by
  refine Nat.pos_of_ne_zero fun h0 => h ?_
  rw [← UInt8.toNat_inj, h0]
  rfl

theorem outer_step (hsound : Sound data n) {left : Option Nat} (h : Reaches data n p left)
    (hp : p + 2 < n) (htype : data (p + 1) = descriptorTypeInterface) (hnum : data (p + 4) ≤ 16) :
    ∃ s', outerRound data n p r = .ok (.again s') ∧ OnHops data n s' ∧
      hopMeasure data n s' < 40 * (n - p) := by
  obtain ⟨hwhole, hlength⟩ := hsound.interface h hp htype
  have h7 := inside_of_not_cut hwhole hnum
  have hpos := toNat_pos_of_ne_zero (hlength hnum)
  have hle : (data (p + 4)).toNat ≤ 16 := UInt8.le_iff_toNat_le.mp hnum
  refine ⟨_, outer_again htype hnum h7, ⟨_, _, h.interface hp htype hnum, .inr ⟨_, rfl, p, 0, rfl,
    h7, by omega, by omega⟩⟩, ?_⟩
  simp only [hopMeasure]
  omega

theorem inner_step (hsound : Sound data n) {k : Nat} (h : Reaches data n p (some k))
    (hq : q + 7 < n) (hi : (data (q + 4)).toNat = i + k) (hle : i + k ≤ 16) :
    (∃ s', innerRound data n q i p r = .ok (.again s') ∧ OnHops data n s' ∧
      hopMeasure data n s' < 40 * (n - p) + k + 1) ∨
    innerRound data n q i p r = .error .hcf := by
  by_cases hp : p + 2 < n
  · by_cases hinterface : data (p + 1) = descriptorTypeInterface
    · refine .inl ⟨_, inner_interface hp hinterface, ⟨p, _, h, .inl rfl⟩, ?_⟩
      simp only [hopMeasure]
      omega
    · by_cases hendpoint : data (p + 1) = descriptorTypeEndpoint
      · cases k with
        | zero => exact .inr (inner_full hq hp hendpoint (by omega))
        | succ k =>
          -- an endpoint may have length 0, but there is one fewer to go
          have h6 := hsound.endpoint h hp hendpoint
          refine .inl ⟨_, inner_endpoint hq hendpoint (by omega) h6, ⟨_, _, h.endpoint hp hendpoint,
            .inr ⟨_, rfl, q, i + 1, rfl, hq, by omega, by omega⟩⟩, ?_⟩
          simp only [hopMeasure]
          omega
      · have hpos := toNat_pos_of_ne_zero (hsound.other h hp hinterface hendpoint)
        refine .inl ⟨_, inner_other hp hinterface hendpoint, ⟨_, _, h.other hp hinterface hendpoint,
          .inr ⟨_, rfl, q, i, rfl, hq, hi, hle⟩⟩, ?_⟩
        simp only [hopMeasure]
        omega
  · refine .inl ⟨_, inner_over hp, ⟨p, _, h, .inl rfl⟩, ?_⟩
    simp only [hopMeasure]
    omega

/-- The loops end and no read is outside. -/
def Safe (data : Mem) (n : Nat) (s : ParseState) : Prop :=
  ∃ o, Loop.Ends (parseRound data n) s o ∧ o ≠ .error .outside

theorem safe_of_sound (hsound : Sound data n) {s : ParseState} (hs : OnHops data n s) :
    Safe data n s := by
  refine Loop.exists_ends (hopMeasure data n) (fun s hs => ?_) hs
  obtain ⟨p, left, h, hat | ⟨k, rfl, hat⟩⟩ := hs
  · obtain ⟨cursor, r⟩ := s
    obtain rfl : cursor = .outer p := hat
    rw [parseRound_outer]
    by_cases hp : p + 2 < n
    · by_cases htype : data (p + 1) = descriptorTypeInterface
      · by_cases hnum : data (p + 4) ≤ 16
        · exact .inl (outer_step hsound h hp htype hnum)
        · have h4 : p + 4 < n := by
            by_contra h4
            exact (hsound.interface h hp htype).1 (.inl h4)
          exact .inr (.inr ⟨_, outer_many hp htype h4 hnum, by simp⟩)
      · exact .inr (.inr ⟨_, outer_halt hp htype, by simp⟩)
    · exact .inr (.inl ⟨_, outer_done hp, by simp⟩)
  · obtain ⟨q, i, r, rfl, hq, hi, hle⟩ := hat.exists_inner
    rw [parseRound_inner]
    have hmeasure : hopMeasure data n ⟨.inner q i p, r⟩ = 40 * (n - p) + k + 1 := by
      simp only [hopMeasure]
      omega
    rw [hmeasure]
    rcases inner_step hsound h hq hi hle with hagain | hhalt
    · exact .inl hagain
    · exact .inr (.inr ⟨_, hhalt, by simp⟩)

/-! ### Every hop is made -/

theorem Safe.again {s s' : ParseState} (h : Safe data n s)
    (hround : parseRound data n s = .ok (.again s')) : Safe data n s' := by
  obtain ⟨o, ho, hne⟩ := h
  exact ⟨o, (Loop.ends_again hround).mp ho, hne⟩

theorem Safe.not_outside {s : ParseState} (h : Safe data n s) :
    parseRound data n s ≠ .error .outside := by
  intro hround
  obtain ⟨o, ho, hne⟩ := h
  exact hne ((Loop.ends_error hround).mp ho)

/-- The loops are at `p`, where the interface may have `left` more endpoints. -/
def StandsAt (data : Mem) (n : Nat) (s : ParseState) (p : Nat) : Option Nat → Prop
  | none => s.cursor = .outer p
  | some k => InnerAt data n s p k

theorem Safe.outer {left : Option Nat} {s : ParseState} (h : Safe data n s)
    (hat : StandsAt data n s p left) (hp : p + 2 < n)
    (htype : data (p + 1) = descriptorTypeInterface) : ∃ r, Safe data n ⟨.outer p, r⟩ := by
  cases left with
  | none =>
    obtain ⟨cursor, r⟩ := s
    obtain rfl : cursor = .outer p := hat
    exact ⟨r, h⟩
  | some k =>
    obtain ⟨q, i, r, rfl, -⟩ := hat.exists_inner
    exact ⟨r, h.again (by rw [parseRound_inner, inner_interface hp htype])⟩

theorem Safe.interface (h : Safe data n ⟨.outer p, r⟩) (hp : p + 2 < n)
    (htype : data (p + 1) = descriptorTypeInterface) :
    ¬ CutInterface data n p ∧ (data (p + 4) ≤ 16 →
      ∃ s, InnerAt data n s (p + (data p).toNat) (data (p + 4)).toNat ∧ Safe data n s) := by
  have hwhole : ¬ CutInterface data n p := fun hcut =>
    h.not_outside (by rw [parseRound_outer, outer_outside hp htype hcut])
  refine ⟨hwhole, fun hnum => ?_⟩
  have h7 := inside_of_not_cut hwhole hnum
  have hle : (data (p + 4)).toNat ≤ 16 := UInt8.le_iff_toNat_le.mp hnum
  exact ⟨_, ⟨p, 0, rfl, h7, by omega, by omega⟩,
    h.again (by rw [parseRound_outer, outer_again htype hnum h7])⟩

theorem Safe.endpoint_inside (h : Safe data n ⟨.inner q i p, r⟩) (hq : q + 7 < n) (hp : p + 2 < n)
    (htype : data (p + 1) = descriptorTypeEndpoint) (hi : i < (data (q + 4)).toNat) :
    p + 6 < n := by
  by_contra hcut
  exact h.not_outside (by rw [parseRound_inner, inner_outside hq hp htype hi hcut])

/-- An interface of length 0 is read again and again. -/
theorem not_safe_interface_zero (h7 : p + 7 < n) (htype : data (p + 1) = descriptorTypeInterface)
    (hnum : data (p + 4) ≤ 16) (hzero : data p = 0) : ¬ Safe data n ⟨.outer p, r⟩ := by
  rintro ⟨o, ho, -⟩
  refine Loop.not_ends (P := fun s => s.cursor = .outer p ∨ s.cursor = .inner p 0 p) ?_ (.inl rfl) ho
  rintro ⟨cursor, r⟩ (hat | hat)
  · obtain rfl : cursor = .outer p := hat
    refine ⟨_, by rw [parseRound_outer, outer_again htype hnum h7], .inr ?_⟩
    simp [hzero]
  · obtain rfl : cursor = .inner p 0 p := hat
    exact ⟨_, by rw [parseRound_inner, inner_interface (by omega) htype], .inl rfl⟩

theorem not_safe_other_zero (hp : p + 2 < n) (hinterface : data (p + 1) ≠ descriptorTypeInterface)
    (hendpoint : data (p + 1) ≠ descriptorTypeEndpoint) (hzero : data p = 0) :
    ¬ Safe data n ⟨.inner q i p, r⟩ := by
  rintro ⟨o, ho, -⟩
  refine Loop.not_ends (P := fun s => s.cursor = .inner q i p) ?_ rfl ho
  rintro ⟨cursor, r⟩ hat
  obtain rfl : cursor = .inner q i p := hat
  refine ⟨_, by rw [parseRound_inner, inner_other hp hinterface hendpoint], ?_⟩
  simp [hzero]

/-- **The loops get to every descriptor that the hops reach.** -/
theorem Safe.reaches {r : ExternConfigDesc} (h : Safe data n ⟨.outer 9, r⟩) {left : Option Nat}
    (hreach : Reaches data n p left) : ∃ s, StandsAt data n s p left ∧ Safe data n s := by
  induction hreach with
  | start => exact ⟨⟨.outer 9, r⟩, rfl, h⟩
  | interface _ hp htype hnum ih =>
    obtain ⟨s, hat, hs⟩ := ih
    obtain ⟨r, hr⟩ := hs.outer hat hp htype
    exact (hr.interface hp htype).2 hnum
  | endpoint _ hp htype ih =>
    obtain ⟨s, hat, hs⟩ := ih
    obtain ⟨q, i, r, rfl, hq, hi, hle⟩ := hat.exists_inner
    have h6 := hs.endpoint_inside hq hp htype (by omega)
    exact ⟨_, ⟨q, i + 1, rfl, hq, by omega, by omega⟩,
      hs.again (by rw [parseRound_inner, inner_endpoint hq htype (by omega) h6])⟩
  | other _ hp hinterface hendpoint ih =>
    obtain ⟨s, hat, hs⟩ := ih
    obtain ⟨q, i, r, rfl, hq, hi, hle⟩ := hat.exists_inner
    exact ⟨_, ⟨q, i, rfl, hq, hi, hle⟩,
      hs.again (by rw [parseRound_inner, inner_other hp hinterface hendpoint])⟩

theorem sound_of_safe {r : ExternConfigDesc} (h : Safe data n ⟨.outer 9, r⟩) : Sound data n where
  interface hreach hp htype := by
    obtain ⟨s, hat, hs⟩ := h.reaches hreach
    obtain ⟨r, hr⟩ := hs.outer hat hp htype
    have hwhole := (hr.interface hp htype).1
    refine ⟨hwhole, fun hnum hzero => ?_⟩
    have h7 := inside_of_not_cut hwhole hnum
    exact not_safe_interface_zero h7 htype hnum hzero hr
  endpoint hreach hp htype := by
    obtain ⟨s, hat, hs⟩ := h.reaches hreach
    obtain ⟨q, i, r, rfl, hq, hi, hle⟩ := hat.exists_inner
    exact hs.endpoint_inside hq hp htype (by omega)
  other hreach hp hinterface hendpoint hzero := by
    obtain ⟨s, hat, hs⟩ := h.reaches hreach
    obtain ⟨q, i, r, rfl, hq, hi, hle⟩ := hat.exists_inner
    exact not_safe_other_zero hp hinterface hendpoint hzero hs

/-- The call returns or an assert stops it, and no read is outside of what was received. -/
def StaysInside (initial data : Mem) : Prop :=
  ∃ fuel o, readConfigurationDescriptor initial data fuel = some o ∧ o ≠ .error .outside

theorem start_cursor {initialConfig : ConfigurationDescriptor} (h : initialConfig.Accepted) :
    initialConfig.start = ⟨.outer 9, initialConfig.start.result⟩ := by
  rw [ConfigurationDescriptor.start, h.1]
  rfl

theorem staysInside_iff_safe {initial : Mem}
    (h : (ConfigurationDescriptor.ofBytes initial).Accepted) :
    StaysInside initial data ↔ Safe data (ConfigurationDescriptor.ofBytes initial).totalLength
      (ConfigurationDescriptor.ofBytes initial).start := by
  simp only [StaysInside, Safe, Loop.Ends, readConfigurationDescriptor, if_pos h]
  exact exists_comm.trans (by simp only [exists_and_right])

/-- **When reading a configuration is safe**: exactly if the asserts on its first bytes fail or
the hops from there meet no descriptor that is cut off or has length 0. -/
theorem parse_safe_iff (initial data : Mem) :
    StaysInside initial data ↔ ((ConfigurationDescriptor.ofBytes initial).Accepted →
      Sound data (ConfigurationDescriptor.ofBytes initial).totalLength) := by
  by_cases haccepted : (ConfigurationDescriptor.ofBytes initial).Accepted
  · rw [staysInside_iff_safe haccepted, start_cursor haccepted]
    exact ⟨fun h _ => sound_of_safe h,
      fun h => safe_of_sound (h haccepted) ⟨9, none, .start, .inl rfl⟩⟩
  · refine ⟨fun _ h => absurd h haccepted, fun _ => ⟨0, .error .hcf, ?_, by simp⟩⟩
    simp only [readConfigurationDescriptor, if_neg haccepted]

/-- The bytes from `data` on. -/
def bytesAt (bytes : List UInt8) : Mem := fun i => bytes.getD i 0

/-- An interface descriptor of length 0 keeps the loops going, and one of three bytes is read as
far as its eighth. -/
theorem interface_without_length :
    ¬ StaysInside (bytesAt [9, 2, 18, 0, 1, 1, 0, 0x80, 50]) (bytesAt
      [9, 2, 18, 0, 1, 1, 0, 0x80, 50, 0, 4, 0, 0, 0, 3, 1, 1, 0]) ∧
    ¬ StaysInside (bytesAt [9, 2, 12, 0, 1, 1, 0, 0x80, 50]) (bytesAt
      [9, 2, 12, 0, 1, 1, 0, 0x80, 50, 3, 4, 0]) := by
  constructor
  · rw [staysInside_iff_safe (by decide), start_cursor (by decide)]
    exact not_safe_interface_zero (by decide) (by decide) (by decide) (by decide)
  · rw [staysInside_iff_safe (by decide), start_cursor (by decide)]
    intro h
    exact (h.interface (by decide) (by decide)).1 (.inl (by decide))

end Stuos.Usb
