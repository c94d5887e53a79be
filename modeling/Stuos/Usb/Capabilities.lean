import Mathlib.Data.List.Infix
import Mathlib.Logic.Function.Basic
import Stuos.Lib.Halt
import Stuos.Lib.Loop

/-!
# The extended capabilities of the controller

The loop in `initialise_xhci` that looks for the ports that speak USB 3.  A register is given by
its distance in bytes from BAR0.  The specification counts in dwords, and says where the next
capability is from the one before it; the loop takes this for a distance from BAR0.

* `capability_leads`, `capability_outside`: what the loop does at one capability.
* `walk_follows_iff`: **the loop follows the list exactly if there is no second capability, and the
  first one claims no port behind the array**.
-/

namespace Stuos.Usb

open Stuos.Lib

/-- An assert has failed, or `port_is_usb3` has no such entry. -/
inductive CapabilityHalt
  | hcf
  | outside
  deriving DecidableEq, Repr

def hccparams1Offset : Nat := 0x10

/-- `HCCPARAMS1_xecp`. -/
def hccparams1Xecp (hccparams1 : UInt32) : Nat := hccparams1.toNat / 2 ^ 16 * 4

/-- `data & 0xFF`. -/
def capabilityId (data : UInt32) : Nat := data.toNat % 256

/-- `((data >> 8) & 0xFF) << 2`. -/
def nextXecp (data : UInt32) : Nat := data.toNat / 256 % 256 * 4

/-- `data >> 24`. -/
def usbMaj (data : UInt32) : Nat := data.toNat / 2 ^ 24

def biosOwnedSemaphore : UInt32 := 0x10000

def osOwnedSemaphore : UInt32 := 0x1000000

/-- `"USB "`. -/
def usbName : UInt32 := 0x20425355

def portIsUsb3Length : Nat := 64

abbrev Registers := Nat → UInt32

def readBar32 (bar : Registers) (offset : Nat) : Except CapabilityHalt UInt32 := do
  ensure (offset % 4 = 0) .hcf
  return bar offset

def writeBar32 (bar : Registers) (src : UInt32) (offset : Nat) :
    Except CapabilityHalt Registers := do
  ensure (offset % 4 = 0) .hcf
  return Function.update bar offset src

/-- Where the loops are. -/
inductive CapabilityCursor
  | walk (xecp : Nat)
  /-- The BIOS keeps its semaphore for `polls` more reads. -/
  | wait (xecp : Nat) (data : UInt32) (polls : Nat)
  | ports (data : UInt32) (portIndex portCount i : UInt8)

/-- `visited` are the values of `xecp` at the head of the loop. -/
structure CapabilityWalk where
  cursor : CapabilityCursor
  bar : Registers
  portIsUsb3 : Nat → Bool
  visited : List Nat

/-- What the loop does with the capability at `xecp`. -/
def walkRound (polls xecp : Nat) (s : CapabilityWalk) :
    Except CapabilityHalt (Loop.Step CapabilityWalk CapabilityWalk) := do
  let data ← readBar32 s.bar xecp
  let s := { s with visited := s.visited ++ [xecp] }
  if capabilityId data = 1 then
    if data &&& biosOwnedSemaphore ≠ 0 then
      let bar ← writeBar32 s.bar (data ||| osOwnedSemaphore) xecp
      return .again { s with bar := bar, cursor := .wait xecp data polls }
    else return .again { s with cursor := .walk (nextXecp data) }
  else if capabilityId data = 2 then
    let secondDword ← readBar32 s.bar (xecp + 4)
    let thirdDword ← readBar32 s.bar (xecp + 8)
    ensure (secondDword = usbName) .hcf
    -- the port offset starts at 1
    let portIndex := UInt8.ofNat (thirdDword.toNat % 256) - 1
    let portCount := UInt8.ofNat (thirdDword.toNat / 256 % 256)
    return .again { s with cursor := .ports data portIndex portCount portIndex }
  else return .again { s with cursor := .walk (nextXecp data) }

/-- One round of one of the loops.  The BIOS gives its semaphore up `polls` reads after it has
been asked to. -/
def capabilityRound (polls : Nat) (s : CapabilityWalk) :
    Except CapabilityHalt (Loop.Step CapabilityWalk CapabilityWalk) :=
  match s.cursor with
  | .walk xecp => if xecp = 0 then .ok (.done s) else walkRound polls xecp s
  | .wait xecp data 0 =>
    let bar := Function.update s.bar xecp (s.bar xecp &&& ~~~biosOwnedSemaphore)
    .ok (.again { s with bar := bar, cursor := .walk (nextXecp data) })
  | .wait xecp data (polls + 1) => .ok (.again { s with cursor := .wait xecp data polls })
  | .ports data portIndex portCount i =>
    if i.toNat < portIndex.toNat + portCount.toNat then do
      ensure (i.toNat < portIsUsb3Length) .outside
      return .again { s with
        portIsUsb3 := Function.update s.portIsUsb3 i.toNat (usbMaj data = 3)
        cursor := .ports data portIndex portCount (i + 1) }
    else .ok (.again { s with cursor := .walk (nextXecp data) })

/-- The state in front of the loop. -/
def CapabilityWalk.start (bar : Registers) : CapabilityWalk where
  cursor := .walk (hccparams1Xecp (bar hccparams1Offset))
  bar := bar
  portIsUsb3 := fun _ => false
  visited := []

/-! ### The list as the specification lays it out -/

/-- The distance to the next capability, in dwords. -/
def nextDistance (data : UInt32) : Nat := data.toNat / 256 % 256

/-- `ps` are the capabilities from dword `p` on. -/
inductive ListFrom (bar : Registers) : Nat → List Nat → Prop
  | last {p : Nat} : nextDistance (bar (4 * p)) = 0 → ListFrom bar p [p]
  | cons {p : Nat} {ps : List Nat} : nextDistance (bar (4 * p)) ≠ 0 →
      ListFrom bar (p + nextDistance (bar (4 * p))) ps → ListFrom bar p (p :: ps)

/-- `ps` are the capabilities of the controller, as dwords from BAR0. -/
def Capabilities (bar : Registers) (ps : List Nat) : Prop :=
  let first := (bar hccparams1Offset).toNat / 2 ^ 16
  first = 0 ∧ ps = [] ∨ first ≠ 0 ∧ ListFrom bar first ps

/-- The first port of a supported protocol, which counts from 1. -/
def portOffset (bar : Registers) (p : Nat) : Nat := (bar (4 * p + 8)).toNat % 256

def portCount (bar : Registers) (p : Nat) : Nat := (bar (4 * p + 8)).toNat / 256 % 256

/-- A supported protocol has its name, and ports from 1 up to 255. -/
structure WellFormed (bar : Registers) (p : Nat) : Prop where
  name : bar (4 * p + 4) = usbName
  offset_pos : 0 < portOffset bar p
  ports_le : portOffset bar p + portCount bar p ≤ 256

/-- The capability at `p` claims the port with the index `k`. -/
def Claims (bar : Registers) (p k : Nat) : Prop :=
  capabilityId (bar (4 * p)) = 2 ∧ portOffset bar p ≤ k + 1 ∧
    k + 1 < portOffset bar p + portCount bar p

/-- The loop ends, has been at the capabilities `ps` in their order and nowhere else, and has
found the ports of USB 3. -/
def FollowsList (polls : Nat) (bar : Registers) (ps : List Nat) : Prop :=
  ∃ s, Loop.Ends (capabilityRound polls) (.start bar) (.ok s) ∧ s.visited = ps.map (4 * ·) ∧
    ∀ k, s.portIsUsb3 k = true ↔ ∃ p ∈ ps, Claims bar p k ∧ usbMaj (bar (4 * p)) = 3

/-- No port of the capability is behind `port_is_usb3`. -/
def FitsPorts (bar : Registers) (p : Nat) : Prop := ∀ k, Claims bar p k → k < portIsUsb3Length

/-! ### The inner loops -/

variable {n xecp p k : Nat} {bar : Registers} {s s' : CapabilityWalk} {data : UInt32}

theorem readBar32_of (h : xecp % 4 = 0) : readBar32 bar xecp = .ok (bar xecp) := by
  rw [readBar32, ensure_of h]
  rfl

theorem writeBar32_of (h : xecp % 4 = 0) :
    writeBar32 bar data xecp = .ok (Function.update bar xecp data) := by
  rw [writeBar32, ensure_of h]
  rfl

theorem wait_leads (hcursor : s.cursor = .wait xecp data k) :
    ∃ s', Loop.Leads (capabilityRound n) s s' ∧ s'.cursor = .walk (nextXecp data) ∧
      s'.visited = s.visited ∧ s'.portIsUsb3 = s.portIsUsb3 := by
  induction k generalizing s with
  | zero =>
    refine ⟨{ s with
      bar := Function.update s.bar xecp (s.bar xecp &&& ~~~biosOwnedSemaphore)
      cursor := .walk (nextXecp data) }, .single ?_, rfl, rfl, rfl⟩
    rw [capabilityRound, hcursor]
  | succ k ih =>
    obtain ⟨s', hleads, hrest⟩ := ih (s := { s with cursor := .wait xecp data k }) rfl
    exact ⟨s', .head (by rw [capabilityRound, hcursor]) hleads, hrest⟩

theorem toNat_succ {i : UInt8} (h : i.toNat < 255) : (i + 1).toNat = i.toNat + 1 := by
  rw [UInt8.toNat_add]
  exact Nat.mod_eq_of_lt (Nat.succ_lt_succ h)

theorem ports_round {a c i : UInt8} (hcursor : s.cursor = .ports data a c i)
    (hi : i.toNat < a.toNat + c.toNat) :
    capabilityRound n s = (do
      ensure (i.toNat < portIsUsb3Length) .outside
      return .again { s with
        portIsUsb3 := Function.update s.portIsUsb3 i.toNat (usbMaj data = 3)
        cursor := .ports data a c (i + 1) }) := by
  rw [capabilityRound, hcursor]
  exact if_pos hi

/-- **The loop over the ports**, when it stays inside of the array. -/
theorem ports_leads {a c i : UInt8} (hcursor : s.cursor = .ports data a c i)
    (hle : i.toNat ≤ a.toNat + c.toNat)
    (hfits : i.toNat < a.toNat + c.toNat → a.toNat + c.toNat ≤ portIsUsb3Length) :
    ∃ s', Loop.Leads (capabilityRound n) s s' ∧ s'.cursor = .walk (nextXecp data) ∧
      s'.visited = s.visited ∧ ∀ k, s'.portIsUsb3 k =
        if i.toNat ≤ k ∧ k < a.toNat + c.toNat then decide (usbMaj data = 3) else s.portIsUsb3 k := by
  have hlength : portIsUsb3Length = 64 := rfl
  induction hd : a.toNat + c.toNat - i.toNat generalizing s i with
  | zero =>
    refine ⟨{ s with cursor := .walk (nextXecp data) }, .single ?_, rfl, rfl, fun k => ?_⟩
    · rw [capabilityRound, hcursor]
      exact if_neg (by omega)
    · rw [if_neg (by omega)]
  | succ d ih =>
    have hnext := toNat_succ (i := i) (by omega)
    have hround := ports_round (n := n) hcursor (by omega)
    rw [ensure_of (by omega)] at hround
    obtain ⟨s', hleads, hwalk, hvisited, hports⟩ := ih (i := i + 1) (s := { s with
      portIsUsb3 := Function.update s.portIsUsb3 i.toNat (usbMaj data = 3)
      cursor := .ports data a c (i + 1) }) rfl (by omega) (fun _ => hfits (by omega)) (by omega)
    refine ⟨s', .head hround hleads, hwalk, hvisited, fun k => ?_⟩
    rw [hports, hnext]
    dsimp only
    by_cases hk : k = i.toNat
    · rw [if_neg (by omega), if_pos (by omega), hk, Function.update_self]
    · by_cases hin : i.toNat + 1 ≤ k ∧ k < a.toNat + c.toNat
      · rw [if_pos hin, if_pos (by omega)]
      · rw [if_neg hin, if_neg (by omega), Function.update_of_ne hk]

/-- **The loop over the ports**, when it does not. -/
theorem ports_outside {a c i : UInt8} (hcursor : s.cursor = .ports data a c i)
    (hlt : i.toNat < a.toNat + c.toNat)
    (hout : portIsUsb3Length < a.toNat + c.toNat) :
    Loop.Ends (capabilityRound n) s (.error .outside) := by
  induction hd : a.toNat + c.toNat - i.toNat generalizing s i with
  | zero => omega
  | succ d ih =>
    have hround := ports_round (n := n) hcursor hlt
    by_cases hi : i.toNat < portIsUsb3Length
    · have hlength : portIsUsb3Length = 64 := rfl
      have hnext := toNat_succ (i := i) (by omega)
      rw [ensure_of hi] at hround
      exact (Loop.ends_again hround).mpr (ih rfl (by omega) (by omega))
    · rw [ensure_of_not hi] at hround
      exact (Loop.ends_error hround).mpr rfl

/-! ### One capability -/

theorem capabilityRound_walk (hcursor : s.cursor = .walk xecp) (hxecp : xecp ≠ 0) :
    capabilityRound n s = walkRound n xecp s := by
  rw [capabilityRound, hcursor]
  exact if_neg hxecp

/-- The ports of a supported protocol, as the loop over them has them. -/
def portsCursor (bar : Registers) (p : Nat) : CapabilityCursor :=
  .ports (bar (4 * p)) (UInt8.ofNat (portOffset bar p) - 1) (UInt8.ofNat (portCount bar p))
    (UInt8.ofNat (portOffset bar p) - 1)

theorem walkRound_protocol (hbar : s.bar = bar) (hid : capabilityId (bar (4 * p)) = 2)
    (hwf : WellFormed bar p) :
    walkRound n (4 * p) s = .ok (.again { s with
      visited := s.visited ++ [4 * p]
      cursor := portsCursor bar p }) := by
  subst hbar
  rw [walkRound, readBar32_of (by omega), ok_bind]
  dsimp only
  rw [if_neg (by rw [hid]; decide), if_pos hid, readBar32_of (by omega), ok_bind,
    readBar32_of (by omega), ok_bind, ensure_of hwf.name]
  rfl

theorem walkRound_other (hbar : s.bar = bar) (hid : capabilityId (bar (4 * p)) ≠ 2) :
    ∃ s₁ s', walkRound n (4 * p) s = .ok (.again s₁) ∧
      Loop.Leads (capabilityRound n) s₁ s' ∧ s'.cursor = .walk (nextXecp (bar (4 * p))) ∧
      s'.visited = s.visited ++ [4 * p] ∧ s'.portIsUsb3 = s.portIsUsb3 := by
  subst hbar
  rw [walkRound, readBar32_of (by omega), ok_bind]
  dsimp only
  by_cases hlegacy : capabilityId (s.bar (4 * p)) = 1
  · rw [if_pos hlegacy]
    by_cases howned : s.bar (4 * p) &&& biosOwnedSemaphore ≠ 0
    · rw [if_pos howned, writeBar32_of (by omega), ok_bind]
      obtain ⟨s', hleads, hwalk, hvisited, hports⟩ := wait_leads (n := n)
        (s := { s with
          bar := Function.update s.bar (4 * p) (s.bar (4 * p) ||| osOwnedSemaphore)
          visited := s.visited ++ [4 * p]
          cursor := .wait (4 * p) (s.bar (4 * p)) n }) rfl
      exact ⟨_, s', rfl, hleads, hwalk, hvisited, hports⟩
    · rw [if_neg howned]
      exact ⟨_, _, rfl, .refl, rfl, rfl, rfl⟩
  · rw [if_neg hlegacy, if_neg hid]
    exact ⟨_, _, rfl, .refl, rfl, rfl, rfl⟩

theorem toNat_portIndex (h : WellFormed bar p) :
    (UInt8.ofNat (portOffset bar p) - 1).toNat = portOffset bar p - 1 := by
  have hpos := h.offset_pos
  have hlt : portOffset bar p < 256 := Nat.mod_lt _ (by decide)
  have hoffset : (UInt8.ofNat (portOffset bar p)).toNat = portOffset bar p :=
    UInt8.toNat_ofNat_of_lt' hlt
  rw [UInt8.toNat_sub_of_le, hoffset]
  · rfl
  · rw [UInt8.le_iff_toNat_le, hoffset]
    exact hpos

theorem toNat_portCount (bar : Registers) (p : Nat) :
    (UInt8.ofNat (portCount bar p)).toNat = portCount bar p :=
  UInt8.toNat_ofNat_of_lt' (Nat.mod_lt _ (by decide))

theorem claims_iff (hid : capabilityId (bar (4 * p)) = 2) (h : WellFormed bar p) (k : Nat) :
    Claims bar p k ↔ portOffset bar p - 1 ≤ k ∧ k < portOffset bar p - 1 + portCount bar p := by
  have hpos := h.offset_pos
  constructor
  · rintro ⟨-, hfirst, hlast⟩
    omega
  · rintro ⟨hfirst, hlast⟩
    exact ⟨hid, by omega, by omega⟩

/-- **One capability**, when its ports are in the array. -/
theorem capability_leads (hcursor : s.cursor = .walk (4 * p)) (hp : p ≠ 0) (hbar : s.bar = bar)
    (hwf : capabilityId (bar (4 * p)) = 2 → WellFormed bar p) (hfits : FitsPorts bar p) :
    ∃ s', Loop.Leads (capabilityRound n) s s' ∧
      s'.cursor = .walk (nextXecp (bar (4 * p))) ∧ s'.visited = s.visited ++ [4 * p] ∧
      ∀ k, (Claims bar p k → s'.portIsUsb3 k = decide (usbMaj (bar (4 * p)) = 3)) ∧
        (¬ Claims bar p k → s'.portIsUsb3 k = s.portIsUsb3 k) := by
  have hround := capabilityRound_walk (n := n) hcursor (by omega)
  by_cases hid : capabilityId (bar (4 * p)) = 2
  · have hwf := hwf hid
    rw [walkRound_protocol hbar hid hwf] at hround
    have hindex := toNat_portIndex hwf
    have hcount := toNat_portCount bar p
    have hclaims := claims_iff hid hwf
    obtain ⟨s', hleads, hwalk, hvisited, hports⟩ := ports_leads (n := n) (s := { s with
      visited := s.visited ++ [4 * p]
      cursor := portsCursor bar p }) rfl (Nat.le_add_right _ _) (fun hlt => by
        -- the last of the ports
        have hlast := hfits (portOffset bar p - 1 + portCount bar p - 1) ((hclaims _).mpr (by omega))
        omega)
    rw [hindex, hcount] at hports
    refine ⟨s', .head hround hleads, hwalk, hvisited, fun k => ?_⟩
    rw [hports, hclaims]
    exact ⟨fun hin => if_pos hin, fun hout => if_neg hout⟩
  · obtain ⟨s₁, s', hwalk, hleads, hnext, hvisited, hports⟩ := walkRound_other hbar hid
    rw [hwalk] at hround
    exact ⟨s', .head hround hleads, hnext, hvisited, fun k =>
      ⟨fun hclaims => absurd hclaims.1 hid, fun _ => by rw [hports]⟩⟩

/-- **One capability**, when they are not. -/
theorem capability_outside (hcursor : s.cursor = .walk (4 * p)) (hp : p ≠ 0) (hbar : s.bar = bar)
    (hwf : capabilityId (bar (4 * p)) = 2 → WellFormed bar p) (hfits : ¬ FitsPorts bar p) :
    Loop.Ends (capabilityRound n) s (.error .outside) := by
  rw [FitsPorts, not_forall] at hfits
  obtain ⟨k, hk⟩ := hfits
  rw [Classical.not_imp] at hk
  obtain ⟨hclaims, hout⟩ := hk
  have hwf := hwf hclaims.1
  have hround := capabilityRound_walk (n := n) hcursor (by omega)
  rw [walkRound_protocol hbar hclaims.1 hwf] at hround
  have hindex := toNat_portIndex hwf
  have hcount := toNat_portCount bar p
  obtain ⟨hfirst, hlast⟩ := (claims_iff hclaims.1 hwf k).mp hclaims
  exact (Loop.ends_again hround).mpr (ports_outside rfl (by omega) (by omega))

/-! ### The whole walk -/

theorem walkRound_visited {r : Loop.Step CapabilityWalk CapabilityWalk}
    (h : walkRound n xecp s = .ok r) :
    ∃ s', r = .again s' ∧ s'.visited = s.visited ++ [xecp] := by
  rw [walkRound, bind_eq_ok] at h
  obtain ⟨data, -, h⟩ := h
  dsimp only at h
  split at h
  · split at h
    · rw [bind_eq_ok] at h
      obtain ⟨bar, -, h⟩ := h
      cases h
      exact ⟨_, rfl, rfl⟩
    · cases h
      exact ⟨_, rfl, rfl⟩
  · split at h
    · simp only [bind_eq_ok] at h
      obtain ⟨_, -, _, -, _, -, h⟩ := h
      cases h
      exact ⟨_, rfl, rfl⟩
    · cases h
      exact ⟨_, rfl, rfl⟩

theorem visited_round {r : Loop.Step CapabilityWalk CapabilityWalk}
    (h : capabilityRound n s = .ok r) :
    r = .done s ∨ ∃ s', r = .again s' ∧ s.visited <+: s'.visited := by
  rw [capabilityRound] at h
  split at h
  · split at h
    · cases h
      exact .inl rfl
    · obtain ⟨s', rfl, hvisited⟩ := walkRound_visited h
      exact .inr ⟨s', rfl, hvisited ▸ List.prefix_append _ _⟩
  · cases h
    exact .inr ⟨_, rfl, List.prefix_rfl⟩
  · cases h
    exact .inr ⟨_, rfl, List.prefix_rfl⟩
  · split at h
    · rw [bind_eq_ok] at h
      obtain ⟨_, -, h⟩ := h
      cases h
      exact .inr ⟨_, rfl, List.prefix_rfl⟩
    · cases h
      exact .inr ⟨_, rfl, List.prefix_rfl⟩

theorem visited_leads (h : Loop.Leads (capabilityRound n) s s') : s.visited <+: s'.visited := by
  induction h with
  | refl => exact List.prefix_rfl
  | tail _ hround ih =>
    rcases visited_round hround with hdone | ⟨s'', hagain, hprefix⟩
    · cases hdone
    · cases hagain
      exact ih.trans hprefix

theorem visited_ends (h : Loop.Ends (capabilityRound n) s (.ok s')) :
    s.visited <+: s'.visited := by
  obtain ⟨s₁, hleads, hround⟩ := h.exists_leads
  rcases visited_round hround with hdone | ⟨s'', hagain, -⟩
  · cases hdone
    exact visited_leads hleads
  · cases hagain

theorem visited_walk (h : Loop.Ends (capabilityRound n) s (.ok s'))
    (hcursor : s.cursor = .walk xecp) (hxecp : xecp ≠ 0) :
    s.visited ++ [xecp] <+: s'.visited := by
  have hround := capabilityRound_walk (n := n) hcursor hxecp
  match hwalk : walkRound n xecp s with
  | .error e =>
    rw [hwalk] at hround
    cases (Loop.ends_error hround).mp h
  | .ok r =>
    obtain ⟨s₁, rfl, hvisited⟩ := walkRound_visited hwalk
    rw [hwalk] at hround
    rw [← hvisited]
    exact visited_ends ((Loop.ends_again hround).mp h)

theorem ListFrom.head {ps : List Nat} (h : ListFrom bar p ps) : ∃ rest, ps = p :: rest := by
  cases h <;> exact ⟨_, rfl⟩

theorem capabilities_of_first {ps : List Nat} (hfirst : (bar hccparams1Offset).toNat / 2 ^ 16 = p)
    (hp : p ≠ 0) (h : ListFrom bar p ps) : Capabilities bar ps := by
  subst hfirst
  exact .inr ⟨hp, h⟩

theorem walk_zero_ends (hcursor : s.cursor = .walk 0) :
    Loop.Ends (capabilityRound n) s (.ok s) :=
  (Loop.ends_done (by rw [capabilityRound, hcursor]; exact if_pos rfl)).mpr rfl

theorem start_cursor_walk (bar : Registers) : (CapabilityWalk.start bar).cursor =
    .walk (4 * ((bar hccparams1Offset).toNat / 2 ^ 16)) := by
  rw [CapabilityWalk.start, hccparams1Xecp, Nat.mul_comm]

section First

variable (hstart : (CapabilityWalk.start bar).cursor = .walk (4 * p)) (hp : p ≠ 0)
  (hwf : capabilityId (bar (4 * p)) = 2 → WellFormed bar p)

include hstart hp hwf

theorem fits_of_follows {ps : List Nat} (h : FollowsList n bar ps) : FitsPorts bar p := by
  obtain ⟨s, hends, -⟩ := h
  by_contra hfits
  cases hends.unique (capability_outside hstart hp rfl hwf hfits)

theorem follows_one (hlast : nextDistance (bar (4 * p)) = 0) (hfits : FitsPorts bar p) :
    FollowsList n bar [p] := by
  have hbar : (CapabilityWalk.start bar).bar = bar := rfl
  obtain ⟨s, hleads, hwalk, hvisited, hports⟩ :=
    capability_leads (n := n) hstart hp hbar hwf hfits
  rw [nextXecp, ← nextDistance, hlast, Nat.zero_mul] at hwalk
  refine ⟨s, hleads.ends_iff.mpr (walk_zero_ends hwalk), hvisited, fun k => ?_⟩
  obtain ⟨hin, hout⟩ := hports k
  by_cases hclaims : Claims bar p k
  · simp [hin hclaims, hclaims]
  · simp [hout hclaims, hclaims, CapabilityWalk.start]

theorem not_follows_two (hnext : nextDistance (bar (4 * p)) ≠ 0) (rest : List Nat) :
    ¬ FollowsList n bar (p :: (p + nextDistance (bar (4 * p))) :: rest) := by
  intro h
  have hbar : (CapabilityWalk.start bar).bar = bar := rfl
  obtain ⟨s, hleads, hwalk, hvisited, -⟩ :=
    capability_leads (n := n) hstart hp hbar hwf (fits_of_follows hstart hp hwf h)
  obtain ⟨s', hends, hlist, -⟩ := h
  have hxecp : nextXecp (bar (4 * p)) ≠ 0 := by
    rw [nextXecp, ← nextDistance]
    omega
  have hprefix := visited_walk (hleads.ends_iff.mp hends) hwalk hxecp
  rw [hvisited, hlist, List.map_cons, List.map_cons] at hprefix
  have hsecond : nextXecp (bar (4 * p)) = 4 * (p + nextDistance (bar (4 * p))) := by
    obtain ⟨t, ht⟩ := hprefix
    exact (List.cons.inj (List.cons.inj ht).2).1
  rw [nextXecp, ← nextDistance] at hsecond
  omega

end First

/-- **When the loop follows the list**: exactly if there is no second capability, and the first
one claims no port behind the array. -/
theorem walk_follows_iff (n : Nat) {bar : Registers} {ps : List Nat}
    (hlist : Capabilities bar ps)
    (hwf : ∀ p ∈ ps, capabilityId (bar (4 * p)) = 2 → WellFormed bar p) :
    FollowsList n bar ps ↔ ps.length ≤ 1 ∧ ∀ p ∈ ps, FitsPorts bar p := by
  have hstart := start_cursor_walk bar
  rcases hlist with ⟨hzero, rfl⟩ | ⟨hfirst, hlist⟩
  · rw [hzero] at hstart
    have hfollows : FollowsList n bar [] :=
      ⟨_, walk_zero_ends hstart, rfl, fun k => by simp [CapabilityWalk.start]⟩
    exact ⟨fun _ => by simp, fun _ => hfollows⟩
  · generalize (bar hccparams1Offset).toNat / 2 ^ 16 = p at hstart hfirst hlist
    cases hlist with
    | last hlast =>
      have hhead := hwf p List.mem_cons_self
      rw [List.forall_mem_singleton]
      exact ⟨fun h => ⟨Nat.le_refl 1, fits_of_follows hstart hfirst hhead h⟩,
        fun h => follows_one hstart hfirst hhead hlast h.2⟩
    | cons hnext hrest =>
      have hhead := hwf p List.mem_cons_self
      obtain ⟨rest, rfl⟩ := hrest.head
      refine ⟨fun h => absurd h (not_follows_two hstart hfirst hhead hnext rest), fun h => ?_⟩
      have htwo := h.1
      simp at htwo

/-- One capability, of USB 3, with the first four ports. -/
def oneProtocol : Registers := fun i =>
  if i = hccparams1Offset then 0x00080001
  else if i = 32 then 0x03000002 else if i = 36 then usbName else if i = 40 then 0x401
  else 0

theorem walk_follows_one_protocol : Capabilities oneProtocol [8] ∧
    FollowsList 0 oneProtocol [8] ∧ Claims oneProtocol 8 3 ∧ usbMaj (oneProtocol 32) = 3 := by
  have hlast : nextDistance (oneProtocol (4 * 8)) = 0 := by decide
  have hfirst : (oneProtocol hccparams1Offset).toNat / 2 ^ 16 = 8 := by decide
  have hlist := capabilities_of_first hfirst (by decide) (.last hlast)
  have hwf : ∀ p ∈ [8], capabilityId (oneProtocol (4 * p)) = 2 → WellFormed oneProtocol p := by
    intro p hp _
    obtain rfl : p = 8 := List.mem_singleton.mp hp
    exact ⟨by decide, by decide, by decide⟩
  have hfits : ∀ p ∈ [8], FitsPorts oneProtocol p := by
    intro p hp k hk
    obtain rfl : p = 8 := List.mem_singleton.mp hp
    have hports : portOffset oneProtocol 8 + portCount oneProtocol 8 = 5 := by decide
    have hport := hk.2.2
    have hlength : portIsUsb3Length = 64 := rfl
    omega
  exact ⟨hlist, (walk_follows_iff 0 hlist hwf).mpr ⟨by decide, hfits⟩,
    ⟨by decide, by decide, by decide⟩, by decide⟩

/-- Ports 1 and 2 are of USB 2, and ports 3 and 4 of USB 3. -/
def twoProtocols : Registers := fun i =>
  if i = hccparams1Offset then 0x00080001
  else if i = 32 then 0x02000402 else if i = 36 then usbName else if i = 40 then 0x201
  else if i = 48 then 0x03000002 else if i = 52 then usbName else if i = 56 then 0x203
  else 0

/-- The loop goes from the first capability to the register with the parameters. -/
theorem second_capability_missed : Capabilities twoProtocols [8, 12] ∧
    (∀ p ∈ [8, 12], WellFormed twoProtocols p) ∧ Claims twoProtocols 12 2 ∧
    usbMaj (twoProtocols 48) = 3 ∧ ¬ FollowsList 0 twoProtocols [8, 12] := by
  have hwf : ∀ p ∈ [8, 12], WellFormed twoProtocols p := by
    intro p hp
    rcases List.mem_cons.mp hp with rfl | hp
    · exact ⟨by decide, by decide, by decide⟩
    · obtain rfl : p = 12 := List.mem_singleton.mp hp
      exact ⟨by decide, by decide, by decide⟩
  have hfirst : (twoProtocols hccparams1Offset).toNat / 2 ^ 16 = 8 := by decide
  have hnext : nextDistance (twoProtocols (4 * 8)) = 4 := by decide
  have hrest : ListFrom twoProtocols (8 + nextDistance (twoProtocols (4 * 8))) [12] := by
    rw [hnext]
    exact .last (by decide)
  have hne : nextDistance (twoProtocols (4 * 8)) ≠ 0 := by
    rw [hnext]
    decide
  refine ⟨capabilities_of_first hfirst (by decide) (.cons hne hrest), hwf,
    ⟨by decide, by decide, by decide⟩, by decide, ?_⟩
  have hstart := start_cursor_walk twoProtocols
  rw [hfirst] at hstart
  have hmissed := not_follows_two (n := 0) hstart (by decide) (fun _ => hwf 8 List.mem_cons_self)
    hne []
  rw [hnext] at hmissed
  exact hmissed

end Stuos.Usb
