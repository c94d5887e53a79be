import Stuos.Lib.Lts
import Stuos.Usb.Trb

/-!
# The event ring

The controller produces and the driver consumes (`dequeue_ring`).  The last slot, which
`create_ring` fills with a link TRB, is an event slot like the others.

* `event_ring_delivers`: `dequeue_ring` returns the events of the controller, in order and
  each once, and `-1` exactly when there is none.
-/

namespace Stuos.Usb

open Stuos.Lib

/-- A controller that fills the event ring: the slot it writes next and its producer cycle
state. -/
structure Producer where
  slot : Nat
  cycleState : Bool
  deriving DecidableEq, Repr

/-- The event ring in use, with the events of the controller and those `dequeue_ring`
returned. -/
structure EventRing where
  ring : Ring
  producer : Producer
  produced : List TRB
  returned : List TRB

inductive EventRingEvent
  | produce (event : TRB)
  | dequeue (result : Option TRB)

/-- The event ring from `create_ring`. -/
def EventRing.start (trbPhys : BitVec 64) : EventRing where
  ring := createRing trbPhys
  producer := { slot := 0, cycleState := true }
  produced := []
  returned := []

/-- The controller writes all `count` slots in turn and toggles its cycle state each time
it starts over. -/
def Producer.next (p : Producer) (count : Nat) : Producer :=
  if p.slot + 1 = count then { slot := 0, cycleState := !p.cycleState }
  else { p with slot := p.slot + 1 }

/-- Any interleaving of events of the controller with `dequeue_ring` calls, which carry
what they returned. -/
def eventRing : Lts EventRing EventRingEvent where
  init s := ∃ trbPhys, s = EventRing.start trbPhys
  step s ev s' := match ev with
    | .produce event => s' =
      { ring := { s.ring with
          trbs := Function.update s.ring.trbs s.producer.slot (event.mark s.producer.cycleState) }
        producer := s.producer.next s.ring.count
        produced := s.produced ++ [event]
        returned := s.returned }
    | .dequeue none => dequeueRing s.ring = none ∧ s' = s
    | .dequeue (some trb) => ∃ ring, dequeueRing s.ring = some (trb, ring) ∧
      s' = { s with ring := ring, returned := s.returned ++ [trb] }

/-- The controller is never more than `count - 1` events ahead. -/
def NotFull (s : EventRing) : EventRingEvent → Prop
  | .produce _ => s.produced.length + 1 - s.returned.length ≤ s.ring.count - 1
  | .dequeue _ => True

/-- The first events have been returned, in order and each once, and `dequeue_ring` returns
the next one, or `-1` if there is none. -/
structure EventsInOrder (s : EventRing) : Prop where
  inOrder : s.returned.map TRB.payload <+: s.produced.map TRB.payload
  empty : dequeueRing s.ring = none ↔ s.returned.length = s.produced.length
  next : ∀ trb ring, dequeueRing s.ring = some (trb, ring) →
    s.produced[s.returned.length]?.map TRB.payload = some trb.payload

/-- The state of an event ring with `n` slots. -/
structure EventRing.Inv (n : Nat) (s : EventRing) : Prop where
  pos : 0 < n
  count : s.ring.count = n
  laps : Laps n TRB.mark TRB.cycleBit s.ring.trbs s.produced
  slot : s.producer.slot = s.produced.length % n
  cycleState : s.producer.cycleState = lapBit n s.produced.length
  idx : s.ring.idx = s.returned.length % n
  ringCycleState : s.ring.ringCycleState = lapBit n s.returned.length
  returned : s.returned.map TRB.payload =
    (s.produced.take s.returned.length).map TRB.payload
  le : s.returned.length ≤ s.produced.length
  room : s.produced.length ≤ s.returned.length + n

section

variable {n : Nat} {s : EventRing}

theorem EventRing.Inv.start (trbPhys : BitVec 64) :
    EventRing.Inv 256 (EventRing.start trbPhys) where
  pos := by decide
  count := rfl
  laps := by
    constructor
    · intro k a ha
      exact absurd ha (by simp [EventRing.start])
    · intro j _ hj
      -- the link TRB of the last slot has a clear cycle bit too
      show TRB.cycleBit (Function.update (fun _ => TRB.zero) 255 (TRB.link trbPhys) j) = false
      by_cases hlast : j = 255
      · rw [hlast, Function.update_self]
        rfl
      · rw [Function.update_of_ne hlast]
        rfl
  slot := rfl
  cycleState := (lapBit_zero _).symm
  idx := rfl
  ringCycleState := (lapBit_zero _).symm
  returned := rfl
  le := le_refl _
  room := Nat.zero_le _

theorem EventRing.Inv.dequeueRing_none (h : s.Inv n)
    (hall : s.returned.length = s.produced.length) : dequeueRing s.ring = none := by
  have hbit := h.laps.bit_next h.pos TRB.cycleBit_mark
  unfold dequeueRing
  rw [h.idx, h.ringCycleState, hall, hbit]
  cases lapBit n s.produced.length <;> rfl

theorem EventRing.Inv.dequeueRing_some (h : s.Inv n) {event : TRB}
    (he : s.produced[s.returned.length]? = some event) :
    dequeueRing s.ring = some (event.mark (lapBit n s.returned.length),
      { s.ring with
        idx := (s.returned.length + 1) % n
        ringCycleState := lapBit n (s.returned.length + 1) }) := by
  have hread := h.laps.read he h.room
  rw [succ_mod h.pos, lapBit_succ h.pos]
  unfold dequeueRing
  simp only [h.idx, h.ringCycleState, hread, h.count, TRB.cycleBit_mark, ne_eq,
    not_true_eq_false, if_false]
  by_cases hwrap : s.returned.length % n + 1 = n
  · simp only [hwrap, if_true]
  · simp only [if_neg hwrap]

theorem EventRing.Inv.produce (h : s.Inv n) {event : TRB} (hok : NotFull s (.produce event))
    {s' : EventRing} (hstep : eventRing.step s (.produce event) s') : s'.Inv n := by
  obtain rfl := hstep
  have hroom : s.produced.length + 1 - s.returned.length ≤ n - 1 := by
    have := hok
    rwa [NotFull, h.count] at this
  have hlen : (s.produced ++ [event]).length = s.produced.length + 1 := by simp
  have hle := h.le
  constructor
  case pos => exact h.pos
  case count => exact h.count
  case laps =>
    show Laps n TRB.mark TRB.cycleBit
      (Function.update s.ring.trbs s.producer.slot (event.mark s.producer.cycleState)) _
    rw [h.slot, h.cycleState]
    exact h.laps.write event
  case slot =>
    show (s.producer.next s.ring.count).slot = (s.produced ++ [event]).length % n
    rw [hlen, succ_mod h.pos, Producer.next, h.count, h.slot]
    split <;> rfl
  case cycleState =>
    show (s.producer.next s.ring.count).cycleState = lapBit n (s.produced ++ [event]).length
    rw [hlen, lapBit_succ h.pos, Producer.next, h.count, h.slot, ← h.cycleState]
    split <;> rfl
  case idx => exact h.idx
  case ringCycleState => exact h.ringCycleState
  case returned =>
    show s.returned.map TRB.payload =
      ((s.produced ++ [event]).take s.returned.length).map TRB.payload
    rw [List.take_append_of_le_length h.le]
    exact h.returned
  case le =>
    show s.returned.length ≤ (s.produced ++ [event]).length
    omega
  case room =>
    show (s.produced ++ [event]).length ≤ s.returned.length + n
    omega

theorem EventRing.Inv.dequeue (h : s.Inv n) {trb : TRB} {ring : Ring}
    (hdeq : dequeueRing s.ring = some (trb, ring)) :
    EventRing.Inv n { s with ring := ring, returned := s.returned ++ [trb] } := by
  rcases Nat.lt_or_eq_of_le h.le with hlt | hall
  · have he := List.getElem?_eq_getElem hlt
    generalize s.produced[s.returned.length] = event at he
    rw [h.dequeueRing_some he, Option.some.injEq, Prod.mk.injEq] at hdeq
    obtain ⟨rfl, rfl⟩ := hdeq
    have hroom := h.room
    have hlen : (s.returned ++ [event.mark (lapBit n s.returned.length)]).length =
        s.returned.length + 1 := by simp
    have hle : (s.returned ++ [event.mark (lapBit n s.returned.length)]).length ≤
        s.produced.length := by omega
    exact { h with
      idx := congrArg (· % n) hlen.symm
      ringCycleState := congrArg (lapBit n) hlen.symm
      returned := payload_take_succ _ h.returned he
      le := hle
      room := Nat.le_trans hroom (Nat.add_le_add_right (by rw [hlen]; omega) n) }
  · rw [h.dequeueRing_none hall] at hdeq
    cases hdeq

theorem EventRing.Inv.step (h : s.Inv n) {ev : EventRingEvent} {s' : EventRing}
    (hok : NotFull s ev) (hstep : eventRing.step s ev s') : s'.Inv n := by
  match ev with
  | .produce event => exact h.produce hok hstep
  | .dequeue none =>
    obtain ⟨-, rfl⟩ := hstep
    exact h
  | .dequeue (some trb) =>
    obtain ⟨ring, hdeq, rfl⟩ := hstep
    exact h.dequeue hdeq

theorem EventRing.Inv.eventsInOrder (h : s.Inv n) : EventsInOrder s where
  inOrder := by
    rw [h.returned, List.map_take]
    exact List.take_prefix _ _
  empty := by
    constructor
    · intro hnone
      rcases Nat.lt_or_eq_of_le h.le with hlt | hall
      · rw [h.dequeueRing_some (List.getElem?_eq_getElem hlt)] at hnone
        cases hnone
      · exact hall
    · exact h.dequeueRing_none
  next trb ring hdeq := by
    rcases Nat.lt_or_eq_of_le h.le with hlt | hall
    · rw [h.dequeueRing_some (List.getElem?_eq_getElem hlt), Option.some.injEq,
        Prod.mk.injEq] at hdeq
      rw [List.getElem?_eq_getElem hlt, Option.map_some, ← hdeq.1, TRB.payload_mark]
    · rw [h.dequeueRing_none hall] at hdeq
      cases hdeq

/-- **Consumption of the event ring.**  `dequeue_ring` returns the events of the controller
in order and each once, and `-1` exactly when there is none, over any number of laps. -/
theorem event_ring_delivers {s₀ s : EventRing} {l : List EventRingEvent}
    (h0 : eventRing.init s₀) (hrun : eventRing.Run NotFull s₀ l s) : EventsInOrder s := by
  obtain ⟨trbPhys, rfl⟩ := h0
  have hinv : s.Inv 256 := hrun.invariant (P := fun _ s => s.Inv 256)
    (fun _ s ev s' h hok hstep => h.step hok hstep) (EventRing.Inv.start trbPhys)
  exact hinv.eventsInOrder

theorem EventRing.Inv.exchange (h : s.Inv n) (hn : 1 < n)
    (hall : s.returned.length = s.produced.length) (event : TRB) :
    ∃ trb s', eventRing.Run NotFull s [.produce event, .dequeue (some trb)] s' ∧ s'.Inv n ∧
      s'.produced = s.produced ++ [event] ∧ s'.returned.length = s'.produced.length := by
  have hok : NotFull s (.produce event) := by
    rw [NotFull, h.count]
    omega
  obtain ⟨s₁, hstep⟩ : ∃ s₁, eventRing.step s (.produce event) s₁ := ⟨_, rfl⟩
  have h₁ := h.produce hok hstep
  obtain rfl := hstep
  have hevent : (s.produced ++ [event])[s.returned.length]? = some event := by
    rw [hall, List.getElem?_concat_length]
  have hdeq := h₁.dequeueRing_some hevent
  refine ⟨_, _, .snoc (.snoc (.nil s) hok rfl) trivial ⟨_, hdeq, rfl⟩, h₁.dequeue hdeq, rfl, ?_⟩
  simp [hall]

/-- A port status change event. -/
def portStatusChange : TRB := { TRB.zero with trbType := 34 }

theorem exists_event_run (k : Nat) : ∃ l s, eventRing.Run NotFull (EventRing.start 0x1000) l s ∧
    s.Inv 256 ∧ s.produced = List.replicate k portStatusChange ∧ s.returned.length = k := by
  induction k with
  | zero => exact ⟨[], _, .nil _, .start 0x1000, rfl, rfl⟩
  | succ k ih =>
    obtain ⟨l, s, hrun, h, hproduced, hlen⟩ := ih
    obtain ⟨trb, s', hrun', h', hproduced', hlen'⟩ :=
      h.exchange (by decide) (by rw [hlen, hproduced, List.length_replicate]) portStatusChange
    rw [hproduced, ← List.replicate_succ'] at hproduced'
    refine ⟨_, s', hrun.append hrun', h', hproduced', ?_⟩
    rw [hlen', hproduced', List.length_replicate]

/-- The ring goes round more than once. -/
theorem event_ring_delivers_laps : ∃ l s, eventRing.Run NotFull (EventRing.start 0x1000) l s ∧
    s.returned.map TRB.payload = List.replicate 600 portStatusChange.payload ∧
    dequeueRing s.ring = none := by
  obtain ⟨l, s, hrun, -, hproduced, hlen⟩ := exists_event_run 600
  obtain ⟨hinOrder, hempty, -⟩ := event_ring_delivers ⟨_, rfl⟩ hrun
  refine ⟨l, s, hrun, ?_, hempty.mpr (by rw [hlen, hproduced, List.length_replicate])⟩
  rw [hproduced, List.map_replicate] at hinOrder
  exact hinOrder.eq_of_length (by rw [List.length_map, hlen, List.length_replicate])

end

end Stuos.Usb
