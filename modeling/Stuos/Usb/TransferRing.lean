import Stuos.Lib.Lts
import Stuos.Usb.Trb

/-!
# Transfer and command rings

The driver is the producer (`enqueue_ring`) and the controller the consumer.

* `transfer_ring_delivers`: the controller sees the enqueued TRBs, in order and each once,
  as long as no more than `count - 1` are outstanding, and one fewer while the controller
  still stands in front of the link TRB.
* `transfer_ring_stuck`: without the second condition the link TRB is toggled back before
  the controller has followed it, and the ring is stuck.
-/

namespace Stuos.Usb

open Stuos.Lib

/-- A controller that consumes a ring: the slot it is at and its consumer cycle state. -/
structure Consumer where
  slot : Nat
  cycleState : Bool
  deriving DecidableEq, Repr

/-- The slot at a physical address. -/
def Ring.slotAt (ring : Ring) (address : BitVec 64) : Nat :=
  (address - ring.trbsPhys).toNat / TRB.size

/-- One step of the controller: it waits while the cycle bit in front of it is not its
own, follows a link TRB, and processes any other TRB. -/
def Consumer.next (ring : Ring) (c : Consumer) : Option (Consumer × Option TRB) :=
  let trb := ring.trbs c.slot
  if trb.cycleBit ≠ c.cycleState then none
  else if trb.trbType = trbTypeLink then
    some ({ slot := ring.slotAt trb.parameter, cycleState := c.cycleState ^^ trb.toggleCycle },
      none)
  else some ({ c with slot := c.slot + 1 }, some trb)

/-- A ring in use, with the TRBs given to `enqueue_ring` and those the controller saw. -/
structure Transfer where
  ring : Ring
  consumer : Consumer
  enqueued : List TRB
  seen : List TRB

inductive TransferEvent
  | enqueue (trb : TRB)
  | consume

/-- A ring from `create_ring`, which the controller reads from the start with the cycle
state of the driver. -/
def Transfer.start (trbPhys : BitVec 64) : Transfer where
  ring := createRing trbPhys
  consumer := { slot := 0, cycleState := true }
  enqueued := []
  seen := []

/-- Any interleaving of `enqueue_ring` calls with steps of the controller. -/
def transfer : Lts Transfer TransferEvent where
  init s := ∃ trbPhys, s = Transfer.start trbPhys
  step s ev s' := match ev with
    | .enqueue trb => s' =
      { s with ring := enqueueRing s.ring trb, enqueued := s.enqueued ++ [trb] }
    | .consume => ∃ c out, s.consumer.next s.ring = some (c, out) ∧
      s' = { s with consumer := c, seen := s.seen ++ out.toList }

/-- No more than `count - 1` TRBs are unconsumed, with the one about to be enqueued. -/
def Outstanding (s : Transfer) : TransferEvent → Prop
  | .enqueue _ => s.enqueued.length + 1 - s.seen.length ≤ s.ring.count - 1
  | .consume => True

/-- The condition of the ring: TRBs that are no links, at most `count - 1` of them
unconsumed, and one fewer while the controller has not followed the link TRB. -/
def Roomy (s : Transfer) : TransferEvent → Prop
  | .enqueue trb => trb.trbType ≠ trbTypeLink ∧
    s.enqueued.length + 1 - s.seen.length ≤ s.ring.count - 1 ∧
    (s.consumer.slot = s.ring.count - 1 →
      s.enqueued.length + 1 - s.seen.length ≤ s.ring.count - 2)
  | .consume => True

/-- A run of controller steps only, at most `k` of them, to a state in which it has seen
one TRB more. -/
def DeliversNext (k : Nat) (s : Transfer) : Prop :=
  ∃ l s', l.length ≤ k ∧ transfer.Run (fun _ ev => ev = .consume) s l s' ∧
    s'.seen.length = s.seen.length + 1

/-- The controller has seen the first of the enqueued TRBs, in order and each once, and is
never more than two steps from the next one. -/
structure Delivers (s : Transfer) : Prop where
  inOrder : s.seen.map TRB.payload <+: s.enqueued.map TRB.payload
  next : s.seen.length < s.enqueued.length → DeliversNext 2 s

/-- Where the controller is after `m` TRBs: at the slot of the next one, or still in front
of the link TRB, which then has not been toggled again. -/
inductive Position (n m enqueued : Nat) (c : Consumer) : Prop
  | slot : c.slot = m % n → c.cycleState = lapBit n m → Position n m enqueued c
  | link : c.slot = n → m % n = 0 → 0 < m → c.cycleState = !lapBit n m → enqueued < m + n →
    Position n m enqueued c

/-- The state of a ring with `n` slots and a link. -/
structure Transfer.Inv (n : Nat) (s : Transfer) : Prop where
  pos : 0 < n
  count : s.ring.count = n + 1
  laps : Laps n TRB.mark TRB.cycleBit s.ring.trbs s.enqueued
  idx : s.ring.idx = s.enqueued.length % n
  state : s.ring.ringCycleState = lapBit n s.enqueued.length
  link : s.ring.trbs n = (TRB.link s.ring.trbsPhys).mark (!lapBit n s.enqueued.length)
  types : ∀ t ∈ s.enqueued, t.trbType ≠ trbTypeLink
  seen : s.seen.map TRB.payload = (s.enqueued.take s.seen.length).map TRB.payload
  le : s.seen.length ≤ s.enqueued.length
  room : s.enqueued.length ≤ s.seen.length + n
  position : Position n s.seen.length s.enqueued.length s.consumer

section

variable {n : Nat} {s : Transfer}

theorem Transfer.Inv.start (trbPhys : BitVec 64) :
    Transfer.Inv 255 (Transfer.start trbPhys) where
  pos := by decide
  count := rfl
  laps := by
    constructor
    · intro k a ha
      exact absurd ha (by simp [Transfer.start])
    · intro j _ hj
      show TRB.cycleBit (Function.update (fun _ => TRB.zero) 255 (TRB.link trbPhys) j) = false
      rw [Function.update_of_ne (Nat.ne_of_lt hj)]
      rfl
  idx := rfl
  state := (lapBit_zero _).symm
  link := by
    show Function.update (fun _ => TRB.zero) 255 (TRB.link trbPhys) 255 =
      (TRB.link trbPhys).mark (!lapBit 255 0)
    rw [Function.update_self, lapBit_zero]
    rfl
  types t ht := absurd ht List.not_mem_nil
  seen := rfl
  le := le_refl _
  room := Nat.zero_le _
  position := .slot rfl (lapBit_zero _).symm

/-- The ring after `enqueue_ring`: the slot of the next item is written, and at the end of
a lap the link TRB is toggled. -/
theorem Transfer.Inv.enqueueRing_eq (h : s.Inv n) (trb : TRB) :
    enqueueRing s.ring trb =
      { s.ring with
        idx := (s.enqueued.length + 1) % n
        trbs := Function.update
          (Function.update s.ring.trbs (s.enqueued.length % n)
            (trb.mark (lapBit n s.enqueued.length))) n
          ((TRB.link s.ring.trbsPhys).mark (!lapBit n (s.enqueued.length + 1)))
        ringCycleState := lapBit n (s.enqueued.length + 1) } := by
  have hlt := Nat.mod_lt s.enqueued.length h.pos
  rw [succ_mod h.pos, lapBit_succ h.pos]
  unfold enqueueRing
  simp only [h.count, h.idx, h.state, Nat.add_sub_cancel]
  by_cases hwrap : s.enqueued.length % n + 1 = n
  · have hne : n ≠ s.enqueued.length % n := by omega
    simp only [hwrap, if_true, Function.update_of_ne hne, h.link, TRB.mark_mark,
      TRB.cycleBit_mark]
  · have hne : n ≠ s.enqueued.length % n := by omega
    simp only [if_neg hwrap]
    rw [← h.link, Function.update_comm hne.symm, Function.update_eq_self]

/-- **Enqueueing keeps the ring in order.** -/
theorem Transfer.Inv.enqueue (h : s.Inv n) {trb : TRB} (hok : Roomy s (.enqueue trb)) :
    Transfer.Inv n
      { s with ring := enqueueRing s.ring trb, enqueued := s.enqueued ++ [trb] } := by
  obtain ⟨htype, hroom, hlink⟩ := hok
  rw [h.count, Nat.add_sub_cancel] at hroom hlink
  have hlt := Nat.mod_lt s.enqueued.length h.pos
  have hlen : (s.enqueued ++ [trb]).length = s.enqueued.length + 1 := by simp
  rw [h.enqueueRing_eq trb]
  constructor
  case pos => exact h.pos
  case count => exact h.count
  case laps =>
    apply (h.laps.write trb).congr h.pos
    intro j hj
    exact Function.update_of_ne (Nat.ne_of_lt hj) ..
  case idx => exact congrArg (· % n) hlen.symm
  case state => exact congrArg (lapBit n) hlen.symm
  case link =>
    show Function.update _ _ _ n = _
    rw [Function.update_self, hlen]
  case types =>
    intro t ht
    rw [List.mem_append, List.mem_singleton] at ht
    rcases ht with ht | rfl
    · exact h.types t ht
    · exact htype
  case seen =>
    show s.seen.map TRB.payload = ((s.enqueued ++ [trb]).take s.seen.length).map TRB.payload
    rw [List.take_append_of_le_length h.le]
    exact h.seen
  case le =>
    have hle := h.le
    show s.seen.length ≤ (s.enqueued ++ [trb]).length
    omega
  case room =>
    show (s.enqueued ++ [trb]).length ≤ s.seen.length + n
    omega
  case position =>
    show Position n s.seen.length (s.enqueued ++ [trb]).length s.consumer
    cases h.position with
    | slot hslot hstate => exact .slot hslot hstate
    | link hslot hmod hm hstate hnext =>
      have hn := hlink hslot
      have hpos := h.pos
      exact .link hslot hmod hm hstate (by omega)

/-! ### The controller -/

theorem Transfer.Inv.next_slot (h : s.Inv n) (hslot : s.consumer.slot = s.seen.length % n)
    (hstate : s.consumer.cycleState = lapBit n s.seen.length) {t : TRB}
    (ht : s.enqueued[s.seen.length]? = some t) :
    s.consumer.next s.ring = some ({ s.consumer with slot := s.consumer.slot + 1 },
      some (t.mark (lapBit n s.seen.length))) := by
  have hread := h.laps.read ht h.room
  have htype := h.types t (List.mem_of_getElem? ht)
  unfold Consumer.next
  simp only [hslot, hstate, hread, TRB.cycleBit_mark, TRB.trbType_mark, ne_eq,
    not_true_eq_false, if_false, if_neg htype]

theorem Transfer.Inv.next_none (h : s.Inv n) (hslot : s.consumer.slot = s.seen.length % n)
    (hstate : s.consumer.cycleState = lapBit n s.seen.length)
    (hall : s.seen.length = s.enqueued.length) : s.consumer.next s.ring = none := by
  have hbit := h.laps.bit_next h.pos TRB.cycleBit_mark
  unfold Consumer.next
  simp only [hslot, hstate, hall, hbit]
  cases lapBit n s.enqueued.length <;> rfl

theorem lapBit_eq_of_lt {m k : Nat} (hpos : 0 < n) (hm : m % n = 0) (hle : m ≤ k)
    (hlt : k < m + n) : lapBit n k = lapBit n m := by
  obtain ⟨q, rfl⟩ := Nat.dvd_of_mod_eq_zero hm
  have h1 : k / n = q := Nat.div_eq_of_lt_le (by rw [Nat.mul_comm]; omega)
    (by rw [Nat.add_mul, Nat.mul_comm]; omega)
  rw [lapBit, lapBit, h1, Nat.mul_div_cancel_left _ hpos]

theorem toggleCycle_link (trbPhys : BitVec 64) (b : Bool) :
    ((TRB.link trbPhys).mark b).toggleCycle = true := by
  show (1 : BitVec 9).getLsbD 0 = true
  decide

theorem Ring.slotAt_self (ring : Ring) : ring.slotAt ring.trbsPhys = 0 := by
  simp [Ring.slotAt]

theorem Transfer.Inv.next_link (h : s.Inv n) (hslot : s.consumer.slot = n)
    (hmod : s.seen.length % n = 0) (hstate : s.consumer.cycleState = !lapBit n s.seen.length)
    (hlt : s.enqueued.length < s.seen.length + n) :
    s.consumer.next s.ring =
      some ({ slot := 0, cycleState := lapBit n s.seen.length }, none) := by
  have hbit := lapBit_eq_of_lt h.pos hmod h.le hlt
  have htype : ∀ b, ((TRB.link s.ring.trbsPhys).mark b).trbType = trbTypeLink := fun _ => rfl
  have hparameter : ∀ b, ((TRB.link s.ring.trbsPhys).mark b).parameter = s.ring.trbsPhys :=
    fun _ => rfl
  unfold Consumer.next
  simp only [hslot, hstate, h.link, hbit, TRB.cycleBit_mark, ne_eq, not_true_eq_false, if_false,
    htype, hparameter, if_true, toggleCycle_link, Ring.slotAt_self, Bool.xor_true, Bool.not_not]

/-- **A step of the controller keeps the ring in order.** -/
theorem Transfer.Inv.consume (h : s.Inv n) {c : Consumer} {out : Option TRB}
    (hnext : s.consumer.next s.ring = some (c, out)) :
    Transfer.Inv n { s with consumer := c, seen := s.seen ++ out.toList } := by
  cases h.position with
  | link hslot hmod hm hstate hlt =>
    rw [h.next_link hslot hmod hstate hlt, Option.some.injEq, Prod.mk.injEq] at hnext
    obtain ⟨rfl, rfl⟩ := hnext
    rw [Option.toList_none, List.append_nil]
    exact { h with position := .slot hmod.symm rfl }
  | slot hslot hstate =>
    rcases Nat.lt_or_eq_of_le h.le with hlt | hall
    · have ht := List.getElem?_eq_getElem hlt
      generalize s.enqueued[s.seen.length] = t at ht
      rw [h.next_slot hslot hstate ht, Option.some.injEq, Prod.mk.injEq] at hnext
      obtain ⟨rfl, rfl⟩ := hnext
      rw [Option.toList_some]
      have hroom := h.room
      have hmlt := Nat.mod_lt s.seen.length h.pos
      have hlen : (s.seen ++ [t.mark (lapBit n s.seen.length)]).length = s.seen.length + 1 := by
        simp
      refine { h with seen := payload_take_succ _ h.seen ht, le := ?_, room := ?_, position := ?_ }
      · show (s.seen ++ _).length ≤ s.enqueued.length
        omega
      · show s.enqueued.length ≤ (s.seen ++ _).length + n
        omega
      · show Position n (s.seen ++ _).length s.enqueued.length _
        rw [hlen]
        by_cases hwrap : s.seen.length % n + 1 = n
        · have hmod : (s.seen.length + 1) % n = 0 := by rw [succ_mod h.pos, if_pos hwrap]
          have hbit : s.consumer.cycleState = !lapBit n (s.seen.length + 1) := by
            rw [lapBit_succ h.pos, if_pos hwrap, Bool.not_not, hstate]
          exact .link (by rw [← hwrap, ← hslot]) hmod (Nat.succ_pos _) hbit (by omega)
        · apply Position.slot
          · show s.consumer.slot + 1 = _
            rw [succ_mod h.pos, if_neg hwrap, hslot]
          · show s.consumer.cycleState = _
            rw [lapBit_succ h.pos, if_neg hwrap, hstate]
    · rw [h.next_none hslot hstate hall] at hnext
      cases hnext

theorem Transfer.Inv.step (h : s.Inv n) {ev : TransferEvent} {s' : Transfer} (hok : Roomy s ev)
    (hstep : transfer.step s ev s') : s'.Inv n := by
  cases ev with
  | enqueue trb =>
    obtain rfl := hstep
    exact h.enqueue hok
  | consume =>
    obtain ⟨c, out, hnext, rfl⟩ := hstep
    exact h.consume hnext

theorem Transfer.Inv.deliversNext_slot (h : s.Inv n)
    (hslot : s.consumer.slot = s.seen.length % n)
    (hstate : s.consumer.cycleState = lapBit n s.seen.length)
    (hlt : s.seen.length < s.enqueued.length) : DeliversNext 1 s := by
  have hnext := h.next_slot hslot hstate (List.getElem?_eq_getElem hlt)
  have hstep : transfer.step s .consume _ := ⟨_, _, hnext, rfl⟩
  exact ⟨[.consume], _, le_refl _, Lts.Run.snoc (.nil s) rfl hstep, List.length_append⟩

/-- **In order, each once, and soon.** -/
theorem Transfer.Inv.delivers (h : s.Inv n) : Delivers s where
  inOrder := by
    rw [h.seen, List.map_take]
    exact List.take_prefix _ _
  next hlt := by
    cases h.position with
    | slot hslot hstate =>
      obtain ⟨l, s', hl, hrun, hseen⟩ := h.deliversNext_slot hslot hstate hlt
      exact ⟨l, s', Nat.le_succ_of_le hl, hrun, hseen⟩
    | link hslot hmod hm hstate hroom =>
      -- the link TRB is followed first
      have hnext := h.next_link hslot hmod hstate hroom
      have hstep : transfer.step s .consume
          { s with consumer := _, seen := s.seen ++ (none : Option TRB).toList } :=
        ⟨_, _, hnext, rfl⟩
      have h1 := h.consume hnext
      rw [Option.toList_none, List.append_nil] at hstep h1
      have hfollow : transfer.Run (fun _ ev => ev = .consume) s [.consume] _ :=
        Lts.Run.snoc (.nil s) rfl hstep
      obtain ⟨l, s', hl, hrun, hseen⟩ := h1.deliversNext_slot hmod.symm rfl hlt
      refine ⟨[.consume] ++ l, s', ?_, hfollow.append hrun, hseen⟩
      rw [List.length_append, List.length_singleton]
      omega

/-- **Delivery on a transfer or command ring.**  As long as the ring is used within its
room, the controller has seen the enqueued TRBs in order and each once, and what it has not
seen yet it will see within two steps. -/
theorem transfer_ring_delivers {s₀ s : Transfer} {l : List TransferEvent}
    (h0 : transfer.init s₀) (hrun : transfer.Run Roomy s₀ l s) : Delivers s := by
  obtain ⟨trbPhys, rfl⟩ := h0
  have hinv : s.Inv 255 := hrun.invariant (P := fun _ s => s.Inv 255)
    (fun _ s ev s' h hok hstep => h.step hok hstep) (Transfer.Inv.start trbPhys)
  exact hinv.delivers

/-- A normal TRB. -/
def normalTRB : TRB := { TRB.zero with trbType := 1 }

theorem Transfer.Inv.exchange (h : s.Inv n) (hn : 1 < n) {trb : TRB}
    (htype : trb.trbType ≠ trbTypeLink) (hall : s.seen.length = s.enqueued.length) :
    ∃ l s', transfer.Run Roomy s (.enqueue trb :: l) s' ∧ s'.Inv n ∧
      s'.enqueued = s.enqueued ++ [trb] ∧ s'.seen.length = s'.enqueued.length := by
  have hcount := h.count
  have hok : Roomy s (.enqueue trb) := ⟨htype, by omega, fun _ => by omega⟩
  obtain ⟨s₁, hs₁⟩ : ∃ s₁, transfer.step s (.enqueue trb) s₁ := ⟨_, rfl⟩
  have h₁ : s₁.Inv n := h.step hok hs₁
  have henqueued : s₁.enqueued = s.enqueued ++ [trb] := by rw [hs₁]
  have hseen : s₁.seen = s.seen := by rw [hs₁]
  obtain ⟨l, s', -, hconsume, hnext⟩ := h₁.delivers.next (by
    rw [henqueued, hseen, List.length_append, List.length_singleton]
    omega)
  -- the controller leaves alone what has been enqueued
  have hkept : s'.Inv n ∧ s'.enqueued = s₁.enqueued := by
    refine hconsume.invariant (P := fun _ s' => s'.Inv n ∧ s'.enqueued = s₁.enqueued) ?_
      ⟨h₁, rfl⟩
    rintro l t ev t' ⟨ht, heq⟩ rfl hstep
    have hroomy : Roomy t .consume := trivial
    refine ⟨ht.step hroomy hstep, ?_⟩
    obtain ⟨c, out, -, rfl⟩ := hstep
    exact heq
  have hrun : transfer.Run Roomy s₁ l s' := hconsume.mono (by
    rintro t ev rfl
    trivial)
  refine ⟨l, s', (Lts.Run.snoc (.nil s) hok hs₁).append hrun, hkept.1, hkept.2.trans henqueued, ?_⟩
  rw [hnext, hkept.2, henqueued, hseen, hall, List.length_append, List.length_singleton]

theorem exists_transfer_run (k : Nat) : ∃ l s, transfer.Run Roomy (Transfer.start 0x1000) l s ∧
    s.Inv 255 ∧ s.enqueued = List.replicate k normalTRB ∧ s.seen.length = k := by
  induction k with
  | zero => exact ⟨[], _, .nil _, .start 0x1000, rfl, rfl⟩
  | succ k ih =>
    obtain ⟨l, s, hrun, h, henqueued, hlen⟩ := ih
    obtain ⟨l', s', hrun', h', henqueued', hlen'⟩ :=
      h.exchange (by decide) (show normalTRB.trbType ≠ trbTypeLink by decide)
        (by rw [hlen, henqueued, List.length_replicate])
    rw [henqueued, ← List.replicate_succ'] at henqueued'
    refine ⟨_, s', hrun.append hrun', h', henqueued', ?_⟩
    rw [hlen', henqueued', List.length_replicate]

/-- The ring goes round more than once. -/
theorem transfer_ring_delivers_laps : ∃ l s, transfer.Run Roomy (Transfer.start 0x1000) l s ∧
    s.seen.map TRB.payload = List.replicate 600 normalTRB.payload := by
  obtain ⟨l, s, hrun, -, henqueued, hlen⟩ := exists_transfer_run 600
  obtain ⟨hinOrder, -⟩ := transfer_ring_delivers ⟨_, rfl⟩ hrun
  rw [henqueued, List.map_replicate] at hinOrder
  exact ⟨l, s, hrun, hinOrder.eq_of_length (by rw [List.length_map, hlen, List.length_replicate])⟩

/-! ### A ring that is too full -/

theorem Transfer.Inv.enqueue_many (h : s.Inv n) {trb : TRB} (htype : trb.trbType ≠ trbTypeLink)
    (k : Nat) (hroom : s.enqueued.length + k ≤ s.seen.length + n)
    (hlink : s.consumer.slot = n → s.enqueued.length + k < s.seen.length + n) :
    ∃ l s', transfer.Run Outstanding s l s' ∧ s'.Inv n ∧
      s'.enqueued.length = s.enqueued.length + k ∧ s'.seen = s.seen ∧
      s'.consumer = s.consumer := by
  induction k with
  | zero => exact ⟨[], s, .nil s, h, rfl, rfl, rfl⟩
  | succ k ih =>
    obtain ⟨l, s', hrun, h', hlen, hseen, hcons⟩ := ih (by omega) (fun hs => by
      have := hlink hs
      omega)
    have hcount := h'.count
    have hpos := h'.pos
    have hok : Roomy s' (.enqueue trb) := by
      refine ⟨htype, ?_, fun hslot => ?_⟩
      · rw [hlen, hseen]
        omega
      · rw [hcons, hcount, Nat.add_sub_cancel] at hslot
        have := hlink hslot
        rw [hlen, hseen]
        omega
    have hout : Outstanding s' (.enqueue trb) := hok.2.1
    have hstep : transfer.step s' (.enqueue trb) _ := rfl
    refine ⟨l ++ [.enqueue trb], _, hrun.snoc hout hstep, h'.enqueue hok, ?_, hseen, hcons⟩
    rw [List.length_append, hlen]
    rfl

theorem Transfer.Inv.consume_lap (h : s.Inv n) (hseen : s.seen = []) (hslot : s.consumer.slot = 0)
    (hfull : s.enqueued.length = n) (k : Nat) (hk : k ≤ n) :
    ∃ l s', transfer.Run Outstanding s l s' ∧ s'.Inv n ∧ s'.enqueued = s.enqueued ∧
      s'.seen.length = k ∧ s'.consumer.slot = k := by
  induction k with
  | zero => exact ⟨[], s, .nil s, h, rfl, by rw [hseen]; rfl, hslot⟩
  | succ k ih =>
    obtain ⟨l, s', hrun, h', henq, hlen, hk'⟩ := ih (by omega)
    have hlt : s'.seen.length < s'.enqueued.length := by
      rw [henq, hfull]
      omega
    cases h'.position with
    | link hn => exact absurd hn (by omega)
    | slot hmod hstate =>
      have hnext := h'.next_slot hmod hstate (List.getElem?_eq_getElem hlt)
      have hok : Outstanding s' .consume := trivial
      have hstep : transfer.step s' .consume _ := ⟨_, _, hnext, rfl⟩
      refine ⟨l ++ [.consume], _, hrun.snoc hok hstep, h'.consume hnext, henq, ?_, ?_⟩
      · exact List.length_append.trans (congrArg Nat.succ hlen)
      · exact congrArg Nat.succ hk'

/-- A link TRB to the start of the ring that does not toggle the cycle state. -/
def selfLink : TRB := { TRB.zero with parameter := 0x1000, trbType := trbTypeLink }

/-- The controller has seen the first lap and not yet followed the link TRB when the driver
fills the ring again: the link TRB is toggled twice. -/
theorem overfull_ring_waits :
    ∃ l s, transfer.Run Outstanding (Transfer.start 0x1000) l s ∧
      (∀ t ∈ s.enqueued, t.trbType ≠ trbTypeLink) ∧ s.enqueued.length = 510 ∧
      s.seen.length = 255 ∧ ∀ ev s', Outstanding s ev → ¬ transfer.step s ev s' := by
  have h0 := Transfer.Inv.start 0x1000
  have htype : normalTRB.trbType ≠ trbTypeLink := by decide
  -- a first lap, seen up to the link TRB
  obtain ⟨l1, s1, hrun1, h1, hlen1, hseen1, hcons1⟩ :=
    h0.enqueue_many htype 255 (le_refl _) (fun h => absurd h (by decide))
  obtain ⟨l2, s2, hrun2, h2, henq2, hlen2, hslot2⟩ :=
    h1.consume_lap hseen1 (by rw [hcons1]; rfl) hlen1 255 (le_refl _)
  have hN2 : s2.enqueued.length = 255 := by rw [henq2, hlen1]; rfl
  -- all but one TRB of the next lap
  obtain ⟨l3, s3, hrun3, h3, hlen3, hseen3, hcons3⟩ :=
    h2.enqueue_many htype 254 (by omega) (fun _ => by omega)
  have hM3 : s3.seen.length = 255 := by rw [hseen3, hlen2]
  have hslot3 : s3.consumer.slot = 255 := by rw [hcons3, hslot2]
  have hstate : s3.consumer.cycleState = true := by
    cases h3.position with
    | slot h => exact absurd h (by rw [hslot3, hM3]; decide)
    | link _ _ _ hstate _ =>
      rw [hstate, hM3]
      decide
  have hok : Outstanding s3 (.enqueue normalTRB) := by
    show s3.enqueued.length + 1 - s3.seen.length ≤ s3.ring.count - 1
    rw [hlen3, hN2, hM3, h3.count]
  have hstep : transfer.step s3 (.enqueue normalTRB) _ := rfl
  refine ⟨_, _, ((hrun1.append hrun2).append hrun3).snoc hok hstep, ?_, ?_, hM3, ?_⟩
  · intro t ht
    rw [List.mem_append, List.mem_singleton] at ht
    rcases ht with ht | rfl
    · exact h3.types t ht
    · exact htype
  · rw [List.length_append, hlen3, hN2]
    rfl
  · intro ev s' hev hs'
    have heq := h3.enqueueRing_eq normalTRB
    cases ev with
    | enqueue trb =>
      have hroom : (s3.enqueued ++ [normalTRB]).length + 1 - s3.seen.length ≤
          (enqueueRing s3.ring normalTRB).count - 1 := hev
      rw [List.length_append, hlen3, hN2, hM3, heq, h3.count] at hroom
      exact absurd hroom (by decide)
    | consume =>
      obtain ⟨c, out, hnext, -⟩ := hs'
      have hlink : (enqueueRing s3.ring normalTRB).trbs 255 =
          (TRB.link s3.ring.trbsPhys).mark false := by
        have hbit : (!lapBit 255 (s3.enqueued.length + 1)) = false := by
          rw [hlen3, hN2]
          decide
        rw [heq, hbit]
        simp only [Function.update_self]
      have hwait : s3.consumer.next (enqueueRing s3.ring normalTRB) = none := by
        unfold Consumer.next
        rw [hslot3, hlink, hstate]
        rfl
      rw [show s3.consumer.next (enqueueRing s3.ring normalTRB) = _ from hnext] at hwait
      cases hwait

/-- A link TRB that is enqueued is followed and never seen. -/
theorem enqueued_link_not_seen :
    ∃ s, transfer.Run Outstanding (Transfer.start 0x1000) [.enqueue selfLink] s ∧
      ∀ l s', transfer.Run (fun _ ev => ev = .consume) s l s' → s'.seen = [] := by
  have hok : Outstanding (Transfer.start 0x1000) (.enqueue selfLink) := by
    show 0 + 1 - 0 ≤ 256 - 1
    decide
  have hstep : transfer.step (Transfer.start 0x1000) (.enqueue selfLink) _ := rfl
  refine ⟨_, Lts.Run.snoc (.nil _) hok hstep, fun l s' hrun => ?_⟩
  -- the controller follows the link to where it already is
  have hnext : (Transfer.start 0x1000).consumer.next
      (enqueueRing (Transfer.start 0x1000).ring selfLink) =
        some ((Transfer.start 0x1000).consumer, none) := by decide
  have hstay := hrun.invariant (P := fun _ s' => s' = _) (fun l s ev s' h hev hst => by
    subst h hev
    obtain ⟨c, out, hnext', rfl⟩ := hst
    rw [show (Transfer.start 0x1000).consumer.next _ = some (c, out) from hnext',
      Option.some.injEq, Prod.mk.injEq] at hnext
    obtain ⟨rfl, rfl⟩ := hnext
    rfl) rfl
  rw [hstay]
  rfl

/-- **A ring that is stuck.**  With `count - 1` TRBs unconsumed the controller may wait for
the link TRB forever, while no more TRBs fit in; and an enqueued link TRB is not seen. -/
theorem transfer_ring_stuck :
    (∃ l s, transfer.Run Outstanding (Transfer.start 0x1000) l s ∧
      (∀ t ∈ s.enqueued, t.trbType ≠ trbTypeLink) ∧ s.enqueued.length = 510 ∧
      s.seen.length = 255 ∧ ∀ ev s', Outstanding s ev → ¬ transfer.step s ev s') ∧
    ∃ s, transfer.Run Outstanding (Transfer.start 0x1000) [.enqueue selfLink] s ∧
      ∀ l s', transfer.Run (fun _ ev => ev = .consume) s l s' → s'.seen = [] :=
  ⟨overfull_ring_waits, enqueued_link_not_seen⟩

end

end Stuos.Usb
