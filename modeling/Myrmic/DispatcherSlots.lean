import Myrmic.Machine

/-!
# The slots of the dispatcher

Every subscriber, queryable and get of a zenoh-nano session claims one **slot** of the pool.  The slot's
route says which messages it gets, and its channel holds them until they are received.  The handle that
frees the slot when it is dropped is built only after the operation has published its declaration or
request, and the publish may have to wait.

An operation that is dropped while it waits there leaves its slot taken for good (`slot_leaked`).  **If no
operation is dropped while it publishes, a slot is taken exactly as long as a live operation holds it**, by
one operation at a time; and every operation receives only messages that were delivered while it was
registered and that its route asks for, in the order of delivery (`slots_follow_operations`).
-/
namespace Myrmic.Dispatcher
open Machine Function

/-- The key expressions of the protocol's crate. -/
class KeyExprs where
  isKeyexpr : String → Bool
  intersects : String → String → Bool

abbrev ZBuf := List UInt8

/-- What the messages for a slot are chosen by. -/
inductive Route where
  | subscriber (key : String)
  | queryable (key : String)
  | get (requestId : UInt32)

/-- What is put into the channel of a slot. -/
inductive Routed where
  | push (key : String) (payload : ZBuf)
  | query (requestId : UInt32) (qos : UInt8) (body attachment : Option ZBuf)
  | reply (payload : ZBuf)
  | replyErr (payload : ZBuf)
  | final
deriving DecidableEq

/-- A message from the network; `other` is what the dispatcher ignores. -/
inductive NetworkMessage where
  | push (key : String) (payload : ZBuf)
  | request (id : UInt32) (key : String) (qos : UInt8) (body attachment : Option ZBuf)
  | reply (rid : UInt32) (payload : ZBuf)
  | err (rid : UInt32) (payload : ZBuf)
  | responseFinal (rid : UInt32)
  | other

section Routing
variable [KeyExprs]

/-- Falls back to exact equality when either side is not a valid keyexpr. -/
def keyMatches (declared incoming : String) : Bool :=
  if KeyExprs.isKeyexpr declared && KeyExprs.isKeyexpr incoming then
    KeyExprs.intersects declared incoming
  else declared == incoming

/-- What a consumer with the route gets of a message. -/
def Route.routed : Route → NetworkMessage → Option Routed
  | .subscriber declared, .push key payload =>
    if keyMatches declared key then some (.push key payload) else none
  | .queryable declared, .request id key qos body attachment =>
    if keyMatches declared key then some (.query id qos body attachment) else none
  | .get requestId, .reply rid payload => if requestId = rid then some (.reply payload) else none
  | .get requestId, .err rid payload => if requestId = rid then some (.replyErr payload) else none
  | .get requestId, .responseFinal rid => if requestId = rid then some .final else none
  | _, _ => none

end Routing

/-- A slot in use. -/
structure Registration where
  owner : Nat
  route : Route
  /-- What was delivered on the session since the slot was claimed. -/
  delivered : List NetworkMessage
  /-- What its owner received. -/
  received : List Routed

/-- A get, queryable or subscriber. -/
inductive Operation where
  | new
  /-- The slot is claimed, and there is no handle yet. -/
  | publishing (slot : Nat)
  | opened (slot : Nat)
  | dropped
deriving DecidableEq

/-- The slot that an operation holds. -/
def Operation.slot : Operation → Option Nat
  | .publishing slot | .opened slot => some slot
  | .new | .dropped => none

/-- The slots with their channels, and the operations by number. -/
structure State where
  routes : Nat → Option Registration
  channels : Nat → List Routed
  operations : Nat → Operation

def State.initial : State := ⟨fun _ => none, fun _ => [], fun _ => .new⟩

inductive Action where
  | register (i : Nat) (route : Route)
  | published (i : Nat)
  | receive (i : Nat)
  | drop (i : Nat)
  | deliver (msg : NetworkMessage)

section Pool
variable [KeyExprs] (slots depth : Nat)

/-- The first free slot. -/
def State.register (st : State) : Option Nat :=
  (List.range slots).find? fun idx => (st.routes idx).isNone

/-- A slot is given back empty. -/
def State.unregister (st : State) (idx : Nat) : State :=
  { st with routes := update st.routes idx none, channels := update st.channels idx [] }

/-- A full channel drops the message. -/
def tryRoute (channel : List Routed) (routed : Routed) : List Routed :=
  if channel.length < depth then channel ++ [routed] else channel

/-- What a message brings to the consumer of a slot. -/
def State.routed (st : State) (msg : NetworkMessage) (idx : Nat) : Option Routed :=
  (st.routes idx).bind (·.route.routed msg)

/-- A response is for the first slot with its request id, all else for every slot that matches. -/
def State.isFor (st : State) (idx : Nat) : NetworkMessage → Bool
  | msg@(.reply ..) | msg@(.err ..) | msg@(.responseFinal _) =>
    (List.range slots).find? (fun other => (st.routed msg other).isSome) = some idx
  | _ => true

/-- What the channel of a slot has after a message. -/
def State.deliver (st : State) (msg : NetworkMessage) (idx : Nat) : List Routed :=
  match st.routed msg idx with
  | some routed =>
    if st.isFor slots idx msg then tryRoute depth (st.channels idx) routed else st.channels idx
  | none => st.channels idx

def step (st : State) : Action → Option State
  | .register i route =>
    match st.operations i, st.register slots with
    | .new, some idx => some { st with
        routes := update st.routes idx (some ⟨i, route, [], []⟩)
        operations := update st.operations i (.publishing idx) }
    -- there is no free slot, and the call fails
    | .new, none => some { st with operations := update st.operations i .dropped }
    | _, _ => none
  | .published i =>
    match st.operations i with
    | .publishing slot => some { st with operations := update st.operations i (.opened slot) }
    | _ => none
  | .receive i =>
    match st.operations i with
    | .opened slot =>
      match st.channels slot with
      | [] => none
      | routed :: rest => some { st with
          routes := update st.routes slot
            ((st.routes slot).map fun r => { r with received := r.received ++ [routed] })
          channels := update st.channels slot rest }
    | _ => none
  | .drop i =>
    let after := { st with operations := update st.operations i .dropped }
    match st.operations i with
    -- without a handle nothing frees the slot
    | .publishing _ => some after
    | .opened slot => some (after.unregister slot)
    | _ => none
  | .deliver msg => some { st with
      routes := fun idx =>
        (st.routes idx).map fun r => { r with delivered := r.delivered ++ [msg] }
      channels := st.deliver slots depth msg }

end Pool

/-- No operation is dropped while it publishes. -/
def PublishesUncut (st : State) : Action → Prop
  | .drop i => ∀ slot ∈ (st.operations i).slot, st.operations i = .opened slot
  | _ => True

instance (st : State) : (action : Action) → Decidable (PublishesUncut st action)
  | .drop _ => inferInstanceAs (Decidable (∀ slot ∈ _, _ = _))
  | .register .. | .published _ | .receive _ | .deliver _ => .isTrue trivial

section Runs
variable [KeyExprs] {slots depth : Nat} {st st' : State} {act : Action}

/-- Every slot that is taken is held by the operation that claimed it, and what that operation received
and will receive was delivered to it. -/
structure Sound (st : State) : Prop where
  owned : ∀ i slot, (st.operations i).slot = some slot ↔ (st.routes slot).map (·.owner) = some i
  free : ∀ slot, st.routes slot = none → st.channels slot = []
  order : ∀ slot r, st.routes slot = some r →
    (r.received ++ st.channels slot).Sublist (r.delivered.filterMap r.route.routed)

theorem deliver_cases (slots depth : Nat) (st : State) (msg : NetworkMessage) (slot : Nat) :
    st.deliver slots depth msg slot = st.channels slot ∨
      ∃ r routed, st.routes slot = some r ∧ r.route.routed msg = some routed ∧
        st.deliver slots depth msg slot = st.channels slot ++ [routed] := by
  unfold State.deliver tryRoute
  split
  · next routed hr =>
    obtain ⟨r, hro, hm⟩ := Option.bind_eq_some_iff.mp hr
    split
    · split
      · exact .inr ⟨r, routed, hro, hm, rfl⟩
      · exact .inl rfl
    · exact .inl rfl
  · exact .inl rfl

theorem Sound.step (h : Sound st) (ha : PublishesUncut st act)
    (hs : step slots depth st act = some st') : Sound st' := by
  revert hs
  fun_cases Dispatcher.step slots depth st act <;>
    simp only [reduceCtorEq, Option.some.injEq, false_imp_iff] <;> rintro rfl
  · next i route idx hid hop =>
    have hfre : st.routes idx = none := by simpa using List.find?_some hid
    have hno := h.free idx hfre
    refine ⟨fun j slot => ?_, fun slot => ?_, fun slot r => ?_⟩
    · have hj := h.owned j slot
      have hi := h.owned i slot
      simp only [update_apply]
      grind [Operation.slot]
    · have hfr := h.free slot
      simp only [update_apply]
      grind
    · have hor := h.order slot r
      simp only [update_apply]
      grind
  · next hop =>
    refine ⟨fun j slot => ?_, h.free, h.order⟩
    have hj := h.owned j slot
    simp only [update_apply]
    grind [Operation.slot]
  · refine ⟨fun j slot => ?_, h.free, h.order⟩
    have hj := h.owned j slot
    simp only [update_apply]
    grind [Operation.slot]
  · next slot _ routed rest hch =>
    -- the slot is taken, as its channel is not empty
    have hso : st.routes slot ≠ none := fun hr => nomatch hch.symm.trans (h.free slot hr)
    refine ⟨fun j other => ?_, fun other hr => ?_, fun other r hr => ?_⟩
    · by_cases ho : other = slot
      · simpa [ho] using h.owned j slot
      · simpa [ho] using h.owned j other
    · have ho : other ≠ slot := fun ho => hso (by simpa [ho] using hr)
      simpa [ho] using h.free other (by simpa [ho] using hr)
    · by_cases ho : other = slot
      · subst ho
        simp only [update_self, Option.map_eq_some_iff] at hr
        obtain ⟨r, hold, rfl⟩ := hr
        simpa [hch] using h.order other r hold
      · simpa [ho] using h.order other r (by simpa [ho] using hr)
  · next slot hop => cases hop.symm.trans (ha slot (hop ▸ rfl))
  · next i _ slot hop =>
    refine ⟨fun j other => ?_, fun other => ?_, fun other r => ?_⟩
    · have hj := h.owned j other
      have hi := h.owned i other
      have how := h.owned i slot
      simp only [State.unregister, update_apply]
      grind [Operation.slot]
    · have hfr := h.free other
      simp only [State.unregister, update_apply]
      grind
    · have hor := h.order other r
      simp only [State.unregister, update_apply]
      grind
  · next msg =>
    refine ⟨fun j slot => ?_, fun slot hr => ?_, fun slot r hr => ?_⟩
    · simp [h.owned j slot]
    · have hr : st.routes slot = none := Option.map_eq_none_iff.mp hr
      rcases deliver_cases slots depth st msg slot with hd | ⟨r, routed, hro, -⟩
      · exact hd.trans (h.free slot hr)
      · cases hr.symm.trans hro
    · obtain ⟨r, hold, rfl⟩ := Option.map_eq_some_iff.mp hr
      have hor := h.order slot r hold
      rw [List.filterMap_append]
      dsimp only
      rcases deliver_cases slots depth st msg slot with hd | ⟨r', routed, hro, hm, hd⟩
      · exact hd ▸ hor.trans (List.sublist_append_left ..)
      · cases hold.symm.trans hro
        rw [hd, ← List.append_assoc]
        exact hor.append (by simp [hm])

/-- **A slot is taken exactly as long as a live operation holds it**, the one that claimed it, and each
operation receives only messages that were delivered since then and that its route asks for, in the order
of delivery: in every state of a run in which no operation is dropped while it publishes. -/
theorem slots_follow_operations (h : Reached (step slots depth) PublishesUncut .initial st) :
    (∀ i slot, (st.operations i).slot = some slot ↔ (st.routes slot).map (·.owner) = some i) ∧
    ∀ slot r, st.routes slot = some r →
      r.received.Sublist (r.delivered.filterMap r.route.routed) := by
  have hs : Sound st := h.holds ⟨fun _ _ => by simp [State.initial, Operation.slot],
    fun _ _ => rfl, nofun⟩ Sound.step
  exact ⟨hs.owned, fun slot r hr => (List.sublist_append_left ..).trans (hs.order slot r hr)⟩

end Runs

/-- A subscriber goes, and a get in its slot is answered. -/
theorem get_answered_in_reused_slot : ∃ (_ : KeyExprs) (st : State),
    Reached (step 1 4) PublishesUncut .initial st ∧
    (st.routes 0).map (·.received) = some [.reply [1]] ∧
    (∀ i slot, (st.operations i).slot = some slot ↔ (st.routes slot).map (·.owner) = some i) ∧
    ∀ slot r, st.routes slot = some r →
      r.received.Sublist (r.delivered.filterMap r.route.routed) := by
  let _ : KeyExprs := ⟨fun _ => true, (· == ·)⟩
  have hru : ∃ st, Reached (step 1 4) PublishesUncut .initial st ∧
      (st.routes 0).map (·.received) = some [.reply [1]] := exists_reached
    [.register 0 (.subscriber "a"), .published 0, .drop 0, .register 1 (.get 7), .published 1,
      .deliver (.reply 7 [1]), .receive 1] (by decide +kernel)
  obtain ⟨st, h, hr⟩ := hru
  exact ⟨_, st, h, hr, slots_follow_operations h⟩

/-- **A get that is dropped while its request waits to be published keeps its slot**: nobody holds it, and
the next operation finds the pool full. -/
theorem slot_leaked : ∃ (_ : KeyExprs) (st : State),
    Reached (step 1 4) (fun _ _ => True) .initial st ∧ (st.routes 0).map (·.owner) = some 0 ∧
    st.register 1 = none ∧ st.operations 0 = .dropped := by
  refine ⟨⟨fun _ => true, (· == ·)⟩, ?_⟩
  exact exists_reached [.register 0 (.get 7), .drop 0] (by decide +kernel)

end Myrmic.Dispatcher
