import Mathlib.Algebra.Group.Nat.Defs
import Myrmic.Machine

/-!
# Placeholder placements of gateway sessions

Every session of the gateway claims a **placeholder placement**, so that cells can reply to it.  A WebSocket
session releases it when its socket closes.  An HTTP session may lose its streams and get new ones; a
**reaper** collects the sessions that had no stream for the grace window and releases their placements.

A WebSocket session that cannot send its first message ends without releasing anything
(`placement_left_after_ws`), and so does an HTTP request that is dropped while it claims.  **A session whose
first message is sent, whose request is not dropped while it claims, and that gets no message while it has
no stream leaves no placement**, and is not reaped while it has one (`sessions_leave_no_placement`).
-/
namespace Myrmic.GatewaySessions
open Machine Function

/-- How long a session without streams is kept, in milliseconds. -/
def httpSessionGrace : Nat := 30000

/-- What the registry of sessions has about one that was opened over HTTP. -/
structure SessionState where
  activeStreams : Nat
  deadline : Nat

def SessionState.isReapable (state : SessionState) (now : Nat) : Bool :=
  state.activeStreams = 0 ∧ state.deadline ≤ now

/-- How far the handler of a session has come. -/
inductive Phase where
  | new
  | wsClaiming
  /-- The first message of a WebSocket session is on its way. -/
  | announcing
  | serving
  | wsEnded
  | httpClaiming
  | http
deriving DecidableEq

/-- A session and what is stored for it. -/
structure Session where
  phase : Phase
  /-- The placeholder placement is stored. -/
  placement : Bool
  state : Option SessionState
  /-- The reaper has collected the session and not yet released its placement. -/
  expired : Bool
  /-- The streams that are attached. -/
  streams : Nat
  /-- Since when there is none. -/
  idleSince : Option Nat

def Session.initial : Session := ⟨.new, false, none, false, 0, none⟩

/-- What happens to a session. -/
inductive Event where
  | openWs
  | openHttp
  | claimed
  /-- The request's future is dropped while it claims; the claim may be carried out. -/
  | dropped (stored : Bool)
  | ready (sent : Bool)
  | closed
  | attachStream
  | dropStream
  | touch
  | released

/-- The next state of a session, if the event can happen in its phase. -/
def Session.on (now : Nat) (s : Session) (event : Event) : Option Session :=
  match s.phase, event with
  | .new, .openWs => some { s with phase := .wsClaiming }
  | .new, .openHttp => some { s with phase := .httpClaiming }
  | .wsClaiming, .claimed => some { s with phase := .announcing, placement := true }
  | .announcing, .ready sent => some { s with phase := if sent then .serving else .wsEnded }
  | .serving, .closed => some { s with phase := .wsEnded, placement := false }
  | .httpClaiming, .claimed => some { s with
      phase := .http, placement := true, state := some ⟨1, now + httpSessionGrace⟩, streams := 1 }
  | .httpClaiming, .dropped stored =>
    some { s with phase := .http, placement := stored, idleSince := some now }
  | .http, .attachStream => s.state.map fun state => { s with
      state := some ⟨(state.activeStreams + 1) % 2 ^ 32, now + httpSessionGrace⟩
      streams := s.streams + 1, idleSince := none }
  | .http, .dropStream =>
    if s.streams = 0 then none
    else some { s with
      state := s.state.map fun state =>
        let active := state.activeStreams - 1
        ⟨active, if active = 0 then now + httpSessionGrace else state.deadline⟩
      streams := s.streams - 1
      idleSince := if s.streams = 1 then some now else none }
  | .http, .touch =>
    s.state.map fun state => { s with state := some { state with deadline := now + httpSessionGrace } }
  | .http, .released => if s.expired then some { s with placement := false, expired := false } else none
  | _, _ => none

/-- The reaper takes a session that is past its deadline out of the map. -/
def Session.scan (now : Nat) (s : Session) : Session :=
  if s.state.any (·.isReapable now) then { s with state := none, expired := true } else s

/-- The clock of the gateway and its sessions, by number. -/
structure State where
  now : Nat
  /-- When the reaper last looked. -/
  scanned : Nat
  sessions : Nat → Session

def State.initial : State := ⟨0, 0, fun _ => .initial⟩

inductive Action where
  | tick (elapsed : Nat)
  | scan
  | session (id : Nat) (event : Event)

/-- Every scan of the reaper looks at all sessions at once. -/
def step (st : State) : Action → Option State
  | .tick elapsed => some { st with now := st.now + elapsed }
  | .scan => some { st with scanned := st.now, sessions := fun id => (st.sessions id).scan st.now }
  | .session id event => ((st.sessions id).on st.now event).map fun s =>
      { st with sessions := update st.sessions id s }

/-- The first message is sent, no request is dropped while it claims, no message comes while there is no
stream, and there are fewer streams than the counter holds. -/
def Session.Orderly (s : Session) : Event → Prop
  | .ready sent => sent = true
  | .dropped _ => False
  | .touch => 0 < s.streams
  | .attachStream => s.streams + 1 < 2 ^ 32
  | _ => True

instance (s : Session) : (event : Event) → Decidable (s.Orderly event)
  | .ready _ => inferInstanceAs (Decidable (_ = _))
  | .dropped _ => .isFalse id
  | .touch | .attachStream => Nat.decLt _ _
  | .openWs | .openHttp | .claimed | .closed | .dropStream | .released => .isTrue trivial

/-- One session goes its way in order; the others may do anything. -/
def Orderly (id : Nat) (st : State) : Action → Prop
  | .session other event => other = id → (st.sessions id).Orderly event
  | _ => True

instance (id : Nat) (st : State) : (action : Action) → Decidable (Orderly id st action)
  | .session other _ => inferInstanceAs (Decidable (other = id → _))
  | .tick _ | .scan => .isTrue trivial

variable {st st' : State} {id now scanned : Nat} {s s' : Session} {act : Action} {event : Event}

/-- What holds of a session, with the time of the reaper's last look. -/
structure Session.Sound (s : Session) (scanned : Nat) : Prop where
  ended : s.phase = .wsEnded → s.placement = false
  early : s.phase ≠ .http →
    s.state = none ∧ s.streams = 0 ∧ s.idleSince = none ∧ s.expired = false
  counted : ∀ state ∈ s.state, state.activeStreams = s.streams ∧ s.expired = false
  collected : s.phase = .http → s.state = none →
    s.streams = 0 ∧ (s.expired = false → s.placement = false)
  waiting : ∀ state ∈ s.state, ∀ t ∈ s.idleSince,
    scanned ≤ t + httpSessionGrace ∧ state.deadline = t + httpSessionGrace
  busy : 0 < s.streams → s.idleSince = none

theorem Session.Sound.on (h : s.Sound scanned) (hle : scanned ≤ now) (ho : s.Orderly event)
    (hs : s.on now event = some s') : s'.Sound scanned := by
  unfold Session.on at hs
  split at hs
  case h_7 => exact ho.elim
  case h_8 hp =>
    obtain ⟨state, hsta, rfl⟩ := Option.map_eq_some_iff.mp hs
    obtain ⟨hco, hex⟩ := h.counted state hsta
    have hmo : (state.activeStreams + 1) % 2 ^ 32 = s.streams + 1 := by
      rw [hco]
      exact Nat.mod_eq_of_lt ho
    refine ⟨fun hen => ?_, fun hne => absurd hp hne, fun _ hst => ?_, nofun, nofun, fun _ => rfl⟩
    · cases hp.symm.trans hen
    · cases hst
      exact ⟨hmo, hex⟩
  case h_9 hp =>
    split at hs <;> cases hs
    next hpo =>
    -- the session is in the map, as it has a stream
    cases hsta : s.state with
    | none => exact absurd (h.collected hp hsta).1 hpo
    | some state =>
      obtain ⟨hco, hex⟩ := h.counted state hsta
      constructor <;> grind
  case h_10 hp =>
    obtain ⟨state, hsta, rfl⟩ := Option.map_eq_some_iff.mp hs
    have hbu := h.busy ho
    refine ⟨h.ended, fun hne => absurd hp hne, fun _ hst => ?_, nofun, fun _ _ t ht => ?_, h.busy⟩
    · cases hst
      exact h.counted state hsta
    · cases hbu.symm.trans ht
  case h_11 hp =>
    split at hs <;> cases hs
    next hex =>
    -- what is to be released is no longer in the map
    have hno : s.state = none := by
      cases hsta : s.state with
      | none => rfl
      | some state => cases hex.symm.trans (h.counted state hsta).2
    have hou : ∀ state, s.state ≠ some state := fun state hst => nomatch hno.symm.trans hst
    exact ⟨fun _ => rfl, fun hne => absurd hp hne, fun _ hst => absurd hst (hou _),
      fun _ _ => ⟨(h.collected hp hno).1, fun _ => rfl⟩, fun _ hst => absurd hst (hou _), h.busy⟩
  case h_12 => cases hs
  -- before an HTTP session is registered and in a WebSocket session there is no stream
  all_goals
    cases hs
    constructor <;> grind [Session.Sound, Session.Orderly]

theorem Session.Sound.scan (h : s.Sound scanned) : (s.scan now).Sound now := by
  unfold Session.scan
  split
  · next han =>
    obtain ⟨state, hst, hre⟩ := (Option.any_eq_true _ _).mp han
    have hze : state.activeStreams = 0 := (of_decide_eq_true hre).1
    have hstr : s.streams = 0 := (h.counted state hst).1.symm.trans hze
    have hp : s.phase = .http := by
      by_contra hne
      cases hst.symm.trans (h.early hne).1
    refine ⟨fun hen => ?_, fun hne => absurd hp hne, nofun, fun _ _ => ⟨hstr, nofun⟩, nofun, h.busy⟩
    cases hp.symm.trans hen
  · next han =>
    refine ⟨h.ended, h.early, h.counted, h.collected, fun state hst t ht => ?_, h.busy⟩
    have hde := (h.waiting state hst t ht).2
    have hid : s.streams = 0 := by
      by_contra hne
      cases (h.busy (Nat.pos_of_ne_zero hne)).symm.trans ht
    have hla : ¬state.deadline ≤ now := fun hle => han ((Option.any_eq_true _ _).mpr
      ⟨state, hst, decide_eq_true ⟨(h.counted state hst).1.trans hid, hle⟩⟩)
    exact ⟨by omega, hde⟩

theorem sound_step (h : (st.sessions id).Sound st.scanned ∧ st.scanned ≤ st.now)
    (ha : Orderly id st act) (hs : step st act = some st') :
    (st'.sessions id).Sound st'.scanned ∧ st'.scanned ≤ st'.now := by
  cases act with
  | tick dt =>
    cases hs
    exact ⟨h.1, Nat.le_trans h.2 (Nat.le_add_right ..)⟩
  | scan =>
    cases hs
    exact ⟨h.1.scan, Nat.le_refl _⟩
  | session other event =>
    obtain ⟨s, hon, rfl⟩ := Option.map_eq_some_iff.mp hs
    refine ⟨?_, h.2⟩
    by_cases hid : other = id
    · subst hid
      simpa using h.1.on h.2 (ha rfl) hon
    · simpa [update_of_ne (Ne.symm hid)] using h.1

/-- **A session leaves no placement**: a WebSocket session that has ended has none, and neither has an HTTP
session that had no stream for longer than the grace window when the reaper last looked, once the reaper is
done with it; and a session with a stream is not reaped.  This holds in every state of a run in which the
session goes its way in order. -/
theorem sessions_leave_no_placement (h : Reached step (Orderly id) .initial st) :
    ((st.sessions id).phase = .wsEnded → (st.sessions id).placement = false) ∧
    (∀ t ∈ (st.sessions id).idleSince, t + httpSessionGrace < st.scanned →
      (st.sessions id).expired = false → (st.sessions id).placement = false) ∧
    (0 < (st.sessions id).streams →
      (st.sessions id).state.isSome = true ∧ (st.sessions id).expired = false) := by
  obtain ⟨hs, -⟩ : (st.sessions id).Sound st.scanned ∧ st.scanned ≤ st.now :=
    h.holds ⟨⟨nofun, fun _ => ⟨rfl, rfl, rfl, rfl⟩, nofun, nofun, nofun, nofun⟩, Nat.le_refl _⟩ sound_step
  refine ⟨hs.ended, fun t ht hla hex => ?_, fun hpo => ?_⟩
  · have hp : (st.sessions id).phase = .http := by
      by_contra hne
      cases (hs.early hne).2.2.1.symm.trans ht
    cases hst : (st.sessions id).state with
    | none => exact (hs.collected hp hst).2 hex
    | some state =>
      have hwa := (hs.waiting state hst t ht).1
      omega
  · have hp : (st.sessions id).phase = .http := by
      by_contra hne
      have hze := (hs.early hne).2.1
      omega
    cases hst : (st.sessions id).state with
    | none =>
      have hze := (hs.collected hp hst).1
      omega
    | some state => exact ⟨rfl, (hs.counted state hst).2⟩

/-- An HTTP session loses its stream and is reaped after the grace window. -/
theorem http_session_reaped : ∃ st, Reached step (Orderly 1) .initial st ∧
    ((st.sessions 1).idleSince = some 5 ∧ st.scanned = 30006 ∧ (st.sessions 1).expired = false) ∧
    (st.sessions 1).placement = false := by
  have hr : ∃ st, Reached step (Orderly 1) .initial st ∧
      ((st.sessions 1).idleSince = some 5 ∧ st.scanned = 30006 ∧ (st.sessions 1).expired = false) :=
    exists_reached [.session 1 .openHttp, .session 1 .claimed, .tick 5, .session 1 .dropStream,
      .tick 30001, .scan, .session 1 .released] (by decide +kernel)
  obtain ⟨st, h, hat⟩ := hr
  refine ⟨st, h, hat, (sessions_leave_no_placement h).2.1 5 hat.1 ?_ hat.2.2⟩
  rw [hat.2.1]
  decide

/-- **The first message of a WebSocket session cannot be sent**: the session ends, and its placement
stays. -/
theorem placement_left_after_ws : ∃ st, Reached step (fun _ _ => True) .initial st ∧
    (st.sessions 0).phase = .wsEnded ∧ (st.sessions 0).placement = true :=
  exists_reached [.session 0 .openWs, .session 0 .claimed, .session 0 (.ready false)]
    (by decide +kernel)

end Myrmic.GatewaySessions
