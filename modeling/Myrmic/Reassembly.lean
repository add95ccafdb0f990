import Myrmic.Machine
import Myrmic.OrderedBytes

/-!
# Reassembly of network messages

A network message that does not fit into one payload of the link travels in fragments.  The receiver
appends a fragment to what it has accumulated and decodes that after the last one; it does not look at
the mark of a first fragment, and a frame makes it forget the fragments before.  What it returns is what
the peer has sent **as long as nothing is accumulated when a first fragment comes, and no frame comes
between the fragments of a message** (`returns_sent`).
-/
namespace Myrmic
open OrderedBytes Machine List
namespace ZenohNano

/-- The codec of network messages, which does not read one out of nothing. -/
class Codec (Msg : Type) where
  read : Bytes → Option Msg
  read_nil : read [] = none

structure Fragment where
  more : Bool
  extFirst : Bool
  extDrop : Bool
  payload : Bytes

inductive TransportBody (Msg : Type) where
  | frame (payload : List Msg)
  | fragment (f : Fragment)
  | close
  | other

inductive ReceiveState (Msg : Type) where
  | none
  | frame (payload : List Msg)
  | fragments (bytes : Bytes)

/-- What a call returns, with what the peer has sent: a frame, or the fragments of a message. -/
inductive Incoming (Msg : Type) where
  | ofFrame (payload : List Msg) (msg : Msg)
  | ofFragments (sent : Option Bytes) (msg : Msg)
  | close

/-- The receiver, with the last frame and the message under way. -/
structure Session (Msg : Type) where
  state : ReceiveState Msg
  frame : List Msg
  sent : Option Bytes
  returned : List (Incoming Msg)

variable {Msg : Type}

def ReceiveState.accumulated : ReceiveState Msg → Bytes
  | fragments bytes => bytes
  | _ => []

/-- What is accumulated with the fragment, where the patch has fragmentation markers. -/
def Fragment.push (f : Fragment) (fragments : Bytes) : Bytes :=
  if f.extDrop then [] else fragments ++ f.payload

/-- The message under way with the fragment. -/
def Fragment.after (f : Fragment) (sent : Option Bytes) : Option Bytes :=
  if f.extDrop then none else if f.extFirst then some f.payload else sent.map (· ++ f.payload)

/-- The message is one of the frame, or the fragments decode to it. -/
def Incoming.Sent [Codec Msg] : Incoming Msg → Prop
  | ofFrame payload msg => msg ∈ payload
  | ofFragments sent msg => sent.bind Codec.read = some msg
  | close => True

namespace Session
variable [Codec Msg] {s s' : Session Msg} {f : Fragment} {act : Option (TransportBody Msg)}

def new : Session Msg := ⟨.none, [], none, []⟩

/-- What the loop does with a transport message. -/
def take (s : Session Msg) : TransportBody Msg → Session Msg
  | .frame payload => { s with state := .frame payload, frame := payload }
  | .fragment f =>
    if f.more then { s with state := .fragments (f.push s.state.accumulated), sent := f.after s.sent }
    else
      match Codec.read (f.push s.state.accumulated) with
      | some msg => ⟨.none, s.frame, none, .ofFragments (f.after s.sent) msg :: s.returned⟩
      | none => { s with state := .none, sent := none }
  | .close => { s with returned := .close :: s.returned }
  | .other => s

/-- One turn of the loop: with a message that is left of a frame, or with the next transport message. -/
def step (s : Session Msg) : Option (TransportBody Msg) → Option (Session Msg)
  | none =>
    match s.state with
    | .frame (msg :: payload) => some { s with
        state := if payload.isEmpty then .none else .frame payload
        returned := .ofFrame s.frame msg :: s.returned }
    | _ => none
  | some body =>
    match s.state with
    | .frame (_ :: _) => none
    | .frame [] => some (take { s with state := .none } body)
    | _ => some (s.take body)

/-- Nothing is accumulated when a first fragment comes, and another one finds its message in place. -/
def Undisturbed (s : Session Msg) : Option (TransportBody Msg) → Prop
  | some (.fragment f) => f.extDrop = true ∨ if f.extFirst then s.state.accumulated = []
      else s.sent ≠ none ∧ ∃ bytes, s.state = .fragments bytes
  | _ => True

/-- What is left of a frame is of the last one, and what is accumulated is the message under way. -/
structure Sound (s : Session Msg) : Prop where
  frame : ∀ payload, s.state = .frame payload → payload ⊆ s.frame
  fragments : ∀ bytes, s.state = .fragments bytes → s.sent = some bytes ∨ s.sent = none ∧ bytes = []
  returned : ∀ r ∈ s.returned, r.Sent

/-- What is accumulated and what is under way stay together. -/
theorem Sound.after (h : s.Sound) (hu : s.Undisturbed (some (.fragment f))) :
    f.after s.sent = some (f.push s.state.accumulated) ∨
      f.after s.sent = none ∧ f.push s.state.accumulated = [] := by
  unfold Fragment.after Fragment.push
  by_cases hd : f.extDrop = true
  · exact .inr ⟨if_pos hd, if_pos hd⟩
  · have hu := hu.resolve_left hd
    rw [if_neg hd, if_neg hd]
    split at hu
    · next hf => exact .inl (by rw [if_pos hf, hu, nil_append])
    · next hf =>
      obtain ⟨hn, bytes, hs⟩ := hu
      have hse := (h.fragments bytes hs).resolve_right fun hno => hn hno.1
      exact .inl (by rw [if_neg hf, hse, hs]; rfl)

theorem Sound.take (h : s.Sound) {body : TransportBody Msg} (hu : s.Undisturbed (some body)) :
    (s.take body).Sound := by
  fun_cases Session.take s body
  · exact ⟨fun _ he => by cases he; exact Subset.refl _, nofun, h.returned⟩
  · exact ⟨nofun, fun _ he => by cases he; exact h.after hu, h.returned⟩
  · next msg hr =>
    refine ⟨nofun, nofun, forall_mem_cons.mpr ⟨?_, h.returned⟩⟩
    rcases h.after hu with ha | ⟨-, hp⟩
    · rwa [Incoming.Sent, ha]
    · rw [hp, Codec.read_nil] at hr
      cases hr
  · exact ⟨nofun, nofun, h.returned⟩
  · exact ⟨h.frame, h.fragments, forall_mem_cons.mpr ⟨trivial, h.returned⟩⟩
  · exact h

theorem Sound.step (h : s.Sound) (hu : s.Undisturbed act) (hs : s.step act = some s') : s'.Sound := by
  revert hs
  fun_cases Session.step s act <;> rintro ⟨⟩
  · next msg payload hst =>
    have hin := cons_subset.mp (h.frame _ hst)
    refine ⟨fun rest he => ?_, fun bytes he => ?_, forall_mem_cons.mpr ⟨hin.1, h.returned⟩⟩
    all_goals
      dsimp only at he
      split at he <;> cases he
    exact hin.2
  · next body hst =>
    have h' : ({ s with state := .none } : Session Msg).Sound := ⟨nofun, nofun, h.returned⟩
    refine h'.take ?_
    cases body with
    | fragment f => simpa [Undisturbed, hst, ReceiveState.accumulated] using hu
    | _ => trivial
  · exact h.take hu

/-- **What is returned was sent if no message is disturbed**, by another one or by a frame. -/
theorem returns_sent (h : Reached step Undisturbed new s) : ∀ r ∈ s.returned, r.Sent :=
  (h.holds (P := Sound) ⟨nofun, nofun, nofun⟩ fun h ha hs => h.step ha hs).returned

end Session
open Session

instance bytesCodec : Codec Bytes := ⟨fun bytes => if bytes = [] then none else some bytes, rfl⟩

/-- A message in two fragments. -/
theorem two_fragments_sent : ∃ s : Session Bytes, Reached step Undisturbed new s ∧
    s.returned = [.ofFragments (some [1, 2]) [1, 2]] ∧ ∀ r ∈ s.returned, r.Sent := by
  have hr : Reached step Undisturbed new
      (⟨.none, [], none, [.ofFragments (some [1, 2]) [1, 2]]⟩ : Session Bytes) :=
    .tail (some (.fragment ⟨false, false, false, [2]⟩)) (.tail (some (.fragment ⟨true, true, false, [1]⟩))
      .refl (.inr rfl) rfl) (.inr ⟨nofun, _, rfl⟩) rfl
  exact ⟨_, hr, rfl, returns_sent hr⟩

/-- A message that was abandoned after its first fragment becomes part of the next one. -/
theorem abandoned_fragment_kept : ∃ s : Session Bytes, Reached step (fun _ _ => True) new s ∧
    s.returned = [.ofFragments (some [2]) [1, 2]] ∧ ¬∀ r ∈ s.returned, r.Sent := by
  refine ⟨⟨.none, [], none, [.ofFragments (some [2]) [1, 2]]⟩,
    .tail (some (.fragment ⟨false, true, false, [2]⟩)) (.tail (some (.fragment ⟨true, true, false, [1]⟩))
      .refl trivial rfl) trivial rfl, rfl, fun h => ?_⟩
  simpa [Incoming.Sent, Codec.read] using h _ mem_cons_self

end ZenohNano
end Myrmic
