import Myrmic.Reassembly

/-!
# Fragmentation of network messages

The two ends of a session take the smaller of the peer's batch size and their link's MTU as the size of
a batch, and a link payload may hold that **less the link's header**.  Nothing refuses a batch size below
the header, and then the subtraction underflows.  Otherwise a message is sent as one frame or in
fragments, each within the size, and the receiver gets it back (`fragmentation_iff`).
-/
namespace Myrmic
open OrderedBytes List
namespace ZenohNano

/-- What is assumed of the codec of batches: it decodes what it has encoded, and puts a message into
fragments in order, each with some of it and none larger than the buffer. -/
class BatchCodec (Msg : Type) extends Codec Msg where
  write : Msg → Bytes
  readBody : Bytes → Option (TransportBody Msg)
  writeFrame : UInt32 → Msg → Bytes
  /-- The fragment with what is left for the next ones. -/
  writeFragment (capacity : Nat) (sn : UInt32) (extFirst : Bool) (rest : Bytes) : Option (Bytes × Bytes)
  read_write : ∀ msg, read (write msg) = some msg
  readBody_frame : ∀ sn msg, readBody (writeFrame sn msg) = some (.frame [msg])
  fragment_spec : ∀ {capacity sn extFirst rest buf left},
    writeFragment capacity sn extFirst rest = some (buf, left) →
      buf.length ≤ capacity ∧ left.length < rest.length ∧ ∃ payload, rest = payload ++ left ∧
        readBody buf = some (.fragment ⟨!left.isEmpty, extFirst, false, payload⟩)

/-- A link whose two halves put a header of the same size before a payload. -/
structure Link where
  receiveMtu : Nat
  sendMtu : Nat
  mtuHeaderSize : Nat

inductive Handshake where
  | initSyn (batchSize : Nat)
  | initAck (batchSize : Nat)
  | openSyn (cookie : Bytes) (lease : Option Nat)
  | openAck (lease : Option Nat)
  | other

namespace Link
variable (l : Link)

def mtu : Nat := min l.receiveMtu l.sendMtu

/-- The size that is negotiated with the peer's two answers.  A lease that is no duration is refused. -/
def connect : Handshake → Handshake → Option Nat
  | .initAck batchSize, .openAck (some _) => some (min batchSize l.mtu)
  | _, _ => none

def accept (cookie : Bytes) : Handshake → Handshake → Option Nat
  | .initSyn batchSize, .openSyn rxCookie (some _) =>
    if cookie = rxCookie then some (min batchSize l.mtu) else none
  | _, _ => none

/-- The subtraction of 16-bit numbers, which must not underflow. -/
def maxPayloadSize (negotiatedMtu : Nat) : Option Nat :=
  if l.mtuHeaderSize ≤ negotiatedMtu then some (negotiatedMtu - l.mtuHeaderSize) else none

end Link

variable {Msg : Type} [BatchCodec Msg] (l : Link) (mtu : Nat)

/-- The link payloads that are sent, and whether all goes well. -/
def sendFragments (Msg : Type) [BatchCodec Msg] (capacity : Nat) (sn : UInt32) (extFirst : Bool)
    (rest : Bytes) : List Bytes × Bool :=
  match h : BatchCodec.writeFragment Msg capacity sn extFirst rest with
  | none => ([], false)
  | some (buf, left) =>
    if left.isEmpty then ([buf], true)
    else (sendFragments Msg capacity (sn + 1) false left).map (buf :: ·) id
termination_by rest.length
decreasing_by exact (BatchCodec.fragment_spec h).2.1

def send (sn : UInt32) (msg : Msg) : Option (List Bytes × Bool) :=
  (l.maxPayloadSize mtu).map fun capacity =>
    if (BatchCodec.writeFrame sn msg).length ≤ capacity then ([BatchCodec.writeFrame sn msg], true)
    else sendFragments Msg capacity (sn + 1) true (BatchCodec.write msg)

/-- What the receiving half makes of a link payload. -/
def receive (data : Bytes) : Option (TransportBody Msg) :=
  (l.maxPayloadSize mtu).bind fun capacity =>
    if capacity < data.length then none else BatchCodec.readBody data

/-- The message that a call returns. -/
def Incoming.msg : Incoming Msg → Option Msg
  | ofFrame _ msg | ofFragments _ msg => some msg
  | close => none

/-- The turns of a receiver that is fed with link payloads. -/
inductive Receives : Session Msg → List Bytes → Session Msg → Prop
  | done {s} : Receives s [] s
  | left {s s₁ s' ps} : s.step none = some s₁ → Receives s₁ ps s' → Receives s ps s'
  | payload {s s₁ s' p ps body} : receive l mtu p = some body → s.step (some body) = some s₁ →
    Receives s₁ ps s' → Receives s (p :: ps) s'

/-- Sending any message ends without an underflow, within the size, and if all goes well a new receiver
returns the message. -/
def RoundTrips (Msg : Type) [BatchCodec Msg] : Prop :=
  ∀ sn (msg : Msg), ∃ payloads ok, send l mtu sn msg = some (payloads, ok) ∧
    (∀ p ∈ payloads, p.length + l.mtuHeaderSize ≤ mtu) ∧
    (ok = true → ∃ s, Receives l mtu .new payloads s ∧ s.returned.map Incoming.msg = [some msg])

variable {l mtu} {capacity : Nat} {sn : UInt32} {extFirst : Bool} {rest p : Bytes} {msg : Msg}

open BatchCodec

theorem length_le_of_sendFragments (h : p ∈ (sendFragments Msg capacity sn extFirst rest).1) :
    p.length ≤ capacity := by
  fun_induction sendFragments Msg capacity sn extFirst rest with
  | case1 => cases h
  | case2 sn extFirst rest buf left hw =>
    rw [mem_singleton.mp h]
    exact (fragment_spec hw).1
  | case3 sn extFirst rest buf left hw _ ih =>
    rcases mem_cons.mp h with rfl | h
    · exact (fragment_spec hw).1
    · exact ih h

theorem receive_eq (hc : l.maxPayloadSize mtu = some capacity) (hp : p.length ≤ capacity) :
    receive l mtu p = (readBody p : Option (TransportBody Msg)) := by
  rw [receive, hc, Option.bind_some, if_neg (Nat.not_lt.mpr hp)]

theorem step_body {s : Session Msg} (hs : ∀ payload, s.state ≠ .frame payload)
    (body : TransportBody Msg) : s.step (some body) = some (s.take body) := by
  rw [Session.step]
  split <;> simp_all

/-- The fragments bring what is left of a message to the receiver that has accumulated the rest. -/
theorem fragments_received (hc : l.maxPayloadSize mtu = some capacity) {s : Session Msg}
    (hs : ∀ payload, s.state ≠ .frame payload)
    (hr : Codec.read (s.state.accumulated ++ rest) = some msg)
    (hok : (sendFragments Msg capacity sn extFirst rest).2 = true) :
    ∃ s', Receives l mtu s (sendFragments Msg capacity sn extFirst rest).1 s' ∧
      s'.returned.map Incoming.msg = some msg :: s.returned.map Incoming.msg := by
  fun_induction sendFragments Msg capacity sn extFirst rest generalizing s with
  | case1 => cases hok
  | case2 sn extFirst rest buf left hw hl =>
    obtain ⟨hb, -, payload, rfl, hbo⟩ := fragment_spec hw
    rw [isEmpty_iff.mp hl, append_nil] at hr
    refine ⟨_, .payload ((receive_eq hc hb).trans hbo) (step_body hs _) .done, ?_⟩
    simp [Session.take, Fragment.push, hl, hr, Incoming.msg]
  | case3 sn extFirst rest buf left hw hl ih =>
    obtain ⟨hb, -, payload, rfl, hbo⟩ := fragment_spec hw
    rw [← append_assoc] at hr
    obtain ⟨s', hre, hms⟩ := ih (s := { s with
      state := .fragments (s.state.accumulated ++ payload)
      sent := Fragment.after ⟨!left.isEmpty, extFirst, false, payload⟩ s.sent }) nofun hr hok
    refine ⟨s', .payload ((receive_eq hc hb).trans hbo) ?_ hre, hms⟩
    simp [step_body hs, Session.take, Fragment.push, hl]

theorem roundTrips_of_le (h : l.mtuHeaderSize ≤ mtu) : RoundTrips l mtu Msg := by
  intro sn msg
  have hc : l.maxPayloadSize mtu = some (mtu - l.mtuHeaderSize) := if_pos h
  rw [send, hc, Option.map_some]
  split
  · next hf =>
    refine ⟨_, _, rfl, forall_mem_singleton.mpr (by omega), fun _ => ?_⟩
    exact ⟨_, .payload ((receive_eq hc hf).trans (readBody_frame sn msg)) rfl
      (.left rfl .done), rfl⟩
  · refine ⟨_, _, rfl, fun p hp => ?_, fun hok => ?_⟩
    · have := length_le_of_sendFragments hp
      omega
    · exact fragments_received hc nofun (read_write msg) hok

/-- **Sending is safe, and what is sent comes back, exactly if the negotiated size has room for the
link's header**, on either side of the handshake. -/
theorem fragmentation_iff [Inhabited Msg] (l : Link) (cookie : Bytes) (first second : Handshake) :
    (∀ mtu, l.connect first second = some mtu ∨ l.accept cookie first second = some mtu →
      RoundTrips l mtu Msg) ↔
    ∀ mtu, l.connect first second = some mtu ∨ l.accept cookie first second = some mtu →
      l.mtuHeaderSize ≤ mtu := by
  refine forall_congr' fun mtu => imp_congr_right fun _ => ⟨fun h => ?_, roundTrips_of_le⟩
  obtain ⟨_, _, hs, -⟩ := h 0 default
  by_contra hlt
  rw [send, Link.maxPayloadSize, if_neg hlt] at hs
  cases hs

/-! ## A message in three fragments -/

/-- A codec of messages of bytes.  A frame has a header of one byte; a fragment has one of three, with its
two marks, and takes as much of the message as there is room for. -/
instance byteCodec : BatchCodec Bytes where
  read
    | 1 :: msg => some msg
    | _ => none
  read_nil := rfl
  write msg := 1 :: msg
  readBody
    | 0 :: msg => some (.frame [msg])
    | 1 :: more :: extFirst :: payload => some (.fragment ⟨more = 1, extFirst = 1, false, payload⟩)
    | _ => none
  writeFrame _ msg := 0 :: msg
  writeFragment capacity _ extFirst rest :=
    let left := rest.drop (capacity - 3)
    if capacity ≤ 3 ∨ rest = [] then none
    else some (1 :: (!left.isEmpty).toUInt8 :: extFirst.toUInt8 :: rest.take (capacity - 3), left)
  read_write _ := rfl
  readBody_frame _ _ := rfl
  fragment_spec {capacity _ extFirst rest _ _} h := by
    obtain ⟨hno, ⟨⟩⟩ := Option.ite_none_left_eq_some.mp h
    obtain ⟨hca, hne⟩ := not_or.mp hno
    have hpos := length_pos_iff.mpr hne
    refine ⟨?_, ?_, rest.take (capacity - 3), (take_append_drop ..).symm, ?_⟩
    · simp only [length_cons, length_take]
      omega
    · rw [length_drop]
      omega
    · cases (rest.drop (capacity - 3)).isEmpty <;> cases extFirst <;> rfl

/-- A batch size of one is accepted over a link with a header of two bytes, and nothing can be sent. -/
theorem small_batch_underflows :
    Link.connect ⟨100, 100, 2⟩ (.initAck 1) (.openAck (some 0)) = some 1 ∧
      ∀ sn (msg : Bytes), send ⟨100, 100, 2⟩ 1 sn msg = none :=
  ⟨rfl, fun _ _ => rfl⟩

/-- With a batch size of eight and a header of two a message of seven bytes does not fit into a frame.  It
is sent in three fragments, and a new receiver returns it. -/
theorem fragments_come_back :
    Link.connect ⟨100, 100, 2⟩ (.initAck 8) (.openAck (some 0)) = some 8 ∧
      ∃ payloads s, send ⟨100, 100, 2⟩ 8 0 ([1, 2, 3, 4, 5, 6, 7] : Bytes) = some (payloads, true) ∧
        payloads.length = 3 ∧ Receives ⟨100, 100, 2⟩ 8 .new payloads s ∧
        s.returned.map Incoming.msg = [some ([1, 2, 3, 4, 5, 6, 7] : Bytes)] := by
  have hro : RoundTrips ⟨100, 100, 2⟩ 8 Bytes :=
    (fragmentation_iff ⟨100, 100, 2⟩ [] (.initAck 8) (.openAck (some 0))).mpr
      (fun mtu h => by
        rcases h with ⟨⟨⟩⟩ | ⟨⟨⟩⟩
        decide) 8 (.inl rfl)
  obtain ⟨payloads, ok, hs, -, hre⟩ := hro 0 [1, 2, 3, 4, 5, 6, 7]
  have hev : send ⟨100, 100, 2⟩ 8 0 ([1, 2, 3, 4, 5, 6, 7] : Bytes) =
      some ([[1, 1, 1, 1, 1, 2], [1, 1, 0, 3, 4, 5], [1, 0, 0, 6, 7]], true) := by
    decide +kernel
  rw [hev] at hs
  cases hs
  obtain ⟨s, hrec, hret⟩ := hre rfl
  exact ⟨rfl, _, s, hev, rfl, hrec, hret⟩

end ZenohNano
end Myrmic
