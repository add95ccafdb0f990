import Myrmic.OrderedBytes
import Myrmic.Machine

/-!
# Tap clients

The cells of a node share one client of the signal layer's taps, and it has one connection.  A call
holds the client's lock while it runs: it connects if there is no connection, writes a request and reads
the answer.  From the first byte written to the last one read a guard stands by: whatever ends the call in
between **tears the connection down**.  So an answer that arrives is the answer to the request of the call
that waits for it (`replies_match_requests`).

Frames are told from the bytes before them, so the model keeps of a connection what is on it: the complete
requests, whether part of another one was written, how many answers were read and whether part of the next
was.  A call that writes behind a part of a frame leaves the connection garbled, and nothing is assumed of
what is read from it then.
-/
namespace Myrmic
open OrderedBytes Machine List

/-! ## The server -/

/-- Taps and outlets have handles of their own. -/
inductive HandleFamily where
  | tap
  | outlet
deriving DecidableEq

/-- What is sent to the server, as far as replies depend on it. -/
inductive TapRequest where
  | resolve (family : HandleFamily) (name : String)
  | readRetained (handle : UInt32)
  | takeEvent (handle : UInt32)
  | outletWrite (handle : UInt32) (bytes : Bytes)
  | typeId (family : HandleFamily) (handle : UInt32)
  | list (family : HandleFamily) (index : Option UInt32)
deriving DecidableEq

inductive TapResponse where
  | handle (handle : UInt32)
  | other (bytes : Bytes)
deriving DecidableEq

/-- What connections lead to: each request is answered in the light of those before it, and a handle that
is issued is that of the tap of the name.  A server that was restarted numbers its taps anew, so the
meaning of a handle depends on the connection. -/
structure TapServer where
  /-- The answer to the last of the requests on a connection. -/
  answer : Nat → List TapRequest → TapResponse
  /-- The tap or outlet behind a handle of a connection. -/
  named : Nat → HandleFamily → UInt32 → String
  honest : ∀ conn before family name handle,
    answer conn (before ++ [.resolve family name]) = .handle handle → named conn family handle = name

/-- A connection, with the frames that were written to it: the complete ones, and whether there is part of
another.  Once a frame follows a part of one, neither side can tell frames any more. -/
structure TapConnection where
  id : Nat
  requests : List TapRequest
  torn : Bool
  /-- The number of answers that were read, and whether part of the next one was. -/
  answered : Nat
  partlyRead : Bool
  garbled : Bool

/-! ## The client -/

/-- What a virtual handle is bound to. -/
structure HandleEntry where
  generation : UInt64
  serverHandle : UInt32
  name : String
  family : HandleFamily
  /-- The connection whose server issued the handle. -/
  issuedOn : Nat

/-- A new connection begins a new generation, and entries of older ones reach nothing any more. -/
def HandleEntry.isLiveIn (e : HandleEntry) (generation : UInt64) : Bool := e.generation = generation

/-- The operations of the client; handles in them are virtual. -/
inductive TapCall where
  | resolve (family : HandleFamily) (name : String)
  | readRetained (vh : UInt32)
  | takeEvent (vh : UInt32)
  | outletWrite (vh : UInt32) (bytes : Bytes)
  | typeId (family : HandleFamily) (vh : UInt32)
  | list (family : HandleFamily) (index : Option UInt32)

/-- The virtual handle a call goes through. -/
def TapCall.through : TapCall → Option (HandleFamily × UInt32)
  | .resolve .. | .list .. => none
  | .readRetained vh | .takeEvent vh => some (.tap, vh)
  | .outletWrite vh _ => some (.outlet, vh)
  | .typeId family vh => some (family, vh)

/-- What a call asks the server, once its virtual handle is translated. -/
def TapCall.request (handle : UInt32) : TapCall → TapRequest
  | .resolve family name => .resolve family name
  | .readRetained _ => .readRetained handle
  | .takeEvent _ => .takeEvent handle
  | .outletWrite _ bytes => .outletWrite handle bytes
  | .typeId family _ => .typeId family handle
  | .list family index => .list family index

/-- Where a call waits. -/
inductive TapPhase where
  | connecting
  | writing
  | reading
deriving DecidableEq

/-- The call that holds the lock, with the entry that its handle was translated by. -/
structure TapOp where
  call : TapCall
  entry : Option HandleEntry
  phase : TapPhase

/-- The request of a call in flight, with the handle as it was translated. -/
def TapOp.request (op : TapOp) : TapRequest :=
  op.call.request ((op.entry.map HandleEntry.serverHandle).getD 0)

/-- An answer that a caller was given, with the requests that were complete on the connection. -/
structure TapReceipt where
  conn : Nat
  requests : List TapRequest
  request : TapRequest
  response : TapResponse

/-- The shared client, with the call that holds its lock. -/
structure TapClient where
  conn : Option TapConnection
  generation : UInt64
  nextVirtualHandle : UInt32
  handles : List (UInt32 × HandleEntry)
  op : Option TapOp
  /-- The number of connections so far. -/
  opened : Nat
  /-- The virtual handles that were given to callers, and for which names. -/
  issued : List (UInt32 × HandleFamily × String)
  receipts : List TapReceipt

/-- What happens at the awaits of calls. -/
inductive TapAction where
  | begin (call : TapCall)
  | connected
  /-- Part of the frame goes out or comes in, or all that is left of it. -/
  | writePart
  | writeRest
  | readPart
  | readRest (response : TapResponse)
  /-- The call fails, times out or is dropped. -/
  | fail
  /-- `connect_with_backoff` finds no connection and makes one, outside of any call.  An attempt of it that
  fails leaves the client as it is. -/
  | reconnect

namespace TapClient

def new : TapClient := ⟨none, 0, 1, [], none, 0, [], []⟩

section Steps
variable (st : TapClient)

/-- An entry of another family or of an earlier generation does not count. -/
def resolveVirtualHandle (vh : UInt32) (family : HandleFamily) : Option HandleEntry :=
  ((st.handles.find? fun h => h.1 = vh).map Prod.snd).filter fun e =>
    e.family = family && e.isLiveIn st.generation

/-- A name that was resolved on this connection is not resolved again. -/
def liveHandleForName (name : String) (family : HandleFamily) : Option UInt32 :=
  (st.handles.find? fun h =>
    h.2.name = name && h.2.family = family && h.2.isLiveIn st.generation).map Prod.fst

/-- A new connection begins a new generation, and what it supersedes is released. -/
def tryConnect : TapClient :=
  { st with
    generation := st.generation + 1
    handles := st.handles.filter fun h => h.2.isLiveIn (st.generation + 1)
    conn := some ⟨st.opened, [], false, 0, false, false⟩
    opened := st.opened + 1 }

/-- The connection is dropped; the generation stays. -/
def teardown : TapClient := { st with conn := none, op := none }

/-- The guard is armed, and the request is about to be written. -/
def sendRecv (call : TapCall) (entry : Option HandleEntry) : TapClient :=
  { st with
    conn := st.conn.map fun c => { c with garbled := c.garbled || c.torn || c.partlyRead }
    op := some ⟨call, entry, .writing⟩ }

/-- What a call does once there is a connection: a name may have a live handle already. -/
def proceed (call : TapCall) (entry : Option HandleEntry) : TapClient :=
  match call with
  | .resolve family name =>
    match st.liveHandleForName name family with
    | some vh => { st with op := none, issued := (vh, family, name) :: st.issued }
    | none => st.sendRecv call entry
  | call => st.sendRecv call entry

/-- A call goes on at once if there is a connection. -/
def ensureConnected (call : TapCall) (entry : Option HandleEntry) : TapClient :=
  match st.conn with
  | some _ => st.proceed call entry
  | none => { st with op := some ⟨call, entry, .connecting⟩ }

/-- A name that was resolved is given a new virtual handle. -/
def issue (conn : Nat) (family : HandleFamily) (name : String) (handle : UInt32) : TapClient :=
  { st with
    nextVirtualHandle := if st.nextVirtualHandle = 0xFFFFFFFF then 1 else st.nextVirtualHandle + 1
    handles := (st.nextVirtualHandle, ⟨st.generation, handle, name, family, conn⟩) ::
      st.handles.filter fun h => h.1 ≠ st.nextVirtualHandle
    issued := (st.nextVirtualHandle, family, name) :: st.issued }

/-- The answer has been read: the guard is disarmed, and the caller is given the answer. -/
def receive (c : TapConnection) (op : TapOp) (response : TapResponse) : TapClient :=
  let st := { st with
    conn := some { c with answered := c.answered + 1, partlyRead := false }
    op := none
    receipts := ⟨c.id, c.requests, op.request, response⟩ :: st.receipts }
  match op.call, response with
  | .resolve family name, .handle handle => st.issue c.id family name handle
  | _, _ => st

def step (st : TapClient) : TapAction → Option TapClient
  | .begin call =>
    if st.op.isSome then none
    else match call.through with
      | none => some (st.ensureConnected call none)
      | some (family, vh) =>
        match st.resolveVirtualHandle vh family with
        | none => some st
        | some e => some (st.ensureConnected call (some e))
  | .connected =>
    match st.op with
    | some ⟨call, entry, .connecting⟩ => some (st.tryConnect.proceed call entry)
    | _ => none
  | .writePart =>
    match st.conn, st.op with
    | some c, some ⟨_, _, .writing⟩ => some { st with conn := some { c with torn := true } }
    | _, _ => none
  | .writeRest =>
    match st.conn, st.op with
    | some c, some ⟨call, entry, .writing⟩ => some { st with
        conn := some { c with torn := false, requests := c.requests ++ [TapOp.request ⟨call, entry, .writing⟩] }
        op := some ⟨call, entry, .reading⟩ }
    | _, _ => none
  | .readPart =>
    match st.conn, st.op with
    | some c, some ⟨_, _, .reading⟩ => some { st with conn := some { c with partlyRead := true } }
    | _, _ => none
  | .readRest response =>
    match st.conn, st.op with
    | some c, some ⟨call, entry, .reading⟩ => some (st.receive c ⟨call, entry, .reading⟩ response)
    | _, _ => none
  | .fail => st.op.map fun op => if op.phase = .connecting then { st with op := none } else st.teardown
  | .reconnect => if st.op.isSome || st.conn.isSome then none else some st.tryConnect

/-- **The assumption about the server**: it answers every complete request once and in order, as long as
the frames can be told. -/
def Answers (server : TapServer) (st : TapClient) : TapAction → Prop
  | .readRest response => ∀ c, st.conn = some c → c.garbled = false →
    c.answered < c.requests.length ∧ response = server.answer c.id (c.requests.take (c.answered + 1))
  | _ => True

end Steps

/-! ## Answers -/

/-- Between two calls everything that was written has been answered, and every answer read.  While a call
reads, its own request is the last one and the only one without an answer. -/
def InStep (c : TapConnection) : Option TapOp → Prop
  | some ⟨_, _, .writing⟩ => c.partlyRead = false ∧ c.answered = c.requests.length
  | some ⟨call, entry, .reading⟩ => c.torn = false ∧ ∃ before,
    c.requests = before ++ [TapOp.request ⟨call, entry, .reading⟩] ∧ c.answered = before.length
  | _ => c.torn = false ∧ c.partlyRead = false ∧ c.answered = c.requests.length

/-- The answer is the server's to the caller's own request. -/
def TapReceipt.Own (server : TapServer) (r : TapReceipt) : Prop :=
  ∃ before, r.requests = before ++ [r.request] ∧ r.response = server.answer r.conn r.requests

/-- The connection carries what the call in flight has written, and every receipt is a call's own. -/
structure Synced (server : TapServer) (st : TapClient) : Prop where
  conn : ∀ c, st.conn = some c → c.garbled = false ∧ InStep c st.op
  receipts : ∀ r ∈ st.receipts, TapReceipt.Own server r

section Answers
variable {server : TapServer} {st st' : TapClient} {c : TapConnection} {call : TapCall}
  {entry : Option HandleEntry} {resp : TapResponse} (h : st.Synced server)
include h

theorem Synced.sendRecv (hop : st.op = none) : (st.sendRecv call entry).Synced server := by
  refine ⟨fun c hc => ?_, h.receipts⟩
  obtain ⟨c', hc', rfl⟩ := Option.map_eq_some_iff.mp hc
  obtain ⟨hcl, hi⟩ := h.conn c' hc'
  rw [hop] at hi
  exact ⟨by simp [hcl, hi.1, hi.2.1], hi.2⟩

theorem Synced.proceed (hop : st.op = none) : (st.proceed call entry).Synced server := by
  unfold TapClient.proceed
  split
  · split
    · exact ⟨hop ▸ h.conn, h.receipts⟩
    · exact h.sendRecv hop
  · exact h.sendRecv hop

theorem Synced.ensureConnected (hop : st.op = none) :
    (st.ensureConnected call entry).Synced server := by
  unfold TapClient.ensureConnected
  split
  · exact h.proceed hop
  · next hn =>
    refine ⟨fun c hc => ?_, h.receipts⟩
    cases hn.symm.trans hc

omit h in
theorem proceed_idle : ({ st with op := none } : TapClient).proceed call entry = st.proceed call entry := by
  cases call <;> rfl

omit h in
theorem conn_receive (st : TapClient) (c : TapConnection) (op : TapOp) (resp : TapResponse) :
    (st.receive c op resp).conn = some { c with answered := c.answered + 1, partlyRead := false } ∧
    (st.receive c op resp).op = none ∧
    (st.receive c op resp).receipts = ⟨c.id, c.requests, op.request, resp⟩ :: st.receipts := by
  simp only [receive]
  split <;> exact ⟨rfl, rfl, rfl⟩

theorem Synced.step {act : TapAction} (hans : st.Answers server act) (hst : st.step act = some st') :
    st'.Synced server := by
  revert hst
  fun_cases TapClient.step st act
  case case15 =>
    intro hst
    obtain ⟨op, hop, rfl⟩ := Option.map_eq_some_iff.mp hst
    by_cases hph : op.phase = .connecting
    · rw [if_pos hph]
      refine ⟨fun c hc => ?_, h.receipts⟩
      have hin := h.conn c hc
      obtain ⟨call, entry, _⟩ := op
      cases hph
      rw [hop] at hin
      exact hin
    · rw [if_neg hph]
      exact ⟨nofun, h.receipts⟩
  all_goals rintro ⟨⟩
  · next hop _ => exact h.ensureConnected (by simpa using hop)
  · exact h
  · next hop _ _ _ _ _ => exact h.ensureConnected (by simpa using hop)
  · rw [← proceed_idle]
    refine Synced.proceed ⟨fun c hc => ?_, h.receipts⟩ rfl
    cases hc
    exact ⟨rfl, rfl, rfl, rfl⟩
  · next c _ _ hop hc =>
    refine ⟨fun c' hc' => ?_, h.receipts⟩
    cases hc'
    have hin := h.conn c hc
    rw [hop] at hin ⊢
    exact hin
  · next c _ _ hop hc =>
    refine ⟨fun c' hc' => ?_, h.receipts⟩
    cases hc'
    obtain ⟨hcl, hin⟩ := h.conn c hc
    rw [hop] at hin
    exact ⟨hcl, rfl, c.requests, rfl, hin.2⟩
  · next c _ _ hop hc =>
    refine ⟨fun c' hc' => ?_, h.receipts⟩
    cases hc'
    have hin := h.conn c hc
    rw [hop] at hin ⊢
    exact hin
  · next resp c call entry hop hc =>
    obtain ⟨hcl, hin⟩ := h.conn c hc
    rw [hop] at hin
    obtain ⟨hto, pre, hre, han⟩ := hin
    obtain ⟨hco, hid, hrec⟩ := conn_receive st c ⟨call, entry, .reading⟩ resp
    refine ⟨fun c' hc' => ?_, fun r hr => ?_⟩
    · cases hco.symm.trans hc'
      rw [hid]
      exact ⟨hcl, hto, rfl, by simp [hre, han]⟩
    · rw [hrec] at hr
      rcases mem_cons.mp hr with rfl | hr
      · have hal : c.requests.take (c.answered + 1) = c.requests :=
          take_of_length_le (by simp [hre, han])
        exact ⟨pre, hre, hal ▸ (hans c hc hcl).2⟩
      · exact h.receipts r hr
  · next hop =>
    refine ⟨fun c hc => ?_, h.receipts⟩
    cases hc
    simp only [Bool.or_eq_true, Option.isSome_iff_ne_none, not_or, not_not] at hop
    refine ⟨rfl, ?_⟩
    change InStep _ st.op
    rw [hop.1]
    exact ⟨rfl, rfl, rfl⟩

omit h

/-- **Replies match their requests.**  In every run, with calls failing, timing out or being dropped at
any point, an answer that a caller is given is the server's answer to that caller's own request. -/
theorem replies_match_requests (h : Reached TapClient.step (Answers server) new st) :
    ∀ r ∈ st.receipts, TapReceipt.Own server r :=
  (h.holds (P := Synced server) ⟨nofun, nofun⟩ fun h hok hst => h.step hok hst).receipts

end Answers

/-! ## A resolve -/

instance instDecidableAnswers (server : TapServer) (st : TapClient) (action : TapAction) :
    Decidable (Answers server st action) :=
  match action with
  | .readRest response => inferInstanceAs (Decidable (∀ c ∈ st.conn, c.garbled = false →
      c.answered < c.requests.length ∧ response = server.answer c.id (c.requests.take (c.answered + 1))))
  | .begin _ | .connected | .writePart | .writeRest | .readPart | .fail | .reconnect => .isTrue trivial

namespace Sample

/-- The only tap of the server, before and after it was restarted. -/
def tapOf (conn : Nat) : String := if conn = 0 then "temp" else "door"

def restarting : TapServer where
  answer conn requests :=
    match requests.getLast? with
    | some (.resolve _ name) => if tapOf conn = name then .handle 0 else .other []
    | _ => .other []
  named conn _ _ := tapOf conn
  honest conn before family name handle h := by
    simp only [getLast?_append, getLast?_singleton, Option.some_or] at h
    by_cases he : tapOf conn = name
    · exact he
    · rw [if_neg he] at h
      cases h

/-- A name is resolved on the first connection. -/
def resolveTemp : List TapAction :=
  [.begin (.resolve .tap "temp"), .connected, .writePart, .writeRest, .readPart, .readRest (.handle 0)]

/-- A call is dropped in the middle of its frame, the next one in the middle of its answer, and a third
one is answered on the third connection. -/
def droppedTwice : List TapAction :=
  resolveTemp ++ [.begin (.list .tap none), .writePart, .fail] ++
    [.begin (.resolve .tap "door"), .connected, .writeRest, .readPart, .fail, .reconnect] ++
    [.begin (.resolve .tap "door"), .writePart, .writeRest, .readRest (.handle 0)]

end Sample

open Sample in
/-- After a call was dropped in mid-frame and another in mid-answer, the answer on the new connection is
that to the request of the call that reads it. -/
theorem resolve_reply_matches : ∃ st r, Reached step (Answers restarting) new st ∧ r ∈ st.receipts ∧
    r.conn = 2 ∧ r.request = .resolve .tap "door" ∧ r.response = .handle 0 ∧
    TapReceipt.Own restarting r := by
  obtain ⟨st, hre, r, hr, hc, hreq, hres⟩ : ∃ st, Reached step (Answers restarting) new st ∧
      ∃ r ∈ st.receipts, r.conn = 2 ∧ r.request = .resolve .tap "door" ∧ r.response = .handle 0 :=
    exists_reached droppedTwice (by decide +kernel)
  exact ⟨st, r, hre, hr, hc, hreq, hres, replies_match_requests hre r hr⟩

end TapClient

end Myrmic
