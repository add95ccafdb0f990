import Myrmic.TapClient

/-!
# The handles of a tap client

A cell never sees the handle that the server has given a tap.  It is given a **virtual handle**, and the
client's table says which server handle that stands for, under which generation of the connection.  A new
connection begins a new generation and releases the entries of the old one, because a restarted server
numbers its taps anew.

The table is looked into before the client makes sure that there is a connection.  Between the teardown of
a connection and the next one the generation is still the old one, so a call that begins then is translated
to a handle of the old connection, reconnects, and **sends that handle on the new connection**
(`stale_handle_is_sent`).

`handles_stay_on_connection` is about runs in which a call through a live virtual handle begins only while
the connection is up, and virtual handles, which are counted up and start again after the last one, are
not given out twice.  `Bound` says what carries it: every entry of the table is of the connection that was
made last, and names the tap that the server has behind its handle.
-/
namespace Myrmic
open OrderedBytes Machine List
namespace TapClient

/-- **The condition on a step**: a call through a virtual handle that is live begins only while the
connection is up, and the virtual handle that a resolve is about to be given has not been given out
before. -/
def InTime (st : TapClient) : TapAction → Prop
  | .begin call => ∀ through ∈ call.through,
    (st.resolveVirtualHandle through.2 through.1).isSome = true → st.conn.isSome = true
  | .readRest (.handle _) => ∀ given ∈ st.issued, given.1 ≠ st.nextVirtualHandle
  | _ => True

/-- What the table of handles says is true of the connection that was made last, and a call in flight was
translated by the table as it is. -/
structure Bound (server : TapServer) (st : TapClient) : Prop where
  live : ∀ h ∈ st.handles, h.2.generation = st.generation ∧ h.2.issuedOn + 1 = st.opened
  named : ∀ h ∈ st.handles, server.named h.2.issuedOn h.2.family h.2.serverHandle = h.2.name
  given : ∀ h ∈ st.handles, (h.1, h.2.family, h.2.name) ∈ st.issued
  once : ∀ a ∈ st.issued, ∀ b ∈ st.issued, a.1 = b.1 → a = b
  conn : ∀ c, st.conn = some c → c.id + 1 = st.opened
  op : ∀ op, st.op = some op → ∀ family vh, op.call.through = some (family, vh) →
    op.phase ≠ .connecting ∧ ∃ e, op.entry = some e ∧ (vh, e) ∈ st.handles ∧ e.family = family

section Bound
variable {server : TapServer} {st st' : TapClient} {c : TapConnection} {call : TapCall}
  {entry : Option HandleEntry} {act : TapAction} (h : st.Bound server)

/-- A call was translated by the table. -/
def Translated (st : TapClient) (call : TapCall) (entry : Option HandleEntry) : Prop :=
  ∀ family vh, call.through = some (family, vh) →
    ∃ e, entry = some e ∧ (vh, e) ∈ st.handles ∧ e.family = family

theorem mem_of_resolveVirtualHandle {vh : UInt32} {family : HandleFamily} {e : HandleEntry}
    (hr : st.resolveVirtualHandle vh family = some e) : (vh, e) ∈ st.handles ∧ e.family = family := by
  obtain ⟨hfo, hli⟩ := Option.filter_eq_some_iff.mp hr
  obtain ⟨⟨vh', e'⟩, hfi, he⟩ := Option.map_eq_some_iff.mp hfo
  have hvh : vh' = vh := by simpa using find?_some hfi
  simp only [Bool.and_eq_true, decide_eq_true_eq] at hli
  exact ⟨hvh ▸ he ▸ mem_of_find?_eq_some hfi, hli.1⟩

/-- The answer to a resolve is the server's, and the handle in it stands for the name. -/
theorem named_of_answer {family : HandleFamily} {name : String} {handle : UInt32}
    (hs : st.Synced server) (hans : st.Answers server (.readRest (.handle handle)))
    (hop : st.op = some ⟨.resolve family name, entry, .reading⟩) (hc : st.conn = some c) :
    server.named c.id family handle = name := by
  obtain ⟨hcl, hin⟩ := hs.conn c hc
  rw [hop] at hin
  obtain ⟨-, pre, hre, han⟩ := hin
  have hall : c.requests.take (c.answered + 1) = c.requests :=
    take_of_length_le (by simp [hre, han])
  have hresp := (hans c hc hcl).2
  rw [hall, hre] at hresp
  exact server.honest c.id pre family name handle hresp.symm

include h

theorem Bound.sendRecv (ht : st.Translated call entry) : (st.sendRecv call entry).Bound server := by
  refine { h with conn := fun c hc => ?_, op := ?_ }
  · obtain ⟨c', hc', rfl⟩ := Option.map_eq_some_iff.mp hc
    exact h.conn c' hc'
  · rintro _ ⟨⟩ family vh hth
    exact ⟨nofun, ht family vh hth⟩

/-- A name that has a live handle is given it again. -/
theorem Bound.proceed (ht : st.Translated call entry) : (st.proceed call entry).Bound server := by
  unfold TapClient.proceed
  split
  · next family name =>
    split
    · next vh hvh =>
      obtain ⟨⟨vh', e⟩, hf, he⟩ := Option.map_eq_some_iff.mp hvh
      have hp := find?_some hf
      simp only [Bool.and_eq_true, decide_eq_true_eq] at hp
      have hgi := h.given _ (mem_of_find?_eq_some hf)
      rw [hp.1.1, hp.1.2, he] at hgi
      refine { h with given := fun h' hm => mem_cons_of_mem _ (h.given h' hm), once := ?_, op := nofun }
      intro a ha b hb
      have hold : ∀ x ∈ (vh, family, name) :: st.issued, x ∈ st.issued := by
        simpa using hgi
      exact h.once a (hold a ha) b (hold b hb)
    · exact h.sendRecv ht
  · exact h.sendRecv ht

/-- With a new connection nothing is left of the table. -/
theorem Bound.tryConnect (hop : ∀ op, st.op = some op → op.call.through = none) :
    st.tryConnect.Bound server := by
  have hno : ∀ h ∈ st.tryConnect.handles, False := by
    intro e he
    obtain ⟨hm, hl⟩ := mem_filter.mp he
    have hg : e.2.generation = st.generation + 1 := of_decide_eq_true hl
    rw [(h.live e hm).1] at hg
    exact absurd hg (by simp)
  refine ⟨fun e he => (hno e he).elim, fun e he => (hno e he).elim, fun e he => (hno e he).elim, h.once,
    ?_, fun op ho family vh hth => ?_⟩
  · rintro _ ⟨⟩
    rfl
  · rw [hop op ho] at hth
    cases hth

theorem Bound.ensureConnected (ht : st.Translated call entry)
    (hup : call.through ≠ none → st.conn.isSome = true) :
    (st.ensureConnected call entry).Bound server := by
  unfold TapClient.ensureConnected
  split
  · exact h.proceed ht
  · next hn =>
    refine { h with op := ?_ }
    rintro _ ⟨⟩ family vh hth
    have hsome := hup (by rw [show call.through = _ from hth]; exact nofun)
    rw [hn] at hsome
    cases hsome

/-- A resolved name is entered under a virtual handle that is new. -/
theorem Bound.issue {family : HandleFamily} {name : String} {handle : UInt32} {conn : Nat}
    (hc : conn + 1 = st.opened) (hn : server.named conn family handle = name)
    (hnew : ∀ given ∈ st.issued, given.1 ≠ st.nextVirtualHandle) (hop : st.op = none) :
    (st.issue conn family name handle).Bound server := by
  have hcases : ∀ h' ∈ (st.issue conn family name handle).handles,
      h' = (st.nextVirtualHandle, ⟨st.generation, handle, name, family, conn⟩) ∨ h' ∈ st.handles :=
    fun h' hm => (mem_cons.mp hm).imp_right fun hm => (mem_filter.mp hm).1
  refine ⟨fun h' hm => ?_, fun h' hm => ?_, fun h' hm => ?_, fun a ha b hb hab => ?_, h.conn, ?_⟩
  · rcases hcases h' hm with rfl | hm
    · exact ⟨rfl, hc⟩
    · exact h.live h' hm
  · rcases hcases h' hm with rfl | hm
    · exact hn
    · exact h.named h' hm
  · rcases hcases h' hm with rfl | hm
    · exact mem_cons_self
    · exact mem_cons_of_mem _ (h.given h' hm)
  · rcases mem_cons.mp ha with rfl | ha <;> rcases mem_cons.mp hb with rfl | hb
    · rfl
    · exact absurd hab.symm (hnew b hb)
    · exact absurd hab (hnew a ha)
    · exact h.once a ha b hb hab
  · intro op ho
    cases hop.symm.trans ho

/-- While a connection carries a call, its identity does not change. -/
theorem Bound.setConn {d : TapConnection} (hc : st.conn = some c) (hid : d.id = c.id) :
    ({ st with conn := some d } : TapClient).Bound server := by
  refine { h with conn := ?_ }
  rintro _ ⟨⟩
  rw [hid]
  exact h.conn c hc

theorem Bound.step (hs : st.Synced server) (hans : st.Answers server act) (hti : st.InTime act)
    (hst : st.step act = some st') : st'.Bound server := by
  revert hst
  fun_cases TapClient.step st act
  case case15 =>
    intro hst
    obtain ⟨op, hop, rfl⟩ := Option.map_eq_some_iff.mp hst
    split
    · exact { h with op := by simp }
    · exact { h with conn := by simp [teardown], op := by simp [teardown] }
  all_goals rintro ⟨⟩
  · next hth =>
    refine h.ensureConnected (fun family vh hth' => ?_) fun hne => absurd hth hne
    rw [hth] at hth'
    cases hth'
  · exact h
  · next call hop family vh hth e hre =>
    have hup : st.conn.isSome = true := hti (family, vh) hth (by rw [hre]; rfl)
    refine h.ensureConnected (fun family' vh' hth' => ?_) fun _ => hup
    rw [hth] at hth'
    cases hth'
    exact ⟨e, rfl, mem_of_resolveVirtualHandle hre⟩
  · next call entry hop =>
    -- a call that is connecting goes through no handle
    have hno : call.through = none := by
      cases hth : call.through with
      | none => rfl
      | some through => exact absurd rfl (h.op _ hop through.1 through.2 hth).1
    refine Bound.proceed (h.tryConnect fun op ho => ?_) fun family vh hth => ?_
    · cases hop.symm.trans ho
      exact hno
    · rw [hno] at hth
      cases hth
  · next c _ _ hop hc => exact h.setConn hc rfl
  · next c call entry hop hc =>
    refine { h.setConn (d := { c with torn := false, requests := _ }) hc rfl with op := ?_ }
    rintro _ ⟨⟩ family vh hth
    exact ⟨by simp, (h.op _ hop family vh hth).2⟩
  · next c _ _ hop hc => exact h.setConn hc rfl
  · next resp c call entry hop hc =>
    have hset : Bound server { st with
        conn := some { c with answered := c.answered + 1, partlyRead := false }
        op := none
        receipts := ⟨c.id, c.requests, TapOp.request ⟨call, entry, .reading⟩, resp⟩ :: st.receipts } :=
      { h.setConn (d := { c with answered := c.answered + 1, partlyRead := false }) hc rfl with
        op := by simp }
    unfold TapClient.receive
    split
    · next family name handle hcall =>
      have hcall : call = .resolve family name := hcall
      subst hcall
      exact Bound.issue hset (h.conn c hc) (named_of_answer hs hans hop hc) hti rfl
    · exact hset
  · next hop =>
    simp only [Bool.or_eq_true, Option.isSome_iff_ne_none, not_or, not_not] at hop
    refine h.tryConnect fun op ho => ?_
    cases hop.1.symm.trans ho

omit h

/-- **Tap handles never cross connections**, in every run in which a call through a live virtual handle
begins only while the connection is up and no virtual handle is given out twice: whatever call is in
flight, the server handle in its request was issued on the connection that carries it, and stands there
for the tap of the name that the caller's virtual handle was resolved for. -/
theorem handles_stay_on_connection {op : TapOp} {family : HandleFamily} {vh : UInt32}
    (h : Reached TapClient.step (fun st act => st.Answers server act ∧ st.InTime act) new st)
    (hconn : st.conn = some c) (hop : st.op = some op) (hthrough : op.call.through = some (family, vh)) :
    ∃ e, op.entry = some e ∧ op.request = op.call.request e.serverHandle ∧ e.issuedOn = c.id ∧
      ∀ name, (vh, family, name) ∈ st.issued → server.named c.id family e.serverHandle = name := by
  have hb : st.Synced server ∧ st.Bound server := by
    refine h.holds (P := fun st => st.Synced server ∧ st.Bound server) ?_ fun hP hok hst =>
      ⟨hP.1.step hok.1 hst, hP.2.step hP.1 hok.1 hok.2 hst⟩
    exact ⟨⟨nofun, nofun⟩, ⟨nofun, nofun, nofun, nofun, nofun, nofun⟩⟩
  obtain ⟨-, e, he, hm, hfam⟩ := hb.2.op op hop family vh hthrough
  have hid : e.issuedOn = c.id := Nat.succ.inj ((hb.2.live _ hm).2.trans (hb.2.conn c hconn).symm)
  refine ⟨e, he, by rw [TapOp.request, he]; rfl, hid, fun name hg => ?_⟩
  have hna := hb.2.once _ (hb.2.given _ hm) _ hg rfl
  simp only [Prod.mk.injEq, true_and] at hna
  rw [← hid, ← hfam, hb.2.named _ hm, hna.2]

end Bound

/-! ## A server that is restarted -/

instance instDecidableInTime (st : TapClient) (action : TapAction) : Decidable (st.InTime action) :=
  match action with
  | .begin call => inferInstanceAs (Decidable (∀ through ∈ call.through,
      (st.resolveVirtualHandle through.2 through.1).isSome = true → st.conn.isSome = true))
  | .readRest (.handle _) =>
    inferInstanceAs (Decidable (∀ given ∈ st.issued, given.1 ≠ st.nextVirtualHandle))
  | .readRest (.other _) => .isTrue trivial
  | .connected | .writePart | .writeRest | .readPart | .fail | .reconnect => .isTrue trivial

namespace Sample

/-- The connection of the first resolve is lost. -/
def lostTemp : List TapAction := resolveTemp ++ [.begin (.list .tap none), .writePart, .fail]

end Sample

open Sample in
/-- The handle of "temp" is used when its connection was lost.  It is translated, the client connects to
the restarted server, and the read goes to "door". -/
theorem stale_handle_is_sent : ∃ st c op e, Reached step (Answers restarting) new st ∧
    st.conn = some c ∧ st.op = some op ∧ op.call.through = some (.tap, 1) ∧ op.entry = some e ∧
    (1, .tap, "temp") ∈ st.issued ∧ e.issuedOn ≠ c.id ∧
    restarting.named c.id .tap e.serverHandle = "door" := by
  obtain ⟨st, op, hr, hop, hth, hi, hre⟩ : ∃ st op, Reached step (Answers restarting) new st ∧
      st.op = some op ∧ op.call.through = some (.tap, 1) ∧ (1, .tap, "temp") ∈ st.issued ∧
      ∃ c ∈ st.conn, ∃ e ∈ op.entry, e.issuedOn ≠ c.id ∧
        restarting.named c.id .tap e.serverHandle = "door" :=
    exists_reached_some (lostTemp ++ [.begin (.readRetained 1), .connected]) (by decide +kernel)
  obtain ⟨c, hc, e, he, hne, hna⟩ := hre
  exact ⟨st, c, op, e, hr, hc, hop, hth, he, hi, hne, hna⟩

open Sample in
/-- The client reconnects before the next call.  The old handle is refused, the new tap is resolved, and
the read through its handle goes to it. -/
theorem fresh_handle_reaches_tap : ∃ (st : TapClient) (c : TapConnection) (op : TapOp)
    (e : HandleEntry), st.conn = some c ∧ st.op = some op ∧
    op.call.through = some (.tap, 2) ∧ op.entry = some e ∧ e.issuedOn = c.id ∧ c.id = 1 ∧
    restarting.named c.id .tap e.serverHandle = "door" := by
  obtain ⟨st, op, hr, hop, hth, hi, c, hc, hid⟩ : ∃ st op,
      Reached step (fun st act => st.Answers restarting act ∧ st.InTime act) new st ∧
      st.op = some op ∧ op.call.through = some (.tap, 2) ∧ (2, .tap, "door") ∈ st.issued ∧
      ∃ c ∈ st.conn, c.id = 1 :=
    exists_reached_some (lostTemp ++ [.reconnect, .begin (.readRetained 1)] ++
      [.begin (.resolve .tap "door"), .writeRest, .readRest (.handle 0)] ++
      [.begin (.readRetained 2), .writePart]) (by decide +kernel)
  obtain ⟨e, he, -, hon, hname⟩ := handles_stay_on_connection hr hc hop hth
  exact ⟨st, c, op, e, hc, hop, hth, he, hon, hid, hname "door" hi⟩

end TapClient

end Myrmic
