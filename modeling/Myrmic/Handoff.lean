import Myrmic.Agreement
import Myrmic.Coverage
import Myrmic.Drain

/-!
# Handing a scope over

Several nodes commit to a scope, serve and apply its chunks, replicate it for a while, and drain it
when they do not.  A drain releases what a replica was found to cover, be it by an announce of the
replica or by its answers to the pages that the drain has asked it about.  The release comes seconds
after the announce or the answers, and nothing is checked again in between.

So two nodes may rely on each other: one confirms the other's drain, then drains itself, and is
confirmed by an announce that the other sent when it still was a replica
(`late_announce_loses_commit`).  `Uninterrupted` asks that a confirmation comes from a node that has
replicated the scope without interruption since it sent the announce or gave the answer, and that a
node does not begin to replicate while one of its drains is about to release.  **In a run of such
steps every commit is held, with its rows, by some node in every state** (`handoff_loses_nothing`).
-/
namespace Myrmic
open OrderedBytes VersionedCell Fallible List Function Drain

/-! ## Nodes that hand over -/

/-- A verification under way: the pages still to ask, and those a peer has confirmed, each with the
peer's stamp at the answer. -/
structure Query where
  peer : NodeId
  rest : List (List (Version × Epoch))
  answers : List (List (Version × Epoch) × Option Nat)

/-- A drain with its verification. -/
structure Offload where
  drain : Drain
  query : Option Query

/-- A node: what its drains share, the drains started on it, and how often it began to replicate the
scope. -/
structure Member where
  host : Host
  drains : Nat → Option Offload
  generation : Nat

namespace Member

def initial : Member := ⟨⟨∅, [], false⟩, fun _ => none, 0⟩

/-- Replaces the host; a new generation begins when the node begins to replicate the scope. -/
def setHost (s : Scope) (N : Member) (host : Host) : Member :=
  { N with
    host := host
    generation :=
      if isReplicating N.host.handles s = false ∧ isReplicating host.handles s = true then
        N.generation + 1
      else N.generation }

def setStore (s : Scope) (N : Member) (ks : Keyspace) : Member :=
  N.setHost s { N.host with store := ks }

def setHandles (s : Scope) (N : Member) (handles : Handles) : Member :=
  N.setHost s { N.host with handles := handles }

def setDrain (N : Member) (i : Nat) (x : Offload) : Member :=
  { N with drains := update N.drains i (some x) }

/-- The generation in which the node replicates the scope, if it does. -/
def stamp (s : Scope) (N : Member) : Option Nat :=
  if isReplicating N.host.handles s then some N.generation else none

/-- The node has replicated the scope without interruption since it had the stamp. -/
def Vouches (s : Scope) (N : Member) (stamp : Option Nat) : Prop :=
  isReplicating N.host.handles s = true ∧ stamp = some N.generation

end Member

/-- An announce on its way, with the sender's stamp when it was sent. -/
structure Notice where
  sender : NodeId
  announce : Announce
  stamp : Option Nat

/-- The nodes, the commits to the scope so far, and everything that was ever sent. -/
structure Handoff where
  member : NodeId → Member
  committed : List Commit
  served : List Chunk
  announces : List Notice

namespace Handoff

def initial : Handoff := ⟨fun _ => .initial, [], [], []⟩

def set (w : Handoff) (n : NodeId) (N : Member) : Handoff :=
  { w with member := update w.member n N }

theorem member_set_self (w : Handoff) (n : NodeId) (N : Member) : (w.set n N).member n = N :=
  update_self ..

def store (w : Handoff) (n : NodeId) : Keyspace := (w.member n).host.store

/-- Commits, chunks on their way, announces, and the steps of drains. -/
inductive Action where
  | commit (n : NodeId) (c : Commit)
  | serve (n : NodeId) (chunk : Chunk)
  | apply (n : NodeId) (chunk : Chunk)
  | start (n : NodeId) (subject : Subject)
  | stop (n : NodeId) (subject : Subject)
  | offload (n : NodeId) (i : Nat) (kind : OffloadKind)
  | drain (n : NodeId) (i : Nat) (event : DrainEvent)
  | announce (n : NodeId)
  | hear (n : NodeId) (i : Nat) (notice : Notice)
  | ask (n : NodeId) (i : Nat) (peer : NodeId)
  | answer (n : NodeId) (i : Nat)
  | verified (n : NodeId) (i : Nat)

section Steps
variable [Postcard]

/-- The steps of the nodes.  Chunks and announces may arrive late, repeatedly or never. -/
inductive Step (s : Scope) (w : Handoff) : Action → Handoff → Prop
  | commit {n : NodeId} {c : Commit} {seen ks' : Keyspace} : c.node = n →
      s ∈ activeScopes c.writes → (∀ d ∈ w.committed, d.time ≠ c.time) → WellFormed seen →
      Myrmic.commit seen (w.store n) c.time n none c.writes = .ok ks' →
      Step s w (.commit n c)
        { w.set n ((w.member n).setStore s ks') with committed := c :: w.committed }
  | serve {n : NodeId} {chunk : Chunk} : IsChunk (w.store n) s chunk →
      Step s w (.serve n chunk) { w with served := chunk :: w.served }
  | apply {n : NodeId} {chunk : Chunk} {ks' : Keyspace} : chunk ∈ w.served →
      applyChunk (w.store n) s chunk = .ok ks' →
      Step s w (.apply n chunk) (w.set n ((w.member n).setStore s ks'))
  | start {n : NodeId} {subject : Subject} : Step s w (.start n subject)
      (w.set n ((w.member n).setHandles s (replicate (w.member n).host.handles subject)))
  | stop {n : NodeId} {subject : Subject} : Step s w (.stop n subject)
      (w.set n ((w.member n).setHandles s (stopReplication (w.member n).host.handles subject)))
  /-- A drain is started where none is running and the scope is not replicated. -/
  | offload {n : NodeId} {i : Nat} {kind : OffloadKind} : (w.member n).drains i = none →
      isReplicating (w.member n).host.handles s = false →
      (∀ j x, (w.member n).drains j = some x → x.drain.stopped = true) →
      Step s w (.offload n i kind) (w.set n ((w.member n).setDrain i ⟨.start kind, none⟩))
  | drain {n : NodeId} {i : Nat} {x : Offload} {event : DrainEvent} {host' : Host} {d' : Drain} :
      (w.member n).drains i = some x → event ≠ .verifyAnswer true →
      x.drain.step s (w.member n).host event = some (host', d') →
      Step s w (.drain n i event) (w.set n (((w.member n).setHost s host').setDrain i ⟨d', none⟩))
  /-- Only a replica announces as a full replica; a drain announces too. -/
  | announce {n : NodeId} {frontier : ScopeFrontier} {floored full : Bool} {now lag : UInt64} :
      frontiers (w.store n) s = .ok frontier →
      (full = true → isReplicating (w.member n).host.handles s = true) →
      Step s w (.announce n) { w with announces :=
        ⟨n, sendAnnounce frontier floored now lag full, (w.member n).stamp s⟩ :: w.announces }
  | hear {n : NodeId} {i : Nat} {x : Offload} {notice : Notice} {frontier : ScopeFrontier}
      {points : List SyncPointId} : (w.member n).drains i = some x → notice ∈ w.announces →
      frontiers (w.store n) s = .ok frontier → coveredBy frontier notice.announce = some points →
      Step s w (.hear n i notice)
        (w.set n ((w.member n).setDrain i ⟨x.drain.confirm points, x.query⟩))
  | ask {n peer : NodeId} {i : Nat} {x : Offload} {held : List SyncPointId}
      {pages : List (List (Version × Epoch))} : (w.member n).drains i = some x →
      x.drain.place = .asking held → verifyPages (w.store n) s = .ok pages →
      Step s w (.ask n i peer)
        (w.set n ((w.member n).setDrain i ⟨x.drain, some ⟨peer, pages, []⟩⟩))
  | answer {n : NodeId} {i : Nat} {x : Offload} {q : Query} {page : List (Version × Epoch)}
      {rest : List (List (Version × Epoch))} {subject : Subject} :
      (w.member n).drains i = some x → x.query = some q → q.rest = page :: rest →
      verifyCoverage (w.store q.peer) subject s page = .ok true →
      Step s w (.answer n i) (w.set n ((w.member n).setDrain i
        ⟨x.drain, some ⟨q.peer, rest, (page, (w.member q.peer).stamp s) :: q.answers⟩⟩))
  | verified {n : NodeId} {i : Nat} {x : Offload} {q : Query} {host' : Host} {d' : Drain} :
      (w.member n).drains i = some x → x.query = some q → q.rest = [] →
      x.drain.step s (w.member n).host (.verifyAnswer true) = some (host', d') →
      Step s w (.verified n i) (w.set n (((w.member n).setHost s host').setDrain i ⟨d', none⟩))

/-- The runs whose steps are all allowed. -/
inductive Reachable (s : Scope) (allowed : Handoff → Action → Prop) : Handoff → Prop
  | initial : Reachable s allowed .initial
  | step {w w' : Handoff} (action : Action) : Reachable s allowed w → allowed w action →
      Step s w action w' → Reachable s allowed w'

end Steps
end Handoff

/-! ## Which steps are safe -/

/-- The drain is past its loop's check for a replicator and its verification is not decided, or its
coverage is confirmed and not yet released. -/
def Drain.Busy (d : Drain) : Prop :=
  d.atRisk ∨ d.place = .announcing ∨ d.place = .verifying ∨ ∃ held, d.place = .asking held

/-- The steps that keep every commit held.  A node begins to replicate the scope only when none of its
drains is busy, and a drain's steps are unhurried.  A node that hears an announce does not replicate the
scope itself, and a confirmation, by an announce or by answers, comes from a node that has replicated the
scope ever since it sent them. -/
def Handoff.Uninterrupted (s : Scope) (w : Handoff) : Handoff.Action → Prop
  | .start n subject => subject.contains s = true →
      ∀ i x, (w.member n).drains i = some x → ¬ x.drain.Busy
  | .drain n i event => ∀ x, (w.member n).drains i = some x →
      x.drain.Unhurried s (w.member n).host event ∧ (event = .promote true →
        ∀ j y, j ≠ i → (w.member n).drains j = some y → ¬ y.drain.Busy)
  | .hear n _ notice => isReplicating (w.member n).host.handles s = false ∧
      (w.member notice.sender).Vouches s notice.stamp
  | .verified n i => ∀ x q, (w.member n).drains i = some x → x.query = some q →
      ∀ a ∈ q.answers, (w.member q.peer).Vouches s a.2
  | _ => True

/-! ## What a drain may release -/

/-- The drain may come to release the sync point without being confirmed again. -/
def Drain.MayRelease (d : Drain) (id : SyncPointId) : Prop :=
  d.atRisk ∧ match d.place with
    | .releasing rest => id ∈ rest
    | _ => id ∈ d.covered ∨ id ∈ d.confirmed

variable {points : List SyncPointId} {id : SyncPointId} {fr : ScopeFrontier} {ks : Keyspace}
  {c : Commit}
namespace Drain
variable {s : Scope} {host host' : Host} {d d' : Drain} {event : DrainEvent} {id : SyncPointId}
  {held : List SyncPointId}

theorem mayRelease_iff (hp : ∀ rest, d.place ≠ .releasing rest) :
    d.MayRelease id ↔ d.atRisk ∧ (id ∈ d.covered ∨ id ∈ d.confirmed) := by
  unfold MayRelease
  split
  · next rest he => exact absurd he (hp rest)
  · rfl

theorem mayRelease_of_releasing {rest : List SyncPointId} (hp : d.place = .releasing rest) :
    d.MayRelease id ↔ d.atRisk ∧ id ∈ rest := by
  unfold MayRelease
  rw [hp]

theorem not_mayRelease_start (kind : OffloadKind) : ¬ (start kind).MayRelease id :=
  fun h => not_atRisk_start h.1

variable (h : d.Sound)
include h

/-- What a sound drain has on record may be released, or nothing is confirmed. -/
theorem Sound.mayRelease_of_covered (hid : id ∈ d.covered) (hp : ∀ rest, d.place ≠ .releasing rest)
    (hf : d.place ≠ .finished) : d.MayRelease id := by
  have hre : d.retired = true := by
    by_contra hr
    rw [h.covered (Bool.eq_false_iff.mpr hr)] at hid
    cases hid
  exact (mayRelease_iff hp).mpr ⟨atRisk_of_retired hre hf, .inl hid⟩

theorem Sound.mayRelease_of_confirmed (hid : id ∈ d.confirmed) (hl : d.inLoop = true) :
    d.MayRelease id := by
  have hst : d.stopped = true := by
    by_contra hs
    rw [h.confirmed (Bool.eq_false_iff.mpr hs)] at hid
    cases hid
  have hp : ∀ rest, d.place ≠ .releasing rest := fun rest he => by simp [inLoop, he] at hl
  have hf : d.place ≠ .finished := fun he => by simp [inLoop, he] at hl
  exact (mayRelease_iff hp).mpr ⟨⟨.inr ⟨hst, hl⟩, hf⟩, .inr hid⟩

theorem mayRelease_of_confirm (hid : (d.confirm points).MayRelease id) :
    d.MayRelease id ∨ id ∈ points := by
  by_cases hp : ∃ rest, d.place = .releasing rest
  · obtain ⟨rest, hp⟩ := hp
    have hin := ((mayRelease_of_releasing (d := d.confirm points) hp).mp hid).2
    have hr := h.leaving (.inr ⟨rest, hp⟩)
    exact .inl ((mayRelease_of_releasing hp).mpr ⟨atRisk_of_retired hr (by simp [hp]), hin⟩)
  · have hp : ∀ rest, d.place ≠ .releasing rest := fun rest he => hp ⟨rest, he⟩
    obtain ⟨hri, hin | hin⟩ := (mayRelease_iff (d := d.confirm points) hp).mp hid
    · exact .inl (h.mayRelease_of_covered hin hp hri.2)
    · exact .inr hin

theorem mayRelease_of_verified (hp : d.place = .asking held) (hid : MayRelease { d with
      retired := true, covered := held, stopped := true, place := .selecting } id) :
    d.MayRelease id ∨ id ∈ held := by
  obtain ⟨-, hin | hin⟩ := (mayRelease_iff (by simp)).mp hid
  · exact .inr hin
  · exact .inl (h.mayRelease_of_confirmed hin (by simp [inLoop, hp]))

omit h

variable [Postcard]

theorem step_verified (h : d.step s host (.verifyAnswer true) = some (host', d')) :
    ∃ held, d.place = .asking held ∧ host' = host ∧ d' = { d with
      retired := true, covered := held, stopped := true, place := .selecting } := by
  simp only [step] at h
  split at h
  · next held hp =>
    cases h
    exact ⟨held, hp, rfl, rfl⟩
  · cases h

theorem mayRelease_of_move (hmo : Move s host d event host' d')
    (hne : event ≠ .verifyAnswer true) (hid : d'.MayRelease id) : d.MayRelease id := by
  have hri := atRisk_of_move hmo hne hid.1
  cases hmo with
  | verified => exact absurd rfl hne
  | retire _ hpl =>
    obtain ⟨-, hin⟩ := (mayRelease_iff (by simp)).mp hid
    refine (mayRelease_iff (by simp [hpl])).mpr ⟨hri, ?_⟩
    rcases hin with hin | hin
    · split at hin
      · exact .inr hin
      · exact .inl hin
    · exact .inr hin
  | graceOver hpl =>
    exact (mayRelease_iff (by simp [hpl])).mpr ⟨hri, .inl ((mayRelease_of_releasing rfl).mp hid).2⟩
  | release hpl =>
    exact (mayRelease_of_releasing hpl).mpr
      ⟨hri, mem_of_mem_drop ((mayRelease_of_releasing rfl).mp hid).2⟩
  | finish hpl => exact absurd rfl hid.1.2
  | standDown hpl | proceed hpl | announce hpl | verifyNotDue hpl | verifyDue hpl
  | unverified hpl | stop hpl | escalate hpl | wake _ _ _ hpl | promoted hpl
  | unpromoted hpl | keep hpl =>
    exact (mayRelease_iff (by simp [hpl])).mpr ⟨hri, ((mayRelease_iff (by simp [leave])).mp hid).2⟩

variable (hm : Move s host d event host' d')
include hm

/-- A drain becomes busy at its loop head, on a node that does not replicate the scope, or when it is
verified. -/
theorem busy_of_move (hne : event ≠ .verifyAnswer true) (hb : d'.Busy) :
    d.Busy ∨ isReplicating host.handles s = false ∧ host' = host := by
  rcases hb with hr | hp'
  · exact .inl (.inl (atRisk_of_move hm hne hr))
  · cases hm with
    | verified => exact absurd rfl hne
    | proceed _ hre => exact .inr ⟨hre, rfl⟩
    | announce hp => exact .inl (.inr (.inl hp))
    | verifyNotDue hp | verifyDue hp => exact .inl (.inr (.inr (.inl hp)))
    | unverified hp => exact .inl (.inr (.inr (.inr ⟨_, hp⟩)))
    | _ => simp [leave] at hp'

/-- Only a promotion touches the handles, and it leaves the drain at rest. -/
theorem handles_of_move (h : d.Sound) :
    host'.handles = host.handles ∨ event = .promote true ∧ ¬ d'.Busy := by
  cases hm with
  | promoted hp =>
    exact .inr ⟨rfl, by simp [Busy, atRisk, leave, inLoop, h.promoting hp]⟩
  | _ => exact .inl rfl

theorem store_of_move : host'.store = host.store ∨
    ∃ rest, d.place = .releasing rest ∧ host'.handles = host.handles ∧
      host'.store = releaseBatch s host.store (rest.take releaseBatchSize) := by
  cases hm with
  | release hp => exact .inr ⟨_, hp, rfl, rfl⟩
  | _ => exact .inl rfl

/-- A verification begins with the holdings of the moment. -/
theorem asking_of_move (hp : d'.place = .asking held) :
    held = heldSyncPoints host.store s ∧ host' = host := by
  cases hm with
  | verifyDue => exact ⟨(Place.asking.inj hp).symm, rfl⟩
  | _ => simp [leave] at hp

end Drain

/-! ## Releasing from a store that holds exactly some commits -/

section Release
variable [Postcard] {s : Scope} {ks ks' : Keyspace} {held : List Commit}

/-- Releasing the sync point of a commit takes that commit and no other. -/
theorem HoldsExactly.releasePoint (h : HoldsExactly s ks held)
    (hsa : ∀ d ∈ held, d.time = c.time → d = c) :
    HoldsExactly s (releasePoint s ks (c.point s).asId) (held.filter (· ≠ c)) := by
  obtain ⟨ks', hfo, hwf, hme, hro⟩ := forgetChunk_spec h.wellFormed (c.point s)
  have hks : Myrmic.releasePoint s ks (c.point s).asId = ks' := by
    have hpo : s.withSpId (c.point s).asId = c.point s := rfl
    rw [Myrmic.releasePoint, hpo, hfo]
  rw [hks]
  have hke : ∀ d ∈ held.filter (· ≠ c), d ∈ held ∧ d.time ≠ c.time := by
    intro d hd
    obtain ⟨hd, hne⟩ := mem_filter.mp hd
    exact ⟨hd, fun he => of_decide_eq_true hne (hsa d hd he)⟩
  refine ⟨hwf, fun p m hs hp => ?_, fun d hd => ?_, fun d hd k hk => ?_, fun v hv k kind hk => ?_⟩
  · rw [hme] at hp
    split at hp
    · cases hp
    · next hne =>
      obtain ⟨hm, d, hd, rfl⟩ := h.points p m hs hp
      exact ⟨hm, d, mem_filter.mpr ⟨hd, by simpa using fun he => hne (by rw [he])⟩, rfl⟩
  · obtain ⟨hd, hne⟩ := hke d hd
    obtain ⟨m, hm⟩ := h.present d hd
    refine ⟨m, ?_⟩
    rw [hme, if_neg fun he => hne (congrArg SyncPoint.ts he).symm, hm]
  · obtain ⟨hd, hne⟩ := hke d hd
    rw [← h.cells d hd k hk]
    refine cell_congr fun kind => ?_
    rw [hro k d.time kind (UserKey.of_isPrefix hk), if_neg fun hc => hne hc.2]
  · rw [hro k v kind (UserKey.of_isPrefix hk)]
    split
    · rfl
    · next hne =>
      refine h.rowless v (fun d hd he => ?_) k kind hk
      by_cases hc : d = c
      · exact hne ⟨hk, by rw [← he, hc]; rfl⟩
      · exact hv d (mem_filter.mpr ⟨hd, by simpa using hc⟩) he

/-- A batch takes only the commits it names. -/
theorem HoldsExactly.releaseBatch {committed : List Commit} (hdi : DistinctTimes committed)
    {batch : List SyncPointId} (hk : ∀ id ∈ batch, ∃ c ∈ committed, (c.point s).asId = id)
    (hs : held ⊆ committed) (h : HoldsExactly s ks held) :
    ∃ held', held' ⊆ held ∧ HoldsExactly s (releaseBatch s ks batch) held' ∧
      ∀ d ∈ held, (d.point s).asId ∉ batch → d ∈ held' := by
  induction batch generalizing ks held with
  | nil => exact ⟨held, List.Subset.refl _, h, fun d hd _ => hd⟩
  | cons id batch ih =>
    obtain ⟨c, hc, rfl⟩ := hk _ mem_cons_self
    have hr := h.releasePoint fun d hd he => hdi d (hs hd) c hc he
    have hf : held.filter (· ≠ c) ⊆ held := filter_subset_self _
    obtain ⟨held', hs', hex, hke⟩ :=
      ih (fun id hid => hk id (mem_cons_of_mem _ hid)) (List.Subset.trans hf hs) hr
    refine ⟨held', List.Subset.trans hs' hf, hex, fun d hd hn => ?_⟩
    refine hke d (mem_filter.mpr ⟨hd, ?_⟩) fun hin => hn (mem_cons_of_mem _ hin)
    refine decide_eq_true fun he => hn ?_
    rw [he]
    exact mem_cons_self

theorem HoldsExactly.heldSyncPoints (h : HoldsExactly s ks held)
    (hid : id ∈ heldSyncPoints ks s) : ∃ c ∈ held, (c.point s).asId = id := by
  obtain ⟨_, _, H, hr, hhe, hm, -⟩ := collectLatestHeads_spec h.wellFormed s
  have hpo : Myrmic.heldSyncPoints ks s = H.map fun head => head.1.asId := by
    simp [Myrmic.heldSyncPoints, hr, hhe, context, bind, Except.bind]
  rw [hpo] at hid
  obtain ⟨⟨p, m⟩, hp, rfl⟩ := mem_map.mp hid
  obtain ⟨hs, hh⟩ := (hm p m).mp hp
  obtain ⟨-, c, hc, rfl⟩ := h.points p m hs hh.held
  exact ⟨c, hc, rfl⟩

theorem HoldsExactly.frontierPoints (h : HoldsExactly s ks held) (hd : DistinctTimes held)
    (hf : frontiers ks s = .ok fr)
    (hid : id ∈ frontierPoints fr) : ∃ c ∈ held, (c.point s).asId = id := by
  obtain ⟨head, hin, rfl⟩ := mem_map.mp hid
  obtain ⟨c, hc, rfl⟩ := (h.frontier_iff hd hf head).mp (mem_toList_frontier.mp hin)
  exact ⟨c, hc, rfl⟩

end Release

/-! ## The invariant -/

section Invariant
variable [Postcard] (s : Scope)

/-- The node holds the sync point of a commit. -/
def Member.Has (N : Member) (c : Commit) : Prop := ∃ m, metaAt N.host.store (c.point s) = some m

/-- A verification asks, or has asked, about the sync point. -/
def Query.Mentions (q : Query) (id : SyncPointId) : Prop :=
  (∃ page ∈ q.rest, (id.version, id.epoch) ∈ page) ∨
    ∃ a ∈ q.answers, (id.version, id.epoch) ∈ a.1

/-- The drain may come to release the sync point without any node being asked about it: it is about to
be released, or the holdings to be verified contain it and the verification leaves it out. -/
def Offload.MayRelease (x : Offload) (id : SyncPointId) : Prop :=
  x.drain.MayRelease id ∨ ∃ held q, x.drain.place = .asking held ∧ x.query = some q ∧ id ∈ held ∧
    ¬ q.Mentions id

/-- Some drain of the node may release the sync point. -/
def Member.MayRelease (N : Member) (id : SyncPointId) : Prop :=
  ∃ i x, N.drains i = some x ∧ x.MayRelease id

/-- The node holds the commit and no drain of it may release it. -/
def Member.Keeps (N : Member) (c : Commit) : Prop :=
  N.Has s c ∧ ¬ N.MayRelease (c.point s).asId

/-- A stamp is of a generation that the node has begun. -/
def Member.Begun (N : Member) (stamp : Option Nat) : Prop := ∀ g ∈ stamp, g ≤ N.generation

/-- What an announce names is held by its sender, as long as the sender vouches for it. -/
structure Notice.Sound (w : Handoff) (notice : Notice) : Prop where
  begun : (w.member notice.sender).Begun notice.stamp
  named : ∀ sa ts entry, notice.announce.known = some sa → sa.heads[ts]? = some entry →
    ∃ c ∈ w.committed, c.time = ts ∧
      ((w.member notice.sender).Vouches s notice.stamp → (w.member notice.sender).Has s c)

/-- What a peer has confirmed it holds, as long as it vouches for it. -/
structure Query.Sound (w : Handoff) (q : Query) : Prop where
  begun : ∀ a ∈ q.answers, (w.member q.peer).Begun a.2
  confirmed : ∀ a ∈ q.answers, ∀ head ∈ a.1, ∃ c ∈ w.committed, c.time = head.1 ∧
    ((w.member q.peer).Vouches s a.2 → (w.member q.peer).Has s c)

/-- What holds of every drain. -/
structure Offload.Sound (w : Handoff) (n : NodeId) (x : Offload) : Prop where
  drain : x.drain.Sound
  rests : x.drain.Busy → isReplicating (w.member n).host.handles s = false
  known : ∀ id, x.drain.MayRelease id → ∃ c ∈ w.committed, (c.point s).asId = id
  asked : ∀ held, x.drain.place = .asking held → ∀ id ∈ held,
    ∃ c ∈ w.committed, (c.point s).asId = id
  query : ∀ q, x.query = some q → q.Sound s w

/-- **The invariant**: the stores hold exactly commits of the run, what is under way is true of them,
and every commit is kept by some node. -/
structure Handoff.Sound (w : Handoff) : Prop where
  distinct : DistinctTimes w.committed
  exact : ∀ n, ∃ held, held ⊆ w.committed ∧ HoldsExactly s (w.store n) held
  served : ∀ chunk ∈ w.served, ∃ c ∈ w.committed, chunk.id = (c.point s).asId ∧
    chunk.syncMeta.marker = .mutation ∧ Describes s chunk.entries c.effect
  announces : ∀ notice ∈ w.announces, notice.Sound s w
  drains : ∀ n i x, (w.member n).drains i = some x → x.Sound s w n
  kept : ∀ c ∈ w.committed, ∃ n, (w.member n).Keeps s c

variable {s} {w w' : Handoff} {n : NodeId} {c : Commit} {held : List Commit} {x : Offload}
  {N' : Member} {cs : List Commit} {stamp : Option Nat} {q : Query} {i : Nat} {host' : Host} {d' : Drain}
  {allowed : Handoff → Handoff.Action → Prop}

theorem HoldsExactly.has_iff (h : HoldsExactly s (w.store n) held)
    (hdi : DistinctTimes w.committed) (hs : held ⊆ w.committed) (hc : c ∈ w.committed) :
    (w.member n).Has s c ↔ c ∈ held := by
  constructor
  · rintro ⟨m, hm⟩
    obtain ⟨-, d, hd, he⟩ := h.points _ m rfl hm
    exact hdi c hc d (hs hd) (congrArg SyncPoint.ts he) ▸ hd
  · exact fun hin => h.present c hin

omit [Postcard] in
theorem Offload.MayRelease.busy (h : x.MayRelease id) : x.drain.Busy := by
  rcases h with h | ⟨held, q, hp, -⟩
  · exact .inl h.1
  · exact .inr (.inr (.inr ⟨held, hp⟩))

theorem Offload.Sound.exists_commit (h : x.Sound s w n)
    (hid : x.MayRelease id) : ∃ c ∈ w.committed, (c.point s).asId = id := by
  rcases hid with hid | ⟨held, q, hp, -, hin, -⟩
  · exact h.known id hid
  · exact h.asked held hp id hin

/-- A node that replicates the scope keeps whatever it has. -/
theorem Handoff.Sound.keeps_of_replicating (h : w.Sound s)
    (hr : isReplicating (w.member n).host.handles s = true) (hh : (w.member n).Has s c) :
    (w.member n).Keeps s c := by
  refine ⟨hh, ?_⟩
  rintro ⟨i, x, hx, hid⟩
  rw [(h.drains n i x hx).rests hid.busy] at hr
  cases hr

/-! ### What a step carries over -/

/-- What everything under way relies on: whoever vouches after the step vouched before, and still has
what it had. -/
structure Handoff.Carries (s : Scope) (w w' : Handoff) : Prop where
  committed : w.committed ⊆ w'.committed
  generation : ∀ m, (w.member m).generation ≤ (w'.member m).generation
  vouches : ∀ m stamp, (w.member m).Begun stamp → (w'.member m).Vouches s stamp →
    (w.member m).Vouches s stamp ∧ ∀ c ∈ w.committed, (w.member m).Has s c → (w'.member m).Has s c

omit [Postcard] in
theorem Member.Begun.mono {N : Member} (h : N.Begun stamp)
    (hle : N.generation ≤ N'.generation) : N'.Begun stamp :=
  fun g hg => Nat.le_trans (h g hg) hle

theorem Handoff.Carries.notice (hc : Carries s w w') {notice : Notice} (h : notice.Sound s w) :
    notice.Sound s w' := by
  refine ⟨h.begun.mono (hc.generation _), fun sa ts e hsa hg => ?_⟩
  obtain ⟨c, hco, ht, hh⟩ := h.named sa ts e hsa hg
  refine ⟨c, hc.committed hco, ht, fun hv => ?_⟩
  obtain ⟨hb, hk⟩ := hc.vouches _ _ h.begun hv
  exact hk c hco (hh hb)

theorem Handoff.Carries.query (hc : Carries s w w') (h : q.Sound s w) : q.Sound s w' := by
  refine ⟨fun a ha => (h.begun a ha).mono (hc.generation _), fun a ha head hh => ?_⟩
  obtain ⟨c, hco, ht, hha⟩ := h.confirmed a ha head hh
  refine ⟨c, hc.committed hco, ht, fun hv => ?_⟩
  obtain ⟨hb, hk⟩ := hc.vouches _ _ (h.begun a ha) hv
  exact hk c hco (hha hb)

theorem Offload.Sound.carry (h : x.Sound s w n) (hc : Handoff.Carries s w w')
    (hr : x.drain.Busy → isReplicating (w'.member n).host.handles s = false) :
    x.Sound s w' n where
  drain := h.drain
  rests := hr
  known := fun id hid => by
    obtain ⟨c, hco, hp⟩ := h.known id hid
    exact ⟨c, hc.committed hco, hp⟩
  asked := fun held hpl id hid => by
    obtain ⟨c, hco, hp⟩ := h.asked held hpl id hid
    exact ⟨c, hc.committed hco, hp⟩
  query := fun q hq => hc.query (h.query q hq)

/-- What one node's step has to carry over: it vouches only if it did, and loses nothing while it
replicates the scope. -/
structure Member.Carries (s : Scope) (committed : List Commit) (N N' : Member) : Prop where
  generation : N.generation ≤ N'.generation
  vouches : ∀ stamp, N.Begun stamp → N'.Vouches s stamp → N.Vouches s stamp
  has : isReplicating N'.host.handles s = true → ∀ c ∈ committed, N.Has s c → N'.Has s c

/-- **One node's step carries everything over.** -/
theorem Handoff.carries_set (hN : Member.Carries s w.committed (w.member n) N')
    (hc : w.committed ⊆ cs) : Carries s w { w.set n N' with committed := cs } := by
  refine ⟨hc, fun m => ?_, fun m stamp hb hv => ?_⟩ <;> simp only [Handoff.set] at *
  · by_cases hm : m = n
    · subst hm
      rw [update_self]
      exact hN.generation
    · rw [update_of_ne hm]
  · by_cases hm : m = n
    · subst hm
      rw [update_self] at hv ⊢
      exact ⟨hN.vouches stamp hb hv, hN.has hv.1⟩
    · rw [update_of_ne hm] at hv ⊢
      exact ⟨hv, fun c _ hh => hh⟩

/-- **Every commit stays kept** if the node loses only what it might release, and what it may release
in addition is held by nodes that replicate the scope while this one does not. -/
theorem Handoff.Sound.kept_update (h : w.Sound s)
    (hha : ∀ c ∈ w.committed, (w.member n).Keeps s c → N'.Has s c)
    (hre : ∀ c ∈ w.committed, (w.member n).Has s c → N'.MayRelease (c.point s).asId →
      (w.member n).MayRelease (c.point s).asId ∨ isReplicating (w.member n).host.handles s = false ∧
        ∃ m, isReplicating (w.member m).host.handles s = true ∧ (w.member m).Has s c) :
    ∀ c ∈ w.committed, ∃ m, (update w.member n N' m).Keeps s c := by
  intro c hc
  obtain ⟨m, hk⟩ := h.kept c hc
  by_cases hm : m = n
  · subst hm
    by_cases hr : N'.MayRelease (c.point s).asId
    · obtain ⟨hrep, m', hrep', hha'⟩ := (hre c hc hk.1 hr).resolve_left hk.2
      refine ⟨m', ?_⟩
      rw [update_of_ne]
      · exact h.keeps_of_replicating hrep' hha'
      · rintro rfl
        rw [hrep] at hrep'
        cases hrep'
    · refine ⟨m, ?_⟩
      rw [update_self]
      exact ⟨hha c hc hk, hr⟩
  · refine ⟨m, ?_⟩
    rw [update_of_ne hm]
    exact hk

/-! ### Assembling the invariant after a step -/

/-- The invariant after a step of one node. -/
theorem Handoff.Sound.update (h : w.Sound s)
    (hN : Member.Carries s w.committed (w.member n) N') (hco : w.committed ⊆ cs)
    (hdi : DistinctTimes cs) (hexa : ∃ held, held ⊆ cs ∧ HoldsExactly s N'.host.store held)
    (hke : ∀ c ∈ cs, ∃ m, (Function.update w.member n N' m).Keeps s c)
    (hdr : ∀ i x, N'.drains i = some x → x.Sound s w n ∧
      (x.drain.Busy → isReplicating N'.host.handles s = false)) :
    Sound s { w.set n N' with committed := cs } := by
  have hc := carries_set hN hco
  have hot : ∀ m, m ≠ n → (w.set n N').member m = w.member m := fun m hm => update_of_ne hm ..
  refine ⟨hdi, fun m => ?_, fun chunk hch => ?_, fun notice hno => ?_, fun m i x hx => ?_, hke⟩
  · by_cases hm : m = n
    · subst hm
      rw [store, member_set_self]
      exact hexa
    · obtain ⟨held, hsu, hex⟩ := h.exact m
      rw [store, hot m hm]
      exact ⟨held, List.Subset.trans hsu hco, hex⟩
  · obtain ⟨c, hc, hre⟩ := h.served chunk hch
    exact ⟨c, hco hc, hre⟩
  · exact hc.notice (h.announces notice hno)
  · by_cases hm : m = n
    · subst hm
      rw [member_set_self] at hx
      refine (hdr i x hx).1.carry hc ?_
      rw [member_set_self]
      exact (hdr i x hx).2
    · rw [hot m hm] at hx
      refine (h.drains m i x hx).carry hc ?_
      rw [hot m hm]
      exact (h.drains m i x hx).rests

theorem Handoff.Sound.send (h : w.Sound s) {served : List Chunk} {announces : List Notice}
    (hse : ∀ chunk ∈ served, ∃ c ∈ w.committed, chunk.id = (c.point s).asId ∧
      chunk.syncMeta.marker = .mutation ∧ Describes s chunk.entries c.effect)
    (han : ∀ notice ∈ announces, notice.Sound s w) : Sound s { w with served, announces } := by
  have hc : Carries s w { w with served, announces } :=
    ⟨List.Subset.refl _, fun _ => Nat.le_refl _, fun _ _ _ hv => ⟨hv, fun _ _ hh => hh⟩⟩
  exact ⟨h.distinct, h.exact, hse, fun notice hno => hc.notice (han notice hno),
    fun m i x hx => (h.drains m i x hx).carry hc (h.drains m i x hx).rests, h.kept⟩

namespace Member
variable {N : Member} {host' : Host}

section
omit [Postcard]

theorem drains_setDrain {j : Nat} {y : Offload} (h : (N.setDrain i x).drains j = some y) :
    j = i ∧ y = x ∨ j ≠ i ∧ N.drains j = some y := by
  simp only [setDrain] at h
  by_cases hj : j = i
  · subst hj
    rw [update_self] at h
    exact .inl ⟨rfl, (Option.some.inj h).symm⟩
  · rw [update_of_ne hj] at h
    exact .inr ⟨hj, h⟩

theorem mayRelease_setDrain
    (h : (N.setDrain i x).MayRelease id) : x.MayRelease id ∨ N.MayRelease id := by
  obtain ⟨j, y, hy, hid⟩ := h
  rcases drains_setDrain hy with ⟨-, rfl⟩ | ⟨-, hy⟩
  · exact .inl hid
  · exact .inr ⟨j, y, hy, hid⟩

theorem begun_stamp : N.Begun (N.stamp s) := by
  intro g hg
  rw [stamp] at hg
  split at hg
  · exact Nat.le_of_eq (Option.some.inj hg).symm
  · cases hg

theorem generation_setHost : N.generation ≤ (N.setHost s host').generation := by
  simp only [setHost]
  split <;> omega

theorem setHost_self : N.setHost s N.host = N := by
  simp [setHost]

/-- A node that vouches for an earlier stamp has not begun a new generation. -/
theorem vouches_of_setHost (hb : N.Begun stamp)
    (hv : (N.setHost s host').Vouches s stamp) : N.Vouches s stamp := by
  obtain ⟨hr', rfl⟩ := hv
  have hle := hb _ rfl
  simp only [setHost] at hle hr'
  cases hr : isReplicating N.host.handles s with
  | true =>
    refine ⟨hr, ?_⟩
    simp [setHost, hr]
  | false =>
    rw [if_pos ⟨hr, hr'⟩] at hle
    omega

end

end Member

/-! ### The steps -/

namespace Handoff.Sound
variable {ks' : Keyspace} (h : w.Sound s) {subject : Subject} {chunk : Chunk}
include h

open Member

/-- A change of one node's store that keeps what the node holds. -/
theorem setStore {held held' : List Commit} (hco : w.committed ⊆ cs) (hdi : DistinctTimes cs)
    (hsu : held ⊆ w.committed) (hex : HoldsExactly s (w.store n) held)
    (hsu' : held' ⊆ cs) (hex' : HoldsExactly s ks' held') (hke : held ⊆ held')
    (hne : ∀ c ∈ cs, c ∉ w.committed → c ∈ held' ∧
      ∀ d ∈ w.committed, (d.point s).asId ≠ (c.point s).asId) :
    Sound s { w.set n ((w.member n).setStore s ks') with committed := cs } := by
  have hha : ∀ c ∈ w.committed, (w.member n).Has s c → ((w.member n).setStore s ks').Has s c :=
    fun c hc hh => hex'.present c (hke ((hex.has_iff h.distinct hsu hc).mp hh))
  refine h.update ⟨generation_setHost, fun _ => vouches_of_setHost, fun _ => hha⟩ hco hdi
    ⟨held', hsu', hex'⟩ (fun c hc => ?_) fun i x hx => ⟨h.drains n i x hx, (h.drains n i x hx).rests⟩
  by_cases hold : c ∈ w.committed
  · exact h.kept_update (fun c hc hk => hha c hc hk.1) (fun c _ _ hr => .inl hr) c hold
  · obtain ⟨hin, hfr⟩ := hne c hc hold
    refine ⟨n, ?_⟩
    rw [Function.update_self]
    refine ⟨hex'.present c hin, ?_⟩
    rintro ⟨i, x, hx, hid⟩
    obtain ⟨d, hd, he⟩ := (h.drains n i x hx).exists_commit hid
    exact hfr d hd he

theorem commit {seen : Keyspace} (hn : c.node = n) (ha : s ∈ activeScopes c.writes)
    (hf : ∀ d ∈ w.committed, d.time ≠ c.time) (hs : WellFormed seen)
    (hc : Myrmic.commit seen (w.store n) c.time n none c.writes = .ok ks') :
    Sound s { w.set n ((w.member n).setStore s ks') with committed := c :: w.committed } := by
  subst hn
  obtain ⟨_, hsu, hex⟩ := h.exact c.node
  have hex' := hex.commit ha (fun d hd => hf d (hsu hd)) hs hc
  refine h.setStore (subset_cons_self _ _) ?_ hsu hex
    (cons_subset.mpr ⟨mem_cons_self, fun d hd => mem_cons_of_mem _ (hsu hd)⟩) hex'
    (subset_cons_self _ _) fun d hd hno => ?_
  · intro d hd e he ht
    rcases mem_cons.mp hd with hdc | hdw <;> rcases mem_cons.mp he with hec | hew
    · rw [hdc, hec]
    · exact absurd (hdc ▸ ht.symm) (hf e hew)
    · exact absurd (hec ▸ ht) (hf d hdw)
    · exact h.distinct d hdw e hew ht
  · obtain rfl : d = c := (mem_cons.mp hd).resolve_right hno
    exact ⟨mem_cons_self, fun e he hid => hf e he (congrArg SyncPointId.version hid)⟩

theorem apply (hs : chunk ∈ w.served) (ha : applyChunk (w.store n) s chunk = .ok ks') :
    Sound s (w.set n ((w.member n).setStore s ks')) := by
  obtain ⟨c, hc, hid, hm, hde⟩ := h.served chunk hs
  obtain ⟨_, hsu, hex⟩ := h.exact n
  have hex' := hex.receive (fun d hd => h.distinct d (hsu hd) c hc) hid hm hde ha
  exact h.setStore (List.Subset.refl _) h.distinct hsu hex (cons_subset.mpr ⟨hc, hsu⟩) hex'
    (subset_cons_self _ _) fun d hd hn => absurd hd hn

theorem serve (hch : IsChunk (w.store n) s chunk) :
    Sound s { w with served := chunk :: w.served } := by
  refine h.send (fun other ho => ?_) h.announces
  rcases mem_cons.mp ho with rfl | ho
  · obtain ⟨_, hs, hex⟩ := h.exact n
    obtain ⟨-, c, hc, hp⟩ := hex.points _ _ rfl hch.held
    have hid : other.id = (c.point s).asId := by rw [← hp]; rfl
    exact ⟨c, hs hc, hid, hex.describes hc hid hch⟩
  · exact h.served other ho

theorem announce {floored full : Bool} {now lag : UInt64}
    (hf : frontiers (w.store n) s = .ok fr) : Sound s { w with announces :=
      ⟨n, sendAnnounce fr floored now lag full, (w.member n).stamp s⟩ :: w.announces } := by
  refine h.send h.served fun notice hn => ?_
  rcases mem_cons.mp hn with rfl | hn
  · refine ⟨begun_stamp, fun sa ts e hsa hg => ?_⟩
    obtain rfl := known_sendAnnounce hsa
    obtain ⟨_, hs, hex⟩ := h.exact n
    obtain ⟨c, hc, he⟩ := (hex.frontier_iff (h.distinct.subset hs) hf (ts, e)).mp
      (lookup_of_announced hg)
    exact ⟨c, hs hc, congrArg Prod.fst he, fun _ => hex.present c hc⟩
  · exact h.announces notice hn

theorem setHandles {handles : Handles} (hre : ∀ i x, (w.member n).drains i = some x → x.drain.Busy →
      isReplicating handles s = false) : Sound s (w.set n ((w.member n).setHandles s handles)) :=
  h.update ⟨generation_setHost, fun _ => vouches_of_setHost, fun _ _ _ hh => hh⟩
    (List.Subset.refl _) h.distinct (h.exact n)
    (h.kept_update (fun _ _ hk => hk.1) fun _ _ _ hr => .inl hr)
    fun i x hx => ⟨h.drains n i x hx, hre i x hx⟩

theorem start (hok : w.Uninterrupted s (.start n subject)) :
    Sound s (w.set n ((w.member n).setHandles s (replicate (w.member n).host.handles subject))) := by
  refine h.setHandles fun i x hx hb => Bool.eq_false_iff.mpr fun hr => ?_
  rcases isReplicating_of_replicate hr with hr | hc
  · rw [(h.drains n i x hx).rests hb] at hr
    cases hr
  · exact hok hc i x hx hb

theorem stop (subject : Subject) : Sound s (w.set n ((w.member n).setHandles s
      (stopReplication (w.member n).host.handles subject))) := by
  refine h.setHandles fun i x hx hb => Bool.eq_false_iff.mpr fun hr => ?_
  have hr := isReplicating_of_stopReplication hr
  rw [(h.drains n i x hx).rests hb] at hr
  cases hr

/-- A change of one node's drain: what it may release in addition the node does not hold, or nodes
that replicate the scope hold it. -/
theorem setDrain (hre : ∀ c ∈ w.committed, (w.member n).Has s c → x.MayRelease (c.point s).asId →
      (w.member n).MayRelease (c.point s).asId ∨ isReplicating (w.member n).host.handles s = false ∧
        ∃ m, isReplicating (w.member m).host.handles s = true ∧ (w.member m).Has s c)
    (hx : x.Sound s w n) : Sound s (w.set n ((w.member n).setDrain i x)) := by
  refine h.update ⟨Nat.le_refl _, fun _ _ hv => hv, fun _ c _ hh => hh⟩ (List.Subset.refl _)
    h.distinct (h.exact n) (h.kept_update (fun c _ hk => hk.1) fun c hc hh hr => ?_) fun j y hy => ?_
  · rcases mayRelease_setDrain hr with hr | hr
    · exact hre c hc hh hr
    · exact .inl hr
  · rcases drains_setDrain hy with ⟨-, rfl⟩ | ⟨-, hy⟩
    · exact ⟨hx, hx.rests⟩
    · exact ⟨h.drains n j y hy, (h.drains n j y hy).rests⟩

omit [Postcard] h in
theorem not_mayRelease_start (kind : OffloadKind) (id : SyncPointId) :
    ¬ Offload.MayRelease ⟨.start kind, none⟩ id := by
  rintro (hid | ⟨_, q, hp, -⟩)
  · exact Drain.not_mayRelease_start kind hid
  · cases hp

theorem offload (i : Nat) (kind : OffloadKind) :
    Sound s (w.set n ((w.member n).setDrain i ⟨.start kind, none⟩)) := by
  refine h.setDrain (fun c _ _ hr => absurd hr (not_mayRelease_start kind _))
    ⟨Drain.sound_start kind, fun hb => ?_,
      fun id hid => absurd hid (Drain.not_mayRelease_start kind), nofun, nofun⟩
  rcases hb with hri | hp | hp | ⟨held, hp⟩
  · exact absurd hri Drain.not_atRisk_start
  all_goals cases hp

variable (hx : (w.member n).drains i = some x) {event : DrainEvent}
include hx

theorem setQuery (hq : q.Sound s w)
    (hl : ∀ c ∈ w.committed, (w.member n).Has s c → ¬ q.Mentions (c.point s).asId →
      ∃ q₀, x.query = some q₀ ∧ ¬ q₀.Mentions (c.point s).asId) :
    Sound s (w.set n ((w.member n).setDrain i ⟨x.drain, some q⟩)) := by
  have hs := h.drains n i x hx
  refine h.setDrain (fun c hc hh hr => .inl ⟨i, x, hx, ?_⟩)
    ⟨hs.drain, hs.rests, hs.known, hs.asked, fun q' hq' => ?_⟩
  · rcases hr with hr | ⟨held, q', hp, hq', hin, hn⟩
    · exact .inl hr
    · cases hq'
      obtain ⟨q₀, hq₀, hn₀⟩ := hl c hc hh hn
      exact .inr ⟨held, q₀, hp, hq₀, hin, hn₀⟩
  · cases hq'
    exact hq

/-- A drain asks a peer about what the node holds. -/
theorem ask (peer : NodeId) {pages : List (List (Version × Epoch))}
    (hp : verifyPages (w.store n) s = .ok pages) :
    Sound s (w.set n ((w.member n).setDrain i ⟨x.drain, some ⟨peer, pages, []⟩⟩)) := by
  refine h.setQuery hx ⟨nofun, nofun⟩ fun c hc hha hn => absurd ?_ hn
  obtain ⟨_, hs, hex⟩ := h.exact n
  obtain ⟨m, hh⟩ := hex.isHead (h.distinct.subset hs) ((hex.has_iff h.distinct hs hc).mp hha)
  obtain ⟨_, hp', hm⟩ := verifyPages_spec hex.wellFormed s
  obtain rfl := Except.ok.inj (hp.symm.trans hp')
  exact .inl (mem_flatten.mp ((hm c.time c.time).mpr ⟨c.node, m, hh⟩))

theorem answer {page : List (Version × Epoch)} {rest : List (List (Version × Epoch))}
    (hq : x.query = some q) (hre : q.rest = page :: rest)
    (hve : verifyCoverage (w.store q.peer) subject s page = .ok true) :
    Sound s (w.set n ((w.member n).setDrain i
      ⟨x.drain, some ⟨q.peer, rest, (page, (w.member q.peer).stamp s) :: q.answers⟩⟩)) := by
  have hold := (h.drains n i x hx).query q hq
  refine h.setQuery hx ⟨forall_mem_cons.mpr ⟨begun_stamp, hold.begun⟩,
    forall_mem_cons.mpr ⟨fun head hhe => ?_, hold.confirmed⟩⟩
    fun c _ _ hno => ⟨q, hq, fun hme => hno ?_⟩
  · obtain ⟨_, hsu, hex⟩ := h.exact q.peer
    obtain ⟨_, hve', hif⟩ := verifyCoverage_spec hex.wellFormed subject s
    obtain rfl := Except.ok.inj (hve.symm.trans hve')
    obtain ⟨p, m, hps, hts, -, hp⟩ := (hif.mp rfl).2 head hhe
    obtain ⟨-, c, hc, rfl⟩ := hex.points p m hps hp
    exact ⟨c, hsu hc, hts, fun _ => ⟨m, hp⟩⟩
  · rcases hme with ⟨page', hpa', hin⟩ | ⟨a, ha, hin⟩
    · rw [hre] at hpa'
      rcases mem_cons.mp hpa' with rfl | hpa'
      · exact .inr ⟨_, mem_cons_self, hin⟩
      · exact .inl ⟨page', hpa', hin⟩
    · exact .inr ⟨a, mem_cons_of_mem _ ha, hin⟩

/-- A step of a drain takes from the store only what may be released, and only when the node does not
replicate the scope. -/
theorem drain_store (hmo : x.drain.Move s (w.member n).host event host' d') :
    (∃ held, held ⊆ w.committed ∧ HoldsExactly s host'.store held) ∧
      ∀ c ∈ w.committed, (w.member n).Has s c → (∃ m, metaAt host'.store (c.point s) = some m) ∨
        (w.member n).MayRelease (c.point s).asId ∧ isReplicating host'.handles s = false := by
  rcases store_of_move hmo with hst | ⟨rest, hpl, hha, hst⟩
  · rw [hst]
    exact ⟨h.exact n, fun c _ hhas => .inl hhas⟩
  · have hso := h.drains n i x hx
    have hri : x.drain.atRisk :=
      atRisk_of_retired (hso.drain.leaving (.inr ⟨rest, hpl⟩)) (by simp [hpl])
    have hma : ∀ id ∈ rest.take releaseBatchSize, x.drain.MayRelease id := fun id hid =>
      (mayRelease_of_releasing hpl).mpr ⟨hri, mem_of_mem_take hid⟩
    obtain ⟨held, hsu, hex⟩ := h.exact n
    obtain ⟨held', hsu', hex', hke⟩ :=
      hex.releaseBatch h.distinct (fun id hid => hso.known id (hma id hid)) hsu
    rw [hst, hha]
    refine ⟨⟨held', List.Subset.trans hsu' hsu, hex'⟩, fun c hc hhas => ?_⟩
    by_cases hin : (c.point s).asId ∈ rest.take releaseBatchSize
    · exact .inr ⟨⟨i, x, hx, .inl (hma _ hin)⟩, hso.rests (.inl hri)⟩
    · exact .inl (hex'.present c (hke c ((hex.has_iff h.distinct hsu hc).mp hhas) hin))

theorem drain (hok : w.Uninterrupted s (.drain n i event)) (hne : event ≠ .verifyAnswer true)
    (hmo : x.drain.Move s (w.member n).host event host' d') :
    Sound s (w.set n (((w.member n).setHost s host').setDrain i ⟨d', none⟩)) := by
  have hso := h.drains n i x hx
  obtain ⟨hun, hpr⟩ := hok x hx
  obtain ⟨hexa, hhas⟩ := h.drain_store hx hmo
  have hha := handles_of_move hmo hso.drain
  refine h.update ⟨generation_setHost, fun _ => vouches_of_setHost,
    fun hrep c hc hh => (hhas c hc hh).resolve_right fun hl => ?_⟩ (List.Subset.refl _) h.distinct hexa
    (h.kept_update (fun c hc hk => (hhas c hc hk.1).resolve_right fun hl => hk.2 hl.1)
      fun c _ _ hr => .inl ?_) fun j y hy => ?_
  · exact absurd (hl.2.symm.trans hrep) Bool.false_ne_true
  · rcases mayRelease_setDrain hr with (hid | ⟨_, _, _, hq, _⟩) | hr
    · exact ⟨i, x, hx, .inl (mayRelease_of_move hmo hne hid)⟩
    · cases hq
    · exact hr
  · rcases drains_setDrain hy with ⟨-, rfl⟩ | ⟨hj, hy⟩
    · have hre : d'.Busy → isReplicating (w.member n).host.handles s = false := fun hbu =>
        (busy_of_move hmo hne hbu).elim hso.rests And.left
      refine ⟨⟨hso.drain.move (fun hri => hso.rests (.inl hri)) hun hmo, hre,
        fun id hid => hso.known id (mayRelease_of_move hmo hne hid),
        fun held hpl id hid => ?_, nofun⟩, fun hbu => ?_⟩
      · obtain ⟨rfl, rfl⟩ := asking_of_move hmo hpl
        obtain ⟨held, hsu, hex⟩ := h.exact n
        obtain ⟨c, hc, hpo⟩ := hex.heldSyncPoints hid
        exact ⟨c, hsu hc, hpo⟩
      · have hsa := hha.resolve_right fun hp => hp.2 hbu
        exact hsa ▸ hre hbu
    · have hot := h.drains n j y hy
      refine ⟨hot, fun hbu => ?_⟩
      rcases hha with hsa | ⟨hp, -⟩
      · exact hsa ▸ hot.rests hbu
      · exact absurd hbu (hpr hp j y hj hy)

/-- **An announce confirms a drain** whose sender has replicated the scope since. -/
theorem hear {notice : Notice} (hok : w.Uninterrupted s (.hear n i notice))
    (hno : notice ∈ w.announces) (hf : frontiers (w.store n) s = .ok fr)
    (hco : coveredBy fr notice.announce = some points) :
    Sound s (w.set n ((w.member n).setDrain i ⟨x.drain.confirm points, x.query⟩)) := by
  have hso := h.drains n i x hx
  obtain ⟨hre, hvo⟩ := hok
  obtain ⟨held, hsu, hex⟩ := h.exact n
  obtain ⟨-, rfl, hna⟩ := coveredBy_eq_some hco
  refine h.setDrain (fun c hc hha hr => ?_)
    ⟨hso.drain.confirm _, fun _ => hre, fun id hid => ?_, hso.asked, hso.query⟩
  · rcases hr with hid | hqu
    · rcases mayRelease_of_confirm hso.drain hid with hid | hin
      · exact .inl ⟨i, x, hx, .inl hid⟩
      · -- the announce names the commit's time, and only this commit has it
        have hge := (hex.frontier_iff (h.distinct.subset hsu) hf c.head).mpr
          ⟨c, (hex.has_iff h.distinct hsu hc).mp hha, rfl⟩
        obtain ⟨sa, _, _, hsa, hlo, -⟩ := hna c.time (c.time, c.node) hge
        obtain ⟨d, hd, hti, hha'⟩ := (h.announces notice hno).named sa _ _ hsa hlo
        rw [h.distinct d hd c hc hti] at hha'
        exact .inr ⟨hre, notice.sender, hvo.1, hha' hvo⟩
    · exact .inl ⟨i, x, hx, .inr hqu⟩
  · rcases mayRelease_of_confirm hso.drain hid with hid | hin
    · exact hso.known id hid
    · obtain ⟨c, hc, hpo⟩ := hex.frontierPoints (h.distinct.subset hsu) hf hin
      exact ⟨c, hsu hc, hpo⟩

/-- **The answers confirm a drain** whose peer has replicated the scope since. -/
theorem verified (hok : w.Uninterrupted s (.verified n i))
    (hq : x.query = some q) (hre : q.rest = [])
    (hst : x.drain.step s (w.member n).host (.verifyAnswer true) = some (host', d')) :
    Sound s (w.set n (((w.member n).setHost s host').setDrain i ⟨d', none⟩)) := by
  have hso := h.drains n i x hx
  obtain ⟨held, hpl, rfl, rfl⟩ := step_verified hst
  have hrep := hso.rests (.inr (.inr (.inr ⟨held, hpl⟩)))
  have hun : x.drain.Unhurried s (w.member n).host (.verifyAnswer true) := hrep
  have hdr := hso.drain.move (fun hri => hso.rests (.inl hri)) hun (move_of_step hst)
  rw [setHost_self]
  refine h.setDrain (fun c hc hha hr => ?_) ⟨hdr, fun _ => hrep, fun id hid => ?_, nofun, nofun⟩
  · rcases hr with hid | ⟨_, _, _, hq', -⟩
    · rcases mayRelease_of_verified hso.drain hpl hid with hid | hin
      · exact .inl ⟨i, x, hx, .inl hid⟩
      · by_cases hme : q.Mentions (c.point s).asId
        · rcases hme with ⟨_, hpa, -⟩ | ⟨a, ha, hhe⟩
          · rw [hre] at hpa
            cases hpa
          · obtain ⟨d, hd, hti, hha'⟩ := (hso.query q hq).confirmed a ha _ hhe
            rw [h.distinct d hd c hc hti] at hha'
            have hvo := hok x q hx hq a ha
            exact .inr ⟨hrep, q.peer, hvo.1, hha' hvo⟩
        · exact .inl ⟨i, x, hx, .inr ⟨held, q, hpl, hq, hin, hme⟩⟩
    · cases hq'
  · rcases mayRelease_of_verified hso.drain hpl hid with hid | hin
    · exact hso.known id hid
    · exact hso.asked held hpl id hin

omit hx in
/-- **Every uninterrupted step keeps the invariant.** -/
theorem step {act : Action} (hok : w.Uninterrupted s act) (hs : Step s w act w') : w'.Sound s := by
  cases hs with
  | commit hn ha hfr hse hco => exact h.commit hn ha hfr hse hco
  | serve hc => exact h.serve hc
  | apply hser hap => exact h.apply hser hap
  | start => exact h.start hok
  | stop => exact h.stop _
  | offload => exact h.offload _ _
  | drain hx hne hs => exact h.drain hx hok hne (move_of_step hs)
  | announce hf => exact h.announce hf
  | hear hx hno hf hcov => exact h.hear hx hok hno hf hcov
  | ask hx _ hp => exact h.ask hx _ hp
  | answer hx hq hr hv => exact h.answer hx hq hr hv
  | verified hx hq hr hs => exact h.verified hx hok hq hr hs

omit h hx in
theorem initial : Sound s Handoff.initial := by
  refine ⟨nofun, fun _ => ⟨[], Subset.refl _, holdsExactly_empty⟩, nofun, nofun, ?_, nofun⟩
  rintro _ _ _ ⟨⟩

end Handoff.Sound

theorem Handoff.sound_of_reachable (h : Reachable s (Uninterrupted s) w) : w.Sound s := by
  induction h with
  | initial => exact .initial
  | step _ _ hok hs ih => exact ih.step hok hs

/-- **No data is lost by a handoff.**  In every state of an uninterrupted run, every commit made to the
scope is held, with the rows it wrote, by some node. -/
theorem handoff_loses_nothing (h : Handoff.Reachable s (Handoff.Uninterrupted s) w) :
    ∀ c ∈ w.committed, ∃ n, Possesses s (w.store n) c := by
  intro c hc
  have hs := Handoff.sound_of_reachable h
  obtain ⟨n, hk⟩ := hs.kept c hc
  obtain ⟨_, hsu, hex⟩ := hs.exact n
  exact ⟨n, possesses_of_mem hex ((hex.has_iff hs.distinct hsu hc).mp hk.1)⟩

/-! ## Runs of a drain -/

def Drain.run (s : Scope) : List DrainEvent → Host → Drain → Option (Host × Drain)
  | [], host, d => some (host, d)
  | event :: events, host, d => (d.step s host event).bind fun r => run s events r.1 r.2

/-- A run of the nodes goes on with a run of one drain, which changes nothing but its node. -/
theorem Handoff.Reachable.run {events : List DrainEvent} (hne : .verifyAnswer true ∉ events)
    (hok : ∀ w, ∀ event ∈ events, allowed w (.drain n i event)) (h : Reachable s allowed w)
    {d : Drain} (hx : (w.member n).drains i = some ⟨d, none⟩)
    (hru : d.run s events (w.member n).host = some (host', d')) :
    ∃ w', Reachable s allowed w' ∧ (w'.member n).host = host' ∧
      (∀ m, m ≠ n → w'.member m = w.member m) ∧ w'.committed = w.committed := by
  induction events generalizing w d with
  | nil =>
    cases hru
    exact ⟨w, h, rfl, fun _ _ => rfl, rfl⟩
  | cons event events ih =>
    obtain ⟨⟨host₁, d₁⟩, hst, hr⟩ := Option.bind_eq_some_iff.mp hru
    have hf := h.step _ (hok w event mem_cons_self)
      (.drain hx (fun he => hne (he ▸ mem_cons_self)) hst)
    have hs := member_set_self w n (((w.member n).setHost s host₁).setDrain i ⟨d₁, none⟩)
    obtain ⟨w', h', hh, ho, hc⟩ := ih (fun hin => hne (mem_cons_of_mem _ hin))
      (fun w event hin => hok w event (mem_cons_of_mem _ hin)) hf
      (by rw [hs]; exact update_self ..) (by rw [hs]; exact hr)
    exact ⟨w', h', hh, fun m hm => (ho m hm).trans (update_of_ne hm ..), hc⟩

theorem Handoff.Reachable.mono (h : Reachable s allowed w) : Reachable s (fun _ _ => True) w := by
  induction h with
  | initial => exact .initial
  | step _ _ _ hs ih => exact .step _ ih trivial hs

end Invariant

/-! ## Two nodes that confirm each other -/

section Samples
open Sample Handoff
namespace HandoffSample

def replicaStore : Keyspace := after (applyChunk ∅ scope mutationChunk)

def setHandles (w : Handoff) (b : UInt8) (handles : Handles) : Handoff :=
  w.set (node b) ((w.member (node b)).setHandles scope handles)

def notice (w : Handoff) (b : UInt8) : Notice :=
  ⟨node b, sendAnnounce ((frontiers (w.store (node b)) scope).toOption.getD ∅) false 0 0 true,
    (w.member (node b)).stamp scope⟩

def announced (w : Handoff) (b : UInt8) : Handoff :=
  { w with announces := notice w b :: w.announces }

def setDrain (w : Handoff) (b : UInt8) (d : Drain) : Handoff :=
  w.set (node b) ((w.member (node b)).setDrain 0 ⟨d, none⟩)

/-- The first node commits and begins to replicate the scope. -/
def first : Handoff :=
  setHandles { Handoff.initial.set (node 1) (Member.initial.setStore scope committedStore) with
    committed := [putCommit 100 1 'k'] } 1 (replicate [] (.scope scope))

/-- It announces and stops; its commit is served to the second node, which replicates the scope. -/
def second : Handoff :=
  setHandles { setHandles (announced first 1) 1 [(.scope scope, true)] with
    served := [mutationChunk] } 2 (replicate [] (.scope scope))

def both : Handoff :=
  announced (second.set (node 2) ((second.member (node 2)).setStore scope replicaStore)) 2

/-- The drain of the first node hears the announce of the second. -/
def handing : Handoff :=
  setDrain (setDrain both 1 (.start .hidden)) 1 ((Drain.start .hidden).confirm [⟨100, 100, node 1⟩])

/-- The second node stops, and its drain hears what the first announced. -/
def crossed : Handoff :=
  setDrain (setDrain (setHandles handing 2 [(.scope scope, true)]) 2 (.start .hidden)) 2
    ((Drain.start .hidden).confirm [⟨100, 100, node 1⟩])

section Steps
variable {allowed : Handoff → Action → Prop} {w : Handoff} {b : UInt8}

theorem frontiers_eq (h : (frontiers ks scope).toOption.isSome = true) :
    frontiers ks scope = .ok ((frontiers ks scope).toOption.getD ∅) := by
  cases hf : frontiers ks scope with
  | ok fr => rfl
  | error e => rw [hf] at h; cases h

theorem reachable_announced (h : Reachable scope allowed w) (hok : allowed w (.announce (node b)))
    (hf : (frontiers (w.store (node b)) scope).toOption.isSome = true)
    (hr : isReplicating (w.member (node b)).host.handles scope = true) :
    Reachable scope allowed (announced w b) :=
  h.step (.announce (node b)) hok (.announce (frontiers_eq hf) fun _ => hr)

/-- A drain starts and hears an announce that names the commit. -/
theorem reachable_confirmed {n : Notice} (h : Reachable scope allowed w)
    (hs : allowed w (.offload (node b) 0 .hidden))
    (hok : allowed (setDrain w b (.start .hidden)) (.hear (node b) 0 n))
    (hno : (w.member (node b)).drains = fun _ => none)
    (hr : isReplicating (w.member (node b)).host.handles scope = false) (hn : n ∈ w.announces)
    (hf : (frontiers ((setDrain w b (.start .hidden)).store (node b)) scope).toOption.isSome = true)
    (hc : coveredBy ((frontiers ((setDrain w b (.start .hidden)).store (node b))
      scope).toOption.getD ∅) n.announce = some [⟨100, 100, node 1⟩]) :
    Reachable scope allowed (setDrain (setDrain w b (.start .hidden)) b
      ((start .hidden).confirm [⟨100, 100, node 1⟩])) := by
  have hd : Reachable scope allowed (setDrain w b (.start .hidden)) :=
    h.step _ hs (.offload (congrFun hno 0) hr fun j x hx => by rw [hno] at hx; cases hx)
  refine hd.step (.hear (node b) 0 n) hok (.hear (x := ⟨.start .hidden, none⟩) ?_ hn
    (frontiers_eq hf) hc)
  rw [setDrain, member_set_self]
  rfl

end Steps

theorem reachable_both : Reachable scope (Uninterrupted scope) both := by
  have hc : commit ∅ ∅ 100 (node 1) none [.put scope (kv 'k') [1]] = .ok committedStore :=
    eq_ok_after (by decide +kernel)
  have ha : applyChunk ∅ scope mutationChunk = .ok replicaStore := eq_ok_after (by decide +kernel)
  have hi : Reachable scope (Uninterrupted scope) .initial := .initial
  have h₁ := hi.step (.commit (node 1) (putCommit 100 1 'k')) trivial
    (.commit rfl (by decide +kernel) nofun wellFormed_empty hc)
  have h₂ : Reachable scope (Uninterrupted scope) first :=
    h₁.step (.start (node 1) (.scope scope)) (fun _ i x hx => by cases hx) .start
  have h₃ := reachable_announced (b := 1) h₂ trivial (by decide +kernel) (by decide +kernel)
  have h₄ := h₃.step (.stop (node 1) (.scope scope)) trivial .stop
  have h₅ := h₄.step (.serve (node 1) mutationChunk) trivial (.serve isChunk_mutationChunk)
  have h₆ : Reachable scope (Uninterrupted scope) second :=
    h₅.step (.start (node 2) (.scope scope)) (fun _ i x hx => by cases hx) .start
  have h₇ := h₆.step (.apply (node 2) mutationChunk) trivial (.apply mem_cons_self ha)
  exact reachable_announced h₇ trivial (by decide +kernel) (by decide +kernel)

theorem reachable_handing : Reachable scope (Uninterrupted scope) handing :=
  reachable_confirmed reachable_both trivial ⟨by decide +kernel, by decide +kernel, by decide +kernel⟩
    rfl (by decide +kernel) mem_cons_self (by decide +kernel) (by decide +kernel)

theorem reachable_crossed : Reachable scope (fun _ _ => True) crossed :=
  reachable_confirmed (n := notice first 1)
    (reachable_handing.mono.step (.stop (node 2) (.scope scope)) trivial .stop) trivial trivial rfl
    (by decide +kernel) (mem_cons_of_mem _ mem_cons_self) (by decide +kernel) (by decide +kernel)

/-- The steps of a drain from its confirmation to its release. -/
def releaseEvents : List DrainEvent :=
  [.loopHead, .announce, .verifyNotDue, .select .stopped, .retire, .graceOver, .release]

theorem uninterrupted_releaseEvents (w : Handoff) (n : NodeId) (i : Nat) (event : DrainEvent)
    (hin : event ∈ releaseEvents) : w.Uninterrupted scope (.drain n i event) := by
  intro x hx
  simp only [releaseEvents, mem_cons, not_mem_nil, or_false] at hin
  rcases hin with rfl | rfl | rfl | rfl | rfl | rfl | rfl <;> exact ⟨trivial, nofun⟩

theorem reachable_released {allowed : Handoff → Action → Prop} {w : Handoff} {b : UInt8}
    (h : Reachable scope allowed w)
    (hok : ∀ w, ∀ event ∈ releaseEvents, allowed w (.drain (node b) 0 event))
    (hh : (w.member (node b)).host = ⟨ks, [(.scope scope, true)], false⟩)
    (hx : (w.member (node b)).drains 0 =
      some ⟨(start .hidden).confirm [⟨100, 100, node 1⟩], none⟩) :
    ∃ w', Reachable scope allowed w' ∧
      w'.store (node b) = releaseBatch scope ks [⟨100, 100, node 1⟩] ∧
      (∀ m, m ≠ node b → w'.member m = w.member m) ∧ w'.committed = w.committed := by
  have hr : ∃ d', ((start .hidden).confirm [⟨100, 100, node 1⟩]).run scope releaseEvents
      (w.member (node b)).host =
      some (⟨releaseBatch scope ks [⟨100, 100, node 1⟩], [(.scope scope, true)], false⟩, d') := by
    rw [hh]
    exact ⟨_, rfl⟩
  obtain ⟨d', hr⟩ := hr
  obtain ⟨w', h', hh', ho, hc⟩ := h.run (by decide) hok hx hr
  exact ⟨w', h', by rw [Handoff.store, hh'], ho, hc⟩

theorem metaAt_released :
    metaAt (releaseBatch scope committedStore [⟨100, 100, node 1⟩]) ⟨scope, 100, 100, node 1⟩ = none ∧
    metaAt (releaseBatch scope replicaStore [⟨100, 100, node 1⟩]) ⟨scope, 100, 100, node 1⟩ =
      none := by
  decide +kernel

end HandoffSample
open HandoffSample

/-- The first node has released the commit, and the second holds it. -/
theorem handoff_to_replica : ∃ w, Handoff.Reachable scope (Handoff.Uninterrupted scope) w ∧
    w.committed = [putCommit 100 1 'k'] ∧
    metaAt (w.store (node 1)) ⟨scope, 100, 100, node 1⟩ = none ∧
    ∀ c ∈ w.committed, ∃ n, Possesses scope (w.store n) c := by
  obtain ⟨w, h, hs, -, hc⟩ := reachable_released reachable_handing
    (fun w event hin => uninterrupted_releaseEvents w (node 1) 0 event hin) rfl rfl
  refine ⟨w, h, hc, ?_, handoff_loses_nothing h⟩
  rw [hs]
  exact metaAt_released.1

/-- **A late announce loses a commit**: the second node stops, drains, and hears what the first
announced when it was a replica, while the first is about to release. -/
theorem late_announce_loses_commit : ∃ w, Handoff.Reachable scope (fun _ _ => True) w ∧
    w.committed = [putCommit 100 1 'k'] ∧ ∀ n, ¬ Possesses scope (w.store n) (putCommit 100 1 'k') := by
  obtain ⟨w₁, h₁, hst₁, hot₁, hco₁⟩ := reachable_released (b := 1) reachable_crossed
    (fun _ _ _ => trivial) rfl rfl
  have hse := hot₁ (node 2) (by decide)
  have hho : (w₁.member (node 2)).host = ⟨replicaStore, [(.scope scope, true)], false⟩ := by
    rw [hse]
    rfl
  obtain ⟨w₂, h₂, hst₂, hot₂, hco₂⟩ :=
    reachable_released (b := 2) h₁ (fun _ _ _ => trivial) hho (by rw [hse]; rfl)
  refine ⟨w₂, h₂, hco₂.trans hco₁, fun n hn => ?_⟩
  obtain ⟨m, hm⟩ := hn.point
  have hno : metaAt (w₂.store n) ((putCommit 100 1 'k').point scope) = none := by
    by_cases hn₂ : n = node 2
    · rw [hn₂, hst₂]
      exact metaAt_released.2
    · rw [Handoff.store, hot₂ n hn₂]
      by_cases hn₁ : n = node 1
      · rw [hn₁, ← Handoff.store, hst₁]
        exact metaAt_released.1
      · rw [hot₁ n hn₁]
        simp [crossed, handing, both, second, first, announced, HandoffSample.setDrain,
          HandoffSample.setHandles, Handoff.set, update_of_ne, hn₁, hn₂, Handoff.initial,
          Member.initial, metaAt]
  rw [hno] at hm
  cases hm

end Samples

end Myrmic
