import Myrmic.Announce
import Myrmic.Machine
import Myrmic.Wire

/-!
# What a node remembers of its peers

A node keeps the last announce of every peer, scope by scope, with the time it was received.  Views of
who else holds a scope (`peerView`), and of what is still missing here, are computed from the announces
of the last `peerTtl`.

A peer's departure drops what it announced, and an announce that was received before the departure may
still be queued.  `departed` **fences** such an announce off: a record call refuses news that is not
younger than the departure on record.  Recording and forgetting run on different threads.  A
record call checks the fence under the lock of the peer's entry and holds the lock until the news is
merged; a forget call first sets the fence, without that lock, and then removes the entry, with it.
The handler of an announce goes on after its record call has answered: a drain whose holdings the
announce covers **retires** on it.  `PeerSystem` takes these steps apart and lets them interleave.

Each departure also drops the fences older than `peerTtl`.  What such a fence held off is too old for
the views, but not for a record call's answer: a covering announce that waited longer than `peerTtl` is
vouched for after its sender's departure.  And a peer may depart between the answer and the retirement
(`stale_coverage_is_vouched_for` has both).  **If every announce is taken up within `peerTtl` of its
receipt, and no forget call returns while a handler is about to retire on the peer's announce, nothing
received before a departure is vouched for or used after it** (`departed_peers_stay_fenced`).
-/
namespace Myrmic
open OrderedBytes Machine Function

/-! ## The peer table -/

/-- How long an announce counts.  Times are readings of the node's monotonic clock in nanoseconds. -/
def peerTtl : Nat := 42 * 1000000000

/-- Node ids are ordered as byte strings. -/
instance : Ord NodeId := ⟨compareOn NodeId.bytes⟩

instance : Std.TransOrd NodeId := inferInstanceAs (Std.TransCmp (compareOn NodeId.bytes))

instance : Std.LawfulEqOrd NodeId where
  compare_self {node} := show compare node.bytes node.bytes = .eq from Std.ReflCmp.compare_self
  eq_of_compare {m n} h :=
    NodeId.ext (Std.LawfulEqCmp.eq_of_compare (show compare m.bytes n.bytes = .eq from h))

/-- The last announce of a peer for a scope, and when it was received. -/
structure PeerScope where
  announce : ScopeAnnounce
  fullReplica : Bool
  lastSeenAt : Nat

/-- What one peer has announced. -/
structure PeerEntry where
  scopes : Scope → Option PeerScope

/-- The announces of all peers, and the departures on record. -/
structure PeerTable where
  peerFrontiers : Std.ExtTreeMap NodeId PeerEntry compare
  departed : NodeId → Option Nat

/-- An announce of a peer as it was received. -/
structure News where
  peer : NodeId
  known : List (Scope × ScopeAnnounce)
  fullReplica : Bool
  receivedAt : Nat

namespace PeerTable

def empty : PeerTable := ⟨∅, fun _ => none⟩

/-- Whether the announce was received before its sender departed. -/
def fenced (table : PeerTable) (news : News) : Bool :=
  (table.departed news.peer).any fun leftAt => news.receivedAt ≤ leftAt

/-- One scope of an announce; an entry that a later announce refreshed stays. -/
def mergeScope (news : News) (entry : PeerEntry) (item : Scope × ScopeAnnounce) : PeerEntry :=
  if (entry.scopes item.1).any fun held => news.receivedAt < held.lastSeenAt then entry
  else ⟨update entry.scopes item.1 (some ⟨item.2, news.fullReplica, news.receivedAt⟩)⟩

/-- A record call's write: every scope of the news is replaced. -/
def merge (table : PeerTable) (news : News) : PeerTable :=
  let entry := (table.peerFrontiers[news.peer]?).getD ⟨fun _ => none⟩
  { table with
    peerFrontiers := table.peerFrontiers.insert news.peer (news.known.foldl (mergeScope news) entry) }

/-- Notes a departure; fences older than `peerTtl` are dropped. -/
def markDeparted (table : PeerTable) (peer : NodeId) (now : Nat) : PeerTable :=
  { table with
    departed := update
      (fun p => (table.departed p).filter fun leftAt => now - leftAt ≤ peerTtl) peer (some now) }

/-- Drops everything that a peer has announced. -/
def removePeer (table : PeerTable) (peer : NodeId) : PeerTable :=
  { table with peerFrontiers := table.peerFrontiers.erase peer }

end PeerTable

/-! ## Views -/

/-- Whether a peer means to keep a scope. -/
inductive HolderState where
  | replica
  | draining
deriving DecidableEq

/-- What is shown of a peer that holds a scope. -/
structure PeerView where
  id : NodeId
  ageMs : UInt64
  head : Version
  state : HolderState
deriving DecidableEq

/-- The newest version an announce vouches for. -/
def ScopeAnnounce.head (sa : ScopeAnnounce) : Option Version :=
  Option.merge max sa.heads.maxKey? sa.baseline

/-- Who else holds a scope, for the answer to a locate query. -/
def peerView (table : PeerTable) (s : Scope) (now : Nat) : List PeerView :=
  table.peerFrontiers.toList.filterMap fun entry => do
    let held ← entry.2.scopes s
    let age := now - held.lastSeenAt
    if peerTtl < age then none
    else
      let head ← held.announce.head
      return ⟨entry.1, (min (age / 1000000) (2 ^ 64 - 1)).toUInt64, head,
        if held.fullReplica then .replica else .draining⟩

/-- The table has an announce of a scope by a peer. -/
def PeerTable.Holds (table : PeerTable) (peer : NodeId) (s : Scope) (held : PeerScope) : Prop :=
  ∃ entry, table.peerFrontiers[peer]? = some entry ∧ entry.scopes s = some held

/-! ## Recording and forgetting at the same time -/

/-- What an announce covers of the scope that a drain empties: all that the drain found there, or
nothing.  A replicator that does not drain has no use for it. -/
def coverage (drained : Option (Scope × ScopeFrontier)) (news : News) : Option (List SyncPointId) :=
  drained.bind fun d => coveredBy d.2 ⟨news.known.lookup d.1, news.fullReplica⟩

/-- A handler of an announce: the news, and the points it found covered before it records them. -/
structure Handler where
  news : News
  covered : Option (List SyncPointId)

/-- A forget call under way: it has read the clock, or it has set the fence as well. -/
inductive Forgetting where
  | begun (peer : NodeId) (now : Nat)
  | marked (peer : NodeId) (now : Nat)

def Forgetting.peer : Forgetting → NodeId
  | .begun peer _ => peer
  | .marked peer _ => peer

/-- A node's peer table with the calls under way.  `departures` and `forgotten` are bookkeeping: the
departures noted so far, and those whose forget call has returned. -/
structure PeerSystem where
  table : PeerTable
  clock : Nat
  /-- The handler whose record call holds the lock of the peer's entry. -/
  recording : NodeId → Option Handler
  /-- The handlers whose record call has answered `true` and that have not gone on. -/
  vouched : List Handler
  /-- What the drain retired on may be released. -/
  covered : Option (List SyncPointId)
  forgetting : Option Forgetting
  departures : List (NodeId × Nat)
  forgotten : List (NodeId × Nat)

/-- The steps of record calls, forget calls and coverage handlers. -/
inductive PeerAction where
  | tick (elapsed : Nat)
  /-- A record call takes the entry's lock and checks the fence, which decides its answer; its handler
  has found what it drains as given. -/
  | check (news : News) (drained : Option (Scope × ScopeFrontier)) (answer : Bool)
  /-- It merges the news, releases the lock and answers `true`. -/
  | vouch (peer : NodeId)
  /-- The handler of a vouched-for announce goes on: the drain retires if the announce covers it. -/
  | retire (handler : Nat)
  | beginForget (peer : NodeId)
  | mark
  | remove

namespace PeerSystem

def start : PeerSystem := ⟨.empty, 0, fun _ => none, [], none, none, [], []⟩

def step (st : PeerSystem) : PeerAction → Option PeerSystem
  | .tick elapsed => some { st with clock := st.clock + elapsed }
  | .check news drained answer =>
    if news.receivedAt ≤ st.clock ∧ (st.recording news.peer).isNone ∧
        answer = !st.table.fenced news then
      -- a fenced call releases the lock at once
      if answer then
        some { st with
          recording := update st.recording news.peer (some ⟨news, coverage drained news⟩) }
      else some st
    else none
  | .vouch peer =>
    match st.recording peer with
    | some handler =>
      some { st with
        table := st.table.merge handler.news
        recording := update st.recording peer none
        vouched := handler :: st.vouched }
    | none => none
  | .retire handler =>
    match st.vouched[handler]? with
    | some h => some { st with
        vouched := st.vouched.eraseIdx handler
        covered := h.covered.or st.covered }
    | none => none
  | .beginForget peer =>
    match st.forgetting with
    | none => some { st with forgetting := some (.begun peer st.clock) }
    | some _ => none
  | .mark =>
    match st.forgetting with
    | some (.begun peer now) =>
      some { st with
        table := st.table.markDeparted peer now
        forgetting := some (.marked peer now)
        departures := (peer, now) :: st.departures }
    | _ => none
  | .remove =>
    match st.forgetting with
    | some (.marked peer now) =>
      if (st.recording peer).isSome then none
      else some { st with
        table := st.table.removePeer peer
        forgetting := none
        forgotten := (peer, now) :: st.forgotten }
    | _ => none

end PeerSystem

/-- An announce is taken up within `peerTtl` of its receipt. -/
def TakenUp (st : PeerSystem) : PeerAction → Prop
  | .check news _ _ => st.clock ≤ news.receivedAt + peerTtl
  | _ => True

/-- No forget call returns while a drain is about to retire on an announce of the peer. -/
def NoneRetiring (st : PeerSystem) : PeerAction → Prop
  | .remove => ∀ h ∈ st.vouched, h.covered.isSome = true →
      st.forgetting.map Forgetting.peer ≠ some h.news.peer
  | _ => True

/-- **The condition on a step**; each half excludes one way to act on a departed peer. -/
def Prompt (st : PeerSystem) (action : PeerAction) : Prop := TakenUp st action ∧ NoneRetiring st action

instance (st : PeerSystem) (action : PeerAction) : Decidable (TakenUp st action) := by
  unfold TakenUp
  split <;> infer_instance

instance (st : PeerSystem) (action : PeerAction) : Decidable (NoneRetiring st action) := by
  unfold NoneRetiring
  split <;> infer_instance

instance (st : PeerSystem) (action : PeerAction) : Decidable (Prompt st action) :=
  inferInstanceAs (Decidable (_ ∧ _))

variable {now : Nat} {leftAt : Nat}

/-! ## What the fence keeps -/

section Table
variable {table : PeerTable} {news : News} {peer : NodeId} {s : Scope} {held : PeerScope}
  {entry : PeerEntry}

/-- A view is of an announce in the table, and of one that still counts. -/
theorem mem_peerView {view : PeerView} (h : view ∈ peerView table s now) :
    ∃ held, table.Holds view.id s held ∧ now - held.lastSeenAt ≤ peerTtl := by
  obtain ⟨⟨_, e⟩, hm, he⟩ := List.mem_filterMap.mp h
  obtain ⟨held, hh, he⟩ := Option.bind_eq_some_iff.mp he
  dsimp only at he
  split at he
  · cases he
  · next hle =>
    obtain ⟨_, -, he⟩ := Option.bind_eq_some_iff.mp he
    cases he
    exact ⟨held, ⟨e, Std.ExtTreeMap.mem_toList_iff_getElem?_eq_some.mp hm, hh⟩,
      Nat.le_of_not_lt hle⟩

theorem scopes_foldl_mergeScope {known : List (Scope × ScopeAnnounce)}
    (h : (known.foldl (PeerTable.mergeScope news) entry).scopes s = some held) :
    entry.scopes s = some held ∨ held.lastSeenAt = news.receivedAt := by
  induction known generalizing entry with
  | nil => exact .inl h
  | cons item known ih =>
    rcases ih h with he | hs
    · unfold PeerTable.mergeScope at he
      split at he
      · exact .inl he
      · by_cases hs : s = item.1
        · subst hs
          simp only [update_self, Option.some.injEq] at he
          subst he
          exact .inr rfl
        · simp only [update_of_ne hs] at he
          exact .inl he
    · exact .inr hs

theorem holds_merge (h : (table.merge news).Holds peer s held) :
    table.Holds peer s held ∨ peer = news.peer ∧ held.lastSeenAt = news.receivedAt := by
  obtain ⟨entry, h, hs⟩ := h
  simp only [PeerTable.merge, Std.ExtTreeMap.getElem?_insert] at h
  split at h
  · next heq =>
    have hp : news.peer = peer := Std.LawfulEqCmp.eq_of_compare heq
    subst hp
    cases h
    rcases scopes_foldl_mergeScope hs with hold | hse
    · cases hk : table.peerFrontiers[news.peer]? with
      | none =>
        rw [hk] at hold
        cases hold
      | some entry =>
        rw [hk] at hold
        exact .inl ⟨entry, hk, hold⟩
    · exact .inr ⟨rfl, hse⟩
  · exact .inl ⟨entry, h, hs⟩

/-- A fence that a departure does not replace stays, or is older than `peerTtl`. -/
theorem departed_markDeparted (now : Nat) {peer' : NodeId}
    (h : table.departed peer' = some leftAt) (hne : peer' ≠ peer) :
    (table.markDeparted peer now).departed peer' = some leftAt ∨ leftAt + peerTtl < now := by
  simp only [PeerTable.markDeparted, update_of_ne hne, h]
  by_cases ha : now - leftAt ≤ peerTtl
  · exact .inl (Option.filter_eq_some_iff.mpr ⟨rfl, decide_eq_true ha⟩)
  · exact .inr (by omega)

end Table

/-! ## Every run -/

/-- **The fence** of a state: a departure is on record until it is older than `peerTtl`, and once a
forget call has returned, nothing received before it is held, about to be merged or about to be retired
on. -/
structure PeerSystem.Fenced (st : PeerSystem) : Prop where
  noted : ∀ {peer leftAt}, (peer, leftAt) ∈ st.departures →
    leftAt + peerTtl < st.clock ∨ ∃ fence, st.table.departed peer = some fence ∧ leftAt ≤ fence
  begun : ∀ {peer now}, st.forgetting = some (.begun peer now) →
    now ≤ st.clock ∧ ∀ {other leftAt}, (other, leftAt) ∈ st.departures → leftAt ≤ now
  past : ∀ {peer leftAt}, (peer, leftAt) ∈ st.departures → leftAt ≤ st.clock
  marked : ∀ {peer now}, st.forgetting = some (.marked peer now) → (peer, now) ∈ st.departures
  forgotten : ∀ {peer leftAt}, (peer, leftAt) ∈ st.forgotten → (peer, leftAt) ∈ st.departures
  held : ∀ {peer leftAt s held}, (peer, leftAt) ∈ st.forgotten → st.table.Holds peer s held →
    leftAt < held.lastSeenAt
  recording : ∀ {peer handler}, st.recording peer = some handler → handler.news.peer = peer ∧
    ∀ {leftAt}, (peer, leftAt) ∈ st.forgotten → leftAt < handler.news.receivedAt
  vouched : ∀ {handler}, handler ∈ st.vouched → handler.covered.isSome = true →
    ∀ {leftAt}, (handler.news.peer, leftAt) ∈ st.forgotten → leftAt < handler.news.receivedAt

namespace PeerSystem

theorem fenced_start : start.Fenced where
  noted := nofun
  begun := nofun
  past := nofun
  marked := nofun
  forgotten := nofun
  held := nofun
  recording := nofun
  vouched := nofun

variable {st st' : PeerSystem}
namespace Fenced
variable {news : News} (h : st.Fenced) {peer : NodeId}
include h

/-- A prompt call that passes the check brings news from after every departure. -/
theorem later (hp : st.clock ≤ news.receivedAt + peerTtl) (ho : st.table.fenced news = false)
    (hl : (news.peer, leftAt) ∈ st.departures) : leftAt < news.receivedAt := by
  by_contra hle
  rcases h.noted hl with hold | ⟨fence, hf, hla⟩
  · omega
  · have hn : news.receivedAt ≤ fence := by omega
    simp [PeerTable.fenced, hf, hn] at ho

theorem tick (dt : Nat) : Fenced { st with clock := st.clock + dt } where
  __ := h
  noted hl := (h.noted hl).imp_left fun hold => Nat.lt_add_right dt hold
  begun hf := ⟨Nat.le_add_right_of_le (h.begun hf).1, (h.begun hf).2⟩
  past hl := Nat.le_add_right_of_le (h.past hl)

theorem check (hpr : st.clock ≤ news.receivedAt + peerTtl) (ho : st.table.fenced news = false)
    (covered : Option (List SyncPointId)) :
    Fenced { st with recording := update st.recording news.peer (some ⟨news, covered⟩) } where
  __ := h
  recording {peer call} hc := by
    by_cases hp : peer = news.peer
    · subst hp
      simp only [update_self, Option.some.injEq] at hc
      subst hc
      exact ⟨rfl, fun hl => h.later hpr ho (h.forgotten hl)⟩
    · simp only [update_of_ne hp] at hc
      exact h.recording hc

theorem vouch {handler : Handler} (hn : st.recording peer = some handler) : Fenced { st with
      table := st.table.merge handler.news
      recording := update st.recording peer none
      vouched := handler :: st.vouched } where
  __ := h
  held {other leftAt s held} hl hh := by
    obtain ⟨hp, hla⟩ := h.recording hn
    rcases holds_merge hh with hh' | ⟨ho, hs⟩
    · exact h.held hl hh'
    · rw [hs]
      rw [ho, hp] at hl
      exact hla hl
  vouched {call} hc hco leftAt hl := by
    rcases List.mem_cons.mp hc with rfl | hc
    · obtain ⟨hp, hla⟩ := h.recording hn
      rw [hp] at hl
      exact hla hl
    · exact h.vouched hc hco hl
  recording {other call} hc := by
    by_cases ho : other = peer
    · subst ho
      simp at hc
    · simp only [update_of_ne ho] at hc
      exact h.recording hc

theorem retire (handler : Nat) (covered : Option (List SyncPointId)) : Fenced { st with
      vouched := st.vouched.eraseIdx handler
      covered := covered } where
  __ := h
  vouched hc := h.vouched (List.mem_of_mem_eraseIdx hc)

theorem beginForget (peer : NodeId) :
    Fenced { st with forgetting := some (.begun peer st.clock) } where
  __ := h
  begun hf := by
    cases hf
    exact ⟨le_rfl, h.past⟩
  marked := nofun

theorem mark (hfo : st.forgetting = some (.begun peer now)) : Fenced { st with
      table := st.table.markDeparted peer now
      forgetting := some (.marked peer now)
      departures := (peer, now) :: st.departures } where
  __ := h
  noted {other leftAt} hlef := by
    obtain ⟨_, hne⟩ := h.begun hfo
    by_cases hot : other = peer
    · -- the departing peer's own fence is set anew, and its earlier departures are older
      subst hot
      refine .inr ⟨now, by simp [PeerTable.markDeparted], ?_⟩
      rcases List.mem_cons.mp hlef with he | hlef
      · cases he
        exact le_rfl
      · exact hne hlef
    · have hold : (other, leftAt) ∈ st.departures :=
        (List.mem_cons.mp hlef).resolve_left fun he => hot (congrArg Prod.fst he)
      rcases h.noted hold with hex | ⟨fence, hfe, hle⟩
      · exact .inl hex
      · rcases departed_markDeparted now hfe hot with hke | hex
        · exact .inr ⟨fence, hke, hle⟩
        · exact .inl (show leftAt + peerTtl < st.clock by omega)
  begun := nofun
  past hlef := by
    rcases List.mem_cons.mp hlef with he | hlef
    · cases he
      exact (h.begun hfo).1
    · exact h.past hlef
  marked he := by
    cases he
    exact List.mem_cons_self
  forgotten hlef := List.mem_cons_of_mem _ (h.forgotten hlef)

theorem remove (hfo : st.forgetting = some (.marked peer now)) (hfr : st.recording peer = none)
    (hpr : NoneRetiring st .remove) : Fenced { st with
      table := st.table.removePeer peer
      forgetting := none
      forgotten := (peer, now) :: st.forgotten } where
  __ := h
  begun := nofun
  marked := nofun
  forgotten hle := by
    rcases List.mem_cons.mp hle with he | hle
    · cases he
      exact h.marked hfo
    · exact h.forgotten hle
  held {other leftAt s held} hle hho := by
    obtain ⟨entry, hen, hhe⟩ := hho
    simp only [PeerTable.removePeer, Std.ExtTreeMap.getElem?_erase] at hen
    split at hen
    · cases hen
    · next hne =>
      refine h.held ((List.mem_cons.mp hle).resolve_left fun he => hne ?_) ⟨entry, hen, hhe⟩
      cases he
      exact Std.ReflCmp.compare_self
  recording {other call} hca := by
    have hot : other ≠ peer := by
      rintro rfl
      rw [hfr] at hca
      cases hca
    exact ⟨(h.recording hca).1, fun hle => (h.recording hca).2
      ((List.mem_cons.mp hle).resolve_left fun he => hot (congrArg Prod.fst he))⟩
  vouched {call} hca hco leftAt hle := by
    refine h.vouched hca hco ((List.mem_cons.mp hle).resolve_left fun he => ?_)
    cases he
    exact hpr call hca hco (by rw [hfo]; rfl)

theorem step {act : PeerAction} (hpr : Prompt st act) (hst : st.step act = some st') :
    st'.Fenced := by
  revert hst
  fun_cases PeerSystem.step st act <;> rintro ⟨⟩
  · exact h.tick _
  · next hca => exact h.check hpr.1 (by simpa using hca.2.2) _
  · exact h
  · next hne => exact h.vouch hne
  · exact h.retire _ _
  · exact h.beginForget _
  · next hfo => exact h.mark hfo
  · next hfo hfr => exact h.remove hfo (by simpa using hfr) hpr.2

end Fenced

theorem fenced_of_reached (h : Reached step Prompt start st) : st.Fenced :=
  h.holds fenced_start fun hst hp hs => hst.step hp hs

/-- Nothing a departed peer announced before it left is vouched for or used: an answer `true` is for
news from after every departure noted so far, and neither the views, nor what else is read off the
table, nor a retirement rests on news from before a forget call that has returned. -/
structure DepartedFenced (allowed : PeerSystem → PeerAction → Prop) (st : PeerSystem) : Prop where
  answers : ∀ {news drained st'}, allowed st (.check news drained true) →
    st.step (.check news drained true) = some st' →
    ∀ {leftAt}, (news.peer, leftAt) ∈ st.departures → leftAt < news.receivedAt
  /-- What the reports on missing heads and on diverged folds read. -/
  table : ∀ {peer s held}, st.table.Holds peer s held →
    ∀ {leftAt}, (peer, leftAt) ∈ st.forgotten → leftAt < held.lastSeenAt
  views : ∀ {s now view}, view ∈ peerView st.table s now → ∃ held, st.table.Holds view.id s held ∧
    now - held.lastSeenAt ≤ peerTtl ∧
      ∀ {leftAt}, (view.id, leftAt) ∈ st.forgotten → leftAt < held.lastSeenAt
  retirements : ∀ {i handler points st'}, st.vouched[i]? = some handler →
    handler.covered = some points → st.step (.retire i) = some st' →
    ∀ {leftAt}, (handler.news.peer, leftAt) ∈ st.forgotten → leftAt < handler.news.receivedAt

/-- **Departed peers stay fenced** in every run that takes up each announce within `peerTtl` of its
receipt and lets no forget call return while a drain is about to retire on the peer's announce, however
handlers and forget calls interleave otherwise. -/
theorem departed_peers_stay_fenced (h : Reached step Prompt start st) :
    DepartedFenced Prompt st where
  answers {news drained st'} hprompt hstep leftAt hleft := by
    simp only [step] at hstep
    split at hstep
    · next hc => exact (fenced_of_reached h).later hprompt.1 (by simpa using hc.2.2) hleft
    · cases hstep
  table hh _ hleft := (fenced_of_reached h).held hleft hh
  views hv := by
    obtain ⟨held, hh, hle⟩ := mem_peerView hv
    exact ⟨held, hh, hle, fun hleft => (fenced_of_reached h).held hleft hh⟩
  retirements hn hc _ _ hleft :=
    (fenced_of_reached h).vouched (List.mem_of_getElem? hn) (by rw [hc]; rfl) hleft

open Sample

def sampleFrontier : ScopeFrontier := (∅ : ScopeFrontier).insert 7 (7, node 1)

/-- News of one peer, received at the given time, which cover the sample frontier. -/
def sampleNews (receivedAt : Nat) : News :=
  ⟨node 1, [(scope, .full sampleFrontier)], true, receivedAt⟩

/-- A peer leaves, is heard again a moment later, and a drain retires on what it announces. -/
theorem returning_peer_is_fenced : ∃ st st', Reached step Prompt start st ∧
    (node 1, 1) ∈ st.forgotten ∧ st.step (.retire 0) = some st' ∧
    st'.covered = some [⟨7, 7, node 1⟩] ∧ DepartedFenced Prompt st := by
  obtain ⟨st, st', hr, hst', hl, hc⟩ : ∃ st st', Reached step Prompt start st ∧
      st.step (.retire 0) = some st' ∧ (node 1, 1) ∈ st.forgotten ∧
      st'.covered = some [⟨7, 7, node 1⟩] :=
    exists_reached_some [.tick 1, .check (sampleNews 0) none true, .beginForget (node 1),
      .vouch (node 1), .mark, .remove, .tick 1, .check (sampleNews 1) none false,
      .check (sampleNews 2) (some (scope, sampleFrontier)) true, .vouch (node 1)]
      (by decide +kernel)
  exact ⟨st, st', hr, hl, hst', hc, departed_peers_stay_fenced hr⟩

/-- The next retirement is on an announce of time 0 whose sender left at time 1. -/
def RetiresOnDeparted (st : PeerSystem) : Prop :=
  ∃ h ∈ st.vouched.head?, h.covered.isSome = true ∧ h.news.peer = node 1 ∧
    h.news.receivedAt = 0 ∧ (node 1, 1) ∈ st.forgotten

instance (st : PeerSystem) : Decidable st.RetiresOnDeparted := by
  unfold RetiresOnDeparted
  infer_instance

theorem RetiresOnDeparted.not_fenced (h : st.RetiresOnDeparted) {allowed : PeerSystem → PeerAction → Prop} :
    ¬DepartedFenced allowed st := by
  obtain ⟨handler, hh, hc, hp, hr, hl⟩ := h
  rw [List.head?_eq_getElem?, Option.mem_def] at hh
  obtain ⟨points, hc⟩ := Option.isSome_iff_exists.mp hc
  intro hd
  rw [← hp] at hl
  have hlt := hd.retirements hh hc (by rw [step, hh]) hl
  omega

/-- **Two ways for a drain to retire on a peer that has left.**  A covering announce waits while its
sender leaves and, more than `peerTtl` later, another peer leaves; then it is vouched for.  Or it is
taken up at once, and its sender leaves between the answer and the retirement. -/
theorem stale_coverage_is_vouched_for :
    (∃ st, Reached step NoneRetiring start st ∧ st.RetiresOnDeparted ∧
      ¬DepartedFenced NoneRetiring st) ∧
    ∃ st, Reached step TakenUp start st ∧ st.RetiresOnDeparted ∧ ¬DepartedFenced TakenUp st := by
  have hlate : ∃ st, Reached step NoneRetiring start st ∧ st.RetiresOnDeparted := exists_reached
    [.tick 1, .beginForget (node 1), .mark, .remove, .tick (peerTtl + 1), .beginForget (node 2), .mark,
      .remove, .check (sampleNews 0) (some (scope, sampleFrontier)) true, .vouch (node 1)]
    (by decide +kernel)
  have hbetween : ∃ st, Reached step TakenUp start st ∧ st.RetiresOnDeparted := exists_reached
    [.check (sampleNews 0) (some (scope, sampleFrontier)) true, .vouch (node 1), .tick 1,
      .beginForget (node 1), .mark, .remove] (by decide +kernel)
  obtain ⟨_, hr, hs⟩ := hlate
  obtain ⟨_, hr', hs'⟩ := hbetween
  exact ⟨⟨_, hr, hs, hs.not_fenced⟩, _, hr', hs', hs'.not_fenced⟩

end PeerSystem

end Myrmic
