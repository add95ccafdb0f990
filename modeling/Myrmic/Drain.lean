import Myrmic.Announce
import Myrmic.Wire

/-!
# The drain of a scope

A node that holds data of a scope it does not replicate **drains** it: it announces what it holds,
serves it to the replicas, and once a replica covers everything it releases its own copy.  The drain
is one loop (`Drain.step`): stand down if the node replicates the scope by now, announce, now and then
ask the replicas, and wait for one of seven events.  After the loop it retires, waits a grace, and
forgets the covered sync points in batches.

The loop looks at `isReplicating` only at its head, an own verification sets `retired` before the
wait, and the wait takes any arm that is ready.  So a drain may escalate to a replica, or stand down to
one, with `retired` set, and then release what it was to keep (`escalation_after_verify_releases`).
`Unhurried` says which steps avoid this.  **In a run of such steps a drain deletes only while its node
does not replicate the scope, and only after its loop ended on confirmed coverage**
(`replica_never_releases`).
-/
namespace Myrmic
open OrderedBytes VersionedCell Fallible

/-! ## Replication handles -/

/-- The replication handles of a node, each with whether it has been stopped. -/
abbrev Handles := List (Subject × Bool)

/-- Whether an active replicator's subject covers the scope. -/
def isReplicating (handles : Handles) (s : Scope) : Bool :=
  handles.any fun entry => !entry.2 && entry.1.contains s

/-- Starts a replicator: a stopped handle of the subject is replaced, an active one is kept. -/
def replicate (handles : Handles) (subject : Subject) : Handles :=
  match handles.lookup subject with
  | some false => handles
  | _ => (subject, false) :: handles.filter fun entry => entry.1 ≠ subject

def stopReplication (handles : Handles) (subject : Subject) : Handles :=
  handles.map fun entry => if entry.1 = subject then (entry.1, true) else entry

section Handles
variable {handles : Handles} {s : Scope} {subject : Subject}

theorem isReplicating_iff :
    isReplicating handles s = true ↔ ∃ target, (target, false) ∈ handles ∧ target.contains s := by
  simp [isReplicating]

theorem isReplicating_of_replicate (h : isReplicating (replicate handles subject) s = true) :
    isReplicating handles s = true ∨ subject.contains s = true := by
  unfold replicate at h
  split at h
  · exact .inl h
  · obtain ⟨target, hm, hc⟩ := isReplicating_iff.mp h
    rcases List.mem_cons.mp hm with he | hm
    · cases he
      exact .inr hc
    · exact .inl (isReplicating_iff.mpr ⟨target, (List.mem_filter.mp hm).1, hc⟩)

theorem isReplicating_of_stopReplication
    (h : isReplicating (stopReplication handles subject) s = true) :
    isReplicating handles s = true := by
  obtain ⟨target, hm, hc⟩ := isReplicating_iff.mp h
  obtain ⟨_, hen, he⟩ := List.mem_map.mp hm
  split at he
  · cases he
  · exact isReplicating_iff.mpr ⟨target, he ▸ hen, hc⟩

end Handles

/-! ## The drain -/

/-- Why a scope is drained. -/
inductive OffloadKind where
  | hidden
  | dropped
  | sink
  | unwinding (target : NodeId)
deriving DecidableEq

/-- What made a drain announce its scope. -/
inductive AnnounceReason where
  | tick
  | commit
  | probe
  | pull
  | wake
deriving DecidableEq

/-- How a drain has ended. -/
inductive Exit where
  /-- Its replicator was stopped: coverage is confirmed. -/
  | stopped
  /-- It escalated to a replica, or tried to. -/
  | escalated
  /-- A replicator of the scope is active on the node. -/
  | stoodDown
deriving DecidableEq

/-- Where the loop of a drain is. -/
inductive Place where
  | loopHead
  | announcing
  | verifying
  /-- The holdings are taken; the replicas are asked about them. -/
  | asking (held : List SyncPointId)
  | selecting
  | promoting
  | ended
  | grace
  | releasing (rest : List SyncPointId)
  | finished
deriving DecidableEq

/-- A drain: the local state of its loop, and its replicator's stop flag and confirmed coverage. -/
structure Drain where
  kind : OffloadKind
  place : Place
  escalateAt : Bool
  queryable : Bool
  reason : Option AnnounceReason
  retired : Bool
  covered : List SyncPointId
  stopped : Bool
  confirmed : List SyncPointId
  exit : Option Exit
deriving DecidableEq

namespace Drain

/-- A drain at the start of its loop.  One that unwinds a custody is unarmed, a hidden one is not
findable. -/
def start (kind : OffloadKind) : Drain where
  kind := kind
  place := .loopHead
  escalateAt := match kind with
    | .unwinding _ => false
    | _ => true
  queryable := kind ≠ .hidden
  reason := some .tick
  retired := false
  covered := []
  stopped := false
  confirmed := []
  exit := none

/-- A drain ends once. -/
def leave (d : Drain) (exit : Exit) : Drain := { d with place := .ended, exit := some exit }

/-- A replica's announce covers everything the drain holds. -/
def confirm (d : Drain) (points : List SyncPointId) : Drain :=
  { d with confirmed := points, stopped := true }

end Drain

/-- What a drain shares with the rest of its node: the store, the replication handles, and whether the
node's custody of the scope is on record. -/
structure Host where
  store : Keyspace
  handles : Handles
  custody : Bool

/-- The arms a drain waits on. -/
inductive Arm where
  | tick
  | stopped
  | escalation
  | nudge
  | rearm
  | findable
  | fetched
deriving DecidableEq

/-- Takes an arm that is ready; any of them may be. -/
def Drain.select (d : Drain) : Arm → Option Drain
  | .tick => some { d with reason := some .tick, place := .loopHead }
  | .stopped => if d.stopped then some ({ d with retired := true }.leave .stopped) else none
  | .escalation => if d.escalateAt then some { d with place := .promoting } else none
  | .nudge => some { d with reason := some .commit, place := .loopHead }
  | .rearm => some { d with escalateAt := true, reason := some .wake, place := .loopHead }
  | .findable =>
    if d.queryable then none
    else some { d with queryable := true, reason := some .wake, place := .loopHead }
  | .fetched => if d.escalateAt then some { d with reason := none, place := .loopHead } else none

/-- What a drain does next. -/
inductive DrainEvent where
  | loopHead
  | announce
  | verifyNotDue
  | verifyDue
  /-- Whether a replica confirmed all pages. -/
  | verifyAnswer (covered : Bool)
  | select (arm : Arm)
  /-- Whether the custody could be recorded. -/
  | promote (recorded : Bool)
  | retire
  | graceOver
  | release
  /-- The transaction of a batch fails: the rest is kept. -/
  | releaseFails
deriving DecidableEq

section Machine
variable [Postcard] {s : Scope} {w w' : Draining}

/-- The sync points a node holds of a scope; none when the scan fails. -/
def heldSyncPoints (ks : Keyspace) (s : Scope) : List SyncPointId :=
  let heads := do
    let (lower, upper) ←
      context "unable to construct sync point range for scope" (keyRange s.syncPoint)
    collectLatestHeads ks lower upper
  match heads with
  | .ok heads => heads.map fun head => head.1.asId
  | .error _ => []

def releaseBatchSize : Nat := 256

/-- Forgets one sync point; a failure is skipped. -/
def releasePoint (s : Scope) (ks : Keyspace) (id : SyncPointId) : Keyspace :=
  match forgetChunk ks (s.withSpId id) with
  | .ok ks' => ks'
  | .error _ => ks

/-- One batch is one transaction. -/
def releaseBatch (s : Scope) (ks : Keyspace) (batch : List SyncPointId) : Keyspace :=
  batch.foldl (releasePoint s) ks

/-- One step of a drain on its node. -/
def Drain.step (s : Scope) (host : Host) (d : Drain) : DrainEvent → Option (Host × Drain)
  | .loopHead =>
    if d.place = .loopHead then
      if isReplicating host.handles s then some (host, { d with stopped := true }.leave .stoodDown)
      else some (host, { d with place := .announcing })
    else none
  | .announce =>
    if d.place = .announcing then some (host, { d with place := .verifying }) else none
  | .verifyNotDue =>
    if d.place = .verifying then some (host, { d with place := .selecting }) else none
  | .verifyDue =>
    if d.place = .verifying then some (host, { d with place := .asking (heldSyncPoints host.store s) })
    else none
  | .verifyAnswer covered =>
    match d.place with
    | .asking held =>
      if covered then
        some (host, { d with retired := true, covered := held, stopped := true, place := .selecting })
      else some (host, { d with place := .selecting })
    | _ => none
  | .select arm =>
    if d.place = .selecting then (d.select arm).map fun d' => (host, d') else none
  | .promote recorded =>
    if d.place = .promoting then
      if recorded then
        some ({ host with custody := true, handles := replicate host.handles (.scope s) },
          { d with stopped := true }.leave .escalated)
      else some (host, d.leave .escalated)
    else none
  | .retire =>
    if d.place = .ended then
      if d.retired then
        -- only a drain that unwinds a custody ends it
        let custody := match d.kind with
          | .unwinding _ => false
          | _ => host.custody
        let covered := if d.covered = [] then d.confirmed else d.covered
        some ({ host with custody := custody },
          { d with queryable := false, covered := covered, place := .grace })
      else some (host, { d with queryable := false, place := .finished })
    else none
  | .graceOver =>
    if d.place = .grace then some (host, { d with place := .releasing d.covered }) else none
  | .release =>
    match d.place with
    | .releasing [] => some (host, { d with place := .finished })
    | .releasing rest =>
      some ({ host with store := releaseBatch s host.store (rest.take releaseBatchSize) },
        { d with place := .releasing (rest.drop releaseBatchSize) })
    | _ => none
  | .releaseFails =>
    match d.place with
    | .releasing _ => some (host, { d with place := .finished })
    | _ => none

/-! ## A drain among the other activity of its node -/

/-- A node with a drain of the scope. -/
structure Draining where
  host : Host
  drain : Drain

/-- A step of the drain, or of the rest of the node: replication is started or stopped, a replica's
announce is found to cover the drain, or the store changes. -/
inductive Happening where
  | drain (event : DrainEvent)
  | start (subject : Subject)
  | stop (subject : Subject)
  | covered (points : List SyncPointId)
  | write (store : Keyspace)

def Draining.step (s : Scope) (w : Draining) : Happening → Option Draining
  | .drain event => (w.drain.step s w.host event).map fun (host, drain) => ⟨host, drain⟩
  | .start subject =>
    some { w with host := { w.host with handles := replicate w.host.handles subject } }
  | .stop subject =>
    some { w with host := { w.host with handles := stopReplication w.host.handles subject } }
  | .covered points => some { w with drain := w.drain.confirm points }
  | .write store => some { w with host := { w.host with store := store } }

/-- The runs of a drain whose steps are all allowed.  It is only started on a node that does not
replicate the scope. -/
inductive Draining.Reachable (s : Scope) (allowed : Draining → Happening → Prop) : Draining → Prop
  | start {host : Host} (kind : OffloadKind) : isReplicating host.handles s = false →
      Draining.Reachable s allowed ⟨host, .start kind⟩
  | step {w w' : Draining} (happening : Happening) : Draining.Reachable s allowed w →
      allowed w happening → w.step s happening = some w' → Draining.Reachable s allowed w'

/-! ## Which steps are safe -/

def Drain.inLoop (d : Drain) : Bool :=
  match d.place with
  | .loopHead | .announcing | .verifying | .asking _ | .selecting | .promoting => true
  | _ => false

/-- Coverage is confirmed and the release it leads to is not over. -/
def Drain.atRisk (d : Drain) : Prop :=
  (d.retired = true ∨ d.stopped = true ∧ d.inLoop = true) ∧ d.place ≠ .finished

/-- The steps of a drain that keep it from releasing what its node is to keep: it is not found covered
while the node replicates the scope, and does not escalate once it is retired. -/
def Drain.Unhurried (s : Scope) (host : Host) (d : Drain) : DrainEvent → Prop
  | .verifyAnswer true => isReplicating host.handles s = false
  | .select .escalation => d.retired = false
  | _ => True

/-- The steps of a node that do: in addition, replication of the scope is not started while coverage
is confirmed and not yet released. -/
def Draining.Unhurried (s : Scope) (w : Draining) : Happening → Prop
  | .drain event => w.drain.Unhurried s w.host event
  | .start subject => subject.contains s = true → ¬ w.drain.atRisk
  | .covered _ => w.drain.inLoop = true → isReplicating w.host.handles s = false
  | _ => True

/-! ## What a step of the drain does -/

/-- The moves of a drain, one for each way through `Drain.step`. -/
inductive Drain.Move (s : Scope) (host : Host) (d : Drain) : DrainEvent → Host → Drain → Prop
  | standDown : d.place = .loopHead → isReplicating host.handles s = true →
      Move s host d .loopHead host ({ d with stopped := true }.leave .stoodDown)
  | proceed : d.place = .loopHead → isReplicating host.handles s = false →
      Move s host d .loopHead host { d with place := .announcing }
  | announce : d.place = .announcing → Move s host d .announce host { d with place := .verifying }
  | verifyNotDue : d.place = .verifying →
      Move s host d .verifyNotDue host { d with place := .selecting }
  | verifyDue : d.place = .verifying →
      Move s host d .verifyDue host { d with place := .asking (heldSyncPoints host.store s) }
  | verified {held : List SyncPointId} : d.place = .asking held →
      Move s host d (.verifyAnswer true) host
        { d with retired := true, covered := held, stopped := true, place := .selecting }
  | unverified {held : List SyncPointId} : d.place = .asking held →
      Move s host d (.verifyAnswer false) host { d with place := .selecting }
  | stop : d.place = .selecting → d.stopped = true →
      Move s host d (.select .stopped) host ({ d with retired := true }.leave .stopped)
  | escalate : d.place = .selecting →
      Move s host d (.select .escalation) host { d with place := .promoting }
  | wake {arm : Arm} (escalateAt queryable : Bool) (reason : Option AnnounceReason) :
      d.place = .selecting → Move s host d (.select arm) host { d with
        escalateAt := escalateAt, queryable := queryable, reason := reason, place := .loopHead }
  | promoted : d.place = .promoting → Move s host d (.promote true)
      { host with custody := true, handles := replicate host.handles (.scope s) }
      ({ d with stopped := true }.leave .escalated)
  | unpromoted : d.place = .promoting → Move s host d (.promote false) host (d.leave .escalated)
  | retire (custody : Bool) : d.place = .ended → d.retired = true →
      Move s host d .retire { host with custody := custody }
        { d with
          queryable := false
          covered := if d.covered = [] then d.confirmed else d.covered
          place := .grace }
  | keep : d.place = .ended → d.retired = false →
      Move s host d .retire host { d with queryable := false, place := .finished }
  | graceOver : d.place = .grace →
      Move s host d .graceOver host { d with place := .releasing d.covered }
  | release {rest : List SyncPointId} : d.place = .releasing rest →
      Move s host d .release
        { host with store := releaseBatch s host.store (rest.take releaseBatchSize) }
        { d with place := .releasing (rest.drop releaseBatchSize) }
  | finish {rest : List SyncPointId} {event : DrainEvent} : d.place = .releasing rest →
      Move s host d event host { d with place := .finished }

namespace Drain
variable {s : Scope} {host host' : Host} {d d' : Drain} {event : DrainEvent}

theorem move_of_select {arm : Arm} (hpl : d.place = .selecting) (h : d.select arm = some d') :
    Move s host d (.select arm) host d' := by
  cases arm with
  | stopped =>
    obtain ⟨hst, h⟩ := Option.ite_none_right_eq_some.mp h
    cases h
    exact .stop hpl hst
  | escalation =>
    obtain ⟨-, h⟩ := Option.ite_none_right_eq_some.mp h
    cases h
    exact .escalate hpl
  | findable =>
    obtain ⟨-, h⟩ := Option.ite_none_left_eq_some.mp h
    cases h
    exact .wake _ _ _ hpl
  | fetched =>
    obtain ⟨-, h⟩ := Option.ite_none_right_eq_some.mp h
    cases h
    exact .wake _ _ _ hpl
  | _ =>
    cases h
    exact .wake _ _ _ hpl

/-- **What one step of a drain can do.** -/
theorem move_of_step (h : d.step s host event = some (host', d')) : Move s host d event host' d' := by
  revert h
  fun_cases step s host d event
  case case13 hpl =>
    intro h
    obtain ⟨_, hse, he⟩ := Option.map_eq_some_iff.mp h
    cases he
    exact move_of_select hpl hse
  all_goals rintro ⟨⟩
  · next hpl hrep => exact .standDown hpl hrep
  · next hpl hrep => exact .proceed hpl (Bool.eq_false_iff.mpr hrep)
  · next hpl => exact .announce hpl
  · next hpl => exact .verifyNotDue hpl
  · next hpl => exact .verifyDue hpl
  · next hpl => exact .verified hpl
  · next hpl hco => exact Bool.eq_false_iff.mpr hco ▸ .unverified hpl
  · next hpl => exact .promoted hpl
  · next hpl hre => exact Bool.eq_false_iff.mpr hre ▸ .unpromoted hpl
  · next hpl hre _ _ => exact .retire _ hpl hre
  · next hpl hre => exact .keep hpl (Bool.eq_false_iff.mpr hre)
  · next hpl => exact .graceOver hpl
  · next hpl => exact .finish hpl
  · next hpl => exact .release hpl
  · next hpl => exact .finish hpl

end Drain

/-! ## The invariant -/

/-- What holds of every drain whose steps were unhurried: it is retired once it is to release, a
retired drain left its loop because its replicator was stopped, and what it may release was put on
record when it was retired or stopped. -/
structure Drain.Sound (d : Drain) : Prop where
  covered : d.retired = false → d.covered = []
  confirmed : d.stopped = false → d.confirmed = []
  promoting : d.place = .promoting → d.retired = false
  left : d.retired = true → d.inLoop = false → d.exit = some .stopped
  leaving : d.place = .grace ∨ (∃ rest, d.place = .releasing rest) → d.retired = true

/-- The node does not replicate the scope while the drain is at risk. -/
def Drain.Guarded (s : Scope) (host : Host) (d : Drain) : Prop :=
  d.atRisk → isReplicating host.handles s = false

namespace Drain
variable {s : Scope} {host host' : Host} {d d' : Drain} {event : DrainEvent}

omit [Postcard]

theorem not_atRisk_start {kind : OffloadKind} : ¬ (start kind).atRisk := by
  simp [atRisk, start]

theorem sound_start (kind : OffloadKind) : (start kind).Sound := by
  constructor <;> simp [start]

/-- A drain in its loop that is not promoting is sound if its records are. -/
theorem sound_of_inLoop (hco : d.retired = false → d.covered = [])
    (hc : d.stopped = false → d.confirmed = []) (hl : d.inLoop = true)
    (hp : d.place ≠ .promoting) : d.Sound := by
  refine ⟨hco, hc, fun h => absurd h hp, fun _ h => ?_, fun h => ?_⟩
  · rw [hl] at h
    cases h
  · rcases h with h | ⟨rest, h⟩ <;> simp [inLoop, h] at hl

theorem Sound.leave (h : d.Sound) (exit : Exit) (hre : d.retired = false) : (d.leave exit).Sound :=
  ⟨h.covered, h.confirmed, nofun, fun hr => (by simp [Drain.leave, hre] at hr),
    fun hl => (by simp [Drain.leave] at hl)⟩

theorem Sound.stop (h : d.Sound) : { d with stopped := true }.Sound :=
  ⟨h.covered, nofun, h.promoting, h.left, h.leaving⟩

theorem Sound.confirm (h : d.Sound) (points : List SyncPointId) : (d.confirm points).Sound :=
  ⟨h.covered, nofun, h.promoting, h.left, h.leaving⟩

theorem atRisk_of_retired (hr : d.retired = true) (hp : d.place ≠ .finished) : d.atRisk :=
  ⟨.inl hr, hp⟩

end Drain
namespace Drain
variable {s : Scope} {host host' : Host} {d d' : Drain} {event : DrainEvent}

theorem Sound.move (h : d.Sound) (hgu : d.Guarded s host) (hok : d.Unhurried s host event)
    (hmo : Move s host d event host' d') : d'.Sound := by
  cases hmo with
  | standDown hpl hrep =>
    refine h.stop.leave _ (Bool.eq_false_iff.mpr fun hre => ?_)
    rw [hgu (atRisk_of_retired hre (by simp [hpl]))] at hrep
    cases hrep
  | proceed | announce | verifyNotDue | verifyDue | unverified | wake =>
    exact sound_of_inLoop h.covered h.confirmed rfl (by simp)
  | verified =>
    exact sound_of_inLoop nofun nofun rfl (by simp)
  | stop =>
    exact ⟨nofun, h.confirmed, nofun, fun _ _ => rfl, fun _ => rfl⟩
  | escalate =>
    exact ⟨h.covered, h.confirmed, fun _ => hok, nofun, fun hl => (by simp at hl)⟩
  | promoted hpl => exact h.stop.leave _ (h.promoting hpl)
  | unpromoted hpl => exact h.leave _ (h.promoting hpl)
  | retire custody hpl hre =>
    exact ⟨fun hr => absurd (hr.symm.trans hre) Bool.false_ne_true, h.confirmed,
      nofun, fun hr _ => h.left hr (by simp [inLoop, hpl]), fun _ => hre⟩
  | keep hpl hre | finish hpl =>
    exact ⟨h.covered, h.confirmed, nofun,
      fun hr _ => h.left hr (by simp [inLoop, hpl]), fun hl => (by simp at hl)⟩
  | graceOver hpl =>
    exact ⟨h.covered, h.confirmed, nofun,
      fun hr _ => h.left hr (by simp [inLoop, hpl]), fun _ => h.leaving (.inl hpl)⟩
  | release hpl =>
    exact ⟨h.covered, h.confirmed, nofun,
      fun hr _ => h.left hr (by simp [inLoop, hpl]), fun _ => h.leaving (.inr ⟨_, hpl⟩)⟩

/-- A step puts a drain at risk only when its own verification succeeds. -/
theorem atRisk_of_move (hm : Move s host d event host' d') (hne : event ≠ .verifyAnswer true)
    (hri : d'.atRisk) : d.atRisk := by
  cases hm with
  | verified => exact absurd rfl hne
  | standDown hp | promoted hp | unpromoted hp =>
    obtain ⟨hri, -⟩ := hri
    simp only [leave, inLoop, Bool.false_eq_true, and_false, or_false] at hri
    exact atRisk_of_retired hri (by simp [hp])
  | proceed hp | announce hp | verifyNotDue hp | verifyDue hp | unverified hp
  | escalate hp | wake _ _ _ hp =>
    obtain ⟨hri, -⟩ := hri
    exact ⟨hri.imp id fun hr => ⟨hr.1, by simp [inLoop, hp]⟩, by simp [hp]⟩
  | stop hp hs => exact ⟨.inr ⟨hs, by simp [inLoop, hp]⟩, by simp [hp]⟩
  | retire _ hp hre => exact atRisk_of_retired hre (by simp [hp])
  | graceOver hp | release hp =>
    obtain ⟨hri, -⟩ := hri
    simp only [inLoop, Bool.false_eq_true, and_false, or_false] at hri
    exact atRisk_of_retired hri (by simp [hp])
  | keep | finish => exact absurd rfl hri.2

theorem Guarded.move (hg : d.Guarded s host) (h : d.Sound) (hok : d.Unhurried s host event)
    (hm : Move s host d event host' d') : d'.Guarded s host' := by
  intro hr
  by_cases hv : event = .verifyAnswer true
  · subst hv
    cases hm with
    | verified => exact hok
    | finish => exact absurd rfl hr.2
  · have hb := atRisk_of_move hm hv hr
    cases hm with
    | promoted hp =>
      -- the promotion is the one step that starts replication, and it ends the drain unretired
      obtain ⟨hr, -⟩ := hr
      simp [leave, inLoop, h.promoting hp] at hr
    | _ => exact hg hb

end Drain

/-! ## Runs -/

theorem Draining.sound_step {happening : Happening} (h : w.drain.Sound)
    (hgu : w.drain.Guarded s w.host) (hok : w.Unhurried s happening)
    (hst : w.step s happening = some w') : w'.drain.Sound ∧ w'.drain.Guarded s w'.host := by
  cases happening with
  | drain event =>
    obtain ⟨⟨_, d⟩, hdr, he⟩ := Option.map_eq_some_iff.mp hst
    cases he
    have hmo := Drain.move_of_step hdr
    exact ⟨h.move hgu hok hmo, hgu.move h hok hmo⟩
  | start subject =>
    cases hst
    refine ⟨h, fun hri => Bool.eq_false_iff.mpr fun hre => ?_⟩
    rcases isReplicating_of_replicate hre with hre | hco
    · rw [hgu hri] at hre
      cases hre
    · exact hok hco hri
  | stop subject =>
    cases hst
    refine ⟨h, fun hri => Bool.eq_false_iff.mpr fun hre => ?_⟩
    have hre := isReplicating_of_stopReplication hre
    rw [hgu hri] at hre
    cases hre
  | covered points =>
    cases hst
    refine ⟨h.confirm points, fun hri => ?_⟩
    by_cases hlo : w.drain.inLoop = true
    · exact hok hlo
    · exact hgu ⟨hri.1.imp id fun hr => absurd hr.2 hlo, hri.2⟩
  | write store =>
    cases hst
    exact ⟨h, hgu⟩

theorem Draining.sound_of_reachable (h : Reachable s (Unhurried s) w) :
    w.drain.Sound ∧ w.drain.Guarded s w.host := by
  induction h with
  | start kind hre =>
    exact ⟨Drain.sound_start kind, fun hr => absurd hr Drain.not_atRisk_start⟩
  | step _ _ hok hs ih => exact sound_step ih.1 ih.2 hok hs

theorem Draining.Reachable.mono {allowed : Draining → Happening → Prop}
    (h : Reachable s allowed w) : Reachable s (fun _ _ => True) w := by
  induction h with
  | start kind hr => exact .start kind hr
  | step happening _ _ hs ih => exact .step happening ih trivial hs

/-- **A replica never releases.**  In every state of an unhurried run, a step with which the drain
changes the store happens while the node does not replicate the scope, and after the loop ended
because the drain's replicator was stopped; a drain that escalated or stood down deletes nothing. -/
theorem replica_never_releases (h : Draining.Reachable s (Draining.Unhurried s) w)
    {event : DrainEvent} (hstep : w.step s (.drain event) = some w')
    (hdelete : w'.host.store ≠ w.host.store) :
    isReplicating w.host.handles s = false ∧ w.drain.exit = some .stopped := by
  obtain ⟨hs, hg⟩ := Draining.sound_of_reachable h
  obtain ⟨⟨_, d⟩, hd, he⟩ := Option.map_eq_some_iff.mp hstep
  cases he
  cases Drain.move_of_step hd with
  | release hp =>
    have hr := hs.leaving (.inr ⟨_, hp⟩)
    exact ⟨hg (Drain.atRisk_of_retired hr (by simp [hp])), hs.left hr (by simp [Drain.inLoop, hp])⟩
  | _ => exact absurd rfl hdelete

end Machine

/-! ## A drain that escalates after it was verified -/

section Samples
open Sample

/-- A node with one commit of a scope that it does not replicate. -/
def strayHost : Host :=
  ⟨after (commit ∅ ∅ 100 (node 1) none [.put scope (kv 'k') [1]]), [], false⟩

/-- The drain of the stray node once a replica has confirmed everything it holds. -/
def verifiedDrain : Drain :=
  { Drain.start .hidden with
    retired := true
    covered := [⟨100, 100, node 1⟩]
    stopped := true
    place := .selecting }

theorem reachable_verifiedDrain :
    Draining.Reachable scope (Draining.Unhurried scope) ⟨strayHost, verifiedDrain⟩ := by
  have hh : heldSyncPoints strayHost.store scope = [⟨100, 100, node 1⟩] := by decide +kernel
  have hs : Draining.Reachable scope (Draining.Unhurried scope) ⟨strayHost, .start .hidden⟩ :=
    .start .hidden rfl
  have h := (((hs.step (.drain .loopHead) trivial rfl).step (.drain .announce) trivial
    rfl).step (.drain .verifyDue) trivial rfl).step (.drain (.verifyAnswer true)) rfl rfl
  rw [verifiedDrain, ← hh]
  exact h

theorem release_strayHost (handles : Handles) (custody : Bool) (d : Drain) :
    ∃ w', Draining.step scope
        ⟨⟨strayHost.store, handles, custody⟩, { d with place := .releasing [⟨100, 100, node 1⟩] }⟩
        (.drain .release) = some w' ∧ w'.host.store ≠ strayHost.store := by
  refine ⟨_, rfl, fun he => ?_⟩
  have hk : metaAt strayHost.store ⟨scope, 100, 100, node 1⟩ ≠ none := by decide +kernel
  have hg : metaAt (releaseBatch scope strayHost.store [⟨100, 100, node 1⟩])
      ⟨scope, 100, 100, node 1⟩ = none := by decide +kernel
  exact hk (he ▸ hg)

/-- A drain that takes the stop after its verification releases, on a node that is no replica. -/
theorem verified_drain_releases : ∃ w w', Draining.Reachable scope (Draining.Unhurried scope) w ∧
    w.step scope (.drain .release) = some w' ∧ w'.host.store ≠ w.host.store ∧
    isReplicating w.host.handles scope = false ∧ w.drain.exit = some .stopped := by
  have h := ((reachable_verifiedDrain.step (.drain (.select .stopped)) trivial rfl).step
    (.drain .retire) trivial rfl).step (.drain .graceOver) trivial rfl
  obtain ⟨w', hs, hne⟩ := release_strayHost [] false _
  exact ⟨_, w', h, hs, hne, replica_never_releases h hs hne⟩

/-- **A replica releases**: after the verification the wait takes the escalation, the node becomes a
replica of the scope, and the drain forgets what it was verified to hold. -/
theorem escalation_after_verify_releases : ∃ w w', Draining.Reachable scope (fun _ _ => True) w ∧
    w.step scope (.drain .release) = some w' ∧ w'.host.store ≠ w.host.store ∧
    isReplicating w.host.handles scope = true ∧ w.drain.exit = some .escalated := by
  have h := (((reachable_verifiedDrain.mono.step (.drain (.select .escalation)) trivial rfl).step
    (.drain (.promote true)) trivial rfl).step (.drain .retire) trivial rfl).step
    (.drain .graceOver) trivial rfl
  obtain ⟨w', hs, hne⟩ := release_strayHost [(.scope scope, false)] true _
  exact ⟨_, w', h, hs, hne, by decide +kernel, rfl⟩

end Samples

end Myrmic
