import Mathlib.Data.List.Dedup
import Myrmic.SyncPoints

/-!
# Commits, snapshots and restores

A **commit** applies a transaction's writes at the transaction's timestamp and leaves one sync point
in each scope it touched, with the version as its own epoch.

A **snapshot** lists every sync point of a scope, oldest first, each with its changeset.  A
**restore** makes the snapshot authoritative: it sweeps sync points away with their rows, records the
snapshot's chunks again at their own versions but under the restoring transaction's time as their
epoch, and leaves a deletion marker for every swept sync point that no chunk stood for.
-/
namespace Myrmic
open OrderedBytes Fallible

/-! ## Transactions -/

/-- One write of a transaction.  A key of a scope starts with the scope's encoding; the term lookup
rows of the semantic store lie outside every scope. -/
inductive Write where
  | touch (s : Scope)
  | put (s : Scope) (rest value : Bytes)
  | erase (s : Scope) (rest : Bytes)
  | intern (rest value : Bytes)
deriving DecidableEq

/-- The bytes every term lookup key starts with. -/
def semHashTag : Bytes := lit ['s', 'h']

/-- The raw write at the transaction's timestamp. -/
def Write.apply (ts : Version) (ks : Keyspace) : Write → Keyspace
  | .touch _ => ks
  | .put s rest value => putAtRaw ks (s.encode ++ rest) value ts
  | .erase s rest => eraseAtRaw ks (s.encode ++ rest) ts
  | .intern rest value => putAtRaw ks (semHashTag ++ rest) value ts

def Write.scope : Write → Option Scope
  | .touch s => some s
  | .put s _ _ => some s
  | .erase s _ => some s
  | .intern _ _ => none

/-- The scopes that are written to. -/
def activeScopes (writes : List Write) : List Scope := (writes.filterMap Write.scope).dedup

/-! ## The sweep of a restore -/

/-- The rows a restore sweeps: everything after the parent of the snapshot's first chunk, or every
sync point of the scope when that chunk has no parent. -/
def sweptRows (ks : Keyspace) (s : Scope) (lower upper : Bytes) (snapshot : Snapshot) :
    List (Bytes × Bytes) :=
  match snapshot.head?.bind fun chunk => chunk.syncMeta.parent with
  | some parent => (ks.rangeOf (s.withSpId parent).encode upper).drop 1
  | none => ks.rangeOf lower upper

def sweptPoints (ks : Keyspace) (s : Scope) (snapshot : Snapshot) : List SyncPoint :=
  match keyRange s.syncPoint with
  | .error _ => []
  | .ok (lower, upper) =>
    (sweptRows ks s lower upper snapshot).filterMap fun row =>
      (SyncPoint.decodeFromBytes row.1).toOption

/-- The swept sync points whose exact id no chunk of the snapshot carries. -/
def unmatched (ks : Keyspace) (s : Scope) (snapshot : Snapshot) : List SyncPointId :=
  ((sweptPoints ks s snapshot).map SyncPoint.asId).diff (snapshot.map Chunk.id)

/-- Deletes swept sync points with the rows of their versions, and returns their ids. -/
def sweep (s : Scope) (ks : Keyspace) : List Bytes → Except String (List SyncPointId × Keyspace)
  | [] => .ok ([], ks)
  | key :: keys => do
    let sp ← SyncPoint.decodeFromBytes key
    let ks ← deleteScopeAtVersion ks s sp.ts
    let (deleted, ks) ← sweep s (ks.erase sp.encode) keys
    return (sp.asId :: deleted, ks)

variable [Postcard]

/-! ## Commits -/

/-- Leaves a sync point in each active scope.  The parent is the last sync point in what the
transaction sees, a search that no concurrent commit conflicts with. -/
def commitPoints (seen : Keyspace) (ts : Version) (id : NodeId) (retention : Option Duration)
    (ks : Keyspace) : List Scope → Except String Keyspace
  | [] => .ok ks
  | s :: scopes => do
    let last ← findLastSyncpoint seen s none
    let sm : SyncMeta := ⟨last, none, .mutation, retention⟩
    commitPoints seen ts id retention (insertPoint ks ⟨s, ts, ts, id⟩ sm) scopes

/-- Commits a transaction that began on the rows `seen`. -/
def commit (seen ks : Keyspace) (ts : Version) (id : NodeId) (retention : Option Duration)
    (writes : List Write) : Except String Keyspace :=
  commitPoints (writes.foldl (Write.apply ts) seen) ts id retention
    (writes.foldl (Write.apply ts) ks) (activeScopes writes)

/-! ## Snapshots -/

/-- The chunk that stands for one sync point. -/
def chunkOf (ks : Keyspace) (point : SyncPoint × SyncMeta) : Except String Chunk := do
  let entries ← match point.2.marker with
    | .deletion => pure []
    | .mutation => context "unable to load changeset" (changesetFor ks point.1)
  return ⟨point.1.asId, point.2, entries⟩

/-- The chunks of a scope, in the order of their sync points. -/
def takeSnapshot (ks : Keyspace) (s : Scope) : Except String Snapshot := do
  let (lower, upper) ← context "unable to calculate range" (keyRange s.syncPoint)
  context "unable to create snapshot" do
    let points ← findSyncPoints ks lower upper
    points.mapM (chunkOf ks)

/-! ## Restores -/

/-- Records the chunks again at their own versions, re-stamped with the current epoch. -/
def reinsert (s : Scope) (now : Epoch) (me : NodeId) (deleted : List SyncPointId) (ks : Keyspace) :
    Snapshot → Except String (List SyncPointId × Keyspace)
  | [] => .ok (deleted, ks)
  | chunk :: chunks => do
    let parentEpoch := if chunk.id ∈ deleted then some chunk.id.epoch else none
    let last ← findLastSyncpoint ks s (some chunk.id.version)
    let sm : SyncMeta :=
      ⟨last, parentEpoch, chunk.syncMeta.marker, chunk.syncMeta.retentionPeriod⟩
    let (_, ks) ← insertChangeset ks ⟨s, chunk.id.version, now, me⟩ sm chunk.entries
    reinsert s now me (deleted.erase chunk.id) ks chunks

/-- Leaves a deletion marker for every swept sync point that no chunk stood for. -/
def markDeleted (s : Scope) (now : Epoch) (me : NodeId) (ks : Keyspace) :
    List SyncPointId → Except String Keyspace
  | [] => .ok ks
  | id :: deleted => do
    let last ← findLastSyncpoint ks s (some id.version)
    let sm : SyncMeta := ⟨last, some id.epoch, .deletion, none⟩
    markDeleted s now me (insertPoint ks ⟨s, id.version, now, me⟩ sm) deleted

/-- Restores a snapshot in a transaction begun at `now` on the node `me`. -/
def restoreSnapshot (ks : Keyspace) (s : Scope) (snapshot : Snapshot) (now : Epoch) (me : NodeId) :
    Except String Keyspace := do
  let (lower, upper) ← context "unable to construct sync point range" (keyRange s.syncPoint)
  let (deleted, ks) ← sweep s ks ((sweptRows ks s lower upper snapshot).map Prod.fst)
  let (deleted, ks) ← reinsert s now me deleted ks snapshot
  markDeleted s now me ks deleted

end Myrmic
