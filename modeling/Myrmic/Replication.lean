import Myrmic.Restore

/-!
# Serving and applying chunks

Replicas exchange chunks.  A holder answers a request with a **changeset message**: it sends a sync
point unless the requester's watermark says it has the version, an epoch floor for the version taking
precedence.  The receiver records a message chunk by chunk, or a page of chunks in one transaction.
What is served are chunks of the holder's own sync points.
-/
namespace Myrmic
open OrderedBytes VersionedCell Fallible

/-- What a replica handle is responsible for. -/
inductive Subject where
  | nameSpace (ns : Name)
  | database (ns db : Name)
  | scope (s : Scope)
deriving DecidableEq

/-- Whether a scope is part of what is replicated. -/
def Subject.contains : Subject → Scope → Bool
  | .nameSpace ns, s => s.nameSpace = ns
  | .database ns db, s => s.nameSpace = ns ∧ s.database = db
  | .scope target, s => s = target

/-- Per-version epoch floors of a request. -/
abbrev EpochFloors := Std.ExtTreeMap Version Epoch compare

/-- Whether a request leaves a sync point out: the requester has its version. -/
def skipped (sinceTs : Option Version) (epochFloors : EpochFloors) (id : SyncPointId) : Bool :=
  match epochFloors[id.version]? with
  | some floor => id.epoch ≤ floor
  | none =>
    match sinceTs with
    | some c => id.version ≤ c
    | none => false

/-- A request for what a node lacks. -/
structure ChangeSetReq where
  scope : Scope
  sinceTs : Option Version
  epochFloors : EpochFloors

structure ChangeSet where
  scope : Scope
  chunks : List Chunk

section Serve
variable [Postcard]

/-- The entries a holder sends for a sync point: a deletion marker carries none. -/
def servedEntries (ks : Keyspace) (s : Scope) (id : SyncPointId) (sm : SyncMeta) :
    Except String (List (Bytes × Option Bytes)) :=
  match sm.marker with
  | .deletion => .ok []
  | .mutation => changesetFor ks (s.withSpId id)

/-- Answers a broadcast changeset request; `none` when there is nothing to send. -/
def handleCsReq (ks : Keyspace) (subject : Subject) (req : ChangeSetReq) :
    Except String (Option ChangeSet) :=
  if ¬ subject.contains req.scope then .ok none
  else do
    let (lower, upper) ←
      context "unable to construct sync point range for scope" (keyRange req.scope.syncPoint)
    let points ← findSyncPoints ks lower upper
    let wanted := points.filter fun point =>
      !skipped req.sinceTs req.epochFloors point.1.asId
    let chunks ← wanted.mapM fun point => do
      let entries ← servedEntries ks req.scope point.1.asId point.2
      return (⟨point.1.asId, point.2, entries⟩ : Chunk)
    return if chunks = [] then none else some ⟨req.scope, chunks⟩

/-- Takes over a chunk that another node has served. -/
def applyChunk (ks : Keyspace) (s : Scope) (chunk : Chunk) : Except String Keyspace := do
  let (_, ks) ← insertChangeset ks (s.withSpId chunk.id) chunk.syncMeta chunk.entries
  return ks

/-- Records a pulled page in one transaction. -/
def applyPull (ks : Keyspace) (s : Scope) : List Chunk → Except String Keyspace
  | [] => .ok ks
  | chunk :: chunks => do
    let (_, ks) ← insertChangeset ks (s.withSpId chunk.id) chunk.syncMeta chunk.entries
    applyPull ks s chunks

end Serve

/-! ## What is served -/

variable [Postcard] {ks : Keyspace} {s : Scope}

/-- A chunk whose sync point is held changes nothing; any other is recorded. -/
theorem applyChunk_cases {c : Chunk} {ks' : Keyspace} (h : WellFormed ks)
    (hin : EntriesIn s c.entries) (ha : applyChunk ks s c = .ok ks') :
    (∃ m, metaAt ks (s.withSpId c.id) = some m) ∧ ks' = ks ∨
      metaAt ks (s.withSpId c.id) = none ∧ WellFormed ks' ∧
        RecordedAt ks ks' (s.withSpId c.id) c.syncMeta c.entries ∧
        ∀ v, v ≠ c.id.version → AgreeAt s v ks ks' := by
  obtain ⟨⟨wrote, ks₁⟩, hi, hks⟩ := bind_eq_ok.mp ha
  obtain rfl : ks₁ = ks' := Except.ok.inj hks
  cases hh : metaAt ks (s.withSpId c.id) with
  | some m =>
    rw [insertChangeset_of_held h hh] at hi
    cases hi
    exact .inl ⟨⟨m, rfl⟩, rfl⟩
  | none =>
    obtain ⟨ks₂, hi', hs⟩ := insertChangeset_of_not_held h c.syncMeta hh hin
    obtain ⟨-, rfl⟩ : true = wrote ∧ ks₂ = ks₁ := by simpa [hi'] using hi
    exact .inr ⟨rfl, hs⟩

theorem isChunk_of_servedEntries {id : SyncPointId} {sm : SyncMeta}
    {es : List (Bytes × Option Bytes)} (hh : metaAt ks (s.withSpId id) = some sm)
    (hs : servedEntries ks s id sm = .ok es) : IsChunk ks s ⟨id, sm, es⟩ := by
  unfold servedEntries at hs
  refine ⟨hh, fun hd => ?_, fun hm => ?_⟩
  · dsimp only at hd
    rw [hd] at hs
    exact (Except.ok.inj hs).symm
  · dsimp only at hm
    rw [hm] at hs
    exact hs

end Myrmic
