import Myrmic.Replication

/-!
# Open transactions

A transaction works on the snapshot it was begun on.  It sees the snapshot with its own writes; what it
wrote reaches the store only when it commits, and then on top of whatever other transactions have
committed in the meantime.  An open transaction is therefore its snapshot and the **journal** of what
it wrote, and the same journal is read twice: over the snapshot it gives the view the transaction goes
on working in, over the current store it gives what the commit leaves there.

The operations of a transaction are those of the earlier modules, now writing to the journal.
`view_forgetChunk` and its companions say that **in the transaction's view each operation does what it
does on a store**.

Nothing here depends on which commits the database refuses because their reads have been overtaken.
-/
namespace Myrmic
open OrderedBytes VersionedCell Fallible

/-! ## Journals -/

/-- The writes of a transaction.  Data rows are always written and removed together with their index
rows. -/
inductive RawOp where
  | write (key : Bytes) (ts : Version) (kind : KeyKind) (value : Bytes)
  | drop (key : Bytes) (ts : Version) (kind : KeyKind)
  | unindex (ikey dataKey : Bytes)
  | point (p : SyncPoint) (sm : SyncMeta)
  | forget (p : SyncPoint)

/-- A write to a row whose key has the property `P`, or of a sync point of a scope in `S`. -/
def RawOp.To (S : Scope → Prop) (P : Bytes → Prop) : RawOp → Prop
  | .write key _ _ _ => P key
  | .drop key _ _ => P key
  | .unindex _ _ => False
  | .point p _ => S p.scope
  | .forget p => S p.scope

section Tx
variable [Postcard]

/-- What an entry of the journal does to a store. -/
def RawOp.apply (ks : Keyspace) : RawOp → Keyspace
  | .write key ts kind value => writeRow ks key ts kind value
  | .drop key ts kind => dropRow ks key ts kind
  | .unindex ikey dataKey => (ks.erase dataKey).erase ikey
  | .point p sm => insertPoint ks p sm
  | .forget p => ks.erase p.encode

/-- Carries out the writes of a journal, oldest first. -/
def replay (ks : Keyspace) (journal : List RawOp) : Keyspace := journal.foldl RawOp.apply ks

theorem replay_append {ks : Keyspace} {j j' : List RawOp} :
    replay ks (j ++ j') = replay (replay ks j) j' := List.foldl_append ..

/-! ## Transactions -/

/-- An open transaction: its snapshot, its timestamp, the scopes it has written to and its writes. -/
structure Tx where
  base : Keyspace
  ts : Version
  id : NodeId
  retention : Option Duration
  active : List Scope
  journal : List RawOp

namespace Tx

def start (base : Keyspace) (ts : Version) (id : NodeId) (retention : Option Duration) : Tx :=
  ⟨base, ts, id, retention, [], []⟩

/-- The rows the transaction sees. -/
def view (tx : Tx) : Keyspace := replay tx.base tx.journal

def push (tx : Tx) (op : RawOp) : Tx := { tx with journal := tx.journal ++ [op] }

@[simp] theorem view_push (tx : Tx) (op : RawOp) : (tx.push op).view = op.apply tx.view :=
  replay_append

/-- Marks a scope as written to; its sync point is recorded with the commit. -/
def writeScope (tx : Tx) (s : Scope) : Tx :=
  if s ∈ tx.active then tx else { tx with active := s :: tx.active }

/-! ### Rows -/

def putAtRaw (tx : Tx) (key value : Bytes) (ts : Version) : Tx :=
  (tx.push (.drop key ts .deletion)).push (.write key ts .insertion value)

def eraseAtRaw (tx : Tx) (key : Bytes) (ts : Version) : Tx :=
  tx.push (.write key ts .deletion [])

def putRaw (tx : Tx) (key value : Bytes) : Tx := tx.putAtRaw key value tx.ts

def eraseRaw (tx : Tx) (key : Bytes) : Tx := tx.eraseAtRaw key tx.ts

/-- Whether the key was absent as the transaction sees it. -/
def putIfAbsentRaw (tx : Tx) (key value : Bytes) : Except String (Bool × Tx) := do
  match ← getFromRaw tx.view key tx.ts with
  | some _ => return (false, tx)
  | none => return (true, tx.putAtRaw key value tx.ts)

def deleteIndexed (tx : Tx) : List Bytes → Except String Tx
  | [] => .ok tx
  | ikey :: ikeys => do
    let dataKey ← versionIndexDataKey ikey
    deleteIndexed (tx.push (.unindex ikey dataKey)) ikeys

/-- The rows of a version are found by its index. -/
def deleteVersionRows (tx : Tx) (scopeRaw : Bytes) (ts : Version) : Except String (Nat × Tx) := do
  let indexKeys := (tx.view.prefixOf (versionIndexPrefix ts scopeRaw)).map Prod.fst
  let tx ← tx.deleteIndexed indexKeys
  return (indexKeys.length, tx)

def deleteScopeAtVersion (tx : Tx) (s : Scope) (ts : Version) : Except String Tx := do
  let (_, tx) ← tx.deleteVersionRows s.encode ts
  return tx

/-! ### Sync points -/

def markSyncpointPurged (tx : Tx) (p : SyncPoint) (sm : SyncMeta) : Tx :=
  tx.push (.point p { sm with marker := .deletion })

def deleteChunk (tx : Tx) (p : SyncPoint) : Except String Tx := do
  let (_, tx) ← tx.deleteVersionRows p.scope.encode p.ts
  return tx

/-- Removes a chunk together with its sync point. -/
def forgetChunk (tx : Tx) (p : SyncPoint) : Except String Tx := do
  let tx ← tx.deleteChunk p
  return tx.push (.forget p)

/-- An entry of a chunk goes under its raw key, unchecked. -/
def applyEntry (ts : Version) (tx : Tx) (entry : Bytes × Option Bytes) : Tx :=
  match entry.2 with
  | some value => tx.push (.write entry.1 ts .insertion value)
  | none => tx.eraseAtRaw entry.1 ts

def insertChangeset (tx : Tx) (p : SyncPoint) (sm : SyncMeta) (entries : List (Bytes × Option Bytes)) :
    Except String (Bool × Tx) :=
  if containsKey tx.view p.encode then .ok (false, tx)
  else
    let tx := tx.push (.point p sm)
    match sm.marker with
    | .deletion => do
      let tx ← tx.deleteScopeAtVersion p.scope p.ts
      return (true, tx)
    | .mutation => .ok (true, entries.foldl (applyEntry p.ts) tx)

/-! ### Restores -/

/-- Removes the chunks of a scope, and gives the ids of those that were there. -/
def sweep (s : Scope) (tx : Tx) : List Bytes → Except String (List SyncPointId × Tx)
  | [] => .ok ([], tx)
  | key :: keys => do
    let sp ← SyncPoint.decodeFromBytes key
    let tx ← tx.deleteScopeAtVersion s sp.ts
    let (deleted, tx) ← sweep s (tx.push (.forget sp)) keys
    return (sp.asId :: deleted, tx)

/-- Records the chunks of a snapshot anew, under the transaction's own epoch. -/
def reinsert (s : Scope) (deleted : List SyncPointId) (tx : Tx) :
    Snapshot → Except String (List SyncPointId × Tx)
  | [] => .ok (deleted, tx)
  | chunk :: chunks => do
    let parentEpoch := if chunk.id ∈ deleted then some chunk.id.epoch else none
    let last ← findLastSyncpoint tx.view s (some chunk.id.version)
    let sm : SyncMeta :=
      ⟨last, parentEpoch, chunk.syncMeta.marker, chunk.syncMeta.retentionPeriod⟩
    let (_, tx) ← tx.insertChangeset ⟨s, chunk.id.version, tx.ts, tx.id⟩ sm chunk.entries
    reinsert s (deleted.erase chunk.id) tx chunks

/-- What was there and is not in the snapshot is marked as deleted. -/
def markDeleted (s : Scope) (tx : Tx) : List SyncPointId → Except String Tx
  | [] => .ok tx
  | id :: deleted => do
    let last ← findLastSyncpoint tx.view s (some id.version)
    let sm : SyncMeta := ⟨last, some id.epoch, .deletion, none⟩
    markDeleted s (tx.push (.point ⟨s, id.version, tx.ts, tx.id⟩ sm)) deleted

/-- Replaces all of a scope by a snapshot.  The scope is **not** marked as written to. -/
def restoreSnapshot (tx : Tx) (s : Scope) (snapshot : Snapshot) : Except String Tx := do
  let (lower, upper) ← context "unable to construct sync point range" (keyRange s.syncPoint)
  let (deleted, tx) ← tx.sweep s ((sweptRows tx.view s lower upper snapshot).map Prod.fst)
  let (deleted, tx) ← tx.reinsert s deleted snapshot
  tx.markDeleted s deleted

/-! ### Committing -/

/-- The sync points that a commit records for the scopes that were written to. -/
def commitPoints (tx : Tx) : List Scope → Except String (List RawOp)
  | [] => .ok []
  | s :: scopes => do
    let last ← findLastSyncpoint tx.view s none
    let points ← tx.commitPoints scopes
    return .point ⟨s, tx.ts, tx.ts, tx.id⟩ ⟨last, none, .mutation, tx.retention⟩ :: points

/-- Commits the transaction on the rows the store has by now. -/
def commit (tx : Tx) (store : Keyspace) : Except String Keyspace := do
  let points ← tx.commitPoints tx.active
  return replay store (tx.journal ++ points)

/-! ### What an operation leaves alone -/

/-- An operation below the level of scopes adds to the journal and leaves the rest. -/
structure Extends (tx tx' : Tx) : Prop where
  base : tx'.base = tx.base
  ts : tx'.ts = tx.ts
  id : tx'.id = tx.id
  retention : tx'.retention = tx.retention
  active : tx'.active = tx.active

namespace Extends

omit [Postcard] in
theorem refl (tx : Tx) : Extends tx tx := ⟨rfl, rfl, rfl, rfl, rfl⟩

omit [Postcard] in
theorem trans {tx tx' tx'' : Tx} (h : Extends tx tx') (h' : Extends tx' tx'') : Extends tx tx'' :=
  ⟨h'.base.trans h.base, h'.ts.trans h.ts, h'.id.trans h.id, h'.retention.trans h.retention,
    h'.active.trans h.active⟩

omit [Postcard] in
theorem push (tx : Tx) (op : RawOp) : Extends tx (tx.push op) := ⟨rfl, rfl, rfl, rfl, rfl⟩

variable {tx tx' : Tx} {s : Scope}

omit [Postcard] in
theorem deleteIndexed {ikeys : List Bytes} (h : tx.deleteIndexed ikeys = .ok tx') :
    Extends tx tx' := by
  induction ikeys generalizing tx with
  | nil =>
    cases h
    exact refl _
  | cons ikey ikeys ih =>
    obtain ⟨_, -, h⟩ := bind_eq_ok.mp h
    exact trans (push ..) (ih h)

theorem deleteScopeAtVersion {ts : Version}
    (h : tx.deleteScopeAtVersion s ts = .ok tx') : Extends tx tx' := by
  obtain ⟨⟨n, _⟩, hr, h⟩ := bind_eq_ok.mp h
  cases h
  obtain ⟨_, hi, h⟩ := bind_eq_ok.mp hr
  cases h
  exact deleteIndexed hi

end Extends

/-- **What the operations of a transaction come to**: scopes are marked as written to, versions of
scopes deleted, and rows with keys in `P` and sync points of scopes in `S` are written. -/
inductive Writes (S : Scope → Prop) (P : Bytes → Prop) (tx : Tx) : Tx → Prop
  | refl : Writes S P tx tx
  | scope {tx' : Tx} (h : Writes S P tx tx') (s : Scope) : Writes S P tx (tx'.writeScope s)
  | delete {tx' tx'' : Tx} {s : Scope} {ts : Version} (h : Writes S P tx tx')
      (hd : tx'.deleteScopeAtVersion s ts = .ok tx'') : Writes S P tx tx''
  | push {tx' : Tx} (h : Writes S P tx tx') (op : RawOp) (hop : op.To S P) :
      Writes S P tx (tx'.push op)

namespace Writes
open List
variable {S : Scope → Prop} {P : Bytes → Prop} {tx₀ tx tx' : Tx} {s : Scope} (h : Writes S P tx₀ tx)
  {es : List (Bytes × Option Bytes)} {deleted : List SyncPointId} {snap : Snapshot}
include h

theorem applyEntries (ts : Version) (hen : ∀ e ∈ es, P e.1) :
    Writes S P tx₀ (es.foldl (Tx.applyEntry ts) tx) := by
  induction es generalizing tx with
  | nil => exact h
  | cons entry es ih =>
    refine ih ?_ fun e he => hen e (mem_cons_of_mem _ he)
    have hk := hen entry mem_cons_self
    obtain ⟨_, v⟩ := entry
    cases v <;> exact h.push _ hk

theorem insertChangeset {p : SyncPoint} (hp : S p.scope) {sm : SyncMeta} (hen : ∀ e ∈ es, P e.1)
    {wrote : Bool} (hi : tx.insertChangeset p sm es = .ok (wrote, tx')) : Writes S P tx₀ tx' := by
  have hpo : Writes S P tx₀ (tx.push (.point p sm)) := h.push _ hp
  unfold Tx.insertChangeset at hi
  split at hi
  · cases hi
    exact h
  · split at hi
    · obtain ⟨_, hd, hi⟩ := bind_eq_ok.mp hi
      cases hi
      exact hpo.delete hd
    · cases hi
      exact hpo.applyEntries p.ts hen

theorem sweep (hs : S s) {keys : List Bytes} (hke : ∀ key ∈ keys, s.syncPoint <+: key)
    (hsw : tx.sweep s keys = .ok (deleted, tx')) : Writes S P tx₀ tx' := by
  induction keys generalizing tx deleted with
  | nil =>
    cases hsw
    exact h
  | cons key keys ih =>
    obtain ⟨sp, hsp, hsw⟩ := bind_eq_ok.mp hsw
    obtain ⟨_, hd, hsw⟩ := bind_eq_ok.mp hsw
    obtain ⟨⟨_, _⟩, hr, hsw⟩ := bind_eq_ok.mp hsw
    cases hsw
    -- the key decodes to a sync point of the scope whose keys are swept
    have hsc : sp.scope = s := by
      obtain ⟨x, hx⟩ := hke key mem_cons_self
      obtain ⟨y, hy⟩ := SyncPoint.isPrefix_of_decodeFromBytes hsp
      rw [SyncPoint.encode, append_assoc, ← hx] at hy
      exact (Scope.syncPoint_append_inj hy).1
    refine ih ((h.delete hd).push (.forget sp) ?_) (fun k hk => hke k (mem_cons_of_mem _ hk)) hr
    rw [RawOp.To, hsc]
    exact hs

theorem reinsert (hs : S s) (hen : ∀ chunk ∈ snap, ∀ e ∈ chunk.entries, P e.1)
    {deleted' : List SyncPointId} (hr : tx.reinsert s deleted snap = .ok (deleted', tx')) :
    Writes S P tx₀ tx' := by
  induction snap generalizing tx deleted with
  | nil =>
    cases hr
    exact h
  | cons chunk cs ih =>
    obtain ⟨_, -, hr⟩ := bind_eq_ok.mp hr
    obtain ⟨⟨_, _⟩, hi, hr⟩ := bind_eq_ok.mp hr
    exact ih (h.insertChangeset hs (hen chunk mem_cons_self) hi)
      (fun c hc => hen c (mem_cons_of_mem _ hc)) hr

theorem markDeleted (hs : S s) (hm : tx.markDeleted s deleted = .ok tx') : Writes S P tx₀ tx' := by
  induction deleted generalizing tx with
  | nil =>
    cases hm
    exact h
  | cons id deleted ih =>
    obtain ⟨_, -, hm⟩ := bind_eq_ok.mp hm
    exact ih (h.push (.point ⟨s, _, _, _⟩ _) hs) hm

theorem restoreSnapshot (hs : S s) (hen : ∀ chunk ∈ snap, ∀ e ∈ chunk.entries, P e.1)
    (hr : tx.restoreSnapshot s snap = .ok tx') : Writes S P tx₀ tx' := by
  obtain ⟨upper, hra, hu⟩ := s.keyRange_syncPoint
  obtain ⟨⟨_, _⟩, hra', hr⟩ := bind_eq_ok.mp hr
  rw [hra] at hra'
  cases hra'
  obtain ⟨⟨_, _⟩, hsw, hr⟩ := bind_eq_ok.mp hr
  obtain ⟨⟨_, _⟩, hre, hr⟩ := bind_eq_ok.mp hr
  have hke : ∀ key ∈ (sweptRows tx.view s s.syncPoint upper snap).map Prod.fst,
      s.syncPoint <+: key := by
    intro key hk
    obtain ⟨_, hro, rfl⟩ := mem_map.mp hk
    exact (sweptRows_isPrefix hu hro).2
  exact ((h.sweep hs hke hsw).reinsert hs hen hre).markDeleted hs hr

end Writes

/-! ### In the transaction's view each operation does what it does on a store -/

/-- The result of an operation with the transaction replaced by what it sees. -/
def seen {α : Type} (r : α × Tx) : α × Keyspace := (r.1, r.2.view)

variable (tx : Tx)

theorem view_putAtRaw (key v : Bytes) (ts : Version) :
    (tx.putAtRaw key v ts).view = Myrmic.putAtRaw tx.view key v ts := by
  rw [putAtRaw, view_push, view_push]
  rfl

theorem view_eraseAtRaw (key : Bytes) (ts : Version) :
    (tx.eraseAtRaw key ts).view = Myrmic.eraseAtRaw tx.view key ts := view_push ..

theorem view_deleteIndexed (ikeys : List Bytes) :
    (tx.deleteIndexed ikeys).map view = Myrmic.deleteIndexed tx.view ikeys := by
  induction ikeys generalizing tx with
  | nil => rfl
  | cons ikey ikeys ih =>
    rw [deleteIndexed, Myrmic.deleteIndexed]
    cases versionIndexDataKey ikey with
    | error e => rfl
    | ok dataKey =>
      have := ih (tx.push (.unindex ikey dataKey))
      rwa [view_push] at this

theorem view_deleteVersionRows (scopeRaw : Bytes) (ts : Version) :
    (tx.deleteVersionRows scopeRaw ts).map seen = Myrmic.deleteVersionRows tx.view scopeRaw ts := by
  rw [deleteVersionRows, Myrmic.deleteVersionRows, ← view_deleteIndexed]
  cases tx.deleteIndexed ((tx.view.prefixOf (versionIndexPrefix ts scopeRaw)).map Prod.fst) <;> rfl

theorem view_deleteScopeAtVersion (s : Scope) (ts : Version) :
    (tx.deleteScopeAtVersion s ts).map view = Myrmic.deleteScopeAtVersion tx.view s ts := by
  rw [deleteScopeAtVersion, Myrmic.deleteScopeAtVersion, ← view_deleteVersionRows]
  cases tx.deleteVersionRows s.encode ts <;> rfl

theorem view_deleteChunk (p : SyncPoint) :
    (tx.deleteChunk p).map view = Myrmic.deleteChunk tx.view p :=
  view_deleteScopeAtVersion tx p.scope p.ts

theorem view_forgetChunk (p : SyncPoint) :
    (tx.forgetChunk p).map view = Myrmic.forgetChunk tx.view p := by
  rw [forgetChunk, Myrmic.forgetChunk, ← view_deleteChunk]
  cases tx.deleteChunk p with
  | error e => rfl
  | ok tx => exact congrArg Except.ok (view_push ..)

theorem replay_commitPoints (ks : Keyspace) (scopes : List Scope) :
    (tx.commitPoints scopes).map (replay ks)
      = Myrmic.commitPoints tx.view tx.ts tx.id tx.retention ks scopes := by
  induction scopes generalizing ks with
  | nil => rfl
  | cons s scopes ih =>
    rw [commitPoints, Myrmic.commitPoints]
    cases findLastSyncpoint tx.view s none with
    | error e => rfl
    | ok last =>
      dsimp only [bind, Except.bind]
      rw [← ih]
      cases tx.commitPoints scopes <;> rfl

/-- A commit carries out the journal on the store and then leaves the sync points. -/
theorem commit_eq (store : Keyspace) : tx.commit store =
    Myrmic.commitPoints tx.view tx.ts tx.id tx.retention (replay store tx.journal) tx.active := by
  rw [commit, ← replay_commitPoints]
  cases tx.commitPoints tx.active with
  | error e => rfl
  | ok points => exact congrArg Except.ok (replay_append ..)

end Tx
end Tx

end Myrmic
