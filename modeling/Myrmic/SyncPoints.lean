import Myrmic.Rows

/-!
# Sync points and changesets

A commit leaves one sync point per scope it wrote.  Everything replication, snapshots, retention and
release do goes through the operations of this module: listing sync points, reporting the **latest
head** of each version (only its newest epoch counts), reading a version's **changeset** back from
the version index, recording a replicated version, and removing one.

All functions are the transaction's own, as functions from the rows the transaction sees to the rows
it leaves; a failure leaves none.
-/
namespace Myrmic
open OrderedBytes Fallible

/-! ## The rows of a version -/

/-- Removes the data rows a list of index rows points at, and the index rows. -/
def deleteIndexed (ks : Keyspace) : List Bytes → Except String Keyspace
  | [] => .ok ks
  | ikey :: ikeys => do
    let dataKey ← versionIndexDataKey ikey
    deleteIndexed ((ks.erase dataKey).erase ikey) ikeys

/-- Deletes every data row of a scope at exactly one version, returning how many there were. -/
def deleteVersionRows (ks : Keyspace) (scopeRaw : Bytes) (ts : Version) :
    Except String (Nat × Keyspace) := do
  let indexKeys := (ks.prefixOf (versionIndexPrefix ts scopeRaw)).map Prod.fst
  let ks ← deleteIndexed ks indexKeys
  return (indexKeys.length, ks)

def deleteScopeAtVersion (ks : Keyspace) (s : Scope) (ts : Version) : Except String Keyspace := do
  let (_, ks) ← deleteVersionRows ks s.encode ts
  return ks

/-- Reads the rows a list of index rows points at, one entry per run of one user key. -/
def changesetRows (ks : Keyspace) (prev : Option Bytes) :
    List Bytes → Except String (List (Bytes × Option Bytes))
  | [] => .ok []
  | ikey :: ikeys => do
    let dataKey ← versionIndexDataKey ikey
    let (userKey, _, kind) ← decode dataKey
    -- a deletion sorts before an insertion of the same key, so the first marker wins
    if prev = some userKey then changesetRows ks prev ikeys
    else
      let value ← match kind with
        | .insertion => do
          let value ← contextNone "version index points at a missing data row" ks[dataKey]?
          pure (some value)
        | .deletion => pure none
      let rest ← changesetRows ks (some userKey) ikeys
      return (userKey, value) :: rest

/-- The changes one version made to its scope. -/
def changesetFor (ks : Keyspace) (p : SyncPoint) : Except String (List (Bytes × Option Bytes)) :=
  changesetRows ks none ((ks.prefixOf (versionIndexPrefix p.ts p.scope.encode)).map Prod.fst)

/-- The last sync point of a scope, or of one version of it. -/
def findLastSyncpoint (ks : Keyspace) (s : Scope) (ts : Option Version) :
    Except String (Option SyncPointId) :=
  let key := match ts with
    | some ts => s.syncPointAt ts
    | none => s.syncPoint
  match (ks.prefixOf key).getLast? with
  | none => .ok none
  | some row => do
    let sp ← SyncPoint.decodeFromBytes row.1
    return some sp.asId

def deleteChunk (ks : Keyspace) (p : SyncPoint) : Except String Keyspace := do
  let (_, ks) ← deleteVersionRows ks p.scope.encode p.ts
  return ks

/-- Forgets a sync point outright, its rows and the point itself, leaving no marker behind. -/
def forgetChunk (ks : Keyspace) (p : SyncPoint) : Except String Keyspace := do
  let ks ← deleteChunk ks p
  return ks.erase p.encode

/-- Writes one entry of a changeset at its version. -/
def applyEntry (ts : Version) (ks : Keyspace) (entry : Bytes × Option Bytes) : Keyspace :=
  match entry.2 with
  | some value => insertAtRaw ks entry.1 value ts
  | none => eraseAtRaw ks entry.1 ts

def containsKey (ks : Keyspace) (key : Bytes) : Bool := !(ks.prefixOf key).isEmpty

variable {ikeys : List Bytes}

/-! ### Which rows go -/

theorem lookup_deleteIndexed {ks ks' : Keyspace}
    (h : deleteIndexed ks ikeys = .ok ks') (a : Bytes) :
    ks'[a]? = if a ∈ ikeys ∨ ∃ ikey ∈ ikeys, versionIndexDataKey ikey = .ok a then none
      else ks[a]? := by
  induction ikeys generalizing ks with
  | nil =>
    cases h
    simp
  | cons ikey ikeys ih =>
    simp only [deleteIndexed, bind_eq_ok] at h
    obtain ⟨dataKey, hd, h⟩ := h
    rw [ih h]
    by_cases hre : a ∈ ikeys ∨ ∃ ikey ∈ ikeys, versionIndexDataKey ikey = .ok a
    · rw [if_pos hre, if_pos]
      rcases hre with hme | ⟨i, hi, hdat⟩
      · exact .inl (List.mem_cons_of_mem _ hme)
      · exact .inr ⟨i, List.mem_cons_of_mem _ hi, hdat⟩
    · rw [if_neg hre, Store.lookup_erase, Store.lookup_erase]
      by_cases hik : ikey = a
      · rw [if_pos hik, if_pos (.inl (hik ▸ List.mem_cons_self))]
      · by_cases hda : dataKey = a
        · rw [if_neg hik, if_pos hda, if_pos (.inr ⟨ikey, List.mem_cons_self, hda ▸ hd⟩)]
        · rw [if_neg hik, if_neg hda, if_neg]
          rintro (hme | ⟨i, hi, hdat⟩)
          · rcases List.mem_cons.mp hme with he | hme
            · exact hik he.symm
            · exact hre (.inl hme)
          · rcases List.mem_cons.mp hi with rfl | hi
            · rw [hd] at hdat
              exact hda (Except.ok.inj hdat)
            · exact hre (.inr ⟨i, hi, hdat⟩)

theorem deleteIndexed_ok (ks : Keyspace)
    (h : ∀ ikey ∈ ikeys, 9 ≤ ikey.length) : ∃ ks', deleteIndexed ks ikeys = .ok ks' := by
  induction ikeys generalizing ks with
  | nil => exact ⟨ks, rfl⟩
  | cons ikey ikeys ih =>
    have hl := h ikey List.mem_cons_self
    simp only [deleteIndexed, versionIndexDataKey, if_neg (Nat.not_lt.mpr hl)]
    exact ih _ fun i hi => h i (List.mem_cons_of_mem _ hi)

theorem exists_of_versionIndexPrefix {t : Version} {raw a : Bytes}
    (h : versionIndexPrefix t raw <+: a) : ∃ d, a = versionIndexKey t d ∧ raw <+: d := by
  obtain ⟨x, rfl⟩ := h
  exact ⟨raw ++ x, by simp [versionIndexPrefix, versionIndexKey], x, rfl⟩

/-- **Deleting a version.**  In any store, deleting a scope's rows at a version succeeds; it removes
the index rows of that scope and version and the data rows they point at, and nothing else. -/
theorem deleteVersionRows_spec (ks : Keyspace) (raw : Bytes) (ts : Version) :
    ∃ n ks', deleteVersionRows ks raw ts = .ok (n, ks') ∧ ∀ a : Bytes,
      ks'[a]? = if (raw <+: a ∧ versionIndexKey ts a ∈ ks) ∨ versionIndexPrefix ts raw <+: a
        then none else ks[a]? := by
  obtain ⟨ikeys, hik⟩ : ∃ l, l = (ks.prefixOf (versionIndexPrefix ts raw)).map Prod.fst := ⟨_, rfl⟩
  have hme : ∀ ikey, ikey ∈ ikeys ↔ ikey ∈ ks ∧ versionIndexPrefix ts raw <+: ikey := by
    intro ikey
    simp only [hik, List.mem_map, Store.mem_prefixOf, Store.mem_iff_exists_lookup]
    constructor
    · rintro ⟨⟨k, v⟩, ⟨hge, hpr⟩, rfl⟩
      exact ⟨⟨v, hge⟩, hpr⟩
    · rintro ⟨⟨v, hge⟩, hpr⟩
      exact ⟨(ikey, v), ⟨hge, hpr⟩, rfl⟩
  have hle : ∀ ikey ∈ ikeys, 9 ≤ ikey.length := by
    intro ikey hi
    have := ((hme ikey).mp hi).2.length_le
    simp only [versionIndexPrefix, versionIndexKey, List.length_cons, List.length_append,
      length_be64] at this
    omega
  obtain ⟨ks', hks'⟩ := deleteIndexed_ok ks hle
  refine ⟨ikeys.length, ks', ?_, fun a => ?_⟩
  · simp only [deleteVersionRows]
    rw [← hik, hks']
    rfl
  · rw [lookup_deleteIndexed hks' a]
    -- an index row of the range points at `a` exactly when it is the index row of `a`
    have hpo : (∃ ikey ∈ ikeys, versionIndexDataKey ikey = .ok a) ↔
        raw <+: a ∧ versionIndexKey ts a ∈ ks := by
      constructor
      · rintro ⟨ikey, hi, hda⟩
        obtain ⟨hso, hpr⟩ := (hme ikey).mp hi
        obtain ⟨d, rfl, hd⟩ := exists_of_versionIndexPrefix hpr
        rw [versionIndexDataKey_versionIndexKey] at hda
        cases hda
        exact ⟨hd, hso⟩
      · rintro ⟨hd, hso⟩
        refine ⟨versionIndexKey ts a, (hme _).mpr ⟨hso, ?_⟩, by simp⟩
        exact versionIndexPrefix_isPrefix.mpr ⟨rfl, hd⟩
    by_cases hp : raw <+: a ∧ versionIndexKey ts a ∈ ks
    · rw [if_pos (Or.inr (hpo.mpr hp)), if_pos (Or.inl hp)]
    · by_cases hpr : versionIndexPrefix ts raw <+: a
      · rw [if_pos (Or.inr hpr)]
        cases hge : ks[a]? with
        | none => split <;> rfl
        | some v => rw [if_pos (Or.inl ((hme a).mpr ⟨Store.mem_of_lookup hge, hpr⟩))]
      · rw [if_neg, if_neg (not_or.mpr ⟨hp, hpr⟩)]
        rintro (hi | hi)
        · exact hpr ((hme a).mp hi).2
        · exact hp (hpo.mp hi)

variable [Postcard]

def insertPoint (ks : Keyspace) (p : SyncPoint) (sm : SyncMeta) : Keyspace :=
  ks.insert p.encode (Postcard.toAllocvec sm)

/-! ## Listing sync points -/

def readSyncPoint (row : Bytes × Bytes) : Except String (SyncPoint × SyncMeta) := do
  let sp ← context "unable to decode sync point from user key" (SyncPoint.decodeFromBytes row.1)
  let sm ← context "unable to deser meta" (Postcard.fromBytes row.2)
  return (sp, sm)

/-- The sync points of a key range, oldest first. -/
def findSyncPoints (ks : Keyspace) (lower upper : Bytes) :
    Except String (List (SyncPoint × SyncMeta)) :=
  (ks.rangeOf lower upper).mapM readSyncPoint

def readSyncPointRev (row : Bytes × Bytes) : Except String (SyncPoint × SyncMeta) := do
  let sp ← SyncPoint.decodeFromBytes row.1
  let sm ← Postcard.fromBytes row.2
  return (sp, sm)

/-- The sync points of a key range, newest first. -/
def findSyncPointsRev (ks : Keyspace) (lower upper : Bytes) :
    Except String (List (SyncPoint × SyncMeta)) :=
  (ks.rangeOf lower upper).reverse.mapM readSyncPointRev

/-- Walks sync points newest first and reports one per version: points that differ from the current
one in their epoch or node only are skipped. -/
def latestHeads : Option (SyncPoint × SyncMeta) → List (SyncPoint × SyncMeta) →
    List (SyncPoint × SyncMeta)
  | none, [] => []
  | some current, [] => [current]
  | none, sp :: sps => latestHeads (some sp) sps
  | some current, sp :: sps =>
    if current.1.ts = sp.1.ts ∧ current.1.scope = sp.1.scope then latestHeads (some current) sps
    else current :: latestHeads (some sp) sps

/-- The latest head of every version in a key range, newest version first. -/
def collectLatestHeads (ks : Keyspace) (lower upper : Bytes) :
    Except String (List (SyncPoint × SyncMeta)) := do
  return latestHeads none (← findSyncPointsRev ks lower upper)

/-! ## Recording versions -/

/-- Records a replicated version, reporting whether it wrote anything: a sync point the store already
holds is skipped, and a deletion marker erases the version's rows. -/
def insertChangeset (ks : Keyspace) (p : SyncPoint) (sm : SyncMeta)
    (entries : List (Bytes × Option Bytes)) : Except String (Bool × Keyspace) :=
  if containsKey ks p.encode then .ok (false, ks)
  else
    let ks := insertPoint ks p sm
    match sm.marker with
    | .deletion => do
      let ks ← deleteScopeAtVersion ks p.scope p.ts
      return (true, ks)
    | .mutation => .ok (true, entries.foldl (applyEntry p.ts) ks)

/-- Re-marks a purged sync point as a deletion. -/
def markSyncpointPurged (ks : Keyspace) (p : SyncPoint) (sm : SyncMeta) : Keyspace :=
  insertPoint ks p { sm with marker := .deletion }

end Myrmic
