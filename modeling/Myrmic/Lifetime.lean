import Myrmic.Drain
import Myrmic.Stores

/-!
# Retention and release

Two calls take versions out of a store.  The **garbage collector** purges the versions whose retention
period is over: it deletes the rows of each and leaves its latest head as a deletion.  A **release**
forgets what a drain has handed over: it deletes the rows of each version and the sync point it was
given for it.  Both work in batches, each batch in a transaction of its own.

The collector takes the age of a version as the difference of two clock readings in 64 bits.  A version
stamped by a clock that runs ahead has an age that wraps around to more than a hundred years.  **A
collection at a time only purges versions whose period is truly over exactly when no version from the
future has wrapped to such an age** (`collects_only_expired_iff`).

A release is given the sync points that were held earlier, the newest of each version, while a version
may have several and all of them share its rows.  **A release leaves no sync point of a released version
behind, and every other version as it was, exactly when the versions it is given have no other sync
points by now** (`release_leaves_no_empty_claims_iff`).
-/
namespace Myrmic
open OrderedBytes VersionedCell Fallible List Stores

/-! ## Batches -/

theorem flatten_toChunks_go {α : Type} {n : Nat} (l : List α) (batch : Array α)
    (batches : Array (List α)) : (List.toChunks.go n l batch batches).flatten
      = batches.toList.flatten ++ (batch.toList ++ l) := by
  induction l generalizing batch batches with
  | nil => simp [List.toChunks.go]
  | cons x l ih =>
    rw [List.toChunks.go]
    split
    · rw [ih]
      simp
    · rw [ih]
      simp

theorem flatten_toChunks {α : Type} (n : Nat) (l : List α) : (l.toChunks n).flatten = l := by
  cases l with
  | nil => cases n <;> rfl
  | cons x l =>
    cases n with
    | zero => simp [List.toChunks]
    | succ n => simpa [List.toChunks] using flatten_toChunks_go l #[x] #[]

/-! ## Ages -/

/-- A clock reading as a span: seconds in the upper half, a binary fraction of a second in the
lower. -/
def toDuration (time : UInt64) : Duration where
  secs := time >>> 32
  nanos := UInt32.ofNat (time.toNat % 2 ^ 32 * 1000000000 / 2 ^ 32)
  nanos_lt := by
    have hlt : time.toNat % 2 ^ 32 * 1000000000 / 2 ^ 32 < 1000000000 :=
      Nat.div_lt_of_lt_mul (Nat.mul_lt_mul_of_pos_right (Nat.mod_lt _ (by decide)) (by decide))
    rw [UInt32.toNat_ofNat_of_lt' (Nat.lt_trans hlt (by decide))]
    exact hlt

/-- The age of a sync point's version.  The subtraction wraps around. -/
def durationSince (id : SyncPointId) (now : Version) : Duration := toDuration (now - id.version)

def expired (now : Version) (head : SyncPoint × SyncMeta) : Bool :=
  match head.2.marker, head.2.retentionPeriod with
  | .mutation, some rp => rp.asNanos ≤ (durationSince head.1.asId now).asNanos
  | _, _ => false

variable {now : Version}

theorem expired_eq_true {p : SyncPoint} {m : SyncMeta} :
    expired now (p, m) = true ↔ m.marker = .mutation ∧ ∃ rp, m.retentionPeriod = some rp ∧
      rp.asNanos ≤ (durationSince p.asId now).asNanos := by
  obtain ⟨_, _, marker, ret⟩ := m
  cases marker <;> cases ret <;> simp [expired]

section Calls
variable [Postcard] {ks ks₁ : Keyspace} {tx : Tx} {heads : List (SyncPoint × SyncMeta)} {s : Scope}
  {ids : List SyncPointId}

/-! ## Collecting -/

/-- The bytes every sync point starts with. -/
def syncPointTag : Bytes := lit ['#', '@']

def gcBatch : Nat := 256

/-- Purges one head; a version that cannot be deleted is skipped. -/
def purgeHead (acc : Nat × Tx) (head : SyncPoint × SyncMeta) : Nat × Tx :=
  match acc.2.deleteChunk head.1 with
  | .ok tx => (acc.1 + 1, tx.markSyncpointPurged head.1 head.2)
  | .error _ => acc

/-- Purges a batch of heads in a transaction; when it cannot be committed the collection ends. -/
def purgeBatches (ts : Version) (id : NodeId) (acc : Nat × Keyspace) :
    List (List (SyncPoint × SyncMeta)) → Nat × Keyspace
  | [] => acc
  | batch :: batches =>
    let purged := batch.foldl purgeHead (0, Tx.start acc.2 ts id none)
    match purged.2.commit acc.2 with
    | .ok ks => purgeBatches ts id (acc.1 + purged.1, ks) batches
    | .error _ => acc

/-- Purges the versions whose retention period is over at `now`, and returns how many.  The batches are
written in transactions of the node `id`, begun at `ts`. -/
def performGc (ks : Keyspace) (now ts : Version) (id : NodeId) : Except String (Nat × Keyspace) := do
  let (lower, upper) ← context "unable to construct sync point range" (keyRange syncPointTag)
  let heads ← collectLatestHeads ks lower upper
  let heads := heads.filter (expired now)
  return purgeBatches ts id (0, ks) (heads.toChunks gcBatch)

/-! ## Releasing -/

/-- Forgets one sync point; one that cannot be forgotten is skipped. -/
def releaseId (s : Scope) (acc : Nat × Tx) (id : SyncPointId) : Nat × Tx :=
  match acc.2.forgetChunk (s.withSpId id) with
  | .ok tx => (acc.1 + 1, tx)
  | .error _ => acc

/-- Forgets a batch in a transaction; when it cannot be committed the release ends. -/
def releaseBatches (s : Scope) (ts : Version) (id : NodeId) (acc : Nat × Keyspace) :
    List (List SyncPointId) → Nat × Keyspace
  | [] => acc
  | batch :: batches =>
    let released := batch.foldl (releaseId s) (0, Tx.start acc.2 ts id none)
    match released.2.commit acc.2 with
    | .ok ks => releaseBatches s ts id (acc.1 + released.1, ks) batches
    | .error _ => acc

/-- Releases the sync points a confirmation was about, and returns how many. -/
def releaseScope (ks : Keyspace) (s : Scope) (points : List SyncPointId) (ts : Version)
    (id : NodeId) : Nat × Keyspace :=
  releaseBatches s ts id (0, ks) (points.toChunks releaseBatchSize)

/-! ## What the calls do -/

/-- A transaction that has made no scope active leaves in its snapshot what it sees. -/
theorem Tx.commit_base (h : tx.active = []) : tx.commit tx.base = .ok tx.view := by
  rw [Tx.commit_eq, h]
  rfl

section Batched
variable {α : Type} {P : List α → Keyspace → Prop} {f : Nat × Tx → α → Nat × Tx} {l : List α}
  (hf : ∀ {l tx} n x, P l tx.view → tx.Extends (f (n, tx) x).2 ∧ P (l ++ [x]) (f (n, tx) x).2.view)
include hf

/-- What the transaction sees after a list of items, given what it sees after one more. -/
theorem foldl_keeps (h : P l tx.view) (n : Nat) (batch : List α) :
    tx.Extends (batch.foldl f (n, tx)).2 ∧ P (l ++ batch) (batch.foldl f (n, tx)).2.view := by
  induction batch generalizing l n tx with
  | nil => exact ⟨Tx.Extends.refl tx, by rwa [append_nil]⟩
  | cons x batch ih =>
    obtain ⟨he, hx⟩ := hf n x h
    obtain ⟨he', hb⟩ := ih hx (f (n, tx) x).1
    rw [append_assoc] at hb
    exact ⟨he.trans he', hb⟩

/-- Batches in transactions of their own all commit, and leave what all items leave. -/
theorem batches_keep (run : Nat × Keyspace → List (List α) → Nat × Keyspace) {ts : Version}
    {id : NodeId} (hnil : ∀ acc, run acc [] = acc)
    (hcons : ∀ n ks batch batches ks', (batch.foldl f (0, Tx.start ks ts id none)).2.commit ks =
      .ok ks' → ∃ n', run (n, ks) (batch :: batches) = run (n', ks') batches) (h : P l ks) (n : Nat)
    (batches : List (List α)) : P (l ++ batches.flatten) (run (n, ks) batches).2 := by
  induction batches generalizing l n ks with
  | nil => rwa [hnil, flatten_nil, append_nil]
  | cons batch batches ih =>
    have hs : P l (Tx.start ks ts id none).view := h
    obtain ⟨he, hb⟩ := foldl_keeps hf hs 0 batch
    have hc := Tx.commit_base he.active
    rw [he.base] at hc
    obtain ⟨n', hr⟩ := hcons n ks batch batches _ hc
    rw [hr, flatten_cons, ← append_assoc]
    exact ih hb n'

end Batched

theorem Tx.deleteChunk_spec (h : WellFormed tx.view) (p : SyncPoint) :
    ∃ tx', tx.deleteChunk p = .ok tx' ∧ tx.Extends tx' ∧
      Myrmic.deleteChunk tx.view p = .ok tx'.view := by
  obtain ⟨_, hd, -⟩ := Myrmic.deleteChunk_spec h p
  have hv := Tx.view_deleteChunk tx p
  obtain ⟨tx', htx, rfl⟩ := map_eq_ok.mp (hv.trans hd)
  exact ⟨tx', htx, Tx.Extends.deleteScopeAtVersion (s := p.scope) htx, hd⟩

/-- The store `ks'` is `ks` after the versions of some heads have been purged. -/
structure PurgedFrom (ks : Keyspace) (heads : List (SyncPoint × SyncMeta)) (ks' : Keyspace) :
    Prop where
  wellFormed : WellFormed ks'
  kept : ∀ s v, (∀ head ∈ heads, head.1.scope = s → head.1.ts ≠ v) → AgreeAt s v ks ks'
  marked : ∀ head ∈ heads, ∃ m, metaAt ks' head.1 = some m ∧ m.marker = .deletion

theorem PurgedFrom.purgeHead
    (h : PurgedFrom ks heads tx.view) (n : Nat) (head : SyncPoint × SyncMeta) :
    tx.Extends (purgeHead (n, tx) head).2 ∧
      PurgedFrom ks (heads ++ [head]) (purgeHead (n, tx) head).2.view := by
  obtain ⟨tx₁, hde, hex, hvi⟩ := Tx.deleteChunk_spec h.wellFormed head.1
  obtain ⟨ks', hde', hwf, hme, hro⟩ := Myrmic.deleteChunk_spec h.wellFormed head.1
  obtain rfl : ks' = tx₁.view := Except.ok.inj (hde'.symm.trans hvi)
  have htx : (Myrmic.purgeHead (n, tx) head).2 = tx₁.markSyncpointPurged head.1 head.2 := by
    rw [Myrmic.purgeHead, hde]
  have hma : (tx₁.markSyncpointPurged head.1 head.2).view =
      insertPoint tx₁.view head.1 { head.2 with marker := .deletion } := Tx.view_push ..
  rw [htx, hma]
  refine ⟨hex.trans (Tx.Extends.push ..), hwf.insertPoint _ _, fun s v hne => ?_, ?_⟩
  · refine (h.kept s v fun x hx => hne x (mem_append_left _ hx)).trans ⟨fun p hs hv => ?_, ?_⟩
    · rw [metaAt_insertPoint, if_neg, hme]
      rintro rfl
      exact hne head (mem_append_right _ (mem_singleton_self _)) hs hv
    · intro k kind hk
      have hus := UserKey.of_isPrefix hk
      rw [rowAt_insertPoint hus, hro k v kind hus, if_neg]
      rintro ⟨hs, hv⟩
      exact hne head (mem_append_right _ (mem_singleton_self _))
        (Scope.eq_of_isPrefix hs hk) hv.symm
  · intro x hx
    rw [metaAt_insertPoint]
    split
    · exact ⟨_, rfl, rfl⟩
    · next hne =>
      rcases mem_append.mp hx with hx | hx
      · rw [hme]
        exact h.marked x hx
      · exact absurd (congrArg Prod.fst (mem_singleton.mp hx)).symm hne

omit [Postcard] in
theorem syncPointTag_isPrefix {p : SyncPoint} : syncPointTag <+: p.encode := by
  rw [SyncPoint.encode, Scope.syncPoint, append_assoc, append_assoc]
  exact ⟨_, rfl⟩

/-- **A collection** succeeds; it purges the versions whose latest head has expired. -/
theorem performGc_spec (h : WellFormed ks) {ts : Version} {id : NodeId} :
    ∃ heads n ks', performGc ks now ts id = .ok (n, ks') ∧
      (∀ p m, (p, m) ∈ heads ↔ IsHead ks p m ∧ expired now (p, m) = true) ∧
      PurgedFrom ks heads ks' := by
  obtain ⟨upper, hra, hu⟩ : ∃ upper, keyRange syncPointTag = .ok (syncPointTag, upper) ∧
      prefixUpper syncPointTag = some upper := keyRange_cons (b := '#'.toUInt8) (by decide)
  obtain ⟨heads, hh, hm, -⟩ := collectLatestHeads_region h rfl hu
    fun {_ q} _ _ => syncPointTag_isPrefix
  have hs : PurgedFrom ks [] ks := ⟨h, fun s v _ => AgreeAt.refl s v ks, nofun⟩
  have hp := batches_keep (fun n head h => h.purgeHead n head) (purgeBatches ts id)
    (fun _ => rfl) (fun n ks batch batches ks' hc => ⟨_, by rw [purgeBatches, hc]⟩) hs 0
    ((heads.filter (expired now)).toChunks gcBatch)
  rw [flatten_toChunks, nil_append] at hp
  generalize hr : purgeBatches ts id (0, ks) ((heads.filter (expired now)).toChunks gcBatch) = r
    at hp
  refine ⟨heads.filter (expired now), r.1, r.2, ?_, fun p m => ?_, hp⟩
  · rw [performGc, hra, context_ok]
    simp only [bind, Except.bind, hh, hr]
    rfl
  · rw [mem_filter, hm]
    exact and_congr_left fun _ => and_iff_right syncPointTag_isPrefix

/-! ## Retention never reaches back or early -/

/-- Whatever a collection at `now` changes about a version, the version's latest head is a mutation with
a retention period, and that period has passed since the version's time. -/
def CollectsOnlyExpired (ks : Keyspace) (now : Version) (ks' : Keyspace) : Prop :=
  ∀ s v, ¬ AgreeAt s v ks ks' → ∃ p m rp, p.scope = s ∧ p.ts = v ∧ IsHead ks p m ∧
    m.marker = .mutation ∧ m.retentionPeriod = some rp ∧ v ≤ now ∧
    rp.asNanos ≤ (toDuration (UInt64.ofNat (now.toNat - v.toNat))).asNanos

/-- No live version from the future has a retention period that its wrapped age exceeds. -/
def FutureSpared (ks : Keyspace) (now : Version) : Prop :=
  ∀ p m rp, IsHead ks p m → m.marker = .mutation → m.retentionPeriod = some rp → now < p.ts →
    (durationSince p.asId now).asNanos < rp.asNanos

omit [Postcard] in
theorem durationSince_of_le {id : SyncPointId} (h : id.version ≤ now) :
    durationSince id now = toDuration (UInt64.ofNat (now.toNat - id.version.toNat)) := by
  have hs : now - id.version = UInt64.ofNat (now.toNat - id.version.toNat) := by
    rw [← UInt64.toNat_inj, UInt64.toNat_sub_of_le _ _ h, UInt64.toNat_ofNat_of_lt']
    exact Nat.lt_of_le_of_lt (Nat.sub_le _ _) now.toNat_lt
  rw [durationSince, hs]

/-- **Retention is kept exactly when no version from the future is taken for an old one.** -/
theorem collects_only_expired_iff {st : Stores}
    (h : Machine.Reached Stores.step (Stores.Within UserKey) Stores.fresh st) (now ts : Version)
    (id : NodeId) : ∃ n ks', performGc st.store now ts id = .ok (n, ks') ∧
      (CollectsOnlyExpired st.store now ks' ↔ FutureSpared st.store now) := by
  have hwf := (sound_of_reached (fun _ hk => hk) Location.userKey h).store.wellFormed
  obtain ⟨_, n, ks', hgc, hme, hpu⟩ := performGc_spec hwf
  refine ⟨n, ks', hgc, fun hon p m rp hhe hm hrp hlt => ?_, fun hsp s v hne => ?_⟩
  · -- a head from the future with a wrapped age is purged, which is not permitted
    by_contra hage
    have hex : expired now (p, m) = true := expired_eq_true.mpr ⟨hm, rp, hrp, Nat.not_lt.mp hage⟩
    obtain ⟨_, hm', hde⟩ := hpu.marked (p, m) ((hme p m).mpr ⟨hhe, hex⟩)
    have hch : ¬ AgreeAt p.scope p.ts st.store ks' := by
      intro hag
      rw [hag.points p rfl rfl, hhe.held] at hm'
      cases hm'
      rw [hm] at hde
      cases hde
    obtain ⟨-, -, -, -, -, -, -, -, hle, -⟩ := hon p.scope p.ts hch
    exact absurd hlt (UInt64.not_lt.mpr hle)
  · -- only heads that have expired are touched, and they are not from the future
    by_contra hno
    refine hne (hpu.kept s v fun head hin hs hv => hno ?_)
    obtain ⟨p, m⟩ := head
    obtain ⟨hhe, hex⟩ := (hme p m).mp hin
    obtain ⟨hm, rp, hrp, hage⟩ := expired_eq_true.mp hex
    have hle : p.ts ≤ now := by
      refine UInt64.not_lt.mp fun hlt => ?_
      exact Nat.lt_irrefl _ (Nat.lt_of_lt_of_le (hsp p m rp hhe hm hrp hlt) hage)
    rw [durationSince_of_le hle] at hage
    exact ⟨p, m, rp, hs, hv, hhe, hm, hrp, hv ▸ hle, hv ▸ hage⟩

/-- Where all heads are from the past nothing has wrapped. -/
theorem futureSpared_of_past (h : WellFormed ks) {range : Bytes × Bytes}
    (hr : keyRange syncPointTag = .ok range)
    (hh : collectLatestHeads ks range.1 range.2 = .ok heads)
    (hp : ∀ head ∈ heads, head.1.ts ≤ now) : FutureSpared ks now := by
  intro p m rp hhe _ _ hlt
  obtain ⟨_, _⟩ := range
  obtain ⟨rfl, hu⟩ := keyRange_eq_ok hr
  obtain ⟨_, hh', hm, -⟩ := collectLatestHeads_region h rfl hu
    fun {_ q} _ _ => syncPointTag_isPrefix
  obtain rfl := Except.ok.inj (hh.symm.trans hh')
  have hle := hp (p, m) ((hm p m).mpr ⟨syncPointTag_isPrefix, hhe⟩)
  exact absurd hlt (UInt64.not_lt.mpr hle)

/-! ## Release leaves no empty claims -/

theorem Tx.forgetChunk_spec (h : WellFormed tx.view) (p : SyncPoint) :
    ∃ tx', tx.forgetChunk p = .ok tx' ∧ tx.Extends tx' ∧
      Myrmic.forgetChunk tx.view p = .ok tx'.view := by
  obtain ⟨tx₁, hd, he, -⟩ := Tx.deleteChunk_spec h p
  have htx : tx.forgetChunk p = .ok (tx₁.push (.forget p)) := by
    rw [Tx.forgetChunk, hd]
    rfl
  refine ⟨tx₁.push (.forget p), htx, he.trans (Tx.Extends.push ..), ?_⟩
  rw [← Tx.view_forgetChunk, htx]
  rfl

/-- The store `ks'` is `ks` after some sync points of a scope have been released. -/
structure ReleasedFrom (s : Scope) (ks : Keyspace) (ids : List SyncPointId) (ks' : Keyspace) :
    Prop where
  wellFormed : WellFormed ks'
  points : ∀ q, metaAt ks' q = if q.scope = s ∧ q.asId ∈ ids then none else metaAt ks q
  rows : ∀ k t kind, s.encode <+: k → rowAt ks' k t kind =
    if t ∈ ids.map SyncPointId.version then none else rowAt ks k t kind

theorem ReleasedFrom.releaseId (h : ReleasedFrom s ks ids tx.view) (n : Nat) (id : SyncPointId) :
    tx.Extends (releaseId s (n, tx) id).2 ∧
      ReleasedFrom s ks (ids ++ [id]) (releaseId s (n, tx) id).2.view := by
  obtain ⟨tx₁, hfo, hex, hvi⟩ := Tx.forgetChunk_spec h.wellFormed (s.withSpId id)
  obtain ⟨ks', hfo', hwf, hme, hro⟩ := Myrmic.forgetChunk_spec h.wellFormed (s.withSpId id)
  obtain rfl : ks' = tx₁.view := Except.ok.inj (hfo'.symm.trans hvi)
  have htx : (Myrmic.releaseId s (n, tx) id).2 = tx₁ := by rw [Myrmic.releaseId, hfo]
  rw [htx]
  refine ⟨hex, hwf, fun q => ?_, fun k t kind hk => ?_⟩
  · have hsa : s.withSpId id = q ↔ q.scope = s ∧ q.asId = id := by
      constructor
      · rintro rfl
        exact ⟨rfl, rfl⟩
      · rintro ⟨rfl, rfl⟩
        rfl
    rw [hme, h.points]
    by_cases hq : s.withSpId id = q
    · rw [if_pos hq, if_pos]
      obtain ⟨hs, hid⟩ := hsa.mp hq
      exact ⟨hs, by simp [hid]⟩
    · rw [if_neg hq]
      refine if_congr (and_congr_right fun hs => ?_) rfl rfl
      rw [mem_append, mem_singleton]
      exact ⟨.inl, fun hin => hin.resolve_right fun hid => hq (hsa.mpr ⟨hs, hid⟩)⟩
  · have hve : t ∈ (ids ++ [id]).map SyncPointId.version ↔
        t ∈ ids.map SyncPointId.version ∨ t = id.version := by simp
    rw [hro k t kind (UserKey.of_isPrefix hk), h.rows k t kind hk]
    by_cases ht : t = id.version
    · rw [if_pos ⟨hk, ht⟩, if_pos (hve.mpr (.inr ht))]
    · rw [if_neg fun hc => ht hc.2]
      refine if_congr ?_ rfl rfl
      exact ⟨fun hin => hve.mpr (.inl hin), fun hin => (hve.mp hin).resolve_right ht⟩

/-- **A release** takes the sync points it is given and all rows of their versions. -/
theorem releaseScope_spec (h : WellFormed ks) (s : Scope) (points : List SyncPointId) (ts : Version)
    (id : NodeId) : ReleasedFrom s ks points (releaseScope ks s points ts id).2 := by
  have hs : ReleasedFrom s ks [] ks := ⟨h, fun q => by simp, fun k t kind _ => by simp⟩
  have hr := batches_keep (fun n id h => h.releaseId n id) (releaseBatches s ts id)
    (fun _ => rfl) (fun n ks batch batches ks' hc => ⟨_, by rw [releaseBatches, hc]⟩) hs 0
    (points.toChunks releaseBatchSize)
  rwa [flatten_toChunks, nil_append] at hr

/-- In the transaction's view releasing one sync point does what a drain's step does on the store. -/
theorem view_releaseId (s : Scope) (n : Nat) (tx : Tx) (id : SyncPointId) :
    tx.Extends (releaseId s (n, tx) id).2 ∧
      (releaseId s (n, tx) id).2.view = releasePoint s tx.view id := by
  have hv := Tx.view_forgetChunk tx (s.withSpId id)
  unfold releaseId releasePoint
  cases hfo : tx.forgetChunk (s.withSpId id) with
  | error e =>
    rw [hfo] at hv
    rw [← hv]
    exact ⟨.refl tx, rfl⟩
  | ok tx' =>
    rw [hfo] at hv
    rw [← hv]
    obtain ⟨tx₁, hd, hp⟩ := bind_eq_ok.mp hfo
    cases hp
    exact ⟨(Tx.Extends.deleteScopeAtVersion (s := s) hd).trans (.push ..), rfl⟩

/-- **The release of a drain is this one**: the drain takes its batches in steps of their own, with other
steps of the node between them, and where there are none the whole leaves what they leave. -/
theorem releaseScope_eq_releaseBatch (ks : Keyspace) (s : Scope) (points : List SyncPointId)
    (ts : Version) (id : NodeId) :
    (releaseScope ks s points ts id).2 = releaseBatch s ks points := by
  have hr := batches_keep (P := fun l ks' => ks' = releaseBatch s ks l) (f := releaseId s)
    (fun {l tx} n x h => by
      obtain ⟨he, hv⟩ := view_releaseId s n tx x
      refine ⟨he, hv.trans ?_⟩
      rw [h, releaseBatch, releaseBatch, foldl_append]
      rfl)
    (releaseBatches s ts id) (fun _ => rfl)
    (fun n ks batch batches ks' hc => ⟨_, by rw [releaseBatches, hc]⟩) (l := []) rfl 0
    (points.toChunks releaseBatchSize)
  rwa [flatten_toChunks, nil_append] at hr

/-- No sync point of a released version remains, and every mutation that remains is served as
before. -/
structure LeavesNoEmptyClaims (s : Scope) (points : List SyncPointId) (ks ks' : Keyspace) : Prop where
  gone : ∀ p m, p.scope = s → metaAt ks' p = some m → p.ts ∉ points.map SyncPointId.version
  served : ∀ p m, p.scope = s → metaAt ks' p = some m → m.marker = .mutation →
    changesetFor ks' p = changesetFor ks p

/-- The sync points named are all that the store holds of their versions. -/
def NamesAll (s : Scope) (points : List SyncPointId) (ks : Keyspace) : Prop :=
  ∀ p m, p.scope = s → metaAt ks p = some m → p.ts ∈ points.map SyncPointId.version →
    p.asId ∈ points

/-- **A release leaves no empty claims exactly when it names all sync points of its versions.** -/
theorem release_leaves_no_empty_claims_iff {st₀ st : Stores} {s : Scope}
    (hearlier : Machine.Reached Stores.step (Stores.Within UserKey) Stores.fresh st₀)
    (hsince : Machine.Reached Stores.step (Stores.Within UserKey) st₀ st) (ts : Version)
    (id : NodeId) : LeavesNoEmptyClaims s (heldSyncPoints st₀.store s) st.store
      (releaseScope st.store s (heldSyncPoints st₀.store s) ts id).2 ↔
    NamesAll s (heldSyncPoints st₀.store s) st.store := by
  have hso := sound_of_reached (fun _ hk => hk) Location.userKey (hearlier.trans hsince)
  have hwf := hso.store.wellFormed
  have hre := releaseScope_spec hwf s (heldSyncPoints st₀.store s) ts id
  generalize heldSyncPoints st₀.store s = points at hre
  generalize (releaseScope st.store s points ts id).2 = ks' at hre
  constructor
  · intro hcl p m hs hp hv
    by_contra hno
    refine hcl.gone p m hs ?_ hv
    rw [hre.points, if_neg fun hc => hno hc.2]
    exact hp
  · intro hal
    have hgo : ∀ p m, p.scope = s → metaAt ks' p = some m →
        p.ts ∉ points.map SyncPointId.version := by
      intro p m hs hp hv
      rw [hre.points] at hp
      split at hp
      · cases hp
      · next hne => exact hne ⟨hs, hal p m hs hp hv⟩
    refine ⟨hgo, fun p m hs hp _ => ?_⟩
    -- the rows of a version that keeps a sync point have not been touched
    refine changesetFor_congr hwf hre.wellFormed fun k kind hk => ?_
    rw [hre.rows k p.ts kind (hs ▸ hk), if_neg (hgo p m hs hp)]

end Calls

/-! ## Runs with a clock ahead and with two epochs -/

section Samples
open Sample

def second : UInt64 := 0x100000000

def hour : Duration := ⟨3600, 0, by decide⟩

/-- A chunk of a version with a retention period of an hour. -/
def recordRetained (i : Nat) (ts epoch : Version) : List Stores.Action :=
  [.start i epoch (node 1) none,
    .call i (.insertChangeset ⟨scope, ts, epoch, node 2⟩ ⟨none, none, .mutation, some hour⟩
      [(scope.encode ++ kv 'a', some [1])]),
    .commit i]

theorem reached_oneKey {start st : Stores} (h : Machine.Reached step
    (Stores.Within (· = scope.encode ++ kv 'a')) start st) :
    Machine.Reached step (Stores.Within UserKey) start st :=
  reached_mono (fun _ hk => hk ▸ UserKey.of_scope) h

/-- An hour after the version's time the version is purged, as it should be. -/
theorem collects_after_an_hour : ∃ st,
    Machine.Reached Stores.step (Stores.Within UserKey) Stores.fresh st ∧
    ∃ n ks', performGc st.store (second * 4000) 0 (node 1) = .ok (n, ks') ∧
      CollectsOnlyExpired st.store (second * 4000) ks' ∧ metaAt ks' ⟨scope, second, second, node 2⟩
        = some ⟨none, none, .deletion, some hour⟩ := by
  obtain ⟨st, ⟨n, ks'⟩, hre, hgc, hpu, range, hra, heads, hhe, hpa⟩ : ∃ st r,
      Machine.Reached step (Stores.Within (· = scope.encode ++ kv 'a')) fresh st ∧
      (performGc st.store (second * 4000) 0 (node 1)).toOption = some r ∧
      metaAt r.2 ⟨scope, second, second, node 2⟩ = some ⟨none, none, .deletion, some hour⟩ ∧
      ∃ range ∈ (keyRange syncPointTag).toOption,
        ∃ heads ∈ (collectLatestHeads st.store range.1 range.2).toOption,
          ∀ head ∈ heads, head.1.ts ≤ second * 4000 :=
    Machine.exists_reached_some (recordRetained 0 second second) (by decide +kernel)
  rw [toOption_eq_some] at hgc
  rw [Option.mem_def, toOption_eq_some] at hra hhe
  have hwi := reached_oneKey hre
  obtain ⟨_, _, hgc', hif⟩ := collects_only_expired_iff hwi (second * 4000) 0 (node 1)
  obtain ⟨rfl, rfl⟩ := Prod.mk.inj (Except.ok.inj (hgc.symm.trans hgc'))
  refine ⟨st, hwi, n, ks', hgc, hif.mpr ?_, hpu⟩
  have hwf := (sound_of_reached (fun _ hk => hk) Location.userKey hwi).store.wellFormed
  exact futureSpared_of_past hwf hra hhe hpa

/-- A version that a clock ahead has stamped is purged before its time has come. -/
theorem collects_from_the_future : ∃ st,
    Machine.Reached Stores.step (Stores.Within UserKey) Stores.fresh st ∧
    ∃ n ks', performGc st.store second 0 (node 1) = .ok (n, ks') ∧
      ¬ CollectsOnlyExpired st.store second ks' := by
  obtain ⟨st, ⟨n, ks'⟩, hre, hgc, hbe, haf⟩ : ∃ st r,
      Machine.Reached step (Stores.Within (· = scope.encode ++ kv 'a')) fresh st ∧
      (performGc st.store second 0 (node 1)).toOption = some r ∧
      metaAt st.store ⟨scope, second * 2, second * 2, node 2⟩
        = some ⟨none, none, .mutation, some hour⟩ ∧
      metaAt r.2 ⟨scope, second * 2, second * 2, node 2⟩
        = some ⟨none, none, .deletion, some hour⟩ :=
    Machine.exists_reached_some (recordRetained 0 (second * 2) (second * 2)) (by decide +kernel)
  rw [toOption_eq_some] at hgc
  refine ⟨st, reached_oneKey hre, n, ks', hgc, fun hon => ?_⟩
  have hch : ¬ AgreeAt scope (second * 2) st.store ks' := by
    intro hag
    have hsa := hag.points ⟨scope, second * 2, second * 2, node 2⟩ rfl rfl
    rw [hbe, haf] at hsa
    cases hsa
  obtain ⟨-, -, -, -, -, -, -, -, hle, -⟩ := hon scope (second * 2) hch
  exact absurd hle (by decide)

def commitKey (i : Nat) (ts : Version) : List Stores.Action :=
  [.start i ts (node 1) none, .call i (.writeScope scope),
    .call i (.put (.data scope (.kv nameA)) [1]), .commit i]

/-- What was held before a second commit is released, and the second commit stays. -/
theorem release_spares_later_commit : ∃ st₀ st,
    Machine.Reached Stores.step (Stores.Within UserKey) Stores.fresh st₀ ∧
    Machine.Reached Stores.step (Stores.Within UserKey) st₀ st ∧
    heldSyncPoints st₀.store scope = [⟨7, 7, node 1⟩] ∧
    (∃ m, metaAt st.store ⟨scope, 9, 9, node 1⟩ = some m) ∧
    LeavesNoEmptyClaims scope [⟨7, 7, node 1⟩] st.store
      (releaseScope st.store scope [⟨7, 7, node 1⟩] 0 (node 1)).2 := by
  obtain ⟨st₀, hre, hhe, hst⟩ : ∃ st₀,
      Machine.Reached step (Stores.Within (· = scope.encode ++ kv 'a')) fresh st₀ ∧
      heldSyncPoints st₀.store scope = [⟨7, 7, node 1⟩] ∧
      (Machine.runAllowed step (Stores.Within (· = scope.encode ++ kv 'a')) st₀
        (commitKey 1 9)).any (fun st : Stores => (metaAt st.store ⟨scope, 9, 9, node 1⟩).isSome ∧
          ∃ range ∈ (keyRange scope.syncPoint).toOption,
            ∃ points ∈ (findSyncPoints st.store range.1 range.2).toOption,
              ∀ point ∈ points, point.1.ts = 7 → point.1.asId = ⟨7, 7, node 1⟩) = true :=
    Machine.exists_reached (commitKey 0 7) (by decide +kernel)
  obtain ⟨st, hsi, hla, range, hra, points, hpo, hon⟩ := Machine.exists_reached _ hst
  rw [Option.isSome_iff_exists] at hla
  rw [Option.mem_def, toOption_eq_some] at hra hpo
  have hea := reached_oneKey hre
  have hsi := reached_oneKey hsi
  refine ⟨st₀, st, hea, hsi, hhe, hla, ?_⟩
  have hif := release_leaves_no_empty_claims_iff (s := scope) hea hsi 0 (node 1)
  rw [hhe] at hif
  refine hif.mpr fun p m hs hp hv => ?_
  have hwf := (sound_of_reached (fun _ hk => hk) Location.userKey (hea.trans hsi)).store.wellFormed
  obtain ⟨_, _, L, hra', hfi, hme, -⟩ := findSyncPoints_spec hwf scope
  rw [hra] at hra'
  cases hra'
  obtain rfl := Except.ok.inj (hpo.symm.trans hfi)
  have hid := hon (p, m) ((hme p m).mpr ⟨hs, hp⟩) (by simpa using hv)
  exact mem_singleton.mpr hid

/-- A version that a second node has stamped again keeps its first sync point, without its rows. -/
theorem release_leaves_older_epoch : ∃ st,
    Machine.Reached Stores.step (Stores.Within UserKey) Stores.fresh st ∧
    ¬ LeavesNoEmptyClaims scope (heldSyncPoints st.store scope) st.store
      (releaseScope st.store scope (heldSyncPoints st.store scope) 0 (node 1)).2 := by
  obtain ⟨st, m, hr, hm, id, hid, hv⟩ : ∃ st m,
      Machine.Reached step (Stores.Within (· = scope.encode ++ kv 'a')) fresh st ∧
      metaAt (releaseScope st.store scope (heldSyncPoints st.store scope) 0 (node 1)).2
        ⟨scope, 7, 7, node 1⟩ = some m ∧
      ∃ id ∈ heldSyncPoints st.store scope, id.version = 7 :=
    Machine.exists_reached_some (commitKey 0 7 ++ recordRetained 1 7 8) (by decide +kernel)
  refine ⟨st, reached_oneKey hr, fun hc => ?_⟩
  exact hc.gone ⟨scope, 7, 7, node 1⟩ m rfl hm (mem_map.mpr ⟨id, hid, hv⟩)

end Samples

end Myrmic
