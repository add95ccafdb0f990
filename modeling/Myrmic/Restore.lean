import Myrmic.Operations

/-!
# What a restore does

A restore works in three passes, and each has a specification here in terms of versions:

* the **sweep** removes the swept sync points and every row of their versions;
* **re-recording** takes, for each version, the first chunk the snapshot lists for it, because the
  sync point that chunk leaves makes every later chunk of the version a duplicate;
* the **marking** overwrites the metadata at the versions of swept sync points that no chunk's exact
  id stood for, whatever the second pass had recorded there.
-/
namespace Myrmic
open OrderedBytes VersionedCell Fallible List
variable {p : SyncPoint} {chunk : Chunk} {m : SyncMeta}

/-! ## Taking a snapshot -/

section Take
variable [Postcard] {ks : Keyspace} {s : Scope}

/-- A chunk that stands for a sync point of the store: its metadata, and for a mutation the
changeset. -/
structure IsChunk (ks : Keyspace) (s : Scope) (chunk : Chunk) : Prop where
  held : metaAt ks (s.withSpId chunk.id) = some chunk.syncMeta
  deletion : chunk.syncMeta.marker = .deletion → chunk.entries = []
  mutation : chunk.syncMeta.marker = .mutation →
    changesetFor ks (s.withSpId chunk.id) = .ok chunk.entries

variable (h : WellFormed ks)
include h

theorem chunkOf_spec (hp : metaAt ks p = some m) :
    ∃ chunk, chunkOf ks (p, m) = .ok chunk ∧ chunk.id = p.asId ∧ IsChunk ks p.scope chunk := by
  obtain ⟨es, he, -⟩ := changesetFor_describes h p
  cases hm : m.marker with
  | deletion =>
    refine ⟨⟨p.asId, m, []⟩, by simp [chunkOf, hm, bind, Except.bind, pure, Except.pure], rfl,
      hp, fun _ => rfl, fun hmu => ?_⟩
    rw [hm] at hmu
    cases hmu
  | mutation =>
    refine ⟨⟨p.asId, m, es⟩, ?_, rfl, hp, fun hd => ?_, fun _ => he⟩
    · simp [chunkOf, hm, he, bind, Except.bind, pure, Except.pure]
    · rw [hm] at hd
      cases hd

/-- The entries of a store's chunk are keys of the scope, and for a mutation they describe the
store's cells at the version. -/
theorem IsChunk.describes (hc : IsChunk ks s chunk) (hm : chunk.syncMeta.marker = .mutation) :
    Describes s chunk.entries fun k => cell ks k chunk.id.version := by
  obtain ⟨_, he, hd⟩ := changesetFor_describes h (s.withSpId chunk.id)
  rw [hc.mutation hm] at he
  cases he
  exact hd

theorem IsChunk.entriesIn (hc : IsChunk ks s chunk) : EntriesIn s chunk.entries := by
  cases hm : chunk.syncMeta.marker with
  | deletion =>
    rw [EntriesIn, hc.deletion hm]
    simp
  | mutation => exact (hc.describes h hm).inScope

/-- **Taking a snapshot** succeeds and lists a chunk for exactly the held sync points, in order. -/
theorem takeSnapshot_spec (s : Scope) :
    ∃ snap, takeSnapshot ks s = .ok snap ∧ (∀ chunk ∈ snap, IsChunk ks s chunk) ∧
      (∀ id m, metaAt ks (s.withSpId id) = some m → ∃ chunk ∈ snap, chunk.id = id) ∧
      snap.Pairwise fun a b => (s.withSpId a.id).Before (s.withSpId b.id) := by
  obtain ⟨_, _, L, hra, hfi, hme, hso⟩ := findSyncPoints_spec h s
  have hch : ∀ {x}, x ∈ L → ∃ chunk, chunkOf ks x = .ok chunk ∧ chunk.id = x.1.asId ∧
      x.1.scope = s ∧ IsChunk ks s chunk := by
    intro x hx
    obtain ⟨hs, hm⟩ := (hme x.1 x.2).mp hx
    obtain ⟨chunk, hc, hid, his⟩ := chunkOf_spec h hm
    exact ⟨chunk, hc, hid, hs, hs ▸ his⟩
  obtain ⟨snap, hsn⟩ := mapM_ok fun x hx => (hch hx).imp fun _ hc => hc.1
  refine ⟨snap, ?_, fun chunk hc => ?_, fun id m hid => ?_, ?_⟩
  · simp [takeSnapshot, hra, hfi, hsn, bind, Except.bind]
  · obtain ⟨x, hx, hcx⟩ := (mem_of_mapM hsn).mp hc
    obtain ⟨_, hc', -, -, his⟩ := hch hx
    rw [hcx] at hc'
    cases hc'
    exact his
  · obtain ⟨chunk, hc, hid', -, -⟩ := hch ((hme _ m).mpr ⟨rfl, hid⟩)
    exact ⟨chunk, (mem_of_mapM hsn).mpr ⟨_, (hme _ m).mpr ⟨rfl, hid⟩, hc⟩, hid'⟩
  · refine pairwise_of_mapM hsn hso fun {x x' y y'} hx hx' hy hy' hlt => ?_
    obtain ⟨c, hc, hid, hs, -⟩ := hch hx
    obtain ⟨_, hc', hid', hs', -⟩ := hch hx'
    rw [hy] at hc
    rw [hy'] at hc'
    cases hc
    cases hc'
    rwa [hid, hid', ← hs, Scope.withSpId_asId, hs, ← hs', Scope.withSpId_asId]

end Take

/-! ## The sweep -/

variable [Postcard] {ks : Keyspace} {s : Scope} {upper : Bytes}

omit [Postcard] in
theorem sweptRows_isPrefix (hup : prefixUpper s.syncPoint = some upper)
    {snap : Snapshot} {row : Bytes × Bytes}
    (hr : row ∈ sweptRows ks s s.syncPoint upper snap) :
    ks[row.1]? = some row.2 ∧ s.syncPoint <+: row.1 := by
  unfold sweptRows at hr
  split at hr
  · next parent _ =>
    have hm := mem_of_mem_drop hr
    rw [Store.rangeOf, Store.mem_scan, Bool.and_eq_true, beq_iff_eq] at hm
    obtain ⟨hg, hle, hlt⟩ := hm
    refine ⟨hg, (isPrefix_iff_range _ _).mpr ⟨?_, fun u hu => ?_⟩⟩
    · have hs : s.syncPoint <+: (s.withSpId parent).encode := prefix_append _ _
      exact Std.TransCmp.isLE_trans ((isPrefix_iff_range _ _).mp hs).1 hle
    · rw [hup] at hu
      exact Option.some.inj hu ▸ hlt
  · rw [Store.rangeOf_eq_prefixOf hup] at hr
    exact Store.mem_prefixOf.mp hr

variable (h : WellFormed ks) {snap : Snapshot} {v : Version} {q : SyncPoint} {last : Chunk}
include h

theorem sweptRows_eq (hr : keyRange s.syncPoint = .ok (s.syncPoint, upper))
    (hu : prefixUpper s.syncPoint = some upper) :
    (sweptRows ks s s.syncPoint upper snap).map Prod.fst =
      (sweptPoints ks s snap).map SyncPoint.encode := by
  rw [sweptPoints, hr]
  dsimp only
  have hd : ∀ row ∈ sweptRows ks s s.syncPoint upper snap, ∃ p, row.1 = SyncPoint.encode p := by
    intro row hro
    obtain ⟨hg, x, hx⟩ := sweptRows_isPrefix hu hro
    obtain ⟨p, -, hp, -⟩ := h.points row.1 row.2 hg (by
      rw [← hx]
      rfl)
    exact ⟨p, hp⟩
  generalize sweptRows ks s s.syncPoint upper snap = rows at hd
  induction rows with
  | nil => rfl
  | cons row rows ih =>
    obtain ⟨p, hp⟩ := hd row mem_cons_self
    have ih := ih fun row' hro' => hd row' (mem_cons_of_mem _ hro')
    simp [hp, Except.toOption, ih]

theorem sweptPoints_held (hp : p ∈ sweptPoints ks s snap) :
    p.scope = s ∧ ∃ m, metaAt ks p = some m := by
  obtain ⟨upper, hr, hu⟩ := s.keyRange_syncPoint
  have hm : p.encode ∈ (sweptRows ks s s.syncPoint upper snap).map Prod.fst := by
    rw [sweptRows_eq h hr hu]
    exact mem_map_of_mem hp
  obtain ⟨_, hro, hk⟩ := mem_map.mp hm
  obtain ⟨hg, hpr⟩ := sweptRows_isPrefix hu hro
  rw [hk] at hg hpr
  exact ⟨Scope.syncPoint_isPrefix.mp hpr, (mem_iff_metaAt h).mp (Store.mem_of_lookup hg)⟩

/-- A snapshot whose first chunk has no parent sweeps every sync point of the scope. -/
theorem mem_sweptPoints_of_no_parent
    (hpa : (snap.head?.bind fun chunk => chunk.syncMeta.parent) = none) (hs : p.scope = s)
    (hp : metaAt ks p = some m) : p ∈ sweptPoints ks s snap := by
  obtain ⟨upper, hr, hu⟩ := s.keyRange_syncPoint
  obtain ⟨v, hv, -⟩ := (metaAt_eq_some_iff h).mp hp
  have hro : (p.encode, v) ∈ sweptRows ks s s.syncPoint upper snap := by
    simp only [sweptRows, hpa]
    rw [Store.rangeOf_eq_prefixOf hu]
    exact Store.mem_prefixOf.mpr ⟨hv, Scope.syncPoint_isPrefix.mpr hs⟩
  have hm : p.encode ∈ (sweptPoints ks s snap).map SyncPoint.encode := by
    rw [← sweptRows_eq h hr hu]
    exact mem_map_of_mem hro
  obtain ⟨q, hq, he⟩ := mem_map.mp hm
  exact SyncPoint.encode_injective he ▸ hq

/-- **The sweep** removes exactly the given sync points, and the scope's rows at their versions. -/
theorem sweep_spec {points : List SyncPoint} :
    ∃ ks', sweep s ks (points.map SyncPoint.encode) = .ok (points.map SyncPoint.asId, ks') ∧
      WellFormed ks' ∧ (∀ q, metaAt ks' q = if q ∈ points then none else metaAt ks q) ∧
      ∀ k t kind, s.encode <+: k →
        rowAt ks' k t kind = if ∃ p ∈ points, p.ts = t then none else rowAt ks k t kind := by
  induction points generalizing ks with
  | nil => exact ⟨ks, rfl, h, by simp, by simp⟩
  | cons p points ih =>
    obtain ⟨_, hde, hwf₁, hme₁, hro₁⟩ := deleteScopeAtVersion_spec h s p.ts
    obtain ⟨ks', hsw, hwf', hme', hro'⟩ := ih (hwf₁.erasePoint p)
    refine ⟨ks', ?_, hwf', fun q => ?_, fun k t kind hk => ?_⟩
    · simp [sweep, hde, hsw, bind, Except.bind, pure, Except.pure]
    · rw [hme', metaAt_erasePoint, hme₁]
      by_cases hq : q ∈ points
      · simp [hq]
      · by_cases hpq : p = q
        · simp [hpq]
        · simp [hq, hpq, Ne.symm hpq]
    · have hus := UserKey.of_isPrefix hk
      rw [hro' k t kind hk, rowAt_erasePoint hus, hro₁ k t kind hus]
      by_cases hla : ∃ q ∈ points, q.ts = t
      · rw [if_pos hla, if_pos]
        exact hla.imp fun q hq => ⟨mem_cons_of_mem _ hq.1, hq.2⟩
      · rw [if_neg hla]
        by_cases hpt : p.ts = t
        · rw [if_pos ⟨hk, hpt.symm⟩, if_pos ⟨p, mem_cons_self, hpt⟩]
        · rw [if_neg fun hc => hpt hc.2.symm, if_neg]
          rintro ⟨q, hq, hqt⟩
          rcases mem_cons.mp hq with rfl | hq
          · exact hpt hqt
          · exact hla ⟨q, hq, hqt⟩

/-! ## Re-recording -/

/-- The first chunk a snapshot lists for a version. -/
def firstChunk (snapshot : Snapshot) (v : Version) : Option Chunk :=
  snapshot.find? fun chunk => chunk.id.version = v

/-- What the second pass does to a version, re-stamping it as the sync point `p`: nothing where the
snapshot lists no chunk for it or `p` was there already, and otherwise it records the first chunk. -/
def Restamped (ks ks' : Keyspace) (p : SyncPoint) : Option Chunk → Prop
  | none => AgreeAt p.scope p.ts ks ks'
  | some chunk =>
    (metaAt ks p ≠ none ∧ AgreeAt p.scope p.ts ks ks') ∨
    (metaAt ks p = none ∧ ∃ sm, sm.marker = chunk.syncMeta.marker ∧
      sm.retentionPeriod = chunk.syncMeta.retentionPeriod ∧ RecordedAt ks ks' p sm chunk.entries)

omit h in
/-- Recording is not disturbed by what leaves the version alone before and after it. -/
theorem RecordedAt.congr {ks₀ ks₁ ks₂ ks₃ : Keyspace} {sm : SyncMeta}
    {es : List (Bytes × Option Bytes)} (h : RecordedAt ks₁ ks₂ p sm es)
    (hb : AgreeAt p.scope p.ts ks₀ ks₁) (ha : AgreeAt p.scope p.ts ks₂ ks₃) :
    RecordedAt ks₀ ks₃ p sm es where
  points := fun q hs hv => by
    rw [ha.points q hs hv, h.points q hs hv, hb.points q hs hv]
  deletion := fun hd k kind hk => by rw [ha.rows k kind hk, h.deletion hd k kind hk]
  mutation := fun hm k kind hk => by
    rw [ha.rows k kind hk, h.mutation hm k kind hk]
    exact rowAt_applyEntries_congr (UserKey.of_isPrefix hk) (hb.rows k kind hk)

omit h in
theorem Restamped.agreeAt {chunk : Option Chunk} {m : SyncMeta} (h : Restamped ks ks' p chunk)
    (hh : metaAt ks p = some m) : AgreeAt p.scope p.ts ks ks' := by
  cases chunk with
  | none => exact h
  | some c =>
    rcases h with ⟨-, ha⟩ | ⟨hn, -⟩
    · exact ha
    · cases hn.symm.trans hh

omit h in
theorem Restamped.after {ks₀ : Keyspace} {chunk : Option Chunk} (h : Restamped ks ks' p chunk)
    (hb : AgreeAt p.scope p.ts ks₀ ks) : Restamped ks₀ ks' p chunk := by
  cases chunk with
  | none => exact hb.trans h
  | some c =>
    rw [Restamped, ← hb.points p rfl rfl]
    rcases h with ⟨hs, ha⟩ | ⟨hn, sm, hm, hre, hr⟩
    · exact .inl ⟨hs, hb.trans ha⟩
    · exact .inr ⟨hn, sm, hm, hre, hr.congr hb (AgreeAt.refl _ _ _)⟩

/-- **Re-recording** succeeds; each version is re-stamped with the first chunk listed for it, and the
ids of the chunks are struck from the list of swept ones. -/
theorem reinsert_spec (hin : ∀ chunk ∈ snap, EntriesIn s chunk.entries) (now : Epoch) (me : NodeId)
    (del : List SyncPointId) : ∃ ks', reinsert s now me del ks snap =
        .ok (del.diff (snap.map Chunk.id), ks') ∧ WellFormed ks' ∧
      ∀ v, Restamped ks ks' ⟨s, v, now, me⟩ (firstChunk snap v) := by
  induction snap generalizing ks del with
  | nil => exact ⟨ks, by simp [reinsert], h, fun v => AgreeAt.refl _ _ _⟩
  | cons chunk snap ih =>
    obtain ⟨last, hla⟩ := findLastSyncpoint_ok h s (some chunk.id.version)
    have hin' : ∀ c ∈ snap, EntriesIn s c.entries := fun c hc => hin c (mem_cons_of_mem _ hc)
    have hfi : ∀ v, v ≠ chunk.id.version →
        firstChunk (chunk :: snap) v = firstChunk snap v := fun v hv =>
      List.find?_cons_of_neg (by simpa using Ne.symm hv)
    have hse : firstChunk (chunk :: snap) chunk.id.version = some chunk :=
      List.find?_cons_of_pos (by simp)
    let sm : SyncMeta := ⟨last, if chunk.id ∈ del then some chunk.id.epoch else none,
      chunk.syncMeta.marker, chunk.syncMeta.retentionPeriod⟩
    cases hhe : metaAt ks ⟨s, chunk.id.version, now, me⟩ with
    | some m =>
      obtain ⟨ks', hre, hwf', hsp⟩ := ih h hin' (del.erase chunk.id)
      refine ⟨ks', ?_, hwf', fun v => ?_⟩
      · rw [reinsert, hla]
        simp only [bind, Except.bind]
        rw [insertChangeset_of_held h hhe]
        simp [hre, diff_cons]
      · by_cases hv : v = chunk.id.version
        · subst hv
          rw [hse]
          exact .inl ⟨by simp [hhe], (hsp chunk.id.version).agreeAt hhe⟩
        · rw [hfi v hv]
          exact hsp v
    | none =>
      obtain ⟨ks₁, hins, hwf₁, hrec, hot⟩ := insertChangeset_of_not_held h sm hhe
        (hin chunk mem_cons_self)
      obtain ⟨ks', hre, hwf', hsp⟩ := ih hwf₁ hin' (del.erase chunk.id)
      refine ⟨ks', ?_, hwf', fun v => ?_⟩
      · rw [reinsert, hla]
        simp only [bind, Except.bind]
        rw [hins]
        simp [hre, diff_cons]
      · by_cases hv : v = chunk.id.version
        · -- the sync point is held from here on, so later chunks of the version change nothing
          subst hv
          rw [hse]
          have hhe₁ : metaAt ks₁ ⟨s, chunk.id.version, now, me⟩ = some sm := by
            rw [hrec.points _ rfl rfl, if_pos rfl]
          exact .inr ⟨hhe, sm, rfl, rfl,
            hrec.congr (AgreeAt.refl _ _ _) ((hsp chunk.id.version).agreeAt hhe₁)⟩
        · rw [hfi v hv]
          exact (hsp v).after (hot v hv)

/-! ## Marking -/

/-- **Marking** leaves a deletion at the version of every given id and touches nothing else. -/
theorem markDeleted_spec {now : Epoch} {me : NodeId} {del : List SyncPointId} :
    ∃ ks', markDeleted s now me ks del = .ok ks' ∧
      PointsAdded (⟨s, ·.version, now, me⟩) (·.marker = .deletion) del ks ks' := by
  induction del generalizing ks with
  | nil => exact ⟨ks, rfl, .nil h⟩
  | cons id del ih =>
    obtain ⟨last, hlas⟩ := findLastSyncpoint_ok h s (some id.version)
    obtain ⟨ks', hma, had⟩ :=
      ih (h.insertPoint ⟨s, id.version, now, me⟩ ⟨last, some id.epoch, .deletion, none⟩)
    exact ⟨ks', by simp [markDeleted, hlas, bind, Except.bind, hma], had.cons rfl⟩

/-! ## The whole restore -/

structure SweptTo (ks : Keyspace) (s : Scope) (snapshot : Snapshot) (ks₁ : Keyspace) : Prop where
  points : ∀ q, metaAt ks₁ q = if q ∈ sweptPoints ks s snapshot then none else metaAt ks q
  rows : ∀ k t kind, s.encode <+: k → rowAt ks₁ k t kind =
    if ∃ p ∈ sweptPoints ks s snapshot, p.ts = t then none else rowAt ks k t kind

structure MarkedTo (s : Scope) (now : Epoch) (me : NodeId) (deleted : List SyncPointId)
    (ks₂ ks' : Keyspace) : Prop where
  rows : ∀ k kind t, UserKey k → rowAt ks' k t kind = rowAt ks₂ k t kind
  marked : ∀ id ∈ deleted, ∃ m, metaAt ks' ⟨s, id.version, now, me⟩ = some m ∧ m.marker = .deletion
  kept : ∀ q : SyncPoint, (∀ id ∈ deleted, q ≠ ⟨s, id.version, now, me⟩) →
    metaAt ks' q = metaAt ks₂ q

/-- What the three parts of a restore did: the sweep, the re-recording and the marking. -/
structure RestoreRun (ks : Keyspace) (s : Scope) (snapshot : Snapshot) (now : Epoch) (me : NodeId)
    (ks₁ ks₂ ks' : Keyspace) : Prop where
  swept : SweptTo ks s snapshot ks₁
  stamped : ∀ v, Restamped ks₁ ks₂ ⟨s, v, now, me⟩ (firstChunk snapshot v)
  marked : MarkedTo s now me (unmatched ks s snapshot) ks₂ ks'

/-- **A restore** of a snapshot with keys of the scope succeeds, and is the sweep, the re-recording
and the marking one after the other. -/
theorem restoreSnapshot_spec (hin : ∀ chunk ∈ snap, EntriesIn s chunk.entries) {now : Epoch}
    {me : NodeId} :
    ∃ ks₁ ks₂ ks', restoreSnapshot ks s snap now me = .ok ks' ∧ WellFormed ks' ∧
      RestoreRun ks s snap now me ks₁ ks₂ ks' := by
  obtain ⟨_, hr, hu⟩ := s.keyRange_syncPoint
  obtain ⟨ks₁, hsw, hwf₁, hme₁, hrow₁⟩ := sweep_spec h
  obtain ⟨ks₂, hre, hwf₂, hs⟩ := reinsert_spec hwf₁ hin now me
    ((sweptPoints ks s snap).map SyncPoint.asId)
  obtain ⟨ks', hm, hwf', hro, hma, hk⟩ := markDeleted_spec hwf₂
  refine ⟨ks₁, ks₂, ks', ?_, hwf', ⟨⟨hme₁, hrow₁⟩, hs, ⟨fun k kind t => hro k t kind, hma, hk⟩⟩⟩
  simp only [restoreSnapshot, hr, context_ok, bind, Except.bind]
  rw [sweptRows_eq h hr hu, hsw]
  simp only [hre]
  exact hm

omit h

/-! ## A version after a restore -/

omit [Postcard] in
theorem firstChunk_eq_none : firstChunk snap v = none ↔ ∀ chunk ∈ snap, chunk.id.version ≠ v := by
  simp [firstChunk]

omit [Postcard] in
theorem mem_of_firstChunk
    (h : firstChunk snap v = some chunk) : chunk ∈ snap ∧ chunk.id.version = v :=
  ⟨mem_of_find?_eq_some h, by simpa using List.find?_some h⟩

omit [Postcard] in
theorem mem_unmatched_or_listed (hp : p ∈ sweptPoints ks s snap) :
    p.asId ∈ unmatched ks s snap ∨ ∃ chunk, firstChunk snap p.ts = some chunk := by
  by_cases hid : p.asId ∈ snap.map Chunk.id
  · obtain ⟨chunk, hc, he⟩ := mem_map.mp hid
    refine .inr (Option.isSome_iff_exists.mp (Option.isSome_iff_ne_none.mpr fun hn => ?_))
    exact firstChunk_eq_none.mp hn chunk hc (by rw [he]; rfl)
  · exact .inl (mem_diff_of_mem (mem_map_of_mem hp) hid)

theorem sweptPoint_of_unmatched (h : WellFormed ks) {id : SyncPointId}
    (hid : id ∈ unmatched ks s snap) : s.withSpId id ∈ sweptPoints ks s snap := by
  obtain ⟨p, hp, rfl⟩ := mem_map.mp (diff_subset _ _ hid)
  obtain ⟨rfl, -⟩ := sweptPoints_held h hp
  exact hp

theorem Restamped.metaAt_of_ne {chunk : Option Chunk} (h : Restamped ks ks' p chunk)
    (hs : q.SameVersion p) (hne : p ≠ q) : metaAt ks' q = metaAt ks q := by
  cases chunk with
  | none => exact AgreeAt.points h q hs.2 hs.1
  | some chunk =>
    rcases h with ⟨-, ha⟩ | ⟨-, _, -, -, hr⟩
    · exact ha.points q hs.2 hs.1
    · rw [hr.points q hs.2 hs.1, if_neg hne]

section RestoredVersion
variable {snap : Snapshot} {now : Epoch} {me : NodeId} {ks₁ ks₂ : Keyspace}
  (hr : RestoreRun ks s snap now me ks₁ ks₂ ks')
include hr

/-- A sync point other than the re-stamped one is there afterwards if it was and was not swept. -/
theorem metaAt_restored_of_ne (hs : q.scope = s) (hne : q ≠ ⟨s, q.ts, now, me⟩) :
    metaAt ks' q = if q ∈ sweptPoints ks s snap then none else metaAt ks q := by
  have hk : metaAt ks' q = metaAt ks₂ q := by
    refine hr.marked.kept q fun id _ he => hne ?_
    have hv : q.ts = id.version := by rw [he]
    rw [hv]
    exact he
  have hsa : q.SameVersion ⟨s, q.ts, now, me⟩ := ⟨rfl, hs⟩
  rw [hk, (hr.stamped q.ts).metaAt_of_ne hsa (Ne.symm hne), hr.swept.points]

theorem exists_metaAt_restored (hf : firstChunk snap v = some chunk) :
    ∃ m, metaAt ks' ⟨s, v, now, me⟩ = some m := by
  by_cases hid : ∃ id ∈ unmatched ks s snap, id.version = v
  · obtain ⟨id, hid, rfl⟩ := hid
    obtain ⟨m, hm, -⟩ := hr.marked.marked id hid
    exact ⟨m, hm⟩
  · rw [hr.marked.kept _ fun id hme he => hid ⟨id, hme, (congrArg SyncPoint.ts he).symm⟩]
    have := hr.stamped v
    rw [hf] at this
    rcases this with ⟨hh, ha⟩ | ⟨-, sm, -, -, hre⟩
    · rw [ha.points _ rfl rfl]
      exact Option.ne_none_iff_exists'.mp hh
    · exact ⟨sm, by rw [hre.points _ rfl rfl, if_pos rfl]⟩

variable (hf : firstChunk snap v = none)
include hf

theorem RestoreRun.agreeAt : AgreeAt s v ks₁ ks₂ := by
  have hs := hr.stamped v
  rwa [hf] at hs

theorem rowAt_restored_of_not_listed {k : Bytes} {kind : KeyKind} (hk : s.encode <+: k) :
    rowAt ks' k v kind =
      if ∃ p ∈ sweptPoints ks s snap, p.ts = v then none else rowAt ks k v kind := by
  rw [hr.marked.rows k kind v (UserKey.of_isPrefix hk),
    (hr.agreeAt hf).rows k kind hk, hr.swept.rows k v kind hk]

/-- A version the restore neither lists nor sweeps is left alone. -/
theorem agree_of_not_listed (hun : ∀ id ∈ unmatched ks s snap, id.version ≠ v) :
    AgreeAt s v ks ks' := by
  have hn : ∀ p ∈ sweptPoints ks s snap, p.ts ≠ v := by
    rintro p hp rfl
    rcases mem_unmatched_or_listed hp with hid | ⟨chunk, hc⟩
    · exact hun _ hid rfl
    · rw [hf] at hc
      cases hc
  refine ⟨fun q hs hv => ?_, fun k kind hk => ?_⟩
  · rw [hr.marked.kept q fun id hid he => hun id hid (by rw [← hv, he]),
      (hr.agreeAt hf).points q hs hv, hr.swept.points, if_neg fun hq => hn q hq hv]
  · rw [rowAt_restored_of_not_listed hr hf hk, if_neg]
    rintro ⟨p, hp, hpv⟩
    exact hn p hp hpv

end RestoredVersion

/-! ## The latest chunk of a version -/

/-- The last chunk a snapshot lists for a version, which is its latest. -/
def lastChunk (snapshot : Snapshot) (v : Version) : Option Chunk :=
  snapshot.reverse.find? fun chunk => chunk.id.version = v

section
omit [Postcard]

theorem mem_of_lastChunk
    (h : lastChunk snap v = some chunk) : chunk ∈ snap ∧ chunk.id.version = v :=
  ⟨mem_reverse.mp (mem_of_find?_eq_some h), by simpa using List.find?_some h⟩

theorem exists_lastChunk (hc : chunk ∈ snap) :
    ∃ last, lastChunk snap chunk.id.version = some last :=
  Option.isSome_iff_exists.mp
    (List.find?_isSome.mpr ⟨chunk, mem_reverse.mpr hc, decide_eq_true rfl⟩)

theorem lastChunk_eq_none : lastChunk snap v = none ↔ firstChunk snap v = none := by
  simp [lastChunk, firstChunk]

/-- In a snapshot in key order, the last chunk of a version comes after all others of it. -/
theorem before_lastChunk (hso : snap.Pairwise fun a b => (s.withSpId a.id).Before (s.withSpId b.id))
    (hl : lastChunk snap v = some last) (hc : chunk ∈ snap) (hv : chunk.id.version = v) :
    chunk = last ∨ (s.withSpId chunk.id).Before (s.withSpId last.id) := by
  have hr := pairwise_reverse.mpr hso
  obtain ⟨-, _, _, hs, hb⟩ := List.find?_eq_some_iff_append.mp hl
  rw [← mem_reverse, hs] at hc
  rw [hs, pairwise_append, pairwise_cons] at hr
  rcases mem_append.mp hc with hc | hc
  · exact absurd hv (by simpa using hb chunk hc)
  · rcases mem_cons.mp hc with rfl | hc
    · exact .inl rfl
    · exact .inr (hr.2.1.1 chunk hc)

end

/-- The last chunk of a version in a snapshot is the head of the version. -/
theorem isHead_of_lastChunk {ks : Keyspace} (hwf : WellFormed ks)
    (hs : takeSnapshot ks s = .ok snap) (hl : lastChunk snap v = some last) :
    IsHead ks (s.withSpId last.id) last.syncMeta := by
  obtain ⟨_, hs', hch, hco, hso⟩ := takeSnapshot_spec hwf s
  rw [hs] at hs'
  cases hs'
  obtain ⟨hm, hv⟩ := mem_of_lastChunk hl
  refine ⟨(hch last hm).held, fun q m hq hsa hb => ?_⟩
  have hqs : q.scope = s := hsa.2
  obtain ⟨chunk, hc, hid⟩ := hco q.asId m (by rw [← hqs]; exact hq)
  have hqc : s.withSpId chunk.id = q := by rw [hid, ← hqs]; rfl
  have hcv : chunk.id.version = v := by
    rw [hid, ← hv]
    exact hsa.1
  rcases before_lastChunk hso hl hc hcv with he | hlt
  · rw [← hqc, he] at hb
    exact SyncPoint.Before.irrefl _ hb
  · rw [hqc] at hlt
    exact hb.asymm hlt

end Myrmic
