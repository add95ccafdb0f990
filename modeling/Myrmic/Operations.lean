import Myrmic.Changeset

/-!
# What the operations do to a version

Recording a chunk, sweeping, re-stamping and marking all work version by version.  This module states
their effect that way.  `AgreeAt` says that an operation left a version of a scope alone: the same
sync points with the same metadata, the same cells.  For the versions it did touch, each operation
has one specification, and none of them can fail on a well-formed store.
-/
namespace Myrmic
open OrderedBytes VersionedCell Fallible UserKey
variable [Postcard] {ks ks' : Keyspace} {s : Scope} {k : Bytes} {t : Version} {p : SyncPoint}
  {sm : SyncMeta} {es : List (Bytes × Option Bytes)} {ts : Version} {kind : KeyKind}
  {writes : List Write} {seen : Keyspace} {v : Version} {w : Write}

/-! ## Versions left alone -/

omit [Postcard] in
theorem cell_congr
    (h : ∀ kind, rowAt ks' k t kind = rowAt ks k t kind) : cell ks' k t = cell ks k t := by
  simp [cell, h]

/-- Two stores hold the same sync points and the same rows at a version of a scope. -/
structure AgreeAt (s : Scope) (v : Version) (ks ks' : Keyspace) : Prop where
  points : ∀ p : SyncPoint, p.scope = s → p.ts = v → metaAt ks' p = metaAt ks p
  rows : ∀ k kind, s.encode <+: k → rowAt ks' k v kind = rowAt ks k v kind

theorem AgreeAt.refl (s : Scope) (v : Version) (ks : Keyspace) : AgreeAt s v ks ks :=
  ⟨fun _ _ _ => rfl, fun _ _ _ => rfl⟩

theorem AgreeAt.trans {ks'' : Keyspace} (h : AgreeAt s v ks ks') (h' : AgreeAt s v ks' ks'') :
    AgreeAt s v ks ks'' :=
  ⟨fun p hp hv => (h'.points p hp hv).trans (h.points p hp hv),
    fun k kind hk => (h'.rows k kind hk).trans (h.rows k kind hk)⟩

theorem AgreeAt.cells (h : AgreeAt s v ks ks') (k : Bytes) (hk : s.encode <+: k) :
    cell ks' k v = cell ks k v :=
  cell_congr fun kind => h.rows k kind hk

/-! ## Primitive operations -/

theorem containsKey_iff (h : WellFormed ks) :
    containsKey ks p.encode = true ↔ ∃ m, metaAt ks p = some m := by
  rw [← mem_iff_metaAt h, containsKey, Bool.not_eq_true', ← Bool.not_eq_true, List.isEmpty_iff]
  constructor
  · intro hne
    obtain ⟨row, hr⟩ := List.exists_mem_of_ne_nil _ hne
    obtain ⟨hg, x, hx⟩ := Store.mem_prefixOf.mp hr
    obtain ⟨q, m, hq, -⟩ := h.points row.1 row.2 hg (by
      rw [← hx]
      rfl)
    -- a longer key that decodes is the same sync point
    have hd := SyncPoint.decodeFromBytes_append p x
    rw [hx, hq, SyncPoint.decodeFromBytes_encode] at hd
    rw [← Except.ok.inj hd, ← hq]
    exact Store.mem_of_lookup hg
  · intro hm hn
    obtain ⟨v, hv⟩ := Store.mem_iff_exists_lookup.mp hm
    have : (p.encode, v) ∈ ks.prefixOf p.encode := Store.mem_prefixOf.mpr ⟨hv, List.prefix_rfl⟩
    rw [hn] at this
    cases this

/-! ## Recording a chunk -/

/-- Every entry of a chunk is a key of the scope. -/
def EntriesIn (s : Scope) (entries : List (Bytes × Option Bytes)) : Prop :=
  ∀ e ∈ entries, s.encode <+: e.1

/-- What recording entries under a new sync point does to the point's version. -/
structure RecordedAt (ks ks' : Keyspace) (p : SyncPoint) (sm : SyncMeta)
    (entries : List (Bytes × Option Bytes)) : Prop where
  points : ∀ q : SyncPoint, q.scope = p.scope → q.ts = p.ts →
    metaAt ks' q = if p = q then some sm else metaAt ks q
  deletion : sm.marker = .deletion → ∀ k kind, p.scope.encode <+: k → rowAt ks' k p.ts kind = none
  mutation : sm.marker = .mutation → ∀ k kind, p.scope.encode <+: k →
    rowAt ks' k p.ts kind = rowAt (entries.foldl (applyEntry p.ts) ks) k p.ts kind

theorem RecordedAt.cell_deletion (h : RecordedAt ks ks' p sm es)
    (hd : sm.marker = .deletion) (hk : p.scope.encode <+: k) : cell ks' k p.ts = none :=
  cell_eq_none_iff.mpr fun kind => h.deletion hd k kind hk

theorem RecordedAt.cell_mutation (h : RecordedAt ks ks' p sm es)
    (hm : sm.marker = .mutation) (hk : p.scope.encode <+: k) :
    cell ks' k p.ts = cell (es.foldl (applyEntry p.ts) ks) k p.ts :=
  cell_congr fun kind => h.mutation hm k kind hk

theorem insertChangeset_of_held (h : WellFormed ks) {m : SyncMeta} (hp : metaAt ks p = some m) :
    insertChangeset ks p sm es = .ok (false, ks) := by
  rw [insertChangeset, if_pos ((containsKey_iff h).mpr ⟨m, hp⟩)]

omit [Postcard] in
/-- The row a list of entries leaves depends on the row it found. -/
theorem rowAt_applyEntries_congr (hk : UserKey k) (h : rowAt ks' k ts kind = rowAt ks k ts kind) :
    rowAt (es.foldl (applyEntry ts) ks') k ts kind =
      rowAt (es.foldl (applyEntry ts) ks) k ts kind := by
  induction es generalizing ks ks' with
  | nil => exact h
  | cons e es ih =>
    rw [List.foldl_cons, List.foldl_cons]
    refine ih ?_
    rw [applyEntry_eq, applyEntry_eq, rowAt_writeRow hk, rowAt_writeRow hk, h]

/-- **Recording** a chunk whose sync point is not held succeeds. -/
theorem insertChangeset_of_not_held (h : WellFormed ks) (sm : SyncMeta) (hp : metaAt ks p = none)
    (hin : EntriesIn p.scope es) :
    ∃ ks', insertChangeset ks p sm es = .ok (true, ks') ∧ WellFormed ks' ∧
      RecordedAt ks ks' p sm es ∧ ∀ v, v ≠ p.ts → AgreeAt p.scope v ks ks' := by
  have hco : ¬ containsKey ks p.encode = true := by
    rw [containsKey_iff h, hp]
    simp
  have hwf := h.insertPoint p sm
  have hag : ∀ v, v ≠ p.ts → AgreeAt p.scope v ks (insertPoint ks p sm) := by
    intro v hv
    refine ⟨fun q hs hq => ?_, fun k kind hk => rowAt_insertPoint (of_isPrefix hk)⟩
    rw [metaAt_insertPoint, if_neg]
    rintro rfl
    exact hv hq.symm
  rw [insertChangeset, if_neg hco]
  cases hmk : sm.marker with
  | deletion =>
    obtain ⟨ks', hde, hwf', hme, hro⟩ := deleteScopeAtVersion_spec hwf p.scope p.ts
    refine ⟨ks', by simp [hde, bind, Except.bind, pure, Except.pure], hwf', ⟨?_, ?_, ?_⟩, ?_⟩
    · intro q _ _
      rw [hme, metaAt_insertPoint]
    · intro _ k kind hk
      rw [hro k p.ts kind (of_isPrefix hk), if_pos ⟨hk, rfl⟩]
    · intro hm
      rw [hmk] at hm
      cases hm
    · intro v hv
      refine (hag v hv).trans ⟨fun q _ _ => hme q, fun k kind hk => ?_⟩
      rw [hro k v kind (of_isPrefix hk), if_neg fun hc => hv hc.2]
  | mutation =>
    refine ⟨_, rfl, wellFormed_applyEntries hwf hin, ⟨?_, ?_, ?_⟩, ?_⟩
    · intro q _ _
      rw [metaAt_applyEntries hin, metaAt_insertPoint]
    · intro hd
      rw [hmk] at hd
      cases hd
    · intro _ k kind hk
      have hus := of_isPrefix hk
      exact rowAt_applyEntries_congr hus (rowAt_insertPoint hus)
    · intro v hv
      refine (hag v hv).trans ⟨fun q _ _ => metaAt_applyEntries hin q, fun k kind hk => ?_⟩
      exact rowAt_applyEntries_of_not_written (of_isPrefix hk) fun h => absurd h hv

/-! ## Committing -/

/-- The key a write goes to, if it writes a row. -/
def Write.key : Write → Option Bytes
  | .touch _ => none
  | .put s rest _ => some (s.encode ++ rest)
  | .erase s rest => some (s.encode ++ rest)
  | .intern rest _ => some (semHashTag ++ rest)

omit [Postcard] in
theorem Write.scope_of_key (h : w.key = some k) (hs : s.encode <+: k) : w.scope = some s := by
  cases w with
  | touch s' => cases h
  | intern rest v =>
    cases h
    exact absurd hs (not_isPrefix_of_head (c := 's'.toUInt8) rfl (by decide))
  | _ =>
    cases h
    exact congrArg some (Scope.eq_of_isPrefix (List.prefix_append _ _) hs)

theorem WellFormed.apply (h : WellFormed ks) (ts : Version) (w : Write) :
    WellFormed (w.apply ts ks) := by
  cases w with
  | touch s => exact h
  | put s rest v =>
    exact (h.dropRow of_scope).writeRow of_scope
  | erase s rest => exact h.writeRow of_scope
  | intern rest v =>
    exact (h.dropRow (.semHash rest)).writeRow (.semHash rest)

theorem metaAt_apply (ts : Version) (w : Write) (p : SyncPoint) :
    metaAt (w.apply ts ks) p = metaAt ks p := by
  cases w with
  | touch s => rfl
  | put s rest v =>
    exact (metaAt_writeRow of_scope).trans (metaAt_dropRow of_scope)
  | erase s rest => exact metaAt_writeRow of_scope
  | intern rest v =>
    exact (metaAt_writeRow (.semHash rest)).trans (metaAt_dropRow (.semHash rest))

section
omit [Postcard]

variable (hk : UserKey k)
include hk

theorem rowAt_putAtRaw_of_ne {k' v : Bytes} (h : t ≠ ts ∨ k' ≠ k) :
    rowAt (putAtRaw ks k' v ts) k t kind = rowAt ks k t kind := by
  rw [putAtRaw, insertAtRaw, rowAt_writeRow hk, rowAt_dropRow hk]
  split
  · next hc => exact absurd h (by simp [hc.1, hc.2.1])
  · split
    · next hc => exact absurd h (by simp [hc.1, hc.2.1])
    · rfl

/-- A put decides what its version says of its key. -/
theorem cell_putAtRaw_self {v : Bytes} : cell (putAtRaw ks k v ts) k ts = some (some v) := by
  refine cell_of_insertion ?_ ?_
  · rw [putAtRaw, insertAtRaw, rowAt_writeRow hk, rowAt_dropRow hk, if_neg (by simp),
      if_pos ⟨rfl, rfl, rfl⟩]
  · rw [putAtRaw, insertAtRaw, rowAt_writeRow hk, if_pos ⟨rfl, rfl, rfl⟩]

theorem cell_eraseAtRaw_self : cell (eraseAtRaw ks k ts) k ts = some none := by
  refine cell_of_deletion (v := []) ?_
  rw [eraseAtRaw, rowAt_writeRow hk, if_pos ⟨rfl, rfl, rfl⟩]

theorem rowAt_eraseAtRaw_of_ne {k' : Bytes} (h : t ≠ ts ∨ k' ≠ k) :
    rowAt (eraseAtRaw ks k' ts) k t kind = rowAt ks k t kind := by
  rw [eraseAtRaw, rowAt_writeRow hk, if_neg]
  rintro ⟨he, ht, -⟩
  exact absurd h (by simp [he, ht])

theorem rowAt_apply (h : t ≠ ts ∨ w.key ≠ some k) :
    rowAt (w.apply ts ks) k t kind = rowAt ks k t kind := by
  cases w with
  | touch s => rfl
  | erase s rest =>
    exact rowAt_eraseAtRaw_of_ne hk (h.imp_right fun hne he => hne (congrArg some he))
  | _ => exact rowAt_putAtRaw_of_ne hk (h.imp_right fun hne he => hne (congrArg some he))

end

theorem wellFormed_writes (h : WellFormed ks) :
    WellFormed (writes.foldl (Write.apply ts) ks) := by
  induction writes generalizing ks with
  | nil => exact h
  | cons w writes ih => exact ih (h.apply ts w)

theorem metaAt_writes (ts : Version) (writes : List Write) (p : SyncPoint) :
    metaAt (writes.foldl (Write.apply ts) ks) p = metaAt ks p := by
  induction writes generalizing ks with
  | nil => rfl
  | cons w writes ih => exact ih.trans (metaAt_apply ts w p)

omit [Postcard] in
theorem rowAt_writes (hk : UserKey k) (h : t ≠ ts ∨ ∀ w ∈ writes, w.key ≠ some k) :
    rowAt (writes.foldl (Write.apply ts) ks) k t kind = rowAt ks k t kind := by
  induction writes generalizing ks with
  | nil => rfl
  | cons w writes ih =>
    rw [List.foldl_cons, ih (h.imp_right fun ha w' hw' => ha w' (List.mem_cons_of_mem _ hw')),
      rowAt_apply hk (h.imp_right fun ha => ha w List.mem_cons_self)]

omit [Postcard] in
/-- The rows that writes leave under a key at their version depend on the rows they found there. -/
theorem rowAt_writes_congr (hk : UserKey k)
    (h : ∀ kind, rowAt ks' k ts kind = rowAt ks k ts kind) :
    rowAt (writes.foldl (Write.apply ts) ks') k ts kind =
      rowAt (writes.foldl (Write.apply ts) ks) k ts kind := by
  induction writes generalizing ks ks' with
  | nil => exact h kind
  | cons w writes ih =>
    rw [List.foldl_cons, List.foldl_cons]
    refine ih fun kind' => ?_
    have hp : ∀ k' v, rowAt (putAtRaw ks' k' v ts) k ts kind' =
        rowAt (putAtRaw ks k' v ts) k ts kind' := by
      intro k' v
      simp only [putAtRaw, insertAtRaw, rowAt_writeRow hk, rowAt_dropRow hk, h kind']
    cases w with
    | touch s => exact h kind'
    | erase s rest => simp only [Write.apply, eraseAtRaw, rowAt_writeRow hk, h kind']
    | _ => exact hp _ _

/-- Sync points were added to a store, one for each element of a list, and nothing else was touched. -/
structure PointsAdded {α : Type} (point : α → SyncPoint) (P : SyncMeta → Prop) (as : List α)
    (ks ks' : Keyspace) : Prop where
  wellFormed : WellFormed ks'
  rows : ∀ k t kind, UserKey k → rowAt ks' k t kind = rowAt ks k t kind
  added : ∀ a ∈ as, ∃ m, metaAt ks' (point a) = some m ∧ P m
  kept : ∀ q, (∀ a ∈ as, q ≠ point a) → metaAt ks' q = metaAt ks q

section PointsAdded
variable {α : Type} {point : α → SyncPoint} {P : SyncMeta → Prop} {a : α} {as : List α} {sm : SyncMeta}

theorem PointsAdded.nil (h : WellFormed ks) : PointsAdded point P [] ks ks :=
  ⟨h, fun _ _ _ _ => rfl, nofun, fun _ _ => rfl⟩

theorem PointsAdded.cons (h : PointsAdded point P as (insertPoint ks (point a) sm) ks') (hP : P sm) :
    PointsAdded point P (a :: as) ks ks' where
  wellFormed := h.wellFormed
  rows k t kind hk := by rw [h.rows k t kind hk, rowAt_insertPoint hk]
  added b hb := by
    -- a point that is added again later has what was added last
    by_cases hla : ∃ c ∈ as, point b = point c
    · obtain ⟨c, hc, he⟩ := hla
      exact he ▸ h.added c hc
    · obtain rfl := (List.mem_cons.mp hb).resolve_right fun hb => hla ⟨b, hb, rfl⟩
      refine ⟨sm, ?_, hP⟩
      rw [h.kept _ fun c hc he => hla ⟨c, hc, he⟩, metaAt_insertPoint, if_pos rfl]
  kept q hq := by
    rw [h.kept q fun c hc => hq c (List.mem_cons_of_mem _ hc), metaAt_insertPoint, if_neg]
    exact fun he => hq a List.mem_cons_self he.symm

end PointsAdded

/-- The sync points a commit leaves, one in each active scope. -/
theorem commitPoints_spec (hse : WellFormed seen) (h : WellFormed ks) {id : NodeId}
    {ret : Option Duration} {scopes : List Scope} :
    ∃ ks', commitPoints seen ts id ret ks scopes = .ok ks' ∧ PointsAdded (⟨·, ts, ts, id⟩)
      (fun m => ∃ parent, m = ⟨parent, none, .mutation, ret⟩) scopes ks ks' := by
  induction scopes generalizing ks with
  | nil => exact ⟨ks, rfl, .nil h⟩
  | cons s scopes ih =>
    obtain ⟨last, hlas⟩ := findLastSyncpoint_ok hse s none
    obtain ⟨ks', hco, had⟩ := ih (h.insertPoint ⟨s, ts, ts, id⟩ ⟨last, none, .mutation, ret⟩)
    exact ⟨ks', by simp [commitPoints, hlas, bind, Except.bind, hco], had.cons ⟨last, rfl⟩⟩

omit [Postcard] in
theorem mem_activeScopes : s ∈ activeScopes writes ↔ ∃ w ∈ writes, w.scope = some s := by
  rw [activeScopes, List.mem_dedup, List.mem_filterMap]

/-- **Committing** succeeds.  It writes rows at its own version only, leaves a sync point with the
version as its epoch in each active scope, and leaves inactive scopes alone. -/
theorem commit_spec (hse : WellFormed seen) (h : WellFormed ks) {id : NodeId}
    {ret : Option Duration} :
    ∃ ks', commit seen ks ts id ret writes = .ok ks' ∧ WellFormed ks' ∧
      (∀ k t kind, UserKey k →
        rowAt ks' k t kind = rowAt (writes.foldl (Write.apply ts) ks) k t kind) ∧
      (∀ s v, v ≠ ts → AgreeAt s v ks ks') ∧ (∀ s, s ∉ activeScopes writes → AgreeAt s ts ks ks') ∧
      (∀ s ∈ activeScopes writes, ∃ parent, metaAt ks' ⟨s, ts, ts, id⟩ =
        some ⟨parent, none, .mutation, ret⟩) ∧
      ∀ q : SyncPoint, (∀ s ∈ activeScopes writes, q ≠ ⟨s, ts, ts, id⟩) →
        metaAt ks' q = metaAt ks q := by
  obtain ⟨ks', hco, hwf', hro, had, hke⟩ := commitPoints_spec
    (wellFormed_writes hse) (wellFormed_writes h)
  have hke' : ∀ q : SyncPoint, (∀ s ∈ activeScopes writes, q ≠ ⟨s, ts, ts, id⟩) →
      metaAt ks' q = metaAt ks q := fun q hq => (hke q hq).trans (metaAt_writes ts writes q)
  refine ⟨ks', hco, hwf', hro, fun s v hv => ⟨fun p hs hp => ?_, fun k kind hk => ?_⟩,
    fun s hs => ⟨fun p hps hp => ?_, fun k kind hk => ?_⟩, fun s hs => ?_, hke'⟩
  · refine hke' p fun s' _ he => hv ?_
    rw [← hp, he]
  · have hus := of_isPrefix hk
    rw [hro k v kind hus, rowAt_writes hus (.inl hv)]
  · refine hke' p fun s' hs' he => hs ?_
    rw [← hps, he]
    exact hs'
  · have hus := of_isPrefix hk
    rw [hro k ts kind hus, rowAt_writes hus (.inr fun w hw hwk => hs ?_)]
    exact mem_activeScopes.mpr ⟨w, hw, Write.scope_of_key hwk hk⟩
  · obtain ⟨_, hm, parent, rfl⟩ := had s hs
    exact ⟨parent, hm⟩

end Myrmic
