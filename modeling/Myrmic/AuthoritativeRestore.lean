import Myrmic.Agreement

/-!
# The authoritative restore

A restore is meant to make a snapshot the state of the scope again, whatever happened since it was
taken: every key reads what it read then, every version of the snapshot is listed with the marker and
the entries it had, and every other version is a deletion without rows (`RestoredAs`).

The restore pairs swept sync points with the snapshot's chunks by their exact id.  A restore changes
the epoch and the node of every id, so a second restore of the same snapshot pairs nothing: it sweeps
the sync points of the first, records the chunks again, and then marks each of those versions as
deleted, leaving the rows in place (`restore_twice_marks_deleted`).  `RestoresWhole` says when a
restore does not run into this and is not misled by sync points its sweep leaves behind.  **From any
state a store can reach, a restore of any snapshot taken on the way that meets this condition restores
the snapshot as a whole** (`authoritative_restore`).
-/
namespace Myrmic
open OrderedBytes VersionedCell Fallible List
variable {v : Version} {chunk : Chunk}
section Restore
variable [Postcard] {s : Scope} {me : NodeId} {ks ks' : Keyspace} {k : Bytes} {kind : KeyKind}
  {p : SyncPoint} {snapshot : Snapshot} {now : Epoch} {w : Archive}

/-! ## The history of one store -/

/-- A store, the states it was in, and the snapshots of a scope taken on the way, each with the state
it was taken in. -/
structure Archive where
  store : Keyspace
  past : List Keyspace
  taken : List (Snapshot × Keyspace)

namespace Archive

def initial : Archive := ⟨∅, [∅], []⟩

def set (w : Archive) (ks : Keyspace) : Archive :=
  { w with store := ks, past := ks :: w.past }

/-- What can happen to a store between taking a snapshot of a scope and restoring it: commits, with
and without retention, replicated chunks, purges of expired versions, releases of covered ones, and
other snapshots and restores. -/
inductive Step (s : Scope) (me : NodeId) (w : Archive) : Archive → Prop
  | commit {seen : Keyspace} {ts : Version} {retention : Option Duration} {writes : List Write}
      {ks' : Keyspace} : seen ∈ w.past → Myrmic.commit seen w.store ts me retention writes = .ok ks' →
      Step s me w (w.set ks')
  | receive {chunk : Chunk} {ks' : Keyspace} : EntriesIn s chunk.entries →
      applyChunk w.store s chunk = .ok ks' → Step s me w (w.set ks')
  | purge {p : SyncPoint} {sm : SyncMeta} {ks' : Keyspace} : p.scope = s →
      metaAt w.store p = some sm → deleteChunk w.store p = .ok ks' →
      Step s me w (w.set (markSyncpointPurged ks' p sm))
  | release {p : SyncPoint} {ks' : Keyspace} : p.scope = s → forgetChunk w.store p = .ok ks' →
      Step s me w (w.set ks')
  | take {snapshot : Snapshot} : takeSnapshot w.store s = .ok snapshot →
      Step s me w { w with taken := (snapshot, w.store) :: w.taken }
  | restore {snapshot : Snapshot} {ks₀ ks' : Keyspace} {now : Epoch} : (snapshot, ks₀) ∈ w.taken →
      restoreSnapshot w.store s snapshot now me = .ok ks' → Step s me w (w.set ks')

inductive Reachable (s : Scope) (me : NodeId) : Archive → Prop
  | initial : Reachable s me .initial
  | step {w w' : Archive} : Reachable s me w → Step s me w w' → Reachable s me w'

end Archive

/-! ## What a restore promises, and when it keeps it -/

/-- The state `ks'` restores the snapshot that was taken in the state `ks₀`. -/
structure RestoredAs (s : Scope) (snapshot : Snapshot) (ks₀ ks' : Keyspace) : Prop where
  reads : ∀ rest, ∃ value, getRaw ks₀ (s.encode ++ rest) = .ok value ∧
    getRaw ks' (s.encode ++ rest) = .ok value
  listed : ∃ snapshot', takeSnapshot ks' s = .ok snapshot' ∧
    (∀ v chunk, lastChunk snapshot v = some chunk → ∃ chunk', lastChunk snapshot' v = some chunk' ∧
      chunk'.syncMeta.marker = chunk.syncMeta.marker ∧ chunk'.entries = chunk.entries) ∧
    ∀ v chunk', lastChunk snapshot v = none → lastChunk snapshot' v = some chunk' →
      chunk'.syncMeta.marker = .deletion ∧
        ∀ k kind, s.encode <+: k → rowAt ks' k v kind = none

/-- The rows a store has at a version are rows that the chunk writes or that its deletion erases. -/
def RowsAmong (ks : Keyspace) (s : Scope) (v : Version) (chunk : Chunk) : Prop :=
  chunk.syncMeta.marker = .mutation →
    ∀ k kind, s.encode <+: k → rowAt ks k v kind ≠ none → (k, kind) ∈ chunk.entries.map rowOf

/-- A sync point that the sweep leaves behind does no harm: either the snapshot lists its version,
and it is older than the sync point the restore stamps, or it is a deletion.  If no sync point of its
version is swept, the rows of the version are the snapshot's. -/
def KeptRight (ks : Keyspace) (s : Scope) (snapshot : Snapshot) (now : Epoch) (me : NodeId)
    (q : SyncPoint) (m : SyncMeta) : Prop :=
  match firstChunk snapshot q.ts with
  | some chunk => q.Before ⟨s, q.ts, now, me⟩ ∧
      ((∀ p ∈ sweptPoints ks s snapshot, p.ts ≠ q.ts) → RowsAmong ks s q.ts chunk)
  | none => m.marker = .deletion ∧
      ((∀ p ∈ sweptPoints ks s snapshot, p.ts ≠ q.ts) →
        ∀ k kind, s.encode <+: k → rowAt ks k q.ts kind = none)

/-- When a restore restores all of a snapshot taken in the state `ks₀`. -/
structure RestoresWhole (ks₀ ks : Keyspace) (s : Scope) (snapshot : Snapshot) (now : Epoch)
    (me : NodeId) : Prop where
  kept : ∀ q m, metaAt ks q = some m → q.scope = s → q ∉ sweptPoints ks s snapshot →
    KeptRight ks s snapshot now me q m
  unmarked : ∀ id ∈ unmatched ks s snapshot, ∀ chunk, firstChunk snapshot id.version = some chunk →
    chunk.syncMeta.marker = .deletion
  markers : ∀ v first last, firstChunk snapshot v = some first → lastChunk snapshot v = some last →
    first.syncMeta.marker = last.syncMeta.marker
  rowless : ∀ v first, firstChunk snapshot v = some first → first.syncMeta.marker = .deletion →
    ∀ k, s.encode <+: k → cell ks₀ k v = none

/-! ## Every row has a sync point -/

/-- Every row of the scope has a sync point of its version. -/
def Pointed (s : Scope) (ks : Keyspace) : Prop :=
  ∀ k v kind, s.encode <+: k → rowAt ks k v kind ≠ none →
    ∃ p m, p.scope = s ∧ p.ts = v ∧ metaAt ks p = some m

theorem pointed_empty (s : Scope) : Pointed s ∅ := by
  intro k v kind _ hr
  simp [rowAt] at hr

theorem AgreeAt.pointed (h : AgreeAt s v ks ks') (hks : Pointed s ks)
    (hk : s.encode <+: k) (hr : rowAt ks' k v kind ≠ none) :
    ∃ p m, p.scope = s ∧ p.ts = v ∧ metaAt ks' p = some m := by
  rw [h.rows k kind hk] at hr
  obtain ⟨p, m, hs, hv, hp⟩ := hks k v kind hk hr
  exact ⟨p, m, hs, hv, (h.points p hs hv).trans hp⟩

/-- A store that a scope's history can be in. -/
structure Sound (s : Scope) (ks : Keyspace) : Prop where
  wellFormed : WellFormed ks
  pointed : Pointed s ks

theorem sound_commit (h : Sound s ks) {seen : Keyspace} (hse : WellFormed seen) {ts : Version}
    {ret : Option Duration} {writes : List Write}
    (hc : commit seen ks ts me ret writes = .ok ks') : Sound s ks' := by
  obtain ⟨_, hc', hwf', -, ho, hi, ha, -⟩ := commit_spec hse h.wellFormed
  obtain rfl := Except.ok.inj (hc'.symm.trans hc)
  refine ⟨hwf', fun k v kind hk hr => ?_⟩
  by_cases hv : v = ts
  · subst hv
    by_cases hs : s ∈ activeScopes writes
    · obtain ⟨_, hp⟩ := ha s hs
      exact ⟨_, _, rfl, rfl, hp⟩
    · exact (hi s hs).pointed h.pointed hk hr
  · exact (ho s v hv).pointed h.pointed hk hr

theorem sound_receive (h : Sound s ks) (hin : EntriesIn s chunk.entries)
    (ha : applyChunk ks s chunk = .ok ks') : Sound s ks' := by
  rcases applyChunk_cases h.wellFormed hin ha with ⟨-, rfl⟩ | ⟨-, hwf', hr, ho⟩
  · exact h
  · refine ⟨hwf', fun k v kind hk hro => ?_⟩
    by_cases hv : v = chunk.id.version
    · exact ⟨s.withSpId chunk.id, chunk.syncMeta, rfl, hv.symm, by
        rw [hr.points _ rfl rfl, if_pos rfl]⟩
    · exact (ho v hv).pointed h.pointed hk hro

theorem sound_purge (h : Sound s ks) {sm : SyncMeta} (hs : p.scope = s)
    (hd : deleteChunk ks p = .ok ks') : Sound s (markSyncpointPurged ks' p sm) := by
  obtain ⟨_, hd', hwf, hm, hr⟩ := deleteChunk_spec h.wellFormed p
  obtain rfl := Except.ok.inj (hd'.symm.trans hd)
  refine ⟨hwf.insertPoint _ _, fun k v kind hk hro => ?_⟩
  rw [markSyncpointPurged, rowAt_insertPoint (UserKey.of_isPrefix hk),
    hr k v kind (UserKey.of_isPrefix hk)] at hro
  by_cases hv : v = p.ts
  · exact ⟨p, _, hs, hv.symm, by rw [markSyncpointPurged, metaAt_insertPoint, if_pos rfl]⟩
  · rw [if_neg fun hc => hv hc.2] at hro
    obtain ⟨q, m, hqs, hqv, hq⟩ := h.pointed k v kind hk hro
    refine ⟨q, m, hqs, hqv, ?_⟩
    rw [markSyncpointPurged, metaAt_insertPoint, if_neg, hm, hq]
    rintro rfl
    exact hv hqv.symm

theorem sound_release (h : Sound s ks) (hs : p.scope = s)
    (hf : forgetChunk ks p = .ok ks') : Sound s ks' := by
  obtain ⟨_, hf', hwf, hm, hr⟩ := forgetChunk_spec h.wellFormed p
  obtain rfl := Except.ok.inj (hf'.symm.trans hf)
  refine ⟨hwf, fun k v kind hk hro => ?_⟩
  rw [hr k v kind (UserKey.of_isPrefix hk)] at hro
  by_cases hv : v = p.ts
  · rw [if_pos ⟨hs ▸ hk, hv⟩] at hro
    exact absurd rfl hro
  · rw [if_neg fun hc => hv hc.2] at hro
    obtain ⟨q, m, hqs, hqv, hq⟩ := h.pointed k v kind hk hro
    refine ⟨q, m, hqs, hqv, ?_⟩
    rw [hm, if_neg, hq]
    rintro rfl
    exact hv hqv.symm

theorem sound_restore (h : Sound s ks) (hin : ∀ chunk ∈ snapshot, EntriesIn s chunk.entries)
    (hre : restoreSnapshot ks s snapshot now me = .ok ks') : Sound s ks' := by
  obtain ⟨_, _, _, hre', hwf', hru⟩ := restoreSnapshot_spec h.wellFormed hin
  obtain rfl := Except.ok.inj (hre'.symm.trans hre)
  refine ⟨hwf', fun k v kind hk hro => ?_⟩
  cases hfi : firstChunk snapshot v with
  | some chunk =>
    obtain ⟨m, hm⟩ := exists_metaAt_restored hru hfi
    exact ⟨_, m, rfl, rfl, hm⟩
  | none =>
    rw [rowAt_restored_of_not_listed hru hfi hk] at hro
    split at hro
    · exact absurd rfl hro
    · next hno =>
      -- the row and its sync point both survived the sweep
      obtain ⟨q, m, hqs, rfl, hq⟩ := h.pointed k v kind hk hro
      by_cases hne : q = ⟨s, q.ts, now, me⟩
      · refine ⟨q, m, hqs, rfl, ?_⟩
        have hag := agree_of_not_listed hru hfi fun id hid hv =>
          hno ⟨_, sweptPoint_of_unmatched h.wellFormed hid, hv⟩
        rw [hag.points q hqs rfl, hq]
      · refine ⟨q, m, hqs, rfl, ?_⟩
        rw [metaAt_restored_of_ne hru hqs hne, if_neg, hq]
        exact fun hme => hno ⟨q, hme, rfl⟩

/-- What holds of every state of a history. -/
structure Archive.Valid (s : Scope) (w : Archive) : Prop where
  store : Sound s w.store
  past : ∀ ks ∈ w.past, WellFormed ks
  taken : ∀ snapshot ks₀, (snapshot, ks₀) ∈ w.taken →
    Sound s ks₀ ∧ takeSnapshot ks₀ s = .ok snapshot

theorem Archive.Valid.set (h : w.Valid s) (hks : Sound s ks) : (w.set ks).Valid s where
  store := hks
  past := forall_mem_cons.mpr ⟨hks.wellFormed, h.past⟩
  taken := h.taken

theorem entriesIn_of_takeSnapshot (h : WellFormed ks)
    (hs : takeSnapshot ks s = .ok snapshot) : ∀ chunk ∈ snapshot, EntriesIn s chunk.entries := by
  obtain ⟨_, hs', hch, -⟩ := takeSnapshot_spec h s
  obtain rfl := Except.ok.inj (hs'.symm.trans hs)
  exact fun chunk hc => (hch chunk hc).entriesIn h

theorem Archive.Valid.step {w w' : Archive} (h : w.Valid s) (hst : Archive.Step s me w w') :
    w'.Valid s := by
  cases hst with
  | commit hse hc => exact h.set (sound_commit h.store (h.past _ hse) hc)
  | receive hin ha => exact h.set (sound_receive h.store hin ha)
  | purge hs _ hd => exact h.set (sound_purge h.store hs hd)
  | release hs hf => exact h.set (sound_release h.store hs hf)
  | take hsn =>
    refine ⟨h.store, h.past, fun snapshot ks₀ hm => ?_⟩
    rcases mem_cons.mp hm with he | hm
    · cases he
      exact ⟨h.store, hsn⟩
    · exact h.taken snapshot ks₀ hm
  | restore hm hr =>
    obtain ⟨hso, hsn⟩ := h.taken _ _ hm
    exact h.set (sound_restore h.store (entriesIn_of_takeSnapshot hso.wellFormed hsn) hr)

theorem Archive.valid_of_reachable (h : Archive.Reachable s me w) : w.Valid s := by
  induction h with
  | initial =>
    refine ⟨⟨wellFormed_empty, pointed_empty s⟩, fun ks hks => ?_, by simp [Archive.initial]⟩
    rw [mem_singleton.mp hks]
    exact wellFormed_empty
  | step _ hs ih => exact ih.step hs

/-! ## Version by version -/

section Versions
variable {ks₀ ks₁ ks₂ : Keyspace} {snapshot : Snapshot} {now : Epoch} {v : Version}
  (h : RestoresWhole ks₀ ks s snapshot now me) (hru : RestoreRun ks s snapshot now me ks₁ ks₂ ks')
include h hru

theorem RestoresWhole.metaAt_swept (hf : firstChunk snapshot v = some chunk) :
    metaAt ks₁ ⟨s, v, now, me⟩ = none := by
  rw [hru.swept.points]
  split
  · rfl
  · next hn =>
    refine Option.eq_none_iff_forall_not_mem.mpr fun m hm => ?_
    have hk := h.kept _ m hm rfl hn
    rw [KeptRight, hf] at hk
    exact SyncPoint.Before.irrefl _ hk.1

/-- A listed version has the stamped sync point as its head, with the marker of its first chunk. -/
theorem RestoresWhole.isHead (hfi : firstChunk snapshot v = some chunk) :
    ∃ m, IsHead ks' ⟨s, v, now, me⟩ m ∧ m.marker = chunk.syncMeta.marker := by
  have hnew : ∀ q m, metaAt ks' q = some m → q.SameVersion ⟨s, v, now, me⟩ →
      q ≠ ⟨s, v, now, me⟩ → q.Before ⟨s, v, now, me⟩ := by
    intro q m hq hsa hne
    obtain ⟨rfl, hs⟩ : q.ts = v ∧ q.scope = s := hsa
    rw [metaAt_restored_of_ne hru hs hne] at hq
    split at hq
    · cases hq
    · next hno =>
      have hke := h.kept q m hq hs hno
      rw [KeptRight, hfi] at hke
      exact hke.1
  by_cases hid : ∃ id ∈ unmatched ks s snapshot, id.version = v
  · obtain ⟨id, hid, rfl⟩ := hid
    obtain ⟨m, hm, hde⟩ := hru.marked.marked id hid
    exact ⟨m, isHead_of_newest hm hnew, hde.trans (h.unmarked id hid chunk hfi).symm⟩
  · have hre := hru.stamped v
    rw [hfi] at hre
    obtain ⟨-, sm, hmk, -, hre⟩ := hre.resolve_left fun hc => hc.1 (h.metaAt_swept hru hfi)
    refine ⟨sm, isHead_of_newest ?_ hnew, hmk⟩
    rw [hru.marked.kept _ fun id hme he => hid ⟨id, hme, (congrArg SyncPoint.ts he).symm⟩,
      hre.points _ rfl rfl, if_pos rfl]

theorem RestoresWhole.rowAt_deletion (hf : firstChunk snapshot v = some chunk)
    (hd : chunk.syncMeta.marker = .deletion) (hk : s.encode <+: k) : rowAt ks' k v kind = none := by
  have hr := hru.stamped v
  rw [hf] at hr
  obtain ⟨-, _, hmk, -, hr⟩ := hr.resolve_left fun hc => hc.1 (h.metaAt_swept hru hf)
  rw [hru.marked.rows k kind v (UserKey.of_isPrefix hk), hr.deletion (hmk.trans hd) k kind hk]

/-- A version listed as a mutation reads the entries of its first chunk. -/
theorem RestoresWhole.changesetFor_mutation (hks₀ : WellFormed ks₀) (hks : Sound s ks)
    (hwf' : WellFormed ks') (hfi : firstChunk snapshot v = some chunk) (hm : chunk.syncMeta.marker = .mutation)
    (hch : IsChunk ks₀ s chunk) (hp : p.SameVersion ⟨s, v, now, me⟩) :
    changesetFor ks' p = .ok chunk.entries := by
  obtain ⟨-, rfl⟩ := mem_of_firstChunk hfi
  have hre := hru.stamped chunk.id.version
  rw [hfi] at hre
  obtain ⟨-, _, hmk, -, hre⟩ := hre.resolve_left fun hc => hc.1 (h.metaAt_swept hru hfi)
  have hsa : p.SameVersion (s.withSpId chunk.id) := hp
  refine changesetFor_reread ks₁ hks₀ hwf' hsa (hch.mutation hm)
    (fun k kind hk hro => ?_) fun k kind hk => ?_
  · -- rows the sweep left are among those of the chunk
    rw [hru.swept.rows k _ kind hk] at hro
    split at hro
    · exact absurd rfl hro
    · next hno =>
      obtain ⟨q, m, hqs, hqv, hq⟩ := hks.pointed k _ kind hk hro
      have hqv : q.ts = chunk.id.version := hqv
      have hke := h.kept q m hq hqs fun hme => hno ⟨q, hme, hqv⟩
      rw [KeptRight, hqv, hfi] at hke
      exact hke.2 (fun p hp hpv => hno ⟨p, hp, hpv⟩) hm k kind hk hro
  · exact (hru.marked.rows k kind _ (UserKey.of_isPrefix hk)).trans
      (hre.mutation (hmk.trans hm) k kind hk)

theorem RestoresWhole.rowAt_unlisted (hks : Sound s ks) (hf : firstChunk snapshot v = none)
    (hk : s.encode <+: k) : rowAt ks' k v kind = none := by
  rw [rowAt_restored_of_not_listed hru hf hk]
  split
  · rfl
  · next hn =>
    by_contra hr
    obtain ⟨q, m, hqs, rfl, hq⟩ := hks.pointed k v kind hk hr
    have hke := h.kept q m hq hqs fun hm => hn ⟨q, hm, rfl⟩
    rw [KeptRight, hf] at hke
    exact hr (hke.2 (fun p hp hpv => hn ⟨p, hp, hpv⟩) k kind hk)

theorem RestoresWhole.marker_unlisted {q : SyncPoint} {m : SyncMeta}
    (hf : firstChunk snapshot q.ts = none) (hs : q.scope = s) (hq : metaAt ks' q = some m) :
    m.marker = .deletion := by
  by_cases hid : ∃ id ∈ unmatched ks s snapshot, q = ⟨s, id.version, now, me⟩
  · obtain ⟨id, hid, rfl⟩ := hid
    obtain ⟨_, hm', hd⟩ := hru.marked.marked id hid
    rw [hq] at hm'
    exact Option.some.inj hm' ▸ hd
  · rw [hru.marked.kept q fun id hme he => hid ⟨id, hme, he⟩,
      (hru.agreeAt hf).points q hs rfl, hru.swept.points] at hq
    split at hq
    · cases hq
    · next hn =>
      have hk := h.kept q m hq hs hn
      rw [KeptRight, hf] at hk
      exact hk.1

/-- The cells of every version are those of the state the snapshot was taken in. -/
theorem RestoresWhole.cell_eq (hks₀ : Sound s ks₀) (hsn : takeSnapshot ks₀ s = .ok snapshot)
    (hks : Sound s ks) (hwf' : WellFormed ks') (hk : s.encode <+: k) : cell ks₀ k v = cell ks' k v := by
  obtain ⟨_, hsn', hch, hco, -⟩ := takeSnapshot_spec hks₀.wellFormed s
  obtain rfl := Except.ok.inj (hsn.symm.trans hsn')
  cases hfi : firstChunk snapshot v with
  | none =>
    -- the version had no sync point, hence no rows, and has none now
    have hbe : ∀ kind, rowAt ks₀ k v kind = none := by
      intro kind
      by_contra hro
      obtain ⟨p, m, hs, hv, hp⟩ := hks₀.pointed k v kind hk hro
      obtain ⟨chunk, hc, hid⟩ := hco p.asId m (by rw [← hs]; exact hp)
      exact firstChunk_eq_none.mp hfi chunk hc (by rw [hid]; exact hv)
    have haf : ∀ kind, rowAt ks' k v kind = none := fun kind => h.rowAt_unlisted hru hks hfi hk
    rw [cell_eq_none_iff.mpr hbe, cell_eq_none_iff.mpr haf]
  | some first =>
    obtain ⟨hme, rfl⟩ := mem_of_firstChunk hfi
    cases hm : first.syncMeta.marker with
    | deletion =>
      rw [h.rowless _ first hfi hm k hk]
      exact (cell_eq_none_iff.mpr fun kind => h.rowAt_deletion hru hfi hm hk).symm
    | mutation =>
      have hre := h.changesetFor_mutation hru hks₀.wellFormed hks hwf' hfi hm
        (hch first hme) ⟨rfl, rfl⟩
      obtain ⟨_, hre', hde'⟩ := changesetFor_describes hwf' ⟨s, first.id.version, now, me⟩
      rw [hre] at hre'
      obtain rfl := Except.ok.inj hre'
      exact ((hch first hme).describes hks₀.wellFormed hm).unique hde' hk

end Versions

/-! ## The restore -/

theorem restoredAs_of_restoresWhole {ks₀ : Keyspace}
    (hks₀ : Sound s ks₀) (hsn : takeSnapshot ks₀ s = .ok snapshot) (hks : Sound s ks)
    (h : RestoresWhole ks₀ ks s snapshot now me) :
    ∃ ks', restoreSnapshot ks s snapshot now me = .ok ks' ∧ RestoredAs s snapshot ks₀ ks' := by
  obtain ⟨_, hsn₀, hch, -⟩ := takeSnapshot_spec hks₀.wellFormed s
  obtain rfl := Except.ok.inj (hsn.symm.trans hsn₀)
  obtain ⟨_, _, ks', hres, hwf', hru⟩ :=
    restoreSnapshot_spec hks.wellFormed (entriesIn_of_takeSnapshot hks₀.wellFormed hsn)
  obtain ⟨snapshot', hsn', hch', hco', -⟩ := takeSnapshot_spec hwf' s
  refine ⟨ks', hres, ⟨fun rest => ?_, snapshot', hsn', fun v last hla => ?_,
    fun v chunk' hno hla' => ?_⟩⟩
  · have hk : s.encode <+: s.encode ++ rest := prefix_append _ _
    have hus := UserKey.of_isPrefix hk
    obtain ⟨r, hge, hr⟩ := getFromRaw_spec (hks₀.wellFormed.rowsDecode hus)
    refine ⟨_, hge, getFromRaw_of_readsAt (hwf'.rowsDecode hus) (hr.congr fun v _ => ?_)⟩
    exact h.cell_eq hru hks₀ hsn hks hwf' hk
  · obtain ⟨first, hfi⟩ : ∃ first, firstChunk snapshot v = some first := by
      refine Option.ne_none_iff_exists'.mp fun hno => ?_
      rw [lastChunk_eq_none.mpr hno] at hla
      cases hla
    obtain ⟨hfm, hfv⟩ := mem_of_firstChunk hfi
    obtain ⟨hlm, hlv⟩ := mem_of_lastChunk hla
    have hma := h.markers v first last hfi hla
    -- the version is listed, and its last chunk is the stamped sync point
    obtain ⟨m, hhe, hmk⟩ := h.isHead hru hfi
    obtain ⟨_, hc, hid⟩ := hco' ⟨now, v, me⟩ m hhe.held
    obtain ⟨chunk', hla'⟩ := exists_lastChunk hc
    rw [hid] at hla'
    obtain ⟨hc', hv'⟩ := mem_of_lastChunk hla'
    have hm' : chunk'.syncMeta.marker = first.syncMeta.marker := by
      have hsa : (s.withSpId chunk'.id).SameVersion ⟨s, v, now, me⟩ := ⟨hv', rfl⟩
      rw [((isHead_of_lastChunk hwf' hsn' hla').unique hhe hsa).2, hmk]
    refine ⟨chunk', hla', hm'.trans hma, ?_⟩
    cases hm : first.syncMeta.marker with
    | deletion =>
      rw [(hch' chunk' hc').deletion (hm'.trans hm), (hch last hlm).deletion (hma.symm.trans hm)]
    | mutation =>
      have hre := h.changesetFor_mutation hru hks₀.wellFormed hks hwf' hfi hm
        (hch first hfm) (p := s.withSpId chunk'.id) ⟨hv', rfl⟩
      rw [(hch' chunk' hc').mutation (hm'.trans hm)] at hre
      -- first and last chunk of a version list the same rows
      have hsa : changesetFor ks₀ (s.withSpId first.id) = changesetFor ks₀ (s.withSpId last.id) := by
        have hts : (s.withSpId first.id).ts = (s.withSpId last.id).ts := hfv.trans hlv.symm
        rw [changesetFor, changesetFor, hts]
        rfl
      rw [(hch first hfm).mutation hm, (hch last hlm).mutation (hma.symm.trans hm)] at hsa
      exact (Except.ok.inj hre).trans (Except.ok.inj hsa)
  · have hfi := lastChunk_eq_none.mp hno
    obtain ⟨hc', rfl⟩ := mem_of_lastChunk hla'
    refine ⟨h.marker_unlisted hru (q := s.withSpId chunk'.id) hfi rfl
      (hch' chunk' hc').held, fun k kind hk => ?_⟩
    exact h.rowAt_unlisted hru hks hfi hk

/-- **The authoritative restore.**  In every state that a store can reach, restoring a snapshot taken
on the way succeeds and restores all of it, if the restore meets the condition. -/
theorem authoritative_restore {w : Archive} (hreach : Archive.Reachable s me w) {snapshot : Snapshot}
    {ks₀ : Keyspace} (htaken : (snapshot, ks₀) ∈ w.taken) {now : Epoch}
    (h : RestoresWhole ks₀ w.store s snapshot now me) :
    ∃ ks', restoreSnapshot w.store s snapshot now me = .ok ks' ∧ RestoredAs s snapshot ks₀ ks' := by
  have hv := Archive.valid_of_reachable hreach
  obtain ⟨hso, hs⟩ := hv.taken snapshot ks₀ htaken
  exact restoredAs_of_restoresWhole hso hs hv.store h

end Restore

/-! ## Two restores of one snapshot

A node commits a key, takes a snapshot and commits another key.  Restoring the snapshot once takes the
second key away again.  Restoring it a second time marks the first commit's version as deleted. -/

section Samples
open Sample

def overgrownStore : Keyspace :=
  after (commit committedStore committedStore 150 (node 1) none [.put scope (kv 'j') [2]])

def restoredStore : Keyspace :=
  after (restoreSnapshot overgrownStore scope [mutationChunk] 200 (node 1))

/-- The store after it is restored again. -/
def restoredTwiceStore : Keyspace :=
  after (restoreSnapshot restoredStore scope [mutationChunk] 300 (node 1))

/-- The history up to the first restore. -/
def overgrown : Archive :=
  ⟨overgrownStore, [overgrownStore, committedStore, ∅], [([mutationChunk], committedStore)]⟩

theorem reachable_overgrown : Archive.Reachable scope (node 1) overgrown := by
  have hf : commit ∅ ∅ 100 (node 1) none [.put scope (kv 'k') [1]] = .ok committedStore :=
    eq_ok_after (by decide +kernel)
  have hsn : takeSnapshot committedStore scope = .ok [mutationChunk] := by decide +kernel
  have hs : commit committedStore committedStore 150 (node 1) none [.put scope (kv 'j') [2]] =
      .ok overgrownStore := eq_ok_after (by decide +kernel)
  have hc := Archive.Reachable.initial.step (Archive.Step.commit (s := scope) mem_cons_self hf)
  have ht := hc.step (Archive.Step.take hsn)
  exact ht.step (Archive.Step.commit mem_cons_self hs)

theorem firstChunk_mutationChunk
    (h : firstChunk [mutationChunk] v = some chunk) : v = 100 ∧ chunk = mutationChunk := by
  obtain ⟨hc, hv⟩ := mem_of_firstChunk h
  obtain rfl := mem_singleton.mp hc
  exact ⟨hv.symm, rfl⟩

theorem restoresWhole_overgrown :
    RestoresWhole committedStore overgrownStore scope [mutationChunk] 200 (node 1) where
  kept := by
    intro q m hq hs hno
    have hva := Archive.valid_of_reachable reachable_overgrown
    exact absurd (mem_sweptPoints_of_no_parent hva.store.wellFormed rfl hs hq) hno
  unmarked := by
    intro id hid chunk hfi
    have hun : unmatched overgrownStore scope [mutationChunk] = [⟨150, 150, node 1⟩] := by
      decide +kernel
    rw [hun, mem_singleton] at hid
    obtain ⟨hv, -⟩ := firstChunk_mutationChunk hfi
    rw [hid] at hv
    exact absurd hv (by decide)
  markers := by
    intro v first last hfi hla
    obtain ⟨hc, -⟩ := mem_of_lastChunk hla
    rw [(firstChunk_mutationChunk hfi).2, mem_singleton.mp hc]
  rowless := by
    intro v first hfi hm
    rw [(firstChunk_mutationChunk hfi).2] at hm
    cases hm

/-- The first restore takes the second commit away and restores the snapshot. -/
theorem authoritative_restore_once :
    ∃ ks', restoreSnapshot overgrownStore scope [mutationChunk] 200 (node 1) = .ok ks' ∧
      RestoredAs scope [mutationChunk] committedStore ks' :=
  authoritative_restore reachable_overgrown mem_cons_self restoresWhole_overgrown

/-- The second restore of the same snapshot leaves its version marked as deleted. -/
theorem restore_twice_marks_deleted : ∃ w ks', Archive.Reachable scope (node 1) w ∧
    ([mutationChunk], committedStore) ∈ w.taken ∧
    restoreSnapshot w.store scope [mutationChunk] 300 (node 1) = .ok ks' ∧
    ¬ RestoredAs scope [mutationChunk] committedStore ks' := by
  have hre : restoreSnapshot overgrownStore scope [mutationChunk] 200 (node 1) =
      .ok restoredStore := eq_ok_after (by decide +kernel)
  have hag : restoreSnapshot restoredStore scope [mutationChunk] 300 (node 1) =
      .ok restoredTwiceStore := eq_ok_after (by decide +kernel)
  refine ⟨overgrown.set restoredStore, restoredTwiceStore,
    reachable_overgrown.step (Archive.Step.restore mem_cons_self hre),
    mem_cons_self, hag, fun h => ?_⟩
  -- the latest chunk of version 100 is a deletion
  have hma : ((takeSnapshot restoredTwiceStore scope).toOption.bind fun snapshot =>
      (lastChunk snapshot 100).map fun chunk => chunk.syncMeta.marker) = some .deletion := by
    decide +kernel
  obtain ⟨_, hsn, hli, -⟩ := h.listed
  obtain ⟨_, hla, hm, -⟩ := hli 100 mutationChunk (by decide +kernel)
  rw [hsn] at hma
  simp only [Except.toOption, Option.bind_some, hla, Option.map_some] at hma
  rw [hm] at hma
  cases hma

end Samples

end Myrmic
