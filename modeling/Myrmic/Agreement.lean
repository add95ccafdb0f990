import Myrmic.Cluster
import Myrmic.Wire

/-!
# Agreement of replicas

Two replicas that report the same latest heads for a scope should read the same values.  Rows carry
their version but not their epoch, so this rests on every store keeping, for each version, either the
commit's rows under a mutation head or no rows under a deletion head.

Three kinds of steps can break that.  A chunk that is older than the head it meets, and of the other
marker, still writes or erases rows below that head.  A node that holds an old mutation sync point
under a newer deletion serves it as a mutation without rows.  A restore takes the first chunk a
snapshot lists for a version, even when the version was deleted later in the snapshot, and afterwards
marks a version it has just re-recorded as deleted when its sync point carried another epoch.
`OrderlyStep` says that a step does none of this.  **In every run of orderly steps the replicas
agree** (`agreement`); a run with a single late chunk is enough to make them disagree
(`late_chunk_breaks_agreement`).
-/
namespace Myrmic
open OrderedBytes VersionedCell Fallible List Function Cluster Cluster.Step
section Runs
variable [Postcard]

/-! ## Orderly steps -/

/-- A chunk is recorded in order: it is newer than the head of its version or carries the same
marker, unless its sync point is held already. -/
def RecordsInOrder (ks : Keyspace) (s : Scope) (chunk : Chunk) : Prop :=
  metaAt ks (s.withSpId chunk.id) = none →
    ∀ q m, IsHead ks q m → q.SameVersion (s.withSpId chunk.id) →
      q.Before (s.withSpId chunk.id) ∨ m.marker = chunk.syncMeta.marker

/-- A mutation is served only while it is what the version still is. -/
def ServesCurrent (ks : Keyspace) (s : Scope) (chunk : Chunk) : Prop :=
  chunk.syncMeta.marker = .mutation →
    ∀ q m, IsHead ks q m → q.SameVersion (s.withSpId chunk.id) → m.marker = .mutation

def Restamps (ks : Keyspace) (s : Scope) (snapshot : Snapshot) (v : Version) : Prop :=
  (∃ chunk, firstChunk snapshot v = some chunk) ∨ ∃ id ∈ unmatched ks s snapshot, id.version = v

/-- A restore is orderly: a version whose first chunk is a mutation was not deleted later in the
snapshot and is not among the versions it marks as deleted, and of the versions it re-stamps no newer
sync point survives the sweep. -/
structure RestoresInOrder (ks : Keyspace) (s : Scope) (snapshot : Snapshot) (now : Epoch)
    (me : NodeId) : Prop where
  undeleted : ∀ v first last, firstChunk snapshot v = some first → lastChunk snapshot v = some last →
    first.syncMeta.marker = .mutation → last.syncMeta.marker = .mutation
  unmarked : ∀ id ∈ unmatched ks s snapshot, ∀ first, firstChunk snapshot id.version = some first →
    first.syncMeta.marker = .deletion
  newest : ∀ v, Restamps ks s snapshot v → ∀ (q : SyncPoint) m, metaAt ks q = some m →
    q.scope = s → q.ts = v → q ∉ sweptPoints ks s snapshot → q.Before ⟨s, v, now, me⟩

/-- The condition on a step, in terms of the state before it. -/
def OrderlyStep (s : Scope) (w : Cluster) : Cluster.Action → Prop
  | .commit .. => True
  | .take _ => True
  | .serve n chunk => ServesCurrent (w.store n) s chunk
  | .apply n chunk => RecordsInOrder (w.store n) s chunk
  | .restore n snapshot now => RestoresInOrder (w.store n) s snapshot now n

/-! ## The invariant -/

/-- What a chunk under way says: keys of the scope, a committed version, and for a mutation the rows
of the commit. -/
structure ChunkTrue (s : Scope) (effect : Version → Effect) (committed : List Version)
    (chunk : Chunk) : Prop where
  entriesIn : EntriesIn s chunk.entries
  known : chunk.id.version ∈ committed
  describes : chunk.syncMeta.marker = .mutation →
    Describes s chunk.entries (effect chunk.id.version)

/-- What a snapshot says: the same of each version that it lists as a mutation and that was not
deleted in it. -/
structure SnapshotTrue (s : Scope) (effect : Version → Effect) (committed : List Version)
    (snapshot : Snapshot) : Prop where
  entriesIn : ∀ chunk ∈ snapshot, EntriesIn s chunk.entries
  known : ∀ chunk ∈ snapshot, chunk.id.version ∈ committed
  describes : ∀ v first last, firstChunk snapshot v = some first → lastChunk snapshot v = some last →
    first.syncMeta.marker = .mutation → last.syncMeta.marker = .mutation →
    Describes s first.entries (effect v)

/-- The invariant of orderly runs, for the effects the commits had. -/
structure Coherent (s : Scope) (effect : Version → Effect) (w : Cluster) : Prop where
  wellFormed : ∀ n, WellFormed (w.store n)
  past : ∀ n, ∀ ks ∈ w.past n, WellFormed ks
  settled : ∀ n v, Live s v (effect v) (w.store n) ∨ Dead s v (w.store n)
  known : ∀ n (p : SyncPoint) m, p.scope = s → metaAt (w.store n) p = some m → p.ts ∈ w.committed
  served : ∀ chunk ∈ w.served, ChunkTrue s effect w.committed chunk
  taken : ∀ snapshot ∈ w.taken, SnapshotTrue s effect w.committed snapshot

theorem coherent_initial (s : Scope) (eff : Version → Effect) : Coherent s eff .initial where
  wellFormed := fun _ => wellFormed_empty
  past := by
    intro n ks hks
    rw [mem_singleton.mp hks]
    exact wellFormed_empty
  settled := by
    intro n v
    refine .inr ⟨fun p m _ _ hp => ?_, fun k _ => ?_⟩
    · have := hp.held
      simp [metaAt, initial] at this
    · simp [cell, rowAt, initial]
  known := by
    intro n p m _ hp
    simp [metaAt, initial] at hp
  served := by simp [initial]
  taken := by simp [initial]

variable {s : Scope} {eff : Version → Effect} {w : Cluster} {n : NodeId} {ks' : Keyspace}
  (h : Coherent s eff w) {snap : Snapshot} {committed : List Version} {ts : Version} {c : Chunk}
  {k : Bytes}
include h

/-- Replacing one store keeps the invariant when the new store is well formed, settled and known. -/
theorem Coherent.set (hwf : WellFormed ks') (hse : ∀ v, Live s v (eff v) ks' ∨ Dead s v ks')
    (hkn : ∀ (p : SyncPoint) m, p.scope = s → metaAt ks' p = some m → p.ts ∈ w.committed) :
    Coherent s eff (w.set n ks') where
  __ := h
  wellFormed := by
    intro n'
    by_cases hn : n' = n
    · simpa [Cluster.set, hn] using hwf
    · simpa [Cluster.set, hn] using h.wellFormed n'
  past := by
    intro n' ks hks
    by_cases hn : n' = n
    · subst hn
      simp only [Cluster.set, update_self, mem_cons] at hks
      rcases hks with rfl | hks
      · exact hwf
      · exact h.past n' ks hks
    · exact h.past n' ks (by simpa [Cluster.set, hn] using hks)
  settled := by
    intro n' v
    by_cases hn : n' = n
    · simpa [Cluster.set, hn] using hse v
    · simpa [Cluster.set, hn] using h.settled n' v
  known := by
    intro n' p m hs hp
    by_cases hn : n' = n
    · exact hkn p m hs (by simpa [Cluster.set, hn] using hp)
    · exact h.known n' p m hs (by simpa [Cluster.set, hn] using hp)

/-! ## What one step preserves -/

/-- A chunk of a settled store is true when its mutation is current. -/
theorem chunkTrue_of_isChunk (hc : IsChunk (w.store n) s c) (hcu : ServesCurrent (w.store n) s c) :
    ChunkTrue s eff w.committed c where
  entriesIn := hc.entriesIn (h.wellFormed n)
  known := h.known n _ _ rfl hc.held
  describes := by
    intro hm
    obtain ⟨q, m, hq, hs⟩ := exists_isHead (h.wellFormed n) hc.held
    have hl := Live.of_head (h.settled n c.id.version) hs.2 hs.1 hq (hcu hm q m hq hs)
    have hd := hc.describes (h.wellFormed n) hm
    exact ⟨hd.inScope, fun e he => hl.cells e.1 (hd.inScope e he) ▸ hd.sound e he,
      fun k hk o ho => hd.complete k hk o (hl.cells k hk ▸ ho)⟩

theorem coherent_take (hsn : takeSnapshot (w.store n) s = .ok snap) :
    Coherent s eff { w with taken := snap :: w.taken } := by
  have hwf := h.wellFormed n
  obtain ⟨snapshot', hsn', hch, -, -⟩ := takeSnapshot_spec hwf s
  have hco := hsn
  rw [hsn'] at hco
  cases hco
  refine { h with taken := fun snapshot' hme => ?_ }
  rcases mem_cons.mp hme with rfl | hme
  · refine ⟨fun c hc => (hch c hc).entriesIn hwf, fun c hc => h.known n _ _ rfl (hch c hc).held,
      fun v first last hfi hla hm hml => ?_⟩
    obtain ⟨hc, rfl⟩ := mem_of_firstChunk hfi
    obtain ⟨-, hlv⟩ := mem_of_lastChunk hla
    have hhe := isHead_of_lastChunk hwf hsn hla
    -- the version is current, so the first chunk is the commit's
    refine (chunkTrue_of_isChunk h (hch first hc) fun _ q m hq hsa => ?_).describes hm
    have hql : q.SameVersion (s.withSpId last.id) := hsa.trans ⟨hlv.symm, rfl⟩
    rw [(hq.unique hhe hql).2]
    exact hml
  · exact h.taken snapshot' hme

theorem coherent_apply (hm : c ∈ w.served) (ha : applyChunk (w.store n) s c = .ok ks')
    (hor : RecordsInOrder (w.store n) s c) : Coherent s eff (w.set n ks') := by
  have hwf := h.wellFormed n
  have ht := h.served c hm
  rcases applyChunk_cases hwf ht.entriesIn ha with ⟨-, rfl⟩ | ⟨hh, hwf', hr, ho⟩
  · exact h.set hwf (h.settled n) (h.known n)
  · have hk : ∀ (p : SyncPoint) m, p.scope = s → metaAt ks' p = some m → p.ts ∈ w.committed := by
      intro p m hs hp
      by_cases hv : p.ts = c.id.version
      · exact hv ▸ ht.known
      · rw [(ho p.ts hv).points p hs rfl] at hp
        exact h.known n p m hs hp
    refine h.set hwf' (fun v => ?_) hk
    by_cases hv : v = c.id.version
    · subst hv
      exact hr.settled hwf rfl ht.describes (h.settled n _) (hor hh)
    · exact (ho v hv).looksSame.settled (h.settled n v)

omit h

omit [Postcard] in
theorem ChunkTrue.commit (h : ChunkTrue s eff committed c) (hts : ts ∉ committed) (e : Effect) :
    ChunkTrue s (update eff ts e) (ts :: committed) c := by
  have hne : c.id.version ≠ ts := fun he => hts (he ▸ h.known)
  refine ⟨h.entriesIn, mem_cons_of_mem _ h.known, fun hm => ?_⟩
  rw [update_of_ne hne]
  exact h.describes hm

omit [Postcard] in
theorem SnapshotTrue.commit
    (h : SnapshotTrue s eff committed snap) (hts : ts ∉ committed) (e : Effect) :
    SnapshotTrue s (update eff ts e) (ts :: committed) snap := by
  refine ⟨h.entriesIn, fun c hc => mem_cons_of_mem _ (h.known c hc),
    fun v first last hf hl hm hml => ?_⟩
  obtain ⟨hc, rfl⟩ := mem_of_firstChunk hf
  have hne : first.id.version ≠ ts := fun he => hts (he ▸ h.known first hc)
  rw [update_of_ne hne]
  exact h.describes _ first last hf hl hm hml

theorem Coherent.dead_of_not_committed (h : Coherent s eff w) {v : Version}
    (hv : v ∉ w.committed) (n : NodeId) : Dead s v (w.store n) := by
  have hn : ∀ p : SyncPoint, p.scope = s → p.ts = v → metaAt (w.store n) p = none := by
    intro p hs hp
    refine Option.eq_none_iff_forall_not_mem.mpr fun m hm => hv ?_
    exact hp ▸ h.known n p m hs hm
  refine ⟨fun p m hs hp hh => ?_, cells_of_no_points (h.settled n v) hn⟩
  have := hh.held
  rw [hn p hs hp] at this
  cases this

/-- A commit brings the effect of its version about. -/
theorem coherent_commit (h : Coherent s eff w) {seen : Keyspace}
    {writes : List Write} (hse : seen ∈ w.past n) (hts : ts ∉ w.committed)
    (hco : Myrmic.commit seen (w.store n) ts n none writes = .ok ks') :
    Coherent s (update eff ts fun k => cell ks' k ts)
      { w.set n ks' with committed := ts :: w.committed } := by
  obtain ⟨ks'', hco', hwf', -, hot, hin, hac, hke⟩ :=
    commit_spec (h.past n seen hse) (h.wellFormed n)
  obtain rfl : ks'' = ks' := by
    rw [hco] at hco'
    exact (Except.ok.inj hco').symm
  -- at the commit's own version there is nothing but what it wrote
  have hde := fun n' => h.dead_of_not_committed hts n'
  have hsel : Live s ts (fun k => cell ks'' k ts) ks'' ∨ Dead s ts ks'' := by
    by_cases hs : s ∈ activeScopes writes
    · obtain ⟨_, hp⟩ := hac s hs
      refine .inl ⟨⟨_, _, rfl, rfl, isHead_of_newest hp fun q m hq hsa hne => ?_, rfl⟩,
        fun k _ => rfl⟩
      rw [hke q fun s' _ he => hne ?_] at hq
      · have hq' := h.known n q m hsa.2 hq
        rw [show q.ts = ts from hsa.1] at hq'
        exact absurd hq' hts
      · have hss : q.scope = s' := by rw [he]
        rw [he, ← hss, hsa.2]
    · exact .inr ((hin s hs).looksSame.dead (hde n))
  have hkn : ∀ (p : SyncPoint) m, p.scope = s → metaAt ks'' p = some m →
      p.ts ∈ ts :: w.committed := by
    intro p m hs hp
    by_cases hv : p.ts = ts
    · exact hv ▸ mem_cons_self
    · rw [(hot s p.ts hv).points p hs rfl] at hp
      exact mem_cons_of_mem _ (h.known n p m hs hp)
  have hba : Coherent s (update eff ts fun k => cell ks'' k ts)
      { w with committed := ts :: w.committed } := by
    refine ⟨h.wellFormed, h.past, fun n' v => ?_,
      fun n' p m hs hp => mem_cons_of_mem _ (h.known n' p m hs hp),
      fun c hc => (h.served c hc).commit hts _, fun S hS => (h.taken S hS).commit hts _⟩
    by_cases hv : v = ts
    · exact .inr (hv ▸ hde n')
    · rw [update_of_ne hv]
      exact h.settled n' v
  refine hba.set hwf' (fun v => ?_) hkn
  by_cases hv : v = ts
  · rw [hv, update_self]
    exact hsel
  · rw [update_of_ne hv]
    exact (hot s v hv).looksSame.settled (h.settled n v)

section Restore
variable {ks ks₁ ks₂ ks' : Keyspace} {snap : Snapshot} {now : Epoch} {me : NodeId} {v : Version}

theorem isHead_restamped (ho : RestoresInOrder ks s snap now me)
    (hr : RestoreRun ks s snap now me ks₁ ks₂ ks')
    (hre : Restamps ks s snap v) {m : SyncMeta} (hp : metaAt ks' ⟨s, v, now, me⟩ = some m) :
    IsHead ks' ⟨s, v, now, me⟩ m := by
  refine isHead_of_newest hp fun q m' hq hsa hne => ?_
  obtain ⟨rfl, hs⟩ : q.ts = v ∧ q.scope = s := hsa
  rw [metaAt_restored_of_ne hr hs hne] at hq
  split at hq
  · cases hq
  · next hn => exact ho.newest q.ts hre q m' hq hs rfl hn

/-- A version that an orderly restore re-stamps has lost the sync point it is re-stamped as. -/
theorem metaAt_swept_restamped (ho : RestoresInOrder ks s snap now me)
    (hs : SweptTo ks s snap ks₁) (hre : Restamps ks s snap v) :
    metaAt ks₁ ⟨s, v, now, me⟩ = none := by
  rw [hs.points]
  split
  · rfl
  · next hn =>
    refine Option.eq_none_iff_forall_not_mem.mpr fun m hm => ?_
    exact SyncPoint.Before.irrefl _ (ho.newest v hre _ m hm rfl rfl hn)

/-- The rows a restore finds when it re-records a settled version are the commit's or none. -/
theorem cells_swept (hs : SweptTo ks s snap ks₁) {e : Effect} (hse : Live s v e ks ∨ Dead s v ks)
    (hk : s.encode <+: k) : cell ks₁ k v = none ∨ cell ks₁ k v = e k := by
  by_cases hp : ∃ p ∈ sweptPoints ks s snap, p.ts = v
  · refine .inl (cell_eq_none_iff.mpr fun kind => ?_)
    rw [hs.rows k v kind hk, if_pos hp]
  · have hsa : cell ks₁ k v = cell ks k v :=
      cell_congr fun kind => by rw [hs.rows k v kind hk, if_neg hp]
    rw [hsa]
    rcases hse with hl | hd
    · exact .inr (hl.cells k hk)
    · exact .inl (hd.cells k hk)

/-- **A restore keeps every version settled** when it is orderly and the snapshot is true. -/
theorem settled_restore (hwf : WellFormed ks) (htr : SnapshotTrue s eff committed snap)
    (hor : RestoresInOrder ks s snap now me)
    (hru : RestoreRun ks s snap now me ks₁ ks₂ ks')
    (hse : Live s v (eff v) ks ∨ Dead s v ks) : Live s v (eff v) ks' ∨ Dead s v ks' := by
  have hce : ∀ k, s.encode <+: k → cell ks' k v = cell ks₂ k v := fun k hk =>
    cell_congr fun kind => hru.marked.rows k kind v (UserKey.of_isPrefix hk)
  cases hfi : firstChunk snap v with
  | some c =>
    have hre : Restamps ks s snap v := .inl ⟨c, hfi⟩
    have hno := metaAt_swept_restamped hor hru.swept hre
    have hrec := hru.stamped v
    rw [hfi] at hrec
    obtain ⟨-, sm, hmk, -, hrec⟩ := hrec.resolve_left fun hc => hc.1 hno
    have hp₂ : metaAt ks₂ ⟨s, v, now, me⟩ = some sm := by rw [hrec.points _ rfl rfl, if_pos rfl]
    cases hm : c.syncMeta.marker with
    | mutation =>
      -- the re-stamped mutation is not marked as deleted, and its rows are written anew
      have hun : ∀ id ∈ unmatched ks s snap,
          (⟨s, v, now, me⟩ : SyncPoint) ≠ ⟨s, id.version, now, me⟩ := by
        intro id hid he
        have hv : v = id.version := congrArg SyncPoint.ts he
        have := hor.unmarked id hid c (hv ▸ hfi)
        rw [hm] at this
        cases this
      obtain ⟨last, hla⟩ : ∃ last, lastChunk snap v = some last :=
        (mem_of_firstChunk hfi).2 ▸ exists_lastChunk (mem_of_firstChunk hfi).1
      have hde := htr.describes v c last hfi hla hm (hor.undeleted v c last hfi hla hm)
      have hhe := isHead_restamped hor hru hre ((hru.marked.kept _ hun).trans hp₂)
      refine .inl (live_of_newest rfl rfl hhe (hmk.trans hm) fun k hk => ?_)
      rw [hce k hk, hrec.cell_mutation (hmk.trans hm) hk]
      exact cell_applyEntries hde (fun k' hk' => cells_swept hru.swept hse hk') hk
    | deletion =>
      -- marked or not, the re-stamped sync point is a deletion
      have hp' : ∃ m, metaAt ks' ⟨s, v, now, me⟩ = some m ∧ m.marker = .deletion := by
        by_cases hid : ∃ id ∈ unmatched ks s snap, id.version = v
        · obtain ⟨id, hid, rfl⟩ := hid
          exact hru.marked.marked id hid
        · refine ⟨sm, (hru.marked.kept _ fun id hme he => hid ⟨id, hme, ?_⟩).trans hp₂, hmk.trans hm⟩
          exact (congrArg SyncPoint.ts he).symm
      obtain ⟨m, hp', hmd⟩ := hp'
      have hhe := isHead_restamped hor hru hre hp'
      refine .inr (dead_of_newest rfl rfl hhe hmd fun k hk => ?_)
      rw [hce k hk, hrec.cell_deletion (hmk.trans hm) hk]
  | none =>
    by_cases hid : ∃ id ∈ unmatched ks s snap, id.version = v
    · -- swept and left over: a deletion without rows
      have hre : Restamps ks s snap v := .inr hid
      obtain ⟨id, hme, rfl⟩ := hid
      obtain ⟨m, hp', hmd⟩ := hru.marked.marked id hme
      have hhe := isHead_restamped hor hru hre hp'
      refine .inr (dead_of_newest rfl rfl hhe hmd fun k hk => ?_)
      rw [hce k hk, (hru.agreeAt hfi).cells k hk, cell_eq_none_iff]
      intro kind
      rw [hru.swept.rows k _ kind hk, if_pos ⟨_, sweptPoint_of_unmatched hwf hme, rfl⟩]
    · have hag := agree_of_not_listed hru hfi fun id hme hv => hid ⟨id, hme, hv⟩
      exact hag.looksSame.settled hse

end Restore

theorem coherent_restore (h : Coherent s eff w) {now : Epoch} (hme : snap ∈ w.taken)
    (hres : restoreSnapshot (w.store n) s snap now n = .ok ks')
    (hor : RestoresInOrder (w.store n) s snap now n) : Coherent s eff (w.set n ks') := by
  have hwf := h.wellFormed n
  have htr := h.taken snap hme
  obtain ⟨_, _, ks'', hres', hwf', hru⟩ := restoreSnapshot_spec hwf htr.entriesIn
  obtain rfl : ks'' = ks' := by
    rw [hres] at hres'
    exact (Except.ok.inj hres').symm
  refine h.set hwf' (fun v => settled_restore hwf htr hor hru (h.settled n v)) fun p m hs hp => ?_
  -- a sync point afterwards was there before, or re-stamps a committed version
  by_cases hre : Restamps (w.store n) s snap p.ts
  · rcases hre with ⟨c, hc⟩ | ⟨id, hid, hv⟩
    · obtain ⟨hc, hv⟩ := mem_of_firstChunk hc
      exact hv ▸ htr.known c hc
    · obtain ⟨-, m', hm'⟩ := sweptPoints_held hwf (sweptPoint_of_unmatched hwf hid)
      exact hv ▸ h.known n _ m' rfl hm'
  · have hfi : firstChunk snap p.ts = none := by
      by_contra hne
      exact hre (.inl (Option.ne_none_iff_exists'.mp hne))
    have hag := agree_of_not_listed hru hfi fun id hid hv => hre (.inr ⟨id, hid, hv⟩)
    exact h.known n p m hs (hag.points p hs rfl ▸ hp)

/-- **Every orderly step keeps the invariant**, for the effects the commits had so far. -/
theorem coherent_step (h : Coherent s eff w) {a : Cluster.Action} {w' : Cluster}
    (ho : OrderlyStep s w a) (hst : Cluster.Step s w a w') :
    ∃ effect', Coherent s effect' w' := by
  cases hst with
  | commit hs hts hco => exact ⟨_, coherent_commit h hs hts hco⟩
  | take hsn => exact ⟨eff, coherent_take h hsn⟩
  | serve hc =>
    exact ⟨eff, { h with served := forall_mem_cons.mpr ⟨chunkTrue_of_isChunk h hc ho, h.served⟩ }⟩
  | apply hm ha => exact ⟨eff, coherent_apply h hm ha ho⟩
  | restore hm hr => exact ⟨eff, coherent_restore h hm hr ho⟩

theorem coherent_of_reachable (h : Cluster.Reachable s (OrderlyStep s) w) :
    ∃ eff, Coherent s eff w := by
  induction h with
  | initial => exact ⟨fun _ _ => none, coherent_initial s _⟩
  | step _ hco hs ih =>
    obtain ⟨eff, hc⟩ := ih
    exact coherent_step hc hco hs

/-! ## Agreement -/

/-- What a node reports of a scope: each version with the epoch and the marker of its latest head. -/
def reportedHeads (ks : Keyspace) (s : Scope) :
    Except String (List (Version × Epoch × SyncMarker)) := do
  let (lower, upper) ← keyRange s.syncPoint
  let heads ← collectLatestHeads ks lower upper
  return heads.map fun head => (head.1.ts, head.1.epoch, head.2.marker)

theorem reportedHeads_spec {ks : Keyspace} (h : WellFormed ks) :
    ∃ heads, reportedHeads ks s = .ok heads ∧ ∀ v epoch marker, (v, epoch, marker) ∈ heads ↔
      ∃ p m, p.scope = s ∧ p.ts = v ∧ p.epoch = epoch ∧ m.marker = marker ∧ IsHead ks p m := by
  obtain ⟨_, _, H, hr, hhe, hm, -⟩ := collectLatestHeads_spec h s
  refine ⟨H.map fun head => (head.1.ts, head.1.epoch, head.2.marker), ?_, fun v epoch marker => ?_⟩
  · simp [reportedHeads, hr, hhe, bind, Except.bind, pure, Except.pure]
  · rw [mem_map]
    constructor
    · rintro ⟨⟨p, m⟩, hp, he⟩
      obtain ⟨hs, hh⟩ := (hm p m).mp hp
      cases he
      exact ⟨p, m, hs, rfl, rfl, rfl, hh⟩
    · rintro ⟨p, m, hs, rfl, rfl, rfl, hh⟩
      exact ⟨(p, m), (hm p m).mpr ⟨hs, hh⟩, rfl⟩

theorem Coherent.cells_eq (h : Coherent s eff w) {m : NodeId}
    {heads heads' : List (Version × Epoch × SyncMarker)}
    (hm : reportedHeads (w.store m) s = .ok heads) (hn : reportedHeads (w.store n) s = .ok heads')
    (hsa : ∀ head, head ∈ heads ↔ head ∈ heads') (hk : s.encode <+: k) :
    cell (w.store m) k v = cell (w.store n) k v := by
  obtain ⟨_, hm', hme⟩ := reportedHeads_spec (h.wellFormed m)
  obtain ⟨_, hn', hmem⟩ := reportedHeads_spec (h.wellFormed n)
  obtain rfl := Except.ok.inj (hm.symm.trans hm')
  obtain rfl := Except.ok.inj (hn.symm.trans hn')
  rcases h.settled m v with hlm | hdm
  · obtain ⟨p, sm, hs, hv, hp, hmk⟩ := hlm.head
    obtain ⟨q, sm', hqs, hqv, -, hmk', hq⟩ := (hmem v p.epoch sm.marker).mp
      ((hsa _).mp ((hme _ _ _).mpr ⟨p, sm, hs, hv, rfl, rfl, hp⟩))
    have hln := Live.of_head (h.settled n v) hqs hqv hq (hmk'.trans hmk)
    rw [hlm.cells k hk, hln.cells k hk]
  · rcases h.settled n v with hln | hdn
    · obtain ⟨p, sm, hs, hv, hp, hmk⟩ := hln.head
      obtain ⟨q, sm', hqs, hqv, -, hmk', hq⟩ := (hme v p.epoch sm.marker).mp
        ((hsa _).mpr ((hmem _ _ _).mpr ⟨p, sm, hs, hv, rfl, rfl, hp⟩))
      have hlm := Live.of_head (h.settled m v) hqs hqv hq (hmk'.trans hmk)
      rw [hlm.cells k hk, hln.cells k hk]
    · rw [hdm.cells k hk, hdn.cells k hk]

/-- **Agreement.**  In every run of orderly steps, two nodes that report the same latest heads read
the same value, or both none, under every key of the scope. -/
theorem agreement (hreach : Cluster.Reachable s (OrderlyStep s) w) {m n : NodeId}
    {heads heads' : List (Version × Epoch × SyncMarker)}
    (hm : reportedHeads (w.store m) s = .ok heads) (hn : reportedHeads (w.store n) s = .ok heads')
    (hsame : ∀ head, head ∈ heads ↔ head ∈ heads') (rest : Bytes) :
    ∃ value, getRaw (w.store m) (s.encode ++ rest) = .ok value ∧
      getRaw (w.store n) (s.encode ++ rest) = .ok value := by
  obtain ⟨_, h⟩ := coherent_of_reachable hreach
  have hk : s.encode <+: s.encode ++ rest := prefix_append _ _
  obtain ⟨r, hg, hr⟩ :=
    getFromRaw_spec ((h.wellFormed m).rowsDecode (UserKey.of_isPrefix hk))
  refine ⟨_, hg, getFromRaw_of_readsAt
    ((h.wellFormed n).rowsDecode (UserKey.of_isPrefix hk)) (hr.congr fun v _ => ?_)⟩
  exact h.cells_eq hm hn hsame hk

end Runs

/-! ## Two runs

A node takes a snapshot of the empty scope and then commits one key.  In the first run it serves the
commit to another node, and the two agree.  In the second it serves the commit, restores the empty
snapshot and serves the deletion; the other node receives the deletion first. -/

section Samples
open Sample

def committedStore : Keyspace := after (commit ∅ ∅ 100 (node 1) none [.put scope (kv 'k') [1]])

/-- The same store after the restore of the empty snapshot. -/
def revertedStore : Keyspace := after (restoreSnapshot committedStore scope [] 200 (node 1))

def mutationChunk : Chunk :=
  ⟨⟨100, 100, node 1⟩, ⟨none, none, .mutation, none⟩, [(scope.encode ++ kv 'k', some [1])]⟩

/-- What the node serves for the version after the restore. -/
def deletionChunk : Chunk := ⟨⟨200, 100, node 1⟩, ⟨none, some 100, .deletion, none⟩, []⟩

def committedCluster : Cluster :=
  { Cluster.initial.set (node 1) committedStore with committed := [100], taken := [[]] }

theorem isChunk_of_takeSnapshot {ks : Keyspace} (h : WellFormed ks) {c : Chunk}
    (hs : takeSnapshot ks scope = .ok [c]) : IsChunk ks scope c := by
  obtain ⟨_, hs', hc, -⟩ := takeSnapshot_spec h scope
  rw [hs] at hs'
  cases hs'
  exact hc c mem_cons_self

theorem wellFormed_committedStore : WellFormed committedStore := by
  obtain ⟨_, hks, hwf, -⟩ := commit_spec wellFormed_empty wellFormed_empty
  rw [committedStore, hks]
  exact hwf

theorem wellFormed_revertedStore : WellFormed revertedStore := by
  have hin : ∀ c ∈ ([] : Snapshot), EntriesIn scope c.entries := by simp
  obtain ⟨_, _, _, hks, hwf, -⟩ := restoreSnapshot_spec wellFormed_committedStore hin
  rw [revertedStore, hks]
  exact hwf

theorem isChunk_mutationChunk : IsChunk committedStore scope mutationChunk :=
  isChunk_of_takeSnapshot wellFormed_committedStore (by decide +kernel)

theorem isChunk_deletionChunk : IsChunk revertedStore scope deletionChunk :=
  isChunk_of_takeSnapshot wellFormed_revertedStore (by decide +kernel)

theorem reachable_committedCluster (condition : Cluster → Cluster.Action → Prop)
    (ht : ∀ w n, condition w (.take n))
    (hc : ∀ w n seen ts writes, condition w (.commit n seen ts writes)) :
    Cluster.Reachable scope condition committedCluster := by
  have he : takeSnapshot (initial.store (node 1)) scope = .ok [] := by decide +kernel
  have hks : commit ∅ ∅ 100 (node 1) none [.put scope (kv 'k') [1]] = .ok committedStore :=
    eq_ok_after (by decide +kernel)
  have hta := Cluster.Reachable.initial.step (ht _ _) (Cluster.Step.take he)
  exact hta.step (hc _ (node 1) ∅ 100 _) (Cluster.Step.commit mem_cons_self not_mem_nil hks)

/-- A commit and its delivery are orderly, and the two nodes agree. -/
theorem agreement_after_delivery : ∃ w, Cluster.Reachable scope (OrderlyStep scope) w ∧
    reportedHeads (w.store (node 1)) scope = .ok [(100, 100, .mutation)] ∧
    reportedHeads (w.store (node 2)) scope = .ok [(100, 100, .mutation)] ∧
    ∃ value, getRaw (w.store (node 1)) (scope.encode ++ kv 'k') = .ok value ∧
      getRaw (w.store (node 2)) (scope.encode ++ kv 'k') = .ok value := by
  have hco := reachable_committedCluster (OrderlyStep scope) (fun _ _ => trivial)
    fun _ _ _ _ _ => trivial
  -- the only head of the store is a mutation
  have hcu : ServesCurrent committedStore scope mutationChunk := by
    intro _ q m hq hsa
    obtain ⟨_, hhe, hme⟩ := reportedHeads_spec wellFormed_committedStore
    have hli : reportedHeads committedStore scope = .ok [(100, 100, .mutation)] := by
      decide +kernel
    rw [hli] at hhe
    have := (hme q.ts q.epoch m.marker).mpr ⟨q, m, hsa.2, rfl, rfl, rfl, hq⟩
    cases hhe
    simpa using (congrArg (fun x => x.2.2) (mem_singleton.mp this))
  have hse := hco.step (a := .serve (node 1) mutationChunk) hcu (serve isChunk_mutationChunk)
  have hor : RecordsInOrder ∅ scope mutationChunk := by
    intro _ q m hq _
    have := hq.held
    simp [metaAt] at this
  have happ : applyChunk ∅ scope mutationChunk = .ok (after (applyChunk ∅ scope mutationChunk)) :=
    eq_ok_after (by decide +kernel)
  have hap := hse.step (a := .apply (node 2) mutationChunk) hor (.apply mem_cons_self happ)
  obtain ⟨w, hw, hm, hn⟩ : ∃ w, Cluster.Reachable scope (OrderlyStep scope) w ∧
      reportedHeads (w.store (node 1)) scope = .ok [(100, 100, .mutation)] ∧
      reportedHeads (w.store (node 2)) scope = .ok [(100, 100, .mutation)] :=
    ⟨_, hap, by decide +kernel, by decide +kernel⟩
  exact ⟨w, hw, hm, hn, agreement hw hm hn (fun _ => Iff.rfl) _⟩

/-- A chunk that arrives after the deletion that replaced it brings its rows back: the two nodes
report the same head, a deletion, and only one of them still reads the value. -/
theorem late_chunk_breaks_agreement : ∃ w, Cluster.Reachable scope (fun _ _ => True) w ∧
    ∃ heads, reportedHeads (w.store (node 1)) scope = .ok heads ∧
      reportedHeads (w.store (node 2)) scope = .ok heads ∧
      getRaw (w.store (node 1)) (scope.encode ++ kv 'k') = .ok none ∧
      getRaw (w.store (node 2)) (scope.encode ++ kv 'k') =
        .ok (some (scope.encode ++ kv 'k', [1])) := by
  have hco := reachable_committedCluster (fun _ _ => True) (fun _ _ => trivial)
    fun _ _ _ _ _ => trivial
  have hse := hco.step trivial (serve (n := node 1) isChunk_mutationChunk)
  have hre : restoreSnapshot committedStore scope [] 200 (node 1) = .ok revertedStore :=
    eq_ok_after (by decide +kernel)
  have hrev := (hse.step trivial (restore (n := node 1) mem_cons_self hre)).step
    trivial (serve (n := node 1) isChunk_deletionChunk)
  have hde : applyChunk ∅ scope deletionChunk = .ok (after (applyChunk ∅ scope deletionChunk)) :=
    eq_ok_after (by decide +kernel)
  have hla : applyChunk (after (applyChunk ∅ scope deletionChunk)) scope mutationChunk =
      .ok (after (applyChunk (after (applyChunk ∅ scope deletionChunk)) scope mutationChunk)) :=
    eq_ok_after (by decide +kernel)
  have hdel := hrev.step (a := .apply (node 2) deletionChunk) trivial (.apply mem_cons_self hde)
  have hen := hdel.step (a := .apply (node 2) mutationChunk) trivial
    (.apply (mem_cons_of_mem _ mem_cons_self) hla)
  exact ⟨_, hen, [(100, 200, .deletion)], by decide +kernel, by decide +kernel,
    by decide +kernel, by decide +kernel⟩

end Samples

end Myrmic
