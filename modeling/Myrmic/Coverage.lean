import Myrmic.Announce
import Myrmic.Wire

/-!
# Coverage means possession

A node that is judged to hold everything another node holds should hold it.  Three judgements are
made: a node finds itself caught up with an announce (`planCatchup`), a drain finds that a replica's
announce covers its frontier (`coveredBy`), and a drain asks a replica about its heads
(`verifyCoverage`).

All three go by the bare time of a version, while the clock only keeps the pairs of time and node
apart.  Two commits of different nodes at one time are therefore taken for each other.  The first
judgement also goes by a fingerprint of the older heads, which says nothing when a set of heads folds
to zero.  **Coverage means possession for a set of commits exactly when no two of them share a time
and their fingerprints are independent** (`coverage_iff_distinct_times`).
-/
namespace Myrmic
open OrderedBytes VersionedCell Fallible List

/-! ## Commits and the stores that hold them -/

/-- A transaction that a node committed at a time. -/
structure Commit where
  time : Version
  node : NodeId
  writes : List Write
deriving DecidableEq

namespace Commit

/-- The sync point the commit leaves in a scope. -/
def point (c : Commit) (s : Scope) : SyncPoint := ⟨s, c.time, c.time, c.node⟩

def head (c : Commit) : Version × Epoch × NodeId := (c.time, c.time, c.node)

def effect (c : Commit) : Effect := fun k =>
  cell (c.writes.foldl (Write.apply c.time) ∅) k c.time

end Commit

def digest (head : Version × Epoch × NodeId) : Fingerprint :=
  headFingerprint head.1 head.2.1 head.2.2

/-- No two commits share a time. -/
def DistinctTimes (commits : List Commit) : Prop :=
  ∀ c ∈ commits, ∀ d ∈ commits, c.time = d.time → c = d

section Coverage
variable [Postcard] {s : Scope} {commits held : List Commit} {ks ks' : Keyspace}

/-- The stores that hold some of a set of commits: they were committed there, or a store that holds
them served them. -/
inductive Holds (s : Scope) (commits : List Commit) : Keyspace → List Commit → Prop
  | empty : Holds s commits ∅ []
  | commit {ks ks' seen : Keyspace} {held : List Commit} {c : Commit} : Holds s commits ks held →
      c ∈ commits → (∀ d ∈ held, (d.time, d.node) ≠ (c.time, c.node)) → WellFormed seen →
      Myrmic.commit seen ks c.time c.node none c.writes = .ok ks' → Holds s commits ks' (c :: held)
  | receive {ks ks' ks₀ : Keyspace} {held held₀ : List Commit} {c : Commit} {chunk : Chunk} :
      Holds s commits ks held → Holds s commits ks₀ held₀ → c ∈ held₀ →
      chunk.id = (c.point s).asId → IsChunk ks₀ s chunk → applyChunk ks s chunk = .ok ks' →
      Holds s commits ks' (c :: held)

/-- The store `ks'` is judged to hold everything of the scope that `ks` holds. -/
inductive JudgedCovered (s : Scope) (ks ks' : Keyspace) : Prop
  /-- The holder of `ks'` finds itself caught up with an announce of `ks`. -/
  | caughtUp {frontier frontier' : ScopeFrontier} {floored fullReplica : Bool} {now lag : UInt64}
      {sa : ScopeAnnounce} : frontiers ks s = .ok frontier → frontiers ks' s = .ok frontier' →
      (sendAnnounce frontier floored now lag fullReplica).known = some sa →
      planCatchup (known frontier') sa = .caughtUp → JudgedCovered s ks ks'
  /-- The drain of `ks` finds an announce of `ks'` to cover it. -/
  | announced {frontier frontier' : ScopeFrontier} {floored fullReplica : Bool} {now lag : UInt64}
      {points : List SyncPointId} : frontiers ks s = .ok frontier → frontiers ks' s = .ok frontier' →
      coveredBy frontier (sendAnnounce frontier' floored now lag fullReplica) = some points →
      JudgedCovered s ks ks'
  /-- The drain of `ks` asks the holder of `ks'` about all its heads. -/
  | verified {pages : List (List (Version × Epoch))} {subject : Subject} :
      verifyPages ks s = .ok pages →
      (∀ page ∈ pages, verifyCoverage ks' subject s page = .ok true) → JudgedCovered s ks ks'

/-- A store holds a commit of the scope with the rows that it wrote. -/
structure Possesses (s : Scope) (ks : Keyspace) (c : Commit) : Prop where
  point : ∃ m, metaAt ks (c.point s) = some m
  rows : ∀ k, s.encode <+: k → ∀ o, c.effect k = some o → cell ks k c.time = some o

/-- Whenever one store is judged to hold everything another holds, it does. -/
def CoverageMeansPossession (s : Scope) (commits : List Commit) : Prop :=
  ∀ ks ks' held held', Holds s commits ks held → Holds s commits ks' held' →
    JudgedCovered s ks ks' → ∀ c ∈ held, Possesses s ks' c

/-! ## Stores that hold exactly some commits -/

/-- The store's sync points and rows of the scope are those of the given commits. -/
structure HoldsExactly (s : Scope) (ks : Keyspace) (held : List Commit) : Prop where
  wellFormed : WellFormed ks
  points : ∀ p m, p.scope = s → metaAt ks p = some m → m.marker = .mutation ∧ ∃ c ∈ held, p = c.point s
  present : ∀ c ∈ held, ∃ m, metaAt ks (c.point s) = some m
  cells : ∀ c ∈ held, ∀ k, s.encode <+: k → cell ks k c.time = c.effect k
  rowless : ∀ v, (∀ c ∈ held, c.time ≠ v) → ∀ k kind, s.encode <+: k → rowAt ks k v kind = none

theorem holdsExactly_empty : HoldsExactly s ∅ [] where
  wellFormed := wellFormed_empty
  points := by
    intro p m _ hp
    simp [metaAt] at hp
  present := by simp
  cells := by simp
  rowless := by
    intro v _ k kind _
    simp [rowAt]

variable {c : Commit} (h : HoldsExactly s ks held) {chunk : Chunk}
include h

/-- A store that differs from one only at the time of a commit, and holds the commit there. -/
theorem HoldsExactly.cons (hwf' : WellFormed ks') (hnew : ∀ d ∈ held, d.time ≠ c.time)
    (hot : ∀ v, v ≠ c.time → AgreeAt s v ks ks')
    (hpo : ∀ p m, p.scope = s → p.ts = c.time → metaAt ks' p = some m →
      m.marker = .mutation ∧ p = c.point s) (hpr : ∃ m, metaAt ks' (c.point s) = some m)
    (hce : ∀ k, s.encode <+: k → cell ks' k c.time = c.effect k) :
    HoldsExactly s ks' (c :: held) := by
  refine ⟨hwf', fun p m hs hp => ?_, fun d hd => ?_, fun d hd k hk => ?_, fun v hv k kind hk => ?_⟩
  · by_cases hv : p.ts = c.time
    · obtain ⟨hm, rfl⟩ := hpo p m hs hv hp
      exact ⟨hm, c, mem_cons_self, rfl⟩
    · rw [(hot p.ts hv).points p hs rfl] at hp
      obtain ⟨hm, d, hd, hpd⟩ := h.points p m hs hp
      exact ⟨hm, d, mem_cons_of_mem _ hd, hpd⟩
  · rcases mem_cons.mp hd with rfl | hd
    · exact hpr
    · obtain ⟨m, hm⟩ := h.present d hd
      exact ⟨m, ((hot d.time (hnew d hd)).points _ rfl rfl).trans hm⟩
  · rcases mem_cons.mp hd with rfl | hd
    · exact hce k hk
    · exact ((hot d.time (hnew d hd)).cells k hk).trans (h.cells d hd k hk)
  · have hne : v ≠ c.time := fun he => hv c mem_cons_self he.symm
    rw [(hot v hne).rows k kind hk]
    exact h.rowless v (fun d hd => hv d (mem_cons_of_mem _ hd)) k kind hk

theorem HoldsExactly.commit (hac : s ∈ activeScopes c.writes) (hne : ∀ d ∈ held, d.time ≠ c.time)
    {seen : Keyspace} (hse : WellFormed seen)
    (hco : commit seen ks c.time c.node none c.writes = .ok ks') :
    HoldsExactly s ks' (c :: held) := by
  obtain ⟨_, hco', hwf', hro, hot, -, hma, hke⟩ :=
    commit_spec hse h.wellFormed
  obtain rfl := Except.ok.inj (hco.symm.trans hco')
  obtain ⟨_, hpo⟩ := hma s hac
  refine h.cons hwf' hne (hot s) (fun p m hs hv hp => ?_) ⟨_, hpo⟩ fun k hk => ?_
  · by_cases hc : p = c.point s
    · subst hc
      have hm := hp.symm.trans hpo
      rw [Option.some.inj hm]
      exact ⟨rfl, rfl⟩
    · rw [hke p fun s' _ he => hc ?_] at hp
      · obtain ⟨-, d, hd, rfl⟩ := h.points p m hs hp
        exact absurd hv (hne d hd)
      · have hss : p.scope = s' := by rw [he]
        rw [he, ← hss, hs]
        rfl
  · -- nothing was there before at the commit's time
    have hus := UserKey.of_isPrefix hk
    refine cell_congr fun kind => ?_
    rw [hro k c.time kind hus]
    refine rowAt_writes_congr hus (fun kind' => ?_)
    rw [h.rowless c.time hne k kind' hk]
    simp [rowAt]

/-- A chunk of a store that holds exactly some commits tells what the commit did. -/
theorem HoldsExactly.describes (hc : c ∈ held) (hid : chunk.id = (c.point s).asId)
    (hch : IsChunk ks s chunk) :
    chunk.syncMeta.marker = .mutation ∧ Describes s chunk.entries c.effect := by
  obtain ⟨hm, -⟩ := h.points _ _ rfl hch.held
  refine ⟨hm, ?_⟩
  have hd := hch.describes h.wellFormed hm
  have hv : chunk.id.version = c.time := by rw [hid]; rfl
  rw [hv] at hd
  exact ⟨hd.inScope, fun e he => h.cells c hc e.1 (hd.inScope e he) ▸ hd.sound e he,
    fun k hk o ho => hd.complete k hk o ((h.cells c hc k hk).trans ho)⟩

theorem HoldsExactly.receive (hsa : ∀ d ∈ held, d.time = c.time → d = c)
    (hid : chunk.id = (c.point s).asId) (hm : chunk.syncMeta.marker = .mutation)
    (hde : Describes s chunk.entries c.effect) (hap : applyChunk ks s chunk = .ok ks') :
    HoldsExactly s ks' (c :: held) := by
  have hpo : s.withSpId chunk.id = c.point s := by rw [hid]; rfl
  have hve : chunk.id.version = c.time := by rw [hid]; rfl
  rcases applyChunk_cases h.wellFormed hde.inScope hap with
    ⟨⟨m, hhe⟩, rfl⟩ | ⟨hno, hwf', hre, hot⟩
  · -- the sync point is held already
    rw [hpo] at hhe
    obtain ⟨-, d, hd, hpd⟩ := h.points _ m rfl hhe
    obtain rfl := hsa d hd (congrArg SyncPoint.ts hpd).symm
    have hsu : ∀ e, e ∈ d :: held ↔ e ∈ held := fun e =>
      mem_cons.trans (or_iff_right_of_imp fun he => he ▸ hd)
    exact ⟨h.wellFormed, by simpa only [hsu] using h.points, by simpa only [hsu] using h.present,
      by simpa only [hsu] using h.cells, by simpa only [hsu] using h.rowless⟩
  · rw [hpo] at hno hre
    rw [hve] at hot
    have hne : ∀ d ∈ held, d.time ≠ c.time := by
      intro d hd he
      obtain ⟨m, hm⟩ := h.present d hd
      rw [hsa d hd he, hno] at hm
      cases hm
    refine h.cons hwf' hne hot (fun p m hs hv hp => ?_)
      ⟨_, (hre.points _ rfl rfl).trans (if_pos rfl)⟩ fun k hk => ?_
    · rw [hre.points p hs hv] at hp
      split at hp
      · next he =>
        rw [← Option.some.inj hp]
        exact ⟨hm, he.symm⟩
      · obtain ⟨-, d, hd, rfl⟩ := h.points p m hs hp
        exact absurd hv (hne d hd)
    · have hba : ∀ k, s.encode <+: k → cell ks k c.time = none ∨ cell ks k c.time = c.effect k :=
        fun k hk => .inl (cell_eq_none_iff.mpr fun kind => h.rowless c.time hne k kind hk)
      exact (hre.cell_mutation hm hk).trans (cell_applyEntries hde hba hk)

omit h

theorem Holds.exactly (hdi : DistinctTimes commits)
    (ha : ∀ c ∈ commits, s ∈ activeScopes c.writes) (h : Holds s commits ks held) :
    held ⊆ commits ∧ HoldsExactly s ks held := by
  induction h with
  | empty => exact ⟨nil_subset _, holdsExactly_empty⟩
  | commit _ hc hn hs hco ih =>
    obtain ⟨hsu, hex⟩ := ih
    refine ⟨cons_subset.mpr ⟨hc, hsu⟩, hex.commit (ha _ hc) (fun d hd he => hn d hd ?_) hs hco⟩
    rw [hdi d (hsu hd) _ hc he]
  | receive _ _ hc hid hch hap ih ih₀ =>
    obtain ⟨hsu, hex⟩ := ih
    obtain ⟨hsu₀, hex₀⟩ := ih₀
    obtain ⟨hm, hde⟩ := hex₀.describes hc hid hch
    exact ⟨cons_subset.mpr ⟨hsu₀ hc, hsu⟩,
      hex.receive (fun d hd => hdi d (hsu hd) _ (hsu₀ hc)) hid hm hde hap⟩

variable (h : HoldsExactly s ks held) {fr : ScopeFrontier} {held' : List Commit}
  {e : Epoch × NodeId} {ts : Version}
include h

theorem HoldsExactly.isHead (hdi : DistinctTimes held) (hc : c ∈ held) :
    ∃ m, IsHead ks (c.point s) m := by
  obtain ⟨m, hm⟩ := h.present c hc
  refine ⟨m, hm, fun q m' hq hs hb => ?_⟩
  obtain ⟨-, d, hd, rfl⟩ := h.points q m' hs.2 hq
  rw [hdi d hd c hc hs.1] at hb
  exact SyncPoint.Before.irrefl _ hb

/-- The frontier of such a store is the heads of its commits. -/
theorem HoldsExactly.frontier_iff (hd : DistinctTimes held) (hf : frontiers ks s = .ok fr)
    (head : Version × Epoch × NodeId) : fr[head.1]? = some head.2 ↔ ∃ c ∈ held, c.head = head := by
  obtain ⟨_, hf', hl⟩ := frontiers_spec h.wellFormed
  obtain rfl := Except.ok.inj (hf.symm.trans hf')
  obtain ⟨_, _, _⟩ := head
  rw [hl]
  constructor
  · rintro ⟨m, hh⟩
    obtain ⟨-, c, hc, hp⟩ := h.points _ m rfl hh.held
    obtain ⟨-, rfl, rfl, rfl⟩ := SyncPoint.mk.inj hp
    exact ⟨c, hc, rfl⟩
  · rintro ⟨c, hc, he⟩
    cases he
    exact h.isHead hd hc

/-! ## With distinct times and independent fingerprints -/

omit h in
omit [Postcard] in
theorem DistinctTimes.subset (h : DistinctTimes commits) (hs : held ⊆ commits) :
    DistinctTimes held :=
  fun c hc d hd he => h c (hs hc) d (hs hd) he

theorem possesses_of_mem (hc : c ∈ held) : Possesses s ks c :=
  ⟨h.present c hc, fun k hk _ ho => (h.cells c hc k hk).trans ho⟩

omit h in
theorem mem_of_lookup_time (hdi : DistinctTimes commits)
    (hs' : held' ⊆ commits) (h' : HoldsExactly s ks' held') {fr' : ScopeFrontier}
    (hf' : frontiers ks' s = .ok fr') (hc : c ∈ commits)
    (hg : fr'[c.time]? = some e) : c ∈ held' := by
  obtain ⟨d, hd, he⟩ := (h'.frontier_iff (hdi.subset hs') hf' (c.time, e)).mp hg
  have ht : d.time = c.time := congrArg Prod.fst he
  exact hdi d (hs' hd) c hc ht ▸ hd

omit h in
omit [Postcard] in
theorem lookup_of_sufficient {epoch : Epoch} (h : sufficient (known fr) ts epoch = true) :
    ∃ e, fr[ts]? = some e := by
  unfold sufficient known at h
  by_cases he : fr.isEmpty = true
  · simp [he] at h
  · simp only [he, Bool.false_eq_true, if_false, Option.bind_some] at h
    cases hg : fr[ts]? with
    | none => simp [hg] at h
    | some e => exact ⟨e, rfl⟩

omit h in
omit [Postcard] in
/-- The fold that a node compares is the one over its own heads, none counting as zero. -/
theorem foldHeadsAtCut_known (fr : ScopeFrontier) (cut : Version) :
    ((known fr).map fun f => foldHeadsAtCut f cut).getD 0 = foldHeadsAtCut fr cut := by
  unfold known
  by_cases he : fr.isEmpty = true
  · have hn : (∅ : ScopeFrontier).toList = [] := rfl
    rw [Std.ExtTreeMap.isEmpty_iff.mp he]
    simp [foldHeadsAtCut, hn]
  · simp [he]

def headsAtCut (frontier : ScopeFrontier) (cut : Version) : Finset (Version × Epoch × NodeId) :=
  (frontier.toList.filter fun head => head.1 ≤ cut ∧ head.2.1 ≤ cut).toFinset

omit h in
omit [Postcard] in
theorem foldHeadsAtCut_eq (fr : ScopeFrontier) (cut : Version) :
    foldHeadsAtCut fr cut = XorFold.fold digest (headsAtCut fr cut) := by
  refine XorFold.foldl_eq_fold digest ?_
  refine List.Nodup.filter _ ?_
  exact (distinct_toList fr).imp fun hne he => hne (by rw [he])

theorem mem_headsAtCut (hd : DistinctTimes held) (hf : frontiers ks s = .ok fr) {cut : Version}
    {head : Version × Epoch × NodeId} :
    head ∈ headsAtCut fr cut ↔ (∃ c ∈ held, c.head = head) ∧ head.1 ≤ cut ∧ head.2.1 ≤ cut := by
  rw [headsAtCut, mem_toFinset, mem_filter, ← h.frontier_iff hd hf head, ← mem_toList_frontier]
  simp

/-- **With distinct times and independent fingerprints**, a judgement of coverage is right. -/
theorem mem_of_judgedCovered (hdi : DistinctTimes commits)
    (hind : XorFold.Independent digest (commits.map Commit.head).toFinset) (hsu : held ⊆ commits)
    (hsu' : held' ⊆ commits) (h' : HoldsExactly s ks' held') (hj : JudgedCovered s ks ks')
    (hc : c ∈ held) : c ∈ held' := by
  have hd := hdi.subset hsu
  have hd' := hdi.subset hsu'
  cases hj with
  | @caughtUp fr fr' floored _ now lag sa hf hf' hsa hpl =>
    have hge := (h.frontier_iff hd hf c.head).mpr ⟨c, hc, rfl⟩
    obtain ⟨hfo, hex⟩ := planCatchup_eq_caughtUp.mp hpl
    obtain rfl := known_sendAnnounce hsa
    rcases announceScope_spec fr (lagCut floored now lag) with ⟨hfu, -⟩ | ⟨b, -, hb, hpr, hhea⟩
    · rw [hfu] at hex
      obtain ⟨e, hen⟩ := lookup_of_sufficient (hex c.time c.time c.node hge)
      exact mem_of_lookup_time hdi hsu' h' hf' (hsu hc) hen
    · by_cases hel : c.time ≤ b
      · -- below the baseline the folds agree, so the sets do
        have heq := hfo b hb
        rw [foldHeadsAtCut_known, hpr, foldHeadsAtCut_eq, foldHeadsAtCut_eq] at heq
        have hse : headsAtCut fr' b = headsAtCut fr b := by
          refine hind.eq_of_fold_eq ?_ ?_ heq
          · intro head hin
            obtain ⟨⟨d, hd, rfl⟩, -⟩ := (mem_headsAtCut h' hd' hf').mp hin
            exact mem_toFinset.mpr (mem_map_of_mem (hsu' hd))
          · intro head hin
            obtain ⟨⟨d, hd, rfl⟩, -⟩ := (mem_headsAtCut h hd hf).mp hin
            exact mem_toFinset.mpr (mem_map_of_mem (hsu hd))
        have hin : c.head ∈ headsAtCut fr' b := by
          rw [hse]
          exact (mem_headsAtCut h hd hf).mpr ⟨⟨c, hc, rfl⟩, hel, hel⟩
        obtain ⟨⟨d, hdm, he⟩, -⟩ := (mem_headsAtCut h' hd' hf').mp hin
        exact hdi d (hsu' hdm) c (hsu hc) (congrArg Prod.fst he) ▸ hdm
      · have hso := (hhea c.time (c.time, c.node)).mpr ⟨hge, fun hle => hel hle.1⟩
        obtain ⟨e, hen⟩ := lookup_of_sufficient (hex c.time c.time c.node hso)
        exact mem_of_lookup_time hdi hsu' h' hf' (hsu hc) hen
  | @announced fr fr' floored full now lag points hf hf' hco =>
    have hge := (h.frontier_iff hd hf c.head).mpr ⟨c, hc, rfl⟩
    obtain ⟨-, -, hhel⟩ := coveredBy_eq_some hco
    obtain ⟨sa, _, _, hsa, hlo, -⟩ := hhel c.time (c.time, c.node) hge
    obtain rfl := known_sendAnnounce hsa
    exact mem_of_lookup_time hdi hsu' h' hf' (hsu hc) (lookup_of_announced hlo)
  | @verified pages subject hpa hal =>
    obtain ⟨_, hpa', hme⟩ := verifyPages_spec h.wellFormed s
    obtain rfl := Except.ok.inj (hpa.symm.trans hpa')
    obtain ⟨m, hhe⟩ := h.isHead hd hc
    obtain ⟨page, hpag, hin⟩ := mem_flatten.mp ((hme c.time c.time).mpr ⟨c.node, m, hhe⟩)
    obtain ⟨_, hve, hif⟩ := verifyCoverage_spec h'.wellFormed subject s
    obtain rfl := Except.ok.inj ((hal page hpag).symm.trans hve)
    obtain ⟨p, m', hps, hpt, -, hp⟩ := (hif.mp rfl).2 _ hin
    obtain ⟨-, d, hdm, rfl⟩ := h'.points p m' hps hp
    exact hdi d (hsu' hdm) c (hsu hc) hpt ▸ hdm

/-- A store that holds all of another's commits confirms every page that it is asked about. -/
theorem judgedCovered_of_subset (h' : HoldsExactly s ks' held') (hsu : held ⊆ held') :
    JudgedCovered s ks ks' := by
  obtain ⟨pages, hpages, hme⟩ := verifyPages_spec h.wellFormed s
  have hal : ∀ page ∈ pages, verifyCoverage ks' (.scope s) s page = .ok true := by
    intro page hp
    obtain ⟨b, hb, hif⟩ := verifyCoverage_spec h'.wellFormed (.scope s) s
    rw [hb, hif.mpr ⟨by simp [Subject.contains], fun head hin => ?_⟩]
    obtain ⟨_, m, hhe⟩ := (hme head.1 head.2).mp (mem_flatten.mpr ⟨page, hp, hin⟩)
    obtain ⟨-, c, hc, hpo⟩ := h.points _ m rfl hhe.held
    obtain ⟨m', hm'⟩ := h'.present c (hsu hc)
    exact ⟨_, m', rfl, rfl, UInt64.le_refl _, hpo ▸ hm'⟩
  exact .verified hpages hal

/-- What is stored at a version is what the commit of that time did. -/
theorem HoldsExactly.cell_eq (h' : HoldsExactly s ks' held') (hsa : ∀ c, c ∈ held ↔ c ∈ held')
    {k : Bytes} (hk : s.encode <+: k) : cell ks k ts = cell ks' k ts := by
  by_cases hv : ∃ c ∈ held, c.time = ts
  · obtain ⟨c, hc, rfl⟩ := hv
    rw [h.cells c hc k hk, h'.cells c ((hsa c).mp hc) k hk]
  · have hno : ∀ c ∈ held, c.time ≠ ts := fun c hc he => hv ⟨c, hc, he⟩
    have hno' : ∀ c ∈ held', c.time ≠ ts := fun c hc => hno c ((hsa c).mpr hc)
    rw [cell_eq_none_iff.mpr fun kind => h.rowless ts hno k kind hk,
      cell_eq_none_iff.mpr fun kind => h'.rowless ts hno' k kind hk]

omit h

/-- **Coverage is found exactly where it is, and stores that cover each other read alike** at every
version, in whatever ways and orders the commits reached them. -/
theorem covering_stores_agree (hdi : DistinctTimes commits)
    (hind : XorFold.Independent digest (commits.map Commit.head).toFinset)
    (ha : ∀ c ∈ commits, s ∈ activeScopes c.writes) (h : Holds s commits ks held)
    (h' : Holds s commits ks' held') : (JudgedCovered s ks ks' ↔ held ⊆ held') ∧
      (JudgedCovered s ks ks' → JudgedCovered s ks' ks → ∀ rest ts,
        getFromRaw ks (s.encode ++ rest) ts = getFromRaw ks' (s.encode ++ rest) ts) := by
  obtain ⟨hsu, hex⟩ := h.exactly hdi ha
  obtain ⟨hsu', hex'⟩ := h'.exactly hdi ha
  have hof : JudgedCovered s ks ks' → held ⊆ held' := fun hj _ =>
    mem_of_judgedCovered hex hdi hind hsu hsu' hex' hj
  refine ⟨⟨hof, judgedCovered_of_subset hex hex'⟩, fun hj hj' rest ts => ?_⟩
  have hsa : ∀ c, c ∈ held ↔ c ∈ held' := fun c =>
    ⟨@hof hj c, mem_of_judgedCovered hex' hdi hind hsu' hsu hex hj'⟩
  have hk := prefix_append s.encode rest
  have hus := UserKey.of_isPrefix hk
  obtain ⟨r, hg, hr⟩ := @getFromRaw_spec ks _ ts (hex.wellFormed.rowsDecode hus)
  have hr' := hr.congr fun v _ => hex.cell_eq hex' hsa hk
  rw [hg, getFromRaw_of_readsAt (hex'.wellFormed.rowsDecode hus) hr']

omit [Postcard] in
/-- **A node is caught up with its own announce**, whatever it holds and wherever the cut is. -/
theorem own_announce_caught_up (fr : ScopeFrontier) (cut : Option Version) :
    planCatchup (known fr) (announceScope fr cut) = .caughtUp := by
  refine planCatchup_eq_caughtUp.mpr ⟨fun b hb => ?_, fun ts epoch node hg => ?_⟩
  · rw [foldHeadsAtCut_known]
    rcases announceScope_spec fr cut with ⟨hf, -⟩ | ⟨_, -, hb', hp, -⟩
    · rw [hf] at hb
      cases hb
    · cases hb'.symm.trans hb
      exact hp.symm
  · have hl := lookup_of_announced hg
    simp [sufficient, known_eq_some hl, hl]

/-! ## The converse -/

/-- Commits with distinct times can be committed one after the other at one store. -/
theorem exists_holds (ha : ∀ c ∈ commits, s ∈ activeScopes c.writes) (hs : held ⊆ commits)
    (ht : held.Pairwise fun c d => c.time ≠ d.time) :
    ∃ ks, Holds s commits ks held ∧ HoldsExactly s ks held := by
  induction held with
  | nil => exact ⟨∅, .empty, holdsExactly_empty⟩
  | cons c held ih =>
    obtain ⟨hc, hs⟩ := cons_subset.mp hs
    obtain ⟨hf, ht⟩ := pairwise_cons.mp ht
    obtain ⟨ks, hh, hex⟩ := ih hs ht
    obtain ⟨ks', hco, -⟩ := commit_spec hex.wellFormed hex.wellFormed
    refine ⟨ks', hh.commit hc (fun d hd he => ?_) hex.wellFormed hco,
      hex.commit (ha c hc) (fun d hd => (hf d hd).symm) hex.wellFormed hco⟩
    exact hf d hd (congrArg Prod.fst he).symm

/-- Two commits at one time are confirmed in place of each other. -/
theorem distinctTimes_of_coverage (hpai : (commits.map fun c => (c.time, c.node)).Nodup)
    (hac : ∀ c ∈ commits, s ∈ activeScopes c.writes)
    (h : CoverageMeansPossession s commits) : DistinctTimes commits := by
  intro c hc d hd hti
  obtain ⟨ks, hho, hex⟩ := exists_holds hac (cons_subset.mpr ⟨hc, nil_subset _⟩)
    (pairwise_singleton _ c)
  obtain ⟨ks', hho', hex'⟩ := exists_holds hac (cons_subset.mpr ⟨hd, nil_subset _⟩)
    (pairwise_singleton _ d)
  obtain ⟨pages, hpag, hme⟩ := verifyPages_spec hex.wellFormed s
  have hal : ∀ page ∈ pages, verifyCoverage ks' (.scope s) s page = .ok true := by
    intro page hpa
    obtain ⟨b, hb, hif⟩ := verifyCoverage_spec hex'.wellFormed (.scope s) s
    have htr : b = true := by
      refine hif.mpr ⟨by simp [Subject.contains], fun head hin => ?_⟩
      obtain ⟨_, m, hhe⟩ := (hme head.1 head.2).mp (mem_flatten.mpr ⟨page, hpa, hin⟩)
      obtain ⟨-, _, hc', hp⟩ := hex.points _ m rfl hhe.held
      obtain rfl := mem_singleton.mp hc'
      obtain ⟨-, hts, hep, -⟩ := SyncPoint.mk.inj hp
      obtain ⟨m', hm'⟩ := hex'.present d mem_cons_self
      refine ⟨d.point s, m', rfl, ?_, ?_, hm'⟩
      · rw [hts, hti]
        rfl
      · rw [hep, hti]
        exact UInt64.le_refl _
    rw [hb, htr]
  obtain ⟨m, hm⟩ := (h ks ks' [c] [d] hho hho' (.verified hpag hal) c mem_cons_self).point
  obtain ⟨-, _, hd', hp⟩ := hex'.points _ m rfl hm
  obtain rfl := mem_singleton.mp hd'
  obtain ⟨-, -, -, hno⟩ := SyncPoint.mk.inj hp
  exact inj_on_of_nodup_map hpai hc hd (by rw [hti, hno])

omit [Postcard] in
/-- An announce that elides all its heads tells nothing to an empty node when they fold to zero. -/
theorem caughtUp_of_fold_zero (hge : fr[ts]? = some e)
    (hep : ∀ (ts : Version) (e : Epoch × NodeId), fr[ts]? = some e → e.1 = ts)
    (hze : XorFold.fold digest fr.toList.toFinset = 0) :
    planCatchup none (announceScope fr (some maxVersion)) = .caughtUp := by
  obtain ⟨newest, hne, hle⟩ := exists_newest hge
  have hmi : min newest maxVersion = newest := if_pos le_maxVersion
  rcases announceScope_spec fr (some maxVersion) with ⟨-, hno⟩ | ⟨b, hb, hba, hpr, hex⟩
  · simp [hne] at hno
  · obtain rfl : newest = b := by simpa [hne, hmi] using hb
    refine planCatchup_eq_caughtUp.mpr ⟨fun cut hcu => ?_, fun ts epoch node hin => ?_⟩
    · have hal : headsAtCut fr newest = fr.toList.toFinset := by
        ext ⟨ts, e⟩
        simp only [headsAtCut, mem_toFinset, mem_filter, and_iff_left_iff_imp, decide_eq_true_eq]
        intro hin
        have hin := mem_toList_frontier.mp hin
        rw [hep ts e hin]
        exact ⟨hle ts e hin, hle ts e hin⟩
      obtain rfl := Option.some.inj (hba.symm.trans hcu)
      rw [hpr, foldHeadsAtCut_eq, hal, hze]
      rfl
    · obtain ⟨hin, hnot⟩ := (hex ts (epoch, node)).mp hin
      rw [show epoch = ts from hep ts _ hin] at hnot
      exact absurd ⟨hle ts _ hin, hle ts _ hin⟩ hnot

/-- A set of heads that folds to zero is taken for the empty set. -/
theorem independent_of_coverage (hpa : (commits.map fun c => (c.time, c.node)).Nodup)
    (hac : ∀ c ∈ commits, s ∈ activeScopes c.writes) (hdi : DistinctTimes commits)
    (h : CoverageMeansPossession s commits) :
    XorFold.Independent digest (commits.map Commit.head).toFinset := by
  intro heads hhea hne hze
  -- the store that holds exactly these heads
  let held := commits.filter fun c => c.head ∈ heads
  have hsu : held ⊆ commits := filter_subset_self _
  have hti : held.Pairwise fun c d => c.time ≠ d.time := by
    refine ((List.Nodup.of_map _ hpa).filter _).imp_of_mem fun {c d} hc hd hcd he => hcd ?_
    exact hdi c (hsu hc) d (hsu hd) he
  obtain ⟨ks, hho, hex⟩ := exists_holds hac hsu hti
  obtain ⟨fr, hf, -⟩ := frontiers_spec hex.wellFormed
  have hif := hex.frontier_iff (hdi.subset hsu) hf
  have hme : ∀ head, (∃ c ∈ held, c.head = head) ↔ head ∈ heads := by
    intro head
    constructor
    · rintro ⟨c, hc, rfl⟩
      simpa using (mem_filter.mp hc).2
    · intro hin
      obtain ⟨c, hc, rfl⟩ := mem_map.mp (mem_toFinset.mp (hhea hin))
      exact ⟨c, mem_filter.mpr ⟨hc, by simpa using hin⟩, rfl⟩
  have hse : fr.toList.toFinset = heads := by
    ext head
    rw [mem_toFinset, ← hme, ← hif]
    exact mem_toList_frontier
  obtain ⟨head, hhe⟩ := hne
  obtain ⟨c, hc, rfl⟩ := (hme head).mpr hhe
  have hge := (hif c.head).mpr ⟨c, hc, rfl⟩
  have hpl := caughtUp_of_fold_zero hge (fun ts e hin => by
    obtain ⟨d, -, he⟩ := (hif (ts, e)).mp hin
    cases he
    rfl) (hse ▸ hze)
  have hkn : (sendAnnounce fr true maxVersion 0 true).known =
      some (announceScope fr (some maxVersion)) := by
    simp [sendAnnounce, known_eq_some hge, lagCut]
  -- an empty node is judged to hold them
  have hem : frontiers ∅ s = .ok ∅ := by
    obtain ⟨fr', hf', -⟩ := frontiers_spec wellFormed_empty
    have hif' := holdsExactly_empty.frontier_iff (by simp [DistinctTimes]) hf'
    have hni : fr' = ∅ := by
      refine Std.ExtTreeMap.ext_getElem? fun ts => ?_
      cases hts : fr'[ts]? with
      | none => simp
      | some e =>
        obtain ⟨d, hd, -⟩ := (hif' (ts, e)).mp hts
        cases hd
    rw [hf', hni]
  have hj : JudgedCovered s ks ∅ := .caughtUp hf hem hkn (by simpa [known] using hpl)
  obtain ⟨m, hm⟩ := (h ks ∅ held [] hho .empty hj c hc).point
  simp [metaAt] at hm

/-- **Coverage means possession** for a set of commits exactly when no two of them share a time and no
nonempty set of their heads folds to zero. -/
theorem coverage_iff_distinct_times (hpairs : (commits.map fun c => (c.time, c.node)).Nodup)
    (hactive : ∀ c ∈ commits, s ∈ activeScopes c.writes) : CoverageMeansPossession s commits ↔
      DistinctTimes commits ∧ XorFold.Independent digest (commits.map Commit.head).toFinset := by
  constructor
  · intro h
    have hd := distinctTimes_of_coverage hpairs hactive h
    exact ⟨hd, independent_of_coverage hpairs hactive hd h⟩
  · rintro ⟨hd, hi⟩ _ _ _ _ hh hh' hj c hc
    obtain ⟨hs, hex⟩ := hh.exactly hd hactive
    obtain ⟨hs', hex'⟩ := hh'.exactly hd hactive
    exact possesses_of_mem hex' (mem_of_judgedCovered hex hd hi hs hs' hex' hj hc)

end Coverage

/-! ## Two commits of different nodes -/

section Samples
open Sample

def putCommit (time : Version) (b : UInt8) (c : Char) : Commit :=
  ⟨time, node b, [.put scope (kv c) [b]]⟩

/-- At different times, the two are never taken for each other. -/
theorem coverage_of_two_times :
    CoverageMeansPossession scope [putCommit 100 1 'k', putCommit 200 2 'j'] := by
  have hd : DistinctTimes [putCommit 100 1 'k', putCommit 200 2 'j'] := by
    simp [DistinctTimes, putCommit]
  have hi : XorFold.Independent digest
      ([putCommit 100 1 'k', putCommit 200 2 'j'].map Commit.head).toFinset := by
    decide +kernel
  exact (coverage_iff_distinct_times (by decide +kernel) (by decide +kernel)).mpr ⟨hd, hi⟩

/-- At one time, the node that holds one of them is found to cover the other. -/
theorem same_time_breaks_coverage :
    ¬ CoverageMeansPossession scope [putCommit 100 1 'k', putCommit 100 2 'j'] := by
  intro h
  have heq := distinctTimes_of_coverage (by decide +kernel) (by decide +kernel) h
    (putCommit 100 1 'k') mem_cons_self (putCommit 100 2 'j')
    (mem_cons_of_mem _ mem_cons_self) rfl
  exact absurd heq (by decide +kernel)

/-- Two commits that reached two stores in different orders. -/
theorem crossed_stores_agree :
    let a := putCommit 100 1 'k'
    let b := putCommit 200 2 'k'
    ∃ ks ks', Holds scope [a, b] ks [a, b] ∧ Holds scope [a, b] ks' [b, a] ∧
      JudgedCovered scope ks ks' ∧ ∀ rest ts,
        getFromRaw ks (scope.encode ++ rest) ts = getFromRaw ks' (scope.encode ++ rest) ts := by
  intro a b
  have hd : DistinctTimes [a, b] := by simp [DistinctTimes, a, b, putCommit]
  have hi : XorFold.Independent digest ([a, b].map Commit.head).toFinset := by decide +kernel
  have ha : ∀ c ∈ [a, b], scope ∈ activeScopes c.writes := by decide +kernel
  have hs : [b, a] ⊆ [a, b] := by simp
  obtain ⟨ks, h, -⟩ := exists_holds ha (List.Subset.refl _) (by simp [a, b, putCommit])
  obtain ⟨ks', h', -⟩ := exists_holds ha hs (by simp [a, b, putCommit])
  obtain ⟨hif, hre⟩ := covering_stores_agree hd hi ha h h'
  have hj := hif.mpr (by simp)
  have hj' := (covering_stores_agree hd hi ha h' h).1.mpr hs
  exact ⟨ks, ks', h, h', hj, hre hj hj'⟩

end Samples

end Myrmic
