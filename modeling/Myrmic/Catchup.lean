import Myrmic.Coverage

/-!
# Catching up

A node that hears an announce walks its explicit heads once, in the order of time, and asks for what it
lacks: a **watermark** up to which it has everything, and **floors**, the epochs it has of single
versions.  The announcer answers with every sync point that the pair does not rule out
(`handleCsReq`).  The two sides never see each other's rule, and the heads up to the announce's
baseline are hidden behind a fingerprint.

`Walked` says what the walk leaves in the watermark and the floors; `handleCsReq_spec` says what is
served; `applyPull_spec` says what a page leaves in the receiver's store.  Together, if fingerprints do
not collide, **planning is complete**: caught up means that every head is held, and otherwise what is
asked for is served, nothing of a floored version is served that is held, and one round of it suffices
(`catchup_planning_complete`).
-/
namespace Myrmic
open OrderedBytes VersionedCell Fallible List

/-! ## The walk over the explicit heads -/

def heldEpoch (ours : Option ScopeFrontier) (ts : Version) : Option Epoch :=
  (ours.bind fun frontier => frontier[ts]?).map Prod.fst

def belowBaseline (baseline : Option Version) (ts : Version) : Bool := baseline.any (ts ≤ ·)

variable {ts : Version} {epoch : Epoch} {sinceTs : Option Version} {floors : EpochFloors}
section Walk
variable {ours : Option ScopeFrontier} {base : Option Version}
  {heads : List (Version × Epoch × NodeId)} {theirs : ScopeAnnounce}

theorem sufficient_eq_true : sufficient ours ts epoch = true ↔
    ∃ held, heldEpoch ours ts = some held ∧ epoch ≤ held := by
  unfold sufficient heldEpoch
  cases ours.bind fun fr => fr[ts]? <;> simp

/-- **Where the walk is**, after some heads.  A floor is the epoch held of its version.  A head that is
not held has a floor when it is at or below the baseline, and otherwise it has none and lies above the
watermark. -/
structure Walked (ours : Option ScopeFrontier) (base : Option Version)
    (heads : List (Version × Epoch × NodeId)) (st : CatchupState) : Prop where
  floor : ∀ ts floor, st.epochFloors[ts]? = some floor →
    floor = (heldEpoch ours ts).getD 0 ∧ ∃ head ∈ heads, head.1 = ts
  mark : ∀ c, st.sinceTs = some c → base = some c ∨ ∃ head ∈ heads, head.1 = c
  lacking : ∀ head ∈ heads, sufficient ours head.1 head.2.1 = false →
    if belowBaseline base head.1 then st.epochFloors[head.1]? = some ((heldEpoch ours head.1).getD 0)
    else st.epochFloors[head.1]? = none ∧ st.prefixIntact = false ∧ ∀ c, st.sinceTs = some c → c < head.1

theorem Walked.step {st : CatchupState} {head : Version × Epoch × NodeId}
    (h : Walked ours base heads st) (hlt : ∀ other ∈ heads, other.1 < head.1) :
    Walked ours base (heads ++ [head]) (catchupHead ours base st head) := by
  have hne : ∀ other ∈ heads, other.1 ≠ head.1 := fun other ho => UInt64.ne_of_lt (hlt other ho)
  have hbase : belowBaseline base head.1 = false → ∀ c, base = some c → c < head.1 := by
    rintro hb c rfl
    exact UInt64.not_le.mp (of_decide_eq_false hb)
  have hbe : base.any (head.1 ≤ ·) = belowBaseline base head.1 := rfl
  have hhe : ((ours.bind fun fr => fr[head.1]?).map Prod.fst) = heldEpoch ours head.1 := rfl
  obtain ⟨hfl, hma, hla⟩ := h
  simp only [catchupHead, hbe, hhe]
  cases hb : belowBaseline base head.1 <;> cases hs : sufficient ours head.1 head.2.1 <;>
    cases hp : st.prefixIntact <;> refine ⟨?_, ?_, ?_⟩ <;>
    simp only [mem_append, mem_singleton, lookup_insertHead, if_true, if_false, Bool.false_eq_true] <;> grind

theorem walk_frontiers (ours : Option ScopeFrontier) (base : Option Version)
    (hso : heads.Pairwise fun a b => a.1 < b.1) :
    Walked ours base heads (heads.foldl (catchupHead ours base) ⟨false, base, ∅, true⟩) := by
  induction heads using reverseRecOn with
  | nil => exact ⟨by simp, fun c hc => .inl hc, nofun⟩
  | append_singleton heads head ih =>
    obtain ⟨hs, -, hlt⟩ := pairwise_append.mp hso
    rw [foldl_append]
    exact (ih hs).step fun other ho => hlt other ho head mem_cons_self

theorem ascending_toList (fr : ScopeFrontier) : fr.toList.Pairwise fun a b => a.1 < b.1 :=
  Std.ExtTreeMap.ordered_keys_toList.imp fun hlt => Std.compare_eq_lt.mp hlt

/-- **What a plan to catch up asks for.**  Of a version that is at or below the baseline and lacking,
everything above the epoch held; of one above it that is lacking, everything; and a floor is always
the epoch held. -/
theorem planCatchup_behind (h : planCatchup ours theirs = .behind sinceTs floors) :
    FoldsAgree ours theirs ∧
    (∃ ts epoch node, theirs.heads[ts]? = some (epoch, node) ∧ sufficient ours ts epoch = false) ∧
    (∀ ts floor, floors[ts]? = some floor → floor = (heldEpoch ours ts).getD 0) ∧
    ∀ ts epoch node, theirs.heads[ts]? = some (epoch, node) → sufficient ours ts epoch = false →
      if belowBaseline theirs.baseline ts then floors[ts]? = some ((heldEpoch ours ts).getD 0)
      else floors[ts]? = none ∧ ∀ c, sinceTs = some c → c < ts := by
  rcases planCatchup_cases ours theirs with ⟨-, hp⟩ | ⟨hfo, hp⟩
  · cases hp.symm.trans h
  · rw [hp] at h
    split at h
    · next hbe =>
      cases h
      have hw := walk_frontiers ours theirs.baseline (ascending_toList theirs.heads)
      refine ⟨hfo, behind_walkOf.mp hbe, fun ts floor hge => (hw.floor ts floor hge).1,
        fun ts epoch node hge hsu => ?_⟩
      have hla := hw.lacking (ts, epoch, node) (mem_toList_frontier.mpr hge) hsu
      split_ifs at hla ⊢
      · exact hla
      · exact ⟨hla.1, hla.2.2⟩
    · cases h

theorem planCatchup_ne_diverged (h : theirs.baseline = none) :
    planCatchup ours theirs ≠ .diverged := by
  rcases planCatchup_cases ours theirs with ⟨hf, -⟩ | ⟨-, hp⟩
  · exact (hf fun cut hc => by cases h.symm.trans hc).elim
  · rw [hp]
    split <;> exact CatchupPlan.noConfusion

end Walk

/-! ## What is served and applied -/

section Stores
variable [Postcard] {ks : Keyspace} {s : Scope} {fr : ScopeFrontier} {node : NodeId}
  {cut : Option Version} {ours theirs : ScopeFrontier} (h : WellFormed ks)
include h

/-- **A request is answered** with a chunk for exactly the sync points that it does not rule out. -/
theorem handleCsReq_spec {subject : Subject} (hsu : subject.contains s = true) :
    ∃ cs, handleCsReq ks subject ⟨s, sinceTs, floors⟩ =
        .ok (if cs = [] then none else some ⟨s, cs⟩) ∧
      (∀ c ∈ cs, IsChunk ks s c ∧ skipped sinceTs floors c.id = false) ∧
      ∀ id m, metaAt ks (s.withSpId id) = some m → skipped sinceTs floors id = false →
        ∃ c ∈ cs, c.id = id := by
  obtain ⟨lower, upper, L, hra, hfi, hme, -⟩ := findSyncPoints_spec h s
  have hse : ∀ point ∈ L, ∃ c : Chunk, (do
      let es ← servedEntries ks s point.1.asId point.2
      return (⟨point.1.asId, point.2, es⟩ : Chunk)) = .ok c := by
    rintro ⟨p, m⟩ hpo
    obtain ⟨hs, hp⟩ := (hme p m).mp hpo
    obtain ⟨es, hen, -⟩ := changesetFor_describes h p
    cases hm : m.marker with
    | deletion => exact ⟨_, by simp [servedEntries, hm, bind, Except.bind, pure, Except.pure]; rfl⟩
    | mutation =>
      refine ⟨⟨p.asId, m, es⟩, ?_⟩
      rw [← hs]
      simp [servedEntries, hm, hen, bind, Except.bind, pure, Except.pure]
  obtain ⟨cs, hchu⟩ := mapM_ok (l := L.filter fun point =>
    !skipped sinceTs floors point.1.asId) fun point hpo => hse point (mem_filter.mp hpo).1
  refine ⟨cs, ?_, fun c hch => ?_, fun id m hid hsk => ?_⟩
  · rw [handleCsReq, if_neg (by simp [hsu])]
    refine bind_eq_ok.mpr ⟨(lower, upper), by rw [hra, context_ok], ?_⟩
    exact bind_eq_ok.mpr ⟨L, hfi, bind_eq_ok.mpr ⟨cs, hchu, rfl⟩⟩
  · obtain ⟨⟨p, m⟩, hpo, hch⟩ := (mem_of_mapM hchu).mp hch
    obtain ⟨es, hen, hch⟩ := bind_eq_ok.mp hch
    cases hch
    obtain ⟨hin, hsk⟩ := mem_filter.mp hpo
    obtain ⟨hs, hp⟩ := (hme p m).mp hin
    exact ⟨isChunk_of_servedEntries (hs ▸ hp) hen, by simpa using hsk⟩
  · have hpo : (s.withSpId id, m) ∈ L.filter fun point => !skipped sinceTs floors point.1.asId :=
      mem_filter.mpr ⟨(hme _ m).mpr ⟨rfl, hid⟩, by simpa using hsk⟩
    obtain ⟨c, hch⟩ := hse _ (mem_filter.mp hpo).1
    refine ⟨c, (mem_of_mapM hchu).mpr ⟨_, hpo, hch⟩, ?_⟩
    obtain ⟨es, -, he⟩ := bind_eq_ok.mp hch
    cases he
    rfl

/-- **A page is applied** without failure; no sync point is lost and every chunk's is held. -/
theorem applyPull_spec (cs : List Chunk) (hin : ∀ chunk ∈ cs, EntriesIn s chunk.entries) :
    ∃ ks', applyPull ks s cs = .ok ks' ∧ WellFormed ks' ∧
      (∀ p m, p.scope = s → metaAt ks p = some m → ∃ m', metaAt ks' p = some m') ∧
      ∀ chunk ∈ cs, ∃ m, metaAt ks' (s.withSpId chunk.id) = some m := by
  induction cs generalizing ks with
  | nil => exact ⟨ks, rfl, h, fun p m _ hp => ⟨m, hp⟩, nofun⟩
  | cons chunk cs ih =>
    -- the first chunk leaves a store that holds its point and all earlier ones
    obtain ⟨b, ks₁, hins, hwf, hke, hpo⟩ : ∃ b ks₁, insertChangeset ks (s.withSpId chunk.id)
        chunk.syncMeta chunk.entries = .ok (b, ks₁) ∧ WellFormed ks₁ ∧
        (∀ p m, p.scope = s → metaAt ks p = some m → ∃ m', metaAt ks₁ p = some m') ∧
        ∃ m, metaAt ks₁ (s.withSpId chunk.id) = some m := by
      cases hhe : metaAt ks (s.withSpId chunk.id) with
      | some m => exact ⟨false, ks, insertChangeset_of_held h hhe, h,
          fun p m' _ hp => ⟨m', hp⟩, m, hhe⟩
      | none =>
        obtain ⟨ks₁, hins, hwf, hre, hag⟩ := insertChangeset_of_not_held h chunk.syncMeta hhe
          (hin chunk mem_cons_self)
        refine ⟨true, ks₁, hins, hwf, fun p m hs hp => ?_, chunk.syncMeta, ?_⟩
        · by_cases hts : p.ts = chunk.id.version
          · rw [hre.points p hs hts]
            split
            · exact ⟨_, rfl⟩
            · exact ⟨m, hp⟩
          · exact ⟨m, ((hag p.ts hts).points p hs rfl).trans hp⟩
        · rw [hre.points _ rfl rfl, if_pos rfl]
    obtain ⟨ks', hap, hwf', hke', hpoi⟩ := ih hwf fun c hc => hin c (mem_cons_of_mem _ hc)
    refine ⟨ks', by simp [applyPull, hins, hap, bind, Except.bind], hwf', fun p m hs hp => ?_,
      fun c hc => ?_⟩
    · obtain ⟨m', hm'⟩ := hke p m hs hp
      exact hke' p m' hs hm'
    · rcases mem_cons.mp hc with rfl | hc
      · obtain ⟨m, hm⟩ := hpo
        exact hke' _ m rfl hm
      · exact hpoi c hc

theorem frontier_of_held (hf : frontiers ks s = .ok fr) {m : SyncMeta}
    (hp : metaAt ks ⟨s, ts, epoch, node⟩ = some m) :
    ∃ epoch' node', fr[ts]? = some (epoch', node') ∧ epoch ≤ epoch' := by
  obtain ⟨_, hf', hi⟩ := frontiers_spec h
  obtain rfl := Except.ok.inj (hf'.symm.trans hf)
  obtain ⟨q, m', hq, hts, hs⟩ := exists_isHead h hp
  obtain ⟨s', ts', epoch', node'⟩ := q
  obtain rfl : s' = s := hs
  obtain rfl : ts' = ts := hts
  refine ⟨epoch', node', (hi ts' epoch' node').mpr ⟨m', hq⟩, ?_⟩
  by_contra hlt
  exact hq.latest _ m hp ⟨rfl, rfl⟩ (SyncPoint.before_of_epoch rfl rfl (UInt64.not_le.mp hlt))

omit h

/-! ## Planning is complete -/

/-- Frontiers whose folds at a cut agree have the same heads there. -/
def NoCollision (ours theirs : ScopeFrontier) : Prop :=
  ∀ cut, foldHeadsAtCut ours cut = foldHeadsAtCut theirs cut → ∀ (ts : Version) (entry : Epoch × NodeId),
    ts ≤ cut → entry.1 ≤ cut → (ours[ts]? = some entry ↔ theirs[ts]? = some entry)

/-- The receiver holds the announcer's head, at its epoch or a later one. -/
def HoldsHead (ours : ScopeFrontier) (ts : Version) (epoch : Epoch) : Prop :=
  ∃ held node, ours[ts]? = some (held, node) ∧ epoch ≤ held

omit [Postcard] in
theorem heldEpoch_known (fr : ScopeFrontier) (ts : Version) :
    heldEpoch (known fr) ts = (fr[ts]?).map Prod.fst := by
  unfold heldEpoch
  cases hg : fr[ts]? with
  | some e => simp [known_eq_some hg, hg]
  | none =>
    unfold known
    split
    · rfl
    · simp [hg]

omit [Postcard] in
theorem sufficient_known : sufficient (known fr) ts epoch = true ↔ HoldsHead fr ts epoch := by
  rw [sufficient_eq_true, heldEpoch_known, HoldsHead]
  cases fr[ts]? with
  | none => simp
  | some e => simp [Prod.ext_iff]

omit [Postcard] in
/-- Where the folds agree with an announce, a head that is not explicit is held. -/
theorem holdsHead_of_elided (hc : NoCollision ours theirs)
    (hf : FoldsAgree (known ours) (announceScope theirs cut))
    (hg : theirs[ts]? = some (epoch, node)) :
    (announceScope theirs cut).heads[ts]? = some (epoch, node) ∨ HoldsHead ours ts epoch := by
  rcases announceScope_spec theirs cut with ⟨hfu, -⟩ | ⟨b, -, hb, hp, hh⟩
  · rw [hfu]
    exact .inl hg
  · by_cases he : ts ≤ b ∧ epoch ≤ b
    · have ha := hf b hb
      rw [foldHeadsAtCut_known, hp] at ha
      exact .inr ⟨epoch, node, (hc b ha ts (epoch, node) he.1 he.2).mpr hg, UInt64.le_refl _⟩
    · exact .inl ((hh ts (epoch, node)).mpr ⟨hg, he⟩)

omit [Postcard] in
theorem not_skipped_of_lacking
    (hpl : planCatchup (known ours) (announceScope theirs cut) = .behind sinceTs floors)
    {node : NodeId} (hex : (announceScope theirs cut).heads[ts]? = some (epoch, node))
    (hla : ¬ HoldsHead ours ts epoch) : skipped sinceTs floors ⟨epoch, ts, node⟩ = false := by
  have hsu : sufficient (known ours) ts epoch = false := by
    rw [← Bool.not_eq_true, sufficient_known]
    exact hla
  obtain ⟨-, -, -, has⟩ := planCatchup_behind hpl
  have has := has ts epoch node hex hsu
  split at has
  · next hbe =>
    -- an epoch spike: its epoch is above the baseline, and above what is held
    rw [heldEpoch_known] at has
    simp only [skipped, has, decide_eq_false_iff_not]
    cases hou : ours[ts]? with
    | some e =>
      intro hle
      exact hla ⟨e.1, e.2, hou, by simpa [hou] using hle⟩
    | none =>
      rcases announceScope_spec theirs cut with ⟨hfu, -⟩ | ⟨b, -, hba, -, hhe⟩
      · rw [hfu] at hbe
        cases hbe
      · simp only [belowBaseline, hba, Option.any_some, decide_eq_true_eq] at hbe
        have hsp : ¬ epoch ≤ b := fun hle => ((hhe ts (epoch, node)).mp hex).2 ⟨hbe, hle⟩
        intro hze
        exact hsp (UInt64.le_trans hze (UInt64.zero_le))
  · obtain ⟨hno, hma⟩ := has
    simp only [skipped, hno]
    cases sinceTs with
    | none => rfl
    | some c => simpa using hma c rfl

/-- **Catch-up planning is complete.**  Let a node hear an announce of another, in full or floored at
any cut.  If it plans nothing, it holds every head of the announcer.  If it plans to catch up, the
chunks served for the plan include every head it lacks, none of them is of a version named in the
floors at an epoch it holds, and once they are applied it is caught up with the full announce. -/
theorem catchup_planning_complete {ks' : Keyspace} (h : WellFormed ks) (h' : WellFormed ks')
    {theirs ours : ScopeFrontier} (htheirs : frontiers ks s = .ok theirs)
    (hours : frontiers ks' s = .ok ours) (hcollision : NoCollision ours theirs) {subject : Subject}
    (hsubject : subject.contains s = true) {floored fullReplica : Bool} {now lag : UInt64}
    {sa : ScopeAnnounce}
    (hannounce : (sendAnnounce theirs floored now lag fullReplica).known = some sa) :
    (planCatchup (known ours) sa = .caughtUp →
      ∀ ts epoch node, theirs[ts]? = some (epoch, node) → HoldsHead ours ts epoch) ∧
    ∀ sinceTs floors, planCatchup (known ours) sa = .behind sinceTs floors →
      ∃ chunks, handleCsReq ks subject ⟨s, sinceTs, floors⟩ = .ok (some ⟨s, chunks⟩) ∧
        (∀ ts epoch node, theirs[ts]? = some (epoch, node) → ¬ HoldsHead ours ts epoch →
          ∃ chunk ∈ chunks, chunk.id = ⟨epoch, ts, node⟩) ∧
        (∀ chunk ∈ chunks, chunk.id.version ∈ floors → ∀ held node,
          ours[chunk.id.version]? = some (held, node) → held < chunk.id.epoch) ∧
        ∃ ks'' ours', applyPull ks' s chunks = .ok ks'' ∧ frontiers ks'' s = .ok ours' ∧
          planCatchup (known ours') (.full theirs) = .caughtUp := by
  obtain rfl := known_sendAnnounce hannounce
  refine ⟨fun hpl ts epoch node hge => ?_, fun sinceTs floors hpl => ?_⟩
  · obtain ⟨hfo, hex⟩ := planCatchup_eq_caughtUp.mp hpl
    rcases holdsHead_of_elided hcollision hfo hge with hhe | hhel
    · exact sufficient_known.mp (hex ts epoch node hhe)
    · exact hhel
  · obtain ⟨hfo, ⟨ts₀, epoch₀, node₀, hhe₀, hsu₀⟩, hflo, -⟩ := planCatchup_behind hpl
    obtain ⟨chunks, hse, hchu, hco⟩ := handleCsReq_spec h hsubject
    obtain ⟨theirs', htheirs', hif⟩ := frontiers_spec h
    obtain rfl := Except.ok.inj (htheirs'.symm.trans htheirs)
    -- every lacking head is explicit and served
    have hla : ∀ ts epoch node, theirs'[ts]? = some (epoch, node) → ¬ HoldsHead ours ts epoch →
        ∃ chunk ∈ chunks, chunk.id = ⟨epoch, ts, node⟩ := by
      intro ts epoch node hge hnot
      have hex := (holdsHead_of_elided hcollision hfo hge).resolve_right hnot
      obtain ⟨m, hhe⟩ := (hif ts epoch node).mp hge
      exact hco ⟨epoch, ts, node⟩ m hhe.held (not_skipped_of_lacking hpl hex hnot)
    have hno : chunks ≠ [] := by
      obtain ⟨chunk, hch, -⟩ := hla ts₀ epoch₀ node₀ (lookup_of_announced hhe₀) fun hhel => by
        rw [sufficient_known.mpr hhel] at hsu₀
        cases hsu₀
      exact ne_nil_of_mem hch
    rw [if_neg hno] at hse
    refine ⟨chunks, hse, hla, fun chunk hch hfl held node hge => ?_, ?_⟩
    · obtain ⟨floor, hfl⟩ := Option.isSome_iff_exists.mp
        (Std.ExtTreeMap.mem_iff_isSome_getElem?.mp hfl)
      have hsk := (hchu chunk hch).2
      simp only [skipped, hfl, decide_eq_false_iff_not] at hsk
      rw [hflo _ floor hfl, heldEpoch_known, hge] at hsk
      exact UInt64.not_le.mp hsk
    · obtain ⟨ks'', hap, hwf, hke, hpo⟩ := applyPull_spec h' chunks
        fun chunk hch => (hchu chunk hch).1.entriesIn h
      obtain ⟨ours', hours', -⟩ := frontiers_spec hwf
      refine ⟨ks'', ours', hap, hours', planCatchup_eq_caughtUp.mpr ⟨nofun, ?_⟩⟩
      intro ts epoch node hge
      have hge : theirs'[ts]? = some (epoch, node) := hge
      refine sufficient_known.mpr ?_
      by_cases hhel : HoldsHead ours ts epoch
      · obtain ⟨held, node', hold, hle⟩ := hhel
        obtain ⟨_, hours'', hif'⟩ := frontiers_spec h'
        obtain rfl := Except.ok.inj (hours''.symm.trans hours)
        obtain ⟨m, hhe⟩ := (hif' ts held node').mp hold
        obtain ⟨_, hm'⟩ := hke _ m rfl hhe.held
        obtain ⟨epoch', node'', hlo, hle'⟩ := frontier_of_held hwf hours' hm'
        exact ⟨epoch', node'', hlo, UInt64.le_trans hle hle'⟩
      · obtain ⟨chunk, hch, hid⟩ := hla ts epoch node hge hhel
        obtain ⟨m, hm⟩ := hpo chunk hch
        rw [hid] at hm
        exact frontier_of_held hwf hours' hm

omit [Postcard] in
/-- Fingerprints of independent heads do not collide. -/
theorem noCollision_of_independent {heads : Finset (Version × Epoch × NodeId)}
    (hi : XorFold.Independent digest heads) (ho : ∀ head ∈ ours.toList, head ∈ heads)
    (ht : ∀ head ∈ theirs.toList, head ∈ heads) : NoCollision ours theirs := by
  intro cut hf ts e hts he
  rw [foldHeadsAtCut_eq, foldHeadsAtCut_eq] at hf
  have hm : ∀ fr : ScopeFrontier, (ts, e) ∈ headsAtCut fr cut ↔
      fr[ts]? = some e := by
    intro fr
    rw [headsAtCut, mem_toFinset, mem_filter, mem_toList_frontier]
    simp [hts, he]
  have hs : headsAtCut ours cut = headsAtCut theirs cut := by
    refine hi.eq_of_fold_eq (fun head hin => ho head ?_) (fun head hin => ht head ?_) hf
    · exact (mem_filter.mp (mem_toFinset.mp hin)).1
    · exact (mem_filter.mp (mem_toFinset.mp hin)).1
  rw [← hm, ← hm, hs]

end Stores

/-! ## A floored announce -/

section Samples
open Sample

/-- Records a version at an epoch, with one row of data. -/
def Sample.recorded (ks : Keyspace) (point : Version × Epoch) : Keyspace :=
  writeRow (insertPoint ks ⟨scope, point.1, point.2, node 1⟩ ⟨none, none, .mutation, none⟩)
    (scope.encode ++ kv 'k') point.1 .insertion [1]

/-- The store with some versions at their epochs. -/
def Sample.holding (points : List (Version × Epoch)) : Keyspace := points.foldl recorded ∅

theorem wellFormed_holding (points : List (Version × Epoch)) : WellFormed (holding points) :=
  foldlRecOn (motive := WellFormed) _ _ wellFormed_empty fun _ h _ _ =>
    (h.insertPoint _ _).writeRow UserKey.of_scope

/-- The announcer has restored version 20 at epoch 100 and committed version 100 since. -/
def Sample.announcer : Keyspace := holding [(10, 10), (20, 100), (100, 100)]

/-- The receiver has version 20 of an earlier restore, at epoch 60. -/
def Sample.receiver : Keyspace := holding [(10, 10), (20, 60)]

/-- The heads of a store, as evaluation finds them. -/
def Sample.headsOf (ks : Keyspace) : ScopeFrontier := ((frontiers ks scope).toOption).getD ∅

def Sample.heads : Finset (Version × Epoch × NodeId) :=
  {(10, 10, node 1), (20, 60, node 1), (20, 100, node 1), (100, 100, node 1)}

/-- The announce of the announcer, cut at 50. -/
def Sample.floored : ScopeAnnounce :=
  (headsOf announcer).toList.foldl ScopeAnnounce.add ⟨some 50, 0, ∅⟩

/-- The watermark and the floor of a version in a plan. -/
def Sample.asked (ts : Version) : CatchupPlan → Option (Option Version × Option Epoch)
  | .behind sinceTs floors => some (sinceTs, floors[ts]?)
  | _ => none

theorem frontiers_holding (points : List (Version × Epoch)) :
    frontiers (holding points) scope = .ok (headsOf (holding points)) := by
  obtain ⟨fr, hfr, -⟩ := frontiers_spec (s := scope) (wellFormed_holding points)
  rw [headsOf, hfr]
  rfl

theorem announce_announcer :
    (sendAnnounce (headsOf announcer) true 150 100 true).known = some floored := by
  have hget : (headsOf announcer)[(100 : Version)]? = some (100, node 1) := by decide +kernel
  obtain ⟨newest, hne, hle⟩ := exists_newest hget
  have hin : newest ∈ headsOf announcer := Std.ExtTreeMap.maxKey?_mem hne
  obtain ⟨entry, hen⟩ := Option.isSome_iff_exists.mp
    (Std.ExtTreeMap.mem_iff_isSome_getElem?.mp hin)
  have hall : ∀ head ∈ (headsOf announcer).toList, head.1 ≤ 100 := by decide +kernel
  have hmax : newest = 100 :=
    UInt64.le_antisymm (hall _ (mem_toList_frontier.mpr hen)) (hle 100 _ hget)
  have hcut : lagCut true 150 100 = some 50 := by decide
  have hmin : min (100 : Version) 50 = 50 := by decide
  simp [sendAnnounce, known_eq_some hget, hcut, announceScope, hne, hmax, hmin, floored]

/-- The announce is cut at 50.  Version 10 hides behind the fingerprint, which agrees; version 20 is
below the cut and its epoch above it, so the receiver asks for it with the epoch it has as the floor;
version 100 is above the watermark.  One answer brings both. -/
theorem floored_announce_catches_up : ∃ theirs ours sa floors chunks ks'' ours',
    frontiers announcer scope = .ok theirs ∧ frontiers receiver scope = .ok ours ∧
    (sendAnnounce theirs true 150 100 true).known = some sa ∧ sa.baseline = some 50 ∧
    planCatchup (known ours) sa = .behind (some 50) floors ∧ floors[(20 : Version)]? = some 60 ∧
    handleCsReq announcer (.scope scope) ⟨scope, some 50, floors⟩ = .ok (some ⟨scope, chunks⟩) ∧
    applyPull receiver scope chunks = .ok ks'' ∧ frontiers ks'' scope = .ok ours' ∧
    planCatchup (known ours') (.full theirs) = .caughtUp := by
  have hco : NoCollision (headsOf receiver) (headsOf announcer) := by
    have hind : XorFold.Independent digest heads := by decide +kernel
    exact noCollision_of_independent hind (by decide +kernel) (by decide +kernel)
  have hsu : (Subject.scope scope).contains scope = true := by simp [Subject.contains]
  have hbe := (catchup_planning_complete (wellFormed_holding _) (wellFormed_holding _)
    (frontiers_holding _) (frontiers_holding _) hco hsu announce_announcer).2
  have hpl : asked 20 (planCatchup (known (headsOf receiver)) floored) =
      some (some 50, some 60) := by decide +kernel
  cases hp : planCatchup (known (headsOf receiver)) floored with
  | behind sinceTs floors =>
    rw [hp] at hpl
    obtain ⟨rfl, hfl⟩ := Prod.mk.inj (Option.some.inj hpl)
    obtain ⟨chunks, hse, -, -, ks'', ours', hap, hou', hdo⟩ := hbe _ _ hp
    exact ⟨_, _, floored, floors, chunks, ks'', ours', frontiers_holding _, frontiers_holding _,
      announce_announcer, by decide +kernel, hp, hfl, hse, hap, hou', hdo⟩
  | _ =>
    rw [hp] at hpl
    cases hpl

end Samples

end Myrmic
