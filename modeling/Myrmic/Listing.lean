import Myrmic.WellFormed

/-!
# What the listings report

On a well-formed store the listings never fail, and this module says what they contain: the sync
points of a scope are exactly those the store holds, in version order; the latest heads are, version
by version, the held sync point with the greatest epoch and node; the changeset of a version describes
what the version did to each key of the scope.
-/
namespace Myrmic
open OrderedBytes VersionedCell Fallible List SyncPoint Scope Store

/-! ## The order of sync points -/

/-- `p.Before q`: the listing meets `p` before `q`. -/
def SyncPoint.Before (p q : SyncPoint) : Prop := compare p.encode q.encode = .lt

instance (p q : SyncPoint) : Decidable (p.Before q) := inferInstanceAs (Decidable (_ = _))

variable {p : SyncPoint} {q : SyncPoint} {r : SyncPoint} {s : Scope}

theorem SyncPoint.Before.trans (h : p.Before q) (h' : q.Before r) :
    p.Before r := Std.TransCmp.lt_trans h h'

theorem SyncPoint.Before.asymm (h : p.Before q) : ¬ q.Before p := by
  intro h'
  have := Std.OrientedCmp.gt_of_lt h'
  rw [SyncPoint.Before, this] at h
  cases h

theorem SyncPoint.Before.irrefl (p : SyncPoint) : ¬ p.Before p := by
  rw [SyncPoint.Before, compare_refl]
  decide

theorem SyncPoint.before_trichotomy (p q : SyncPoint) : p.Before q ∨ p = q ∨ q.Before p := by
  rcases h : compare p.encode q.encode with _ | _ | _
  · exact .inl h
  · exact .inr (.inl (encode_injective (Std.LawfulEqCmp.eq_of_compare h)))
  · exact .inr (.inr (Std.OrientedCmp.lt_of_gt h))

/-- Within a scope, sync points are ordered by version, then epoch, then node. -/
theorem SyncPoint.compare_encode (h : p.scope = q.scope) : compare p.encode q.encode =
      (compare p.ts.toNat q.ts.toNat).then ((compare p.epoch.toNat q.epoch.toNat).then
        (compare p.id.bytes q.id.bytes)) := by
  rw [encode, encode, h, compare_append_left, SyncPointId.suffix,
    SyncPointId.suffix, compare_append (by simp), compare_append (by simp), compare_be64,
    compare_be64]
  rfl

theorem SyncPoint.before_of_epoch (h : p.scope = q.scope) (hts : p.ts = q.ts)
    (hep : p.epoch < q.epoch) : p.Before q := by
  rw [SyncPoint.Before, compare_encode h, hts, Nat.compare_eq_eq.mpr rfl,
    Nat.compare_eq_lt.mpr (UInt64.lt_iff_toNat_lt.mp hep)]
  rfl

/-- Two sync points of one version of one scope. -/
def SyncPoint.SameVersion (p q : SyncPoint) : Prop := p.ts = q.ts ∧ p.scope = q.scope

instance (p q : SyncPoint) : Decidable (p.SameVersion q) := inferInstanceAs (Decidable (_ ∧ _))

theorem SyncPoint.SameVersion.symm (h : p.SameVersion q) : q.SameVersion p := ⟨h.1.symm, h.2.symm⟩

theorem SyncPoint.SameVersion.trans (h : p.SameVersion q)
    (h' : q.SameVersion r) : p.SameVersion r := ⟨h.1.trans h'.1, h.2.trans h'.2⟩

theorem Scope.syncPointAt_isPrefix {ts : Version} :
    s.syncPointAt ts <+: p.encode ↔ p.ts = ts ∧ p.scope = s := by
  constructor
  · rintro ⟨x, hx⟩
    rw [syncPointAt, append_assoc, SyncPoint.encode] at hx
    obtain ⟨hs, hx⟩ := syncPoint_append_inj hx
    obtain ⟨hts, -⟩ := append_inj hx (by simp)
    exact ⟨(be64_injective hts).symm, hs.symm⟩
  · rintro ⟨rfl, rfl⟩
    exact ⟨be64 p.epoch ++ p.id.bytes, by
      simp [syncPointAt, SyncPoint.encode, SyncPointId.suffix, SyncPoint.asId]⟩

/-- Sync points of one version are listed next to each other. -/
theorem SyncPoint.SameVersion.of_between (h : p.SameVersion r)
    (hpq : p.Before q) (hqr : q.Before r) : p.SameVersion q := by
  have hp : r.scope.syncPointAt r.ts <+: p.encode := syncPointAt_isPrefix.mpr h
  have hr : r.scope.syncPointAt r.ts <+: r.encode := syncPointAt_isPrefix.mpr ⟨rfl, rfl⟩
  have hq := syncPointAt_isPrefix.mp (isPrefix_of_between hp hr hpq hqr)
  exact h.trans ⟨hq.1.symm, hq.2.symm⟩

theorem Scope.syncPoint_isPrefix : s.syncPoint <+: p.encode ↔ p.scope = s := by
  constructor
  · rintro ⟨x, hx⟩
    exact (syncPoint_append_inj hx).1.symm
  · rintro rfl
    exact ⟨_, rfl⟩

variable [Postcard] {ks : Keyspace} {m : SyncMeta} {L : List (SyncPoint × SyncMeta)}
  {x : SyncPoint × SyncMeta}

/-! ## Listing sync points -/

variable (h : WellFormed ks)
include h

theorem metaAt_eq_some_iff :
    metaAt ks p = some m ↔ ∃ v, ks[p.encode]? = some v ∧ Postcard.fromBytes v = .ok m := by
  rw [metaAt, Option.bind_eq_some_iff]
  constructor
  · rintro ⟨v, hv, hm⟩
    obtain ⟨q, _, -, hm'⟩ := h.points p.encode v hv head_syncPoint
    rw [hm'] at hm
    cases hm
    exact ⟨v, hv, hm'⟩
  · rintro ⟨v, hv, hm⟩
    exact ⟨v, hv, by rw [hm]; rfl⟩

theorem mem_iff_metaAt : p.encode ∈ ks ↔ ∃ m, metaAt ks p = some m := by
  rw [mem_iff_exists_lookup]
  constructor
  · rintro ⟨v, hv⟩
    obtain ⟨q, m, -, hm⟩ := h.points p.encode v hv head_syncPoint
    exact ⟨m, (metaAt_eq_some_iff h).mpr ⟨v, hv, hm⟩⟩
  · rintro ⟨m, hm⟩
    obtain ⟨v, hv, -⟩ := (metaAt_eq_some_iff h).mp hm
    exact ⟨v, hv⟩

omit h in
/-- In the sync point region every row reads as the sync point it stands for. -/
theorem readSyncPoint_eq_ok {row : Bytes × Bytes}
    (hk : row.1 = p.encode) (hm : Postcard.fromBytes row.2 = .ok m) :
    readSyncPoint row = .ok (p, m) ∧ readSyncPointRev row = .ok (p, m) := by
  constructor <;>
    simp [readSyncPoint, readSyncPointRev, hk, hm, bind, Except.bind, pure, Except.pure]

/-- **Listing sync points.**  A listing of a region of sync points succeeds; it holds exactly the
sync points of the region, in order. -/
theorem listing_spec (region : Bytes) (hreg : region.head? = some '#'.toUInt8) :
    ∃ L, (ks.prefixOf region).mapM readSyncPoint = .ok L ∧
      (ks.prefixOf region).reverse.mapM readSyncPointRev = .ok L.reverse ∧
      (∀ p m, (p, m) ∈ L ↔ region <+: p.encode ∧ metaAt ks p = some m) ∧
      L.Pairwise fun a b => a.1.Before b.1 := by
  have hre : ∀ row ∈ ks.prefixOf region, ∃ p m, row.1 = SyncPoint.encode p ∧
      Postcard.fromBytes row.2 = .ok m := by
    intro row hro
    obtain ⟨hge, hpr⟩ := mem_prefixOf.mp hro
    refine h.points row.1 row.2 hge ?_
    obtain ⟨x, hx⟩ := hpr
    rw [← hx, List.head?_append, hreg]
    rfl
  have hok : ∀ row ∈ ks.prefixOf region, ∃ y, readSyncPoint row = .ok y := by
    intro row hro
    obtain ⟨p, m, hke, hme⟩ := hre row hro
    exact ⟨(p, m), (readSyncPoint_eq_ok hke hme).1⟩
  have hke : ∀ {row y}, readSyncPoint row = .ok y → row ∈ ks.prefixOf region →
      row.1 = y.1.encode ∧ Postcard.fromBytes row.2 = .ok y.2 := by
    intro row y hy hro
    obtain ⟨p, m, hke, hme⟩ := hre row hro
    rw [(readSyncPoint_eq_ok hke hme).1] at hy
    cases hy
    exact ⟨hke, hme⟩
  obtain ⟨L, hL⟩ := mapM_ok hok
  refine ⟨L, hL, ?_, ?_, ?_⟩
  · rw [← mapM_reverse_ok hL]
    refine mapM_congr fun row hro => ?_
    obtain ⟨p, m, hke, hme⟩ := hre row (mem_reverse.mp hro)
    rw [(readSyncPoint_eq_ok hke hme).1, (readSyncPoint_eq_ok hke hme).2]
  · intro p m
    rw [mem_of_mapM hL]
    constructor
    · rintro ⟨row, hro, hy⟩
      obtain ⟨hk, hm⟩ := hke hy hro
      obtain ⟨hge, hpr⟩ := mem_prefixOf.mp hro
      rw [hk] at hge hpr
      exact ⟨hpr, (metaAt_eq_some_iff h).mpr ⟨row.2, hge, hm⟩⟩
    · rintro ⟨hpr, hm⟩
      obtain ⟨v, hv, hm⟩ := (metaAt_eq_some_iff h).mp hm
      exact ⟨(p.encode, v), mem_prefixOf.mpr ⟨hv, hpr⟩, (readSyncPoint_eq_ok rfl hm).1⟩
  · refine pairwise_of_mapM hL (ascending_scan _) fun hx hx' hy hy' hlt => ?_
    rwa [(hke hy hx).1, (hke hy' hx').1] at hlt

theorem findSyncPoints_spec (s : Scope) :
    ∃ lower upper L, keyRange s.syncPoint = .ok (lower, upper) ∧
      findSyncPoints ks lower upper = .ok L ∧
      (∀ p m, (p, m) ∈ L ↔ p.scope = s ∧ metaAt ks p = some m) ∧
      L.Pairwise fun a b => a.1.Before b.1 := by
  obtain ⟨upper, hr, hu⟩ := s.keyRange_syncPoint
  obtain ⟨L, hL, -, hm, hs⟩ := listing_spec h s.syncPoint rfl
  refine ⟨s.syncPoint, upper, L, hr, ?_, fun p m => ?_, hs⟩
  · rw [findSyncPoints, rangeOf_eq_prefixOf hu, hL]
  · rw [hm, syncPoint_isPrefix]

omit h

/-! ## Latest heads -/

/-- `p` is held with metadata `m`, and no held sync point of its version comes after it. -/
structure IsHead (ks : Keyspace) (p : SyncPoint) (m : SyncMeta) : Prop where
  held : metaAt ks p = some m
  latest : ∀ q m', metaAt ks q = some m' → q.SameVersion p → ¬ p.Before q

section
omit [Postcard]

theorem find?_sameVersion (hL : L.Pairwise fun a b => b.1.Before a.1) :
    L.find? (fun y => y.1.SameVersion x.1) = some x ↔
      x ∈ L ∧ ∀ y ∈ L, y.1.SameVersion x.1 → ¬ x.1.Before y.1 := by
  rw [find?_eq_some_iff_append]
  constructor
  · rintro ⟨-, as, bs, rfl, has⟩
    refine ⟨mem_append_right _ mem_cons_self, fun y hy hys => ?_⟩
    rcases mem_append.mp hy with hy | hy
    · exact absurd hys (by simpa using has y hy)
    · rcases mem_cons.mp hy with rfl | hy
      · exact SyncPoint.Before.irrefl _
      · exact ((pairwise_cons.mp (pairwise_append.mp hL).2.1).1 y hy).asymm
  · rintro ⟨hx, hma⟩
    obtain ⟨as, bs, rfl⟩ := append_of_mem hx
    refine ⟨by simp [SyncPoint.SameVersion], as, bs, rfl, fun y hy => ?_⟩
    have hbe := (pairwise_append.mp hL).2.2 y hy x mem_cons_self
    simpa using fun hys => hma y (mem_append_left _ hy) hys hbe

theorem mem_latestHeads {cur x : SyncPoint × SyncMeta}
    (hL : (cur :: L).Pairwise fun a b => b.1.Before a.1) : x ∈ latestHeads (some cur) L ↔
      (cur :: L).find? (fun y => y.1.SameVersion x.1) = some x := by
  induction L generalizing cur with
  | nil =>
    by_cases hx : cur.1.SameVersion x.1
    · simp [latestHeads, hx, eq_comm]
    · have hne : x ≠ cur := fun he => hx (he ▸ ⟨rfl, rfl⟩)
      simp [latestHeads, hx, hne]
  | cons sp sps ih =>
    by_cases hsa : cur.1.SameVersion sp.1
    · -- `sp` is an older epoch of the version `current` already stands for
      have hsk : (cur :: sps).Pairwise fun a b => b.1.Before a.1 :=
        List.Pairwise.sublist (by simp) hL
      rw [latestHeads, if_pos (show _ ∧ _ from hsa), ih hsk]
      by_cases hx : cur.1.SameVersion x.1
      · simp [hx]
      · have hsx : ¬sp.1.SameVersion x.1 := fun h => hx (hsa.trans h)
        simp [hx, hsx]
    · rw [latestHeads, if_neg (show ¬ (_ ∧ _) from hsa), mem_cons, ih (pairwise_cons.mp hL).2]
      by_cases hx : cur.1.SameVersion x.1
      · -- versions are contiguous, so the version of `current` cannot appear again
        have hno : ¬(sp :: sps).find? (fun y => y.1.SameVersion x.1) = some x := by
          intro hf
          obtain ⟨hcu, hso⟩ := pairwise_cons.mp hL
          rcases mem_cons.mp (mem_of_find?_eq_some hf) with rfl | hin
          · exact hsa hx
          · have hbe := (pairwise_cons.mp hso).1 x hin
            exact hsa (hx.trans (hx.symm.of_between hbe (hcu sp mem_cons_self)))
        simp [hx, hno, eq_comm]
      · have hne : x ≠ cur := fun he => hx (he ▸ ⟨rfl, rfl⟩)
        simp [hx, hne]

theorem mem_latestHeads_none (hL : L.Pairwise fun a b => b.1.Before a.1) : x ∈ latestHeads none L ↔
      x ∈ L ∧ ∀ y ∈ L, y.1.SameVersion x.1 → ¬ x.1.Before y.1 := by
  cases L with
  | nil => simp [latestHeads]
  | cons cur L => exact (mem_latestHeads hL).trans (find?_sameVersion hL)

theorem latestHeads_sublist (cur : Option (SyncPoint × SyncMeta))
    (L : List (SyncPoint × SyncMeta)) : (latestHeads cur L).Sublist (cur.toList ++ L) := by
  induction L generalizing cur with
  | nil => cases cur <;> simp [latestHeads]
  | cons sp L ih =>
    cases cur with
    | none => simpa [latestHeads] using ih (some sp)
    | some cur =>
      rw [latestHeads]
      split
      · exact (ih (some cur)).trans (by simp)
      · exact (ih (some sp)).cons_cons cur

end

variable (h : WellFormed ks)
include h

/-- **Latest heads.**  For a region that holds all sync points of a version or none, the reported
heads are exactly the latest sync points of the versions the store holds there, newest first. -/
theorem collectLatestHeads_region {region upper : Bytes} (hr : region.head? = some '#'.toUInt8)
    (hu : prefixUpper region = some upper)
    (hw : ∀ {p q : SyncPoint}, q.SameVersion p → region <+: p.encode → region <+: q.encode) :
    ∃ H, collectLatestHeads ks region upper = .ok H ∧
      (∀ p m, (p, m) ∈ H ↔ region <+: p.encode ∧ IsHead ks p m) ∧
      H.Pairwise fun a b => b.1.Before a.1 := by
  obtain ⟨L, -, hre, hme, hso⟩ := listing_spec h region hr
  refine ⟨latestHeads none L.reverse, ?_, fun p m => ?_,
    (pairwise_reverse.mpr hso).sublist (latestHeads_sublist none _)⟩
  · rw [collectLatestHeads, findSyncPointsRev, rangeOf_eq_prefixOf hu, hre]
    rfl
  · rw [mem_latestHeads_none (pairwise_reverse.mpr hso), mem_reverse, hme]
    constructor
    · rintro ⟨⟨hs, hm⟩, hma⟩
      refine ⟨hs, hm, fun q m' hq hsa => hma (q, m') ?_ hsa⟩
      exact mem_reverse.mpr ((hme q m').mpr ⟨hw hsa hs, hq⟩)
    · rintro ⟨hs, hh⟩
      refine ⟨⟨hs, hh.held⟩, fun y hy hsa => ?_⟩
      have := (hme y.1 y.2).mp (mem_reverse.mp hy)
      exact hh.latest y.1 y.2 this.2 hsa

theorem collectLatestHeads_spec (s : Scope) :
    ∃ lower upper H, keyRange s.syncPoint = .ok (lower, upper) ∧
      collectLatestHeads ks lower upper = .ok H ∧
      (∀ p m, (p, m) ∈ H ↔ p.scope = s ∧ IsHead ks p m) ∧ H.Pairwise fun a b => b.1.Before a.1 := by
  obtain ⟨upper, hr, hu⟩ := s.keyRange_syncPoint
  obtain ⟨H, hh, hm, hso⟩ := collectLatestHeads_region h rfl hu fun hs hp =>
    syncPoint_isPrefix.mpr (hs.2.trans (syncPoint_isPrefix.mp hp))
  refine ⟨s.syncPoint, upper, H, hr, hh, fun p m => ?_, hso⟩
  rw [hm, syncPoint_isPrefix]

theorem exists_isHead (hp : metaAt ks p = some m) : ∃ q m', IsHead ks q m' ∧ q.SameVersion p := by
  obtain ⟨-, -, L, -, -, hm, hso⟩ := findSyncPoints_spec h p.scope
  have hso := pairwise_reverse.mpr hso
  have hpL : (p, m) ∈ L.reverse := mem_reverse.mpr ((hm p m).mpr ⟨rfl, hp⟩)
  cases hf : L.reverse.find? fun y => y.1.SameVersion p with
  | none => exact absurd (find?_eq_none.mp hf (p, m) hpL) (by simp [SyncPoint.SameVersion])
  | some x =>
    have hsx : x.1.SameVersion p := by simpa using find?_some hf
    have hsa : (fun y : SyncPoint × SyncMeta => decide (y.1.SameVersion p)) =
        fun y => decide (y.1.SameVersion x.1) := by
      funext y
      exact decide_eq_decide.mpr ⟨fun hy => hy.trans hsx.symm, fun hy => hy.trans hsx⟩
    rw [hsa] at hf
    obtain ⟨hin, hla⟩ := (find?_sameVersion hso).mp hf
    refine ⟨x.1, x.2, ⟨((hm x.1 x.2).mp (mem_reverse.mp hin)).2, fun q m' hq hqx => ?_⟩, hsx⟩
    exact hla (q, m') (mem_reverse.mpr ((hm q m').mpr ⟨(hqx.trans hsx).2, hq⟩)) hqx

omit h

/-- A new sync point that all others of its version come before is the head. -/
theorem isHead_of_newest (hp : metaAt ks p = some m)
    (hn : ∀ q m', metaAt ks q = some m' → q.SameVersion p → q ≠ p → q.Before p) :
    IsHead ks p m := by
  refine ⟨hp, fun q m' hq hs hb => ?_⟩
  by_cases he : q = p
  · rw [he] at hb
    exact SyncPoint.Before.irrefl _ hb
  · exact hb.asymm (hn q m' hq hs he)

theorem IsHead.unique {m' : SyncMeta} (hp : IsHead ks p m) (hq : IsHead ks q m')
    (hs : p.SameVersion q) : p = q ∧ m = m' := by
  have heq : p = q := by
    rcases before_trichotomy p q with hb | he | hb
    · exact absurd hb (hp.latest q m' hq.held hs.symm)
    · exact he
    · exact absurd hb (hq.latest p m hp.held hs)
  subst heq
  have := hp.held.symm.trans hq.held
  exact ⟨rfl, Option.some.inj this⟩

/-- On a well-formed store the search for the last sync point never fails. -/
theorem findLastSyncpoint_ok (h : WellFormed ks) (s : Scope) (ts : Option Version) :
    ∃ r, findLastSyncpoint ks s ts = .ok r := by
  have hde : ∀ {region}, s.syncPoint <+: region → ∀ row ∈ ks.prefixOf region,
      ∃ p, row.1 = SyncPoint.encode p := by
    intro region hre row hro
    obtain ⟨hge, hpr⟩ := mem_prefixOf.mp hro
    obtain ⟨p, -, hp, -⟩ := h.points row.1 row.2 hge (by
      obtain ⟨x, hx⟩ := hre.trans hpr
      rw [← hx]
      rfl)
    exact ⟨p, hp⟩
  unfold findLastSyncpoint
  dsimp only
  cases hla : (ks.prefixOf _).getLast? with
  | none => exact ⟨none, rfl⟩
  | some row =>
    obtain ⟨p, hp⟩ : ∃ p, row.1 = SyncPoint.encode p := by
      refine hde ?_ row (mem_of_getLast? hla)
      cases ts with
      | none => exact prefix_rfl
      | some ts => exact prefix_append _ _
    exact ⟨some p.asId, by simp [hp, bind, Except.bind, pure, Except.pure]⟩

end Myrmic
