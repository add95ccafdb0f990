import Myrmic.Replication
import Myrmic.XorFold

/-!
# Announces and coverage checks

A node's **frontier** of a scope is its latest head of each version.  Nodes tell each other their
frontiers in announces: in full, or *floored*, where the heads up to a baseline are folded into one
fingerprint.  Three checks rest on frontiers:

* `planCatchup` decides what to ask of a node that announced: nothing when it vouches for no more than
  is held here;
* `coveredBy` is how a draining node finds that a full replica's announce covers all that it holds;
* `verifyCoverage` answers a page of a node that asks, page by page, whether all that it holds is here.
-/
namespace Myrmic
open OrderedBytes VersionedCell Fallible List

/-- The latest head of each version: its epoch and the node that wrote it. -/
abbrev ScopeFrontier := Std.ExtTreeMap Version (Epoch × NodeId) compare

abbrev Fingerprint := UInt64

/-- One scope's announced inventory.  Heads at or below the baseline, in version and epoch, are
folded into the fingerprint. -/
structure ScopeAnnounce where
  baseline : Option Version
  fingerprint : Fingerprint
  heads : ScopeFrontier

namespace ScopeAnnounce

def full (heads : ScopeFrontier) : ScopeAnnounce := ⟨none, 0, heads⟩

def elides (sa : ScopeAnnounce) (ts : Version) (epoch : Epoch) : Bool :=
  match sa.baseline with
  | some b => ts ≤ b ∧ epoch ≤ b
  | none => false

end ScopeAnnounce

/-- A bit mixer; arithmetic wraps. -/
def mix (x : UInt64) : UInt64 :=
  let x := x + 0x9E3779B97F4A7C15
  let x := (x ^^^ (x >>> 30)) * 0xBF58476D1CE4E5B9
  let x := (x ^^^ (x >>> 27)) * 0x94D049BB133111EB
  x ^^^ (x >>> 31)

def fromLeBytes (bs : Bytes) : UInt64 := (ofBe bs.reverse).toUInt64

def headFingerprint (ts : Version) (epoch : Epoch) (node : NodeId) : Fingerprint :=
  let lo := fromLeBytes (node.bytes.take 8)
  let hi := fromLeBytes (node.bytes.drop 8)
  mix (mix (mix (mix ts ^^^ epoch) ^^^ lo) ^^^ hi)

/-- What a node tells about one scope: the announce's entry for it, if the node holds any head of it,
and whether the node is a full replica. -/
structure Announce where
  known : Option ScopeAnnounce
  fullReplica : Bool

/-! ## Frontiers -/

/-- Enters heads into a frontier; a version must not come twice. -/
def frontierOf : List (SyncPoint × SyncMeta) → ScopeFrontier → Except String ScopeFrontier
  | [], frontier => .ok frontier
  | (sp, _) :: heads, frontier =>
    if frontier.contains sp.ts then
      .error "collect_latest_heads emitted duplicate ts for one scope"
    else frontierOf heads (frontier.insert sp.ts (sp.epoch, sp.id))

section Frontiers
variable [Postcard]

/-- The heads a node holds of a scope. -/
def frontiers (ks : Keyspace) (s : Scope) : Except String ScopeFrontier := do
  let (lower, upper) ← keyRange s.syncPoint
  frontierOf (← collectLatestHeads ks lower upper) ∅

end Frontiers

/-- An entry of the scan's result is only made for a scope that has heads. -/
def known (frontier : ScopeFrontier) : Option ScopeFrontier :=
  if frontier.isEmpty then none else some frontier

/-! ## Announcing -/

/-- The cut of a floored announce: heads younger than the lag are always explicit. -/
def lagCut (floored : Bool) (now lag : UInt64) : Option Version :=
  if floored then some (if lag ≤ now then now - lag else 0) else none

/-- Enters a head into an announce: into the fingerprint when it is elided, or explicitly. -/
def ScopeAnnounce.add (sa : ScopeAnnounce) (head : Version × Epoch × NodeId) : ScopeAnnounce :=
  if sa.elides head.1 head.2.1 then
    { sa with fingerprint := sa.fingerprint ^^^ headFingerprint head.1 head.2.1 head.2.2 }
  else { sa with heads := sa.heads.insert head.1 head.2 }

/-- The announce of one scope.  The baseline is capped at the newest held head. -/
def announceScope (frontier : ScopeFrontier) (cut : Option Version) : ScopeAnnounce :=
  match cut.bind fun cut => frontier.maxKey?.map fun newest => min newest cut with
  | none => .full frontier
  | some cut => frontier.toList.foldl ScopeAnnounce.add ⟨some cut, 0, ∅⟩

def sendAnnounce (frontier : ScopeFrontier) (floored : Bool) (now lag : UInt64)
    (fullReplica : Bool) : Announce :=
  ⟨(known frontier).map fun frontier => announceScope frontier (lagCut floored now lag), fullReplica⟩

/-! ## Planning a catch-up -/

/-- The fold of the heads that a floored announce at the cut would elide. -/
def foldHeadsAtCut (frontier : ScopeFrontier) (cut : Version) : Fingerprint :=
  (frontier.toList.filter fun head => head.1 ≤ cut ∧ head.2.1 ≤ cut).foldl
    (fun acc head => acc ^^^ headFingerprint head.1 head.2.1 head.2.2) 0

inductive CatchupPlan where
  /-- Everything the announce vouches for is held. -/
  | caughtUp
  /-- The folds differ: the sets diverge below the baseline. -/
  | diverged
  /-- The explicit heads expose gaps. -/
  | behind (sinceTs : Option Version) (epochFloors : EpochFloors)

/-- What the walk over the explicit heads keeps. -/
structure CatchupState where
  behind : Bool
  sinceTs : Option Version
  epochFloors : EpochFloors
  prefixIntact : Bool

/-- Whether a head is held here at its epoch or a later one. -/
def sufficient (ours : Option ScopeFrontier) (ts : Version) (theirEpoch : Epoch) : Bool :=
  match ours.bind fun frontier => frontier[ts]? with
  | some (epoch, _) => theirEpoch ≤ epoch
  | none => false

def catchupHead (ours : Option ScopeFrontier) (baseline : Option Version) (st : CatchupState)
    (head : Version × Epoch × NodeId) : CatchupState :=
  let ourEpoch := (ours.bind fun frontier => frontier[head.1]?).map Prod.fst
  if baseline.any (head.1 ≤ ·) then
    -- an epoch spike below the cut: only a floor makes the sender send it
    if sufficient ours head.1 head.2.1 then st
    else { st with epochFloors := st.epochFloors.insert head.1 (ourEpoch.getD 0), behind := true }
  else if sufficient ours head.1 head.2.1 then
    if st.prefixIntact then { st with sinceTs := some head.1 }
    else { st with epochFloors := st.epochFloors.insert head.1 (ourEpoch.getD 0) }
  else { st with prefixIntact := false, behind := true }

/-- What a node asks of one that announced a scope. -/
def planCatchup (ours : Option ScopeFrontier) (theirs : ScopeAnnounce) : CatchupPlan :=
  let folded := match theirs.baseline with
    | some cut => decide ((ours.map fun frontier => foldHeadsAtCut frontier cut).getD 0 =
        theirs.fingerprint)
    | none => true
  if folded then
    let st := theirs.heads.toList.foldl (catchupHead ours theirs.baseline)
      ⟨false, theirs.baseline, ∅, true⟩
    if st.behind then .behind st.sinceTs st.epochFloors else .caughtUp
  else .diverged

/-! ## Coverage -/

/-- The sync points of a frontier, as a drain records and releases them. -/
def frontierPoints (frontier : ScopeFrontier) : List SyncPointId :=
  frontier.toList.map fun head => ⟨head.2.1, head.1, head.2.2⟩

/-- Whether an announce names a version explicitly, at the head's epoch or a later one. -/
def announcesHead (announce : Announce) (head : Version × Epoch × NodeId) : Bool :=
  match announce.known.bind fun sa => sa.heads[head.1]? with
  | some (theirEpoch, _) => head.2.1 ≤ theirEpoch
  | none => false

/-- A drain's check of an announce: a full replica that announces every held version covers the
frontier. -/
def coveredBy (frontier : ScopeFrontier) (announce : Announce) : Option (List SyncPointId) :=
  if announce.fullReplica ∧
      (known frontier).all fun frontier => frontier.toList.all (announcesHead announce) then
    some (frontierPoints frontier)
  else none

section Verify
variable [Postcard]

/-- Walks sync points until one has the epoch or a later one. -/
def findHeld (epoch : Epoch) : List (Bytes × Bytes) → Except String Bool
  | [] => .ok false
  | row :: rows => do
    let (sp, _) ← readSyncPoint row
    if epoch ≤ sp.epoch then return true else findHeld epoch rows

/-- Whether some sync point of the version has the epoch or a later one. -/
def heldSince (ks : Keyspace) (s : Scope) (ts : Version) (epoch : Epoch) : Except String Bool := do
  let (lower, upper) ←
    context "unable to construct sync point range for version" (keyRange (s.syncPointAt ts))
  findHeld epoch (ks.rangeOf lower upper)

/-- Checks heads one after the other and stops at the first that is not held. -/
def verifyHeads (ks : Keyspace) (s : Scope) : List (Version × Epoch) → Except String Bool
  | [] => .ok true
  | (ts, epoch) :: heads => do
    if ← heldSince ks s ts epoch then verifyHeads ks s heads else return false

/-- Answers one page of a coverage check. -/
def verifyCoverage (ks : Keyspace) (subject : Subject) (s : Scope) (heads : List (Version × Epoch)) :
    Except String Bool :=
  if ¬ subject.contains s then .ok false else verifyHeads ks s heads

def pages {α : Type} (size : Nat) : Nat → List α → List (List α)
  | 0, _ => []
  | _, [] => []
  | fuel + 1, l => l.take size :: pages size fuel (l.drop size)

def verifyPageHeads : Nat := 2048

/-- The pages a node asks another about: its own heads of the scope, newest first. -/
def verifyPages (ks : Keyspace) (s : Scope) : Except String (List (List (Version × Epoch))) := do
  let (lower, upper) ← keyRange s.syncPoint
  let heads ← collectLatestHeads ks lower upper
  let heads := heads.map fun head => (head.1.ts, head.1.epoch)
  return pages verifyPageHeads heads.length heads

end Verify

/-! ## What the checks establish -/

theorem lookup_insertHead {α : Type} (fr : Std.ExtTreeMap Version α compare) (ts ts' : Version) (e : α) :
    (fr.insert ts e)[ts']? = if ts = ts' then some e else fr[ts']? := by
  rw [Std.ExtTreeMap.getElem?_insert]
  simp only [Std.LawfulEqCmp.compare_eq_iff_eq]

theorem lookup_frontierOf {heads : List (SyncPoint × SyncMeta)} (fr : ScopeFrontier)
    (hnew : ∀ head ∈ heads, fr[head.1.ts]? = none)
    (hdi : heads.Pairwise fun a b => a.1.ts ≠ b.1.ts) :
    ∃ fr', frontierOf heads fr = .ok fr' ∧ ∀ ts e, fr'[ts]? = some e ↔ fr[ts]? = some e ∨
        ∃ head ∈ heads, head.1.ts = ts ∧ (head.1.epoch, head.1.id) = e := by
  induction heads generalizing fr with
  | nil => exact ⟨fr, rfl, by simp⟩
  | cons head heads ih =>
    obtain ⟨sp, sm⟩ := head
    obtain ⟨hfi, hdi⟩ := pairwise_cons.mp hdi
    have hab := hnew (sp, sm) mem_cons_self
    have hco : fr.contains sp.ts = false := by
      rw [Std.ExtTreeMap.contains_eq_isSome_getElem?, hab]
      rfl
    have hnew' : ∀ head ∈ heads, (fr.insert sp.ts (sp.epoch, sp.id))[head.1.ts]? = none := by
      intro head hme
      have hne : sp.ts ≠ head.1.ts := hfi head hme
      rw [lookup_insertHead, if_neg hne]
      exact hnew head (mem_cons_of_mem _ hme)
    obtain ⟨fr', hok, hlo⟩ := ih _ hnew' hdi
    refine ⟨fr', by simp [frontierOf, hco, hok], fun ts e => ?_⟩
    rw [hlo, lookup_insertHead]
    by_cases hts : sp.ts = ts
    · subst hts
      simp [hab]
    · simp [hts]

variable {fr : ScopeFrontier} {ts : Version} {entry : Epoch × NodeId} {sa : ScopeAnnounce}
  {cut : Version}

theorem mem_toList_frontier : (ts, entry) ∈ fr.toList ↔ fr[ts]? = some entry :=
  Std.ExtTreeMap.mem_toList_iff_getElem?_eq_some

theorem distinct_toList (fr : ScopeFrontier) : fr.toList.Pairwise fun a b => a.1 ≠ b.1 :=
  Std.ExtTreeMap.distinct_keys_toList.imp fun hne he =>
    hne (Std.LawfulEqCmp.compare_eq_iff_eq.mpr he)

theorem behind_foldl (ours : Option ScopeFrontier) (base : Option Version)
    (heads : List (Version × Epoch × NodeId)) (st : CatchupState) :
    (heads.foldl (catchupHead ours base) st).behind = true ↔
      st.behind = true ∨ ∃ head ∈ heads, sufficient ours head.1 head.2.1 = false := by
  induction heads generalizing st with
  | nil => simp
  | cons head heads ih =>
    have hst : (catchupHead ours base st head).behind = true ↔
        st.behind = true ∨ sufficient ours head.1 head.2.1 = false := by
      cases hs : sufficient ours head.1 head.2.1 <;> cases hb : base.any (head.1 ≤ ·) <;>
        cases hp : st.prefixIntact <;> simp [catchupHead, hs, hb, hp]
    rw [foldl_cons, ih, hst]
    simp [or_assoc]

/-- The folds below the baseline agree. -/
abbrev FoldsAgree (ours : Option ScopeFrontier) (theirs : ScopeAnnounce) : Prop :=
  ∀ cut, theirs.baseline = some cut →
    (ours.map fun fr => foldHeadsAtCut fr cut).getD 0 = theirs.fingerprint

/-- The state the walk ends in. -/
abbrev walkOf (ours : Option ScopeFrontier) (theirs : ScopeAnnounce) : CatchupState :=
  theirs.heads.toList.foldl (catchupHead ours theirs.baseline) ⟨false, theirs.baseline, ∅, true⟩

section Plans
variable {ours : Option ScopeFrontier} {theirs : ScopeAnnounce}

theorem behind_walkOf : (walkOf ours theirs).behind = true ↔
    ∃ ts epoch node, theirs.heads[ts]? = some (epoch, node) ∧ sufficient ours ts epoch = false := by
  rw [behind_foldl]
  simp

variable (ours theirs) in
theorem planCatchup_cases : ¬FoldsAgree ours theirs ∧ planCatchup ours theirs = .diverged ∨
    FoldsAgree ours theirs ∧ planCatchup ours theirs = if (walkOf ours theirs).behind then
      .behind (walkOf ours theirs).sinceTs (walkOf ours theirs).epochFloors else .caughtUp := by
  unfold planCatchup FoldsAgree walkOf
  cases theirs.baseline with
  | none => simp
  | some cut =>
    by_cases hf : (ours.map fun fr => foldHeadsAtCut fr cut).getD 0 = theirs.fingerprint <;> simp [hf]

/-- **Being caught up** means that the folds agree below the baseline and every explicit head is held
at its epoch or a later one. -/
theorem planCatchup_eq_caughtUp : planCatchup ours theirs = .caughtUp ↔ FoldsAgree ours theirs ∧
    ∀ ts epoch node, theirs.heads[ts]? = some (epoch, node) → sufficient ours ts epoch = true := by
  rcases planCatchup_cases ours theirs with ⟨hf, hp⟩ | ⟨hf, hp⟩
  · simp [hp, hf]
  · rw [hp, and_iff_right hf]
    simpa using behind_walkOf.not

end Plans

/-- Entering heads: the elided ones go into the fingerprint, the others are explicit. -/
theorem foldl_add {heads : List (Version × Epoch × NodeId)}
    (hdi : heads.Pairwise fun a b => a.1 ≠ b.1) (hsa : heads.foldl ScopeAnnounce.add ⟨some cut, 0, ∅⟩ = sa) :
    sa.baseline = some cut ∧
    sa.fingerprint = (heads.filter fun head => head.1 ≤ cut ∧ head.2.1 ≤ cut).foldl
        (fun acc head => acc ^^^ headFingerprint head.1 head.2.1 head.2.2) 0 ∧
    ∀ ts entry, sa.heads[ts]? = some entry ↔ (ts, entry) ∈ heads ∧ ¬ (ts ≤ cut ∧ entry.1 ≤ cut) := by
  induction heads using reverseRecOn generalizing sa with
  | nil =>
    subst hsa
    simp
  | append_singleton heads head ih =>
    obtain ⟨hdi, -, hne⟩ := pairwise_append.mp hdi
    obtain ⟨hb, hp, hh⟩ := ih hdi rfl
    rw [foldl_append, foldl_cons, foldl_nil, ScopeAnnounce.add, ScopeAnnounce.elides, hb] at hsa
    subst hsa
    by_cases hel : head.1 ≤ cut ∧ head.2.1 ≤ cut
    · simp only [decide_eq_true hel, if_true, filter_append, foldl_append, filter_cons, ← hp, hh]
      grind
    · simp only [decide_eq_false hel, if_false, Bool.false_eq_true, filter_append, filter_cons, filter_nil,
        append_nil, ← hp, lookup_insertHead]
      grind

/-- **An announce** vouches for the frontier: in full, or by the fold up to a cut and the explicit
heads beyond it. -/
theorem announceScope_spec (fr : ScopeFrontier) (cut : Option Version) :
    announceScope fr cut = .full fr ∧
        (cut.bind fun cut => fr.maxKey?.map fun newest => min newest cut) = none ∨
      ∃ b, (cut.bind fun cut => fr.maxKey?.map fun newest => min newest cut) = some b ∧
        (announceScope fr cut).baseline = some b ∧
        (announceScope fr cut).fingerprint = foldHeadsAtCut fr b ∧
        ∀ ts entry, (announceScope fr cut).heads[ts]? = some entry ↔
          fr[ts]? = some entry ∧ ¬ (ts ≤ b ∧ entry.1 ≤ b) := by
  unfold announceScope
  split
  · next hc => exact .inl ⟨rfl, hc⟩
  · next b hc =>
    obtain ⟨hb, hp, hh⟩ := foldl_add (distinct_toList fr) rfl
    refine .inr ⟨b, hc, hb, hp, fun ts entry => ?_⟩
    rw [hh, mem_toList_frontier]

theorem lookup_of_announced {cut : Option Version}
    (h : (announceScope fr cut).heads[ts]? = some entry) : fr[ts]? = some entry := by
  rcases announceScope_spec fr cut with ⟨hf, -⟩ | ⟨b, -, -, -, hh⟩
  · rw [hf] at h
    exact h
  · exact ((hh ts entry).mp h).1

theorem known_sendAnnounce {floored fullReplica : Bool} {now lag : UInt64}
    (h : (sendAnnounce fr floored now lag fullReplica).known = some sa) :
    sa = announceScope fr (lagCut floored now lag) := by
  unfold sendAnnounce known at h
  split at h
  · cases h
  · exact (Option.some.inj h).symm

theorem known_eq_some (h : fr[ts]? = some entry) : known fr = some fr := by
  unfold known
  rw [if_neg]
  intro he
  rw [Std.ExtTreeMap.isEmpty_iff.mp he] at h
  simp at h

theorem exists_newest (h : fr[ts]? = some entry) : ∃ newest, fr.maxKey? = some newest ∧
      ∀ (ts : Version) (entry : Epoch × NodeId), fr[ts]? = some entry → ts ≤ newest := by
  obtain ⟨newest, hn⟩ : ∃ newest, fr.maxKey? = some newest := by
    refine Option.ne_none_iff_exists'.mp fun hno => ?_
    rw [Std.ExtTreeMap.maxKey?_eq_none_iff.mp hno] at h
    simp at h
  refine ⟨newest, hn, fun ts entry hg => ?_⟩
  have hi := (Std.ExtTreeMap.maxKey?_eq_some_iff_mem_and_forall.mp hn).2 ts
    (Std.ExtTreeMap.mem_iff_isSome_getElem?.mpr (by rw [hg]; rfl))
  exact Std.isLE_compare.mp hi

/-- **A covering announce** comes from a full replica and names every version of the frontier
explicitly, at its epoch or a later one. -/
theorem coveredBy_eq_some {announce : Announce}
    {points : List SyncPointId} (h : coveredBy fr announce = some points) :
    announce.fullReplica = true ∧ points = frontierPoints fr ∧
      ∀ (ts : Version) (entry : Epoch × NodeId), fr[ts]? = some entry →
        ∃ sa epoch node, announce.known = some sa ∧ sa.heads[ts]? = some (epoch, node) ∧
          entry.1 ≤ epoch := by
  unfold coveredBy at h
  split at h
  · next hc =>
    refine ⟨hc.1, (Option.some.inj h).symm, fun ts entry hge => ?_⟩
    have hal := hc.2
    rw [known_eq_some hge, Option.all_some, all_eq_true] at hal
    have hhe := hal (ts, entry) (mem_toList_frontier.mpr hge)
    unfold announcesHead at hhe
    cases hk : announce.known with
    | none => simp [hk] at hhe
    | some sa =>
      cases hl : sa.heads[ts]? with
      | none => simp [hk, hl] at hhe
      | some e => exact ⟨sa, e.1, e.2, rfl, hl, by simpa [hk, hl] using hhe⟩
  · cases h

section Spec
variable [Postcard] {ks : Keyspace}

/-- **The frontier** of a well-formed store is read without failure and holds exactly its heads. -/
theorem frontiers_spec (h : WellFormed ks) {s : Scope} :
    ∃ fr, frontiers ks s = .ok fr ∧ ∀ ts epoch node,
      fr[ts]? = some (epoch, node) ↔ ∃ m, IsHead ks ⟨s, ts, epoch, node⟩ m := by
  obtain ⟨_, _, H, hra, hhea, hme, hso⟩ := collectLatestHeads_spec h s
  have hdi : H.Pairwise fun a b => a.1.ts ≠ b.1.ts := by
    refine hso.imp_of_mem fun {a b} ha hb hlt he => ?_
    obtain ⟨has, hah⟩ := (hme a.1 a.2).mp ha
    obtain ⟨hbs, hbh⟩ := (hme b.1 b.2).mp hb
    obtain ⟨hab, -⟩ := hah.unique hbh ⟨he, has.trans hbs.symm⟩
    rw [hab] at hlt
    exact SyncPoint.Before.irrefl _ hlt
  obtain ⟨fr, hok, hlo⟩ := lookup_frontierOf ∅ (by simp) hdi
  refine ⟨fr, ?_, fun ts epoch node => ?_⟩
  · simp [frontiers, hra, hhea, hok, bind, Except.bind]
  · rw [hlo]
    constructor
    · rintro (hno | ⟨⟨sp, m⟩, hin, rfl, hen⟩)
      · simp at hno
      · obtain ⟨rfl, hhe⟩ := (hme sp m).mp hin
        cases hen
        exact ⟨m, hhe⟩
    · rintro ⟨m, hhe⟩
      exact .inr ⟨(⟨s, ts, epoch, node⟩, m), (hme _ m).mpr ⟨rfl, hhe⟩, rfl, rfl⟩

theorem findHeld_spec {rows : List (Bytes × Bytes)} {points : List (SyncPoint × SyncMeta)}
    (h : rows.mapM readSyncPoint = .ok points) (epoch : Epoch) :
    ∃ b, findHeld epoch rows = .ok b ∧ (b = true ↔ ∃ point ∈ points, epoch ≤ point.1.epoch) := by
  induction rows generalizing points with
  | nil =>
    cases h
    exact ⟨false, rfl, by simp⟩
  | cons row rows ih =>
    obtain ⟨point, _, hr, hre, rfl⟩ := mapM_cons_eq_ok.mp h
    obtain ⟨b, hb, hi⟩ := ih hre
    by_cases hle : epoch ≤ point.1.epoch
    · exact ⟨true, by simp [findHeld, hr, bind, Except.bind, hle, pure, Except.pure], by simp [hle]⟩
    · exact ⟨b, by simp [findHeld, hr, bind, Except.bind, hle, hb], by simp [hle, hi]⟩

theorem heldSince_spec (h : WellFormed ks) (s : Scope) (ts : Version) (epoch : Epoch) :
    ∃ b, heldSince ks s ts epoch = .ok b ∧
      (b = true ↔ ∃ p m, p.scope = s ∧ p.ts = ts ∧ epoch ≤ p.epoch ∧ metaAt ks p = some m) := by
  obtain ⟨_, hr, hu⟩ := s.keyRange_syncPointAt ts
  obtain ⟨_, hre, -, hme, -⟩ := listing_spec h (s.syncPointAt ts) rfl
  obtain ⟨b, hb, hi⟩ := findHeld_spec hre epoch
  refine ⟨b, ?_, hi.trans ?_⟩
  · rw [heldSince, hr, context_ok]
    simp only [bind, Except.bind]
    rw [Store.rangeOf_eq_prefixOf hu, hb]
  · constructor
    · rintro ⟨⟨p, m⟩, hin, hle⟩
      obtain ⟨hp, hm⟩ := (hme p m).mp hin
      obtain ⟨hts, hs⟩ := Scope.syncPointAt_isPrefix.mp hp
      exact ⟨p, m, hs, hts, hle, hm⟩
    · rintro ⟨p, m, hs, hts, hle, hm⟩
      exact ⟨(p, m), (hme p m).mpr ⟨Scope.syncPointAt_isPrefix.mpr ⟨hts, hs⟩, hm⟩, hle⟩

/-- **A page is confirmed** exactly when the subject covers the scope and every head of the page is
held at its epoch or a later one. -/
theorem verifyCoverage_spec (h : WellFormed ks) (subject : Subject) (s : Scope)
    {heads : List (Version × Epoch)} :
    ∃ b, verifyCoverage ks subject s heads = .ok b ∧ (b = true ↔ subject.contains s = true ∧
      ∀ head ∈ heads, ∃ p m, p.scope = s ∧ p.ts = head.1 ∧ head.2 ≤ p.epoch ∧
        metaAt ks p = some m) := by
  have hgo : ∃ b, verifyHeads ks s heads = .ok b ∧ (b = true ↔ ∀ head ∈ heads, ∃ p m,
      p.scope = s ∧ p.ts = head.1 ∧ head.2 ≤ p.epoch ∧ metaAt ks p = some m) := by
    induction heads with
    | nil => exact ⟨true, rfl, by simp⟩
    | cons head heads ih =>
      obtain ⟨b, hb, hif⟩ := ih
      obtain ⟨held, hhe, hhel⟩ := heldSince_spec h s head.1 head.2
      cases held with
      | true =>
        refine ⟨b, by simp [verifyHeads, hhe, hb, bind, Except.bind], ?_⟩
        rw [forall_mem_cons, ← hif, ← hhel]
        simp
      | false =>
        refine ⟨false, by simp [verifyHeads, hhe, bind, Except.bind, pure, Except.pure], ?_⟩
        rw [forall_mem_cons, ← hhel]
        simp
  obtain ⟨b, hb, hif⟩ := hgo
  cases hs : subject.contains s with
  | true => exact ⟨b, by simp [verifyCoverage, hs, hb], by simp [hif]⟩
  | false => exact ⟨false, by simp [verifyCoverage, hs], by simp⟩

omit [Postcard] in
theorem flatten_pages {α : Type} {size fuel : Nat} {l : List α} (hs : 0 < size)
    (hf : l.length ≤ fuel) : (pages size fuel l).flatten = l := by
  induction fuel generalizing l with
  | zero =>
    obtain rfl : l = [] := length_eq_zero_iff.mp (Nat.le_zero.mp hf)
    rfl
  | succ fuel ih =>
    cases l with
    | nil => rfl
    | cons a l =>
      rw [pages, flatten_cons, ih, take_append_drop]
      · rw [length_drop]
        simp only [length_cons] at hf ⊢
        omega
      · simp

theorem verifyPages_spec (h : WellFormed ks) (s : Scope) :
    ∃ pages, verifyPages ks s = .ok pages ∧ ∀ ts epoch, (ts, epoch) ∈ pages.flatten ↔
      ∃ node m, IsHead ks ⟨s, ts, epoch, node⟩ m := by
  obtain ⟨_, _, H, hr, hhe, hm, -⟩ := collectLatestHeads_spec h s
  refine ⟨_, by simp [verifyPages, hr, hhe, bind, Except.bind, pure, Except.pure]; rfl,
    fun ts epoch => ?_⟩
  rw [flatten_pages (by decide) (by simp), mem_map]
  constructor
  · rintro ⟨⟨sp, m⟩, hin, he⟩
    obtain ⟨rfl, hh⟩ := (hm sp m).mp hin
    cases he
    exact ⟨sp.id, m, hh⟩
  · rintro ⟨node, m, hh⟩
    exact ⟨(⟨s, ts, epoch, node⟩, m), (hm _ m).mpr ⟨rfl, hh⟩, rfl⟩

end Spec

end Myrmic
