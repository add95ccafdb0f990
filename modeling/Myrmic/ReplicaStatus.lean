import Myrmic.Catchup
import Myrmic.Peers

/-!
# The status of a replica

A node reports whether it has caught up on a scope.  It does not plan a catch-up with each of its peers
for that (`planCatchup`), but enters the heads that all of them announce into one map, of each version
the latest epoch, and compares the folds at their baselines with its own.  Each of the three functions
goes through the peer table for itself and leaves out what is older than `peerTtl`.
`replica_status_matches_plan` says that **the report is what the plans say**: there is none when no
announce of the scope in the table is that young, and otherwise the node is caught up exactly if it is
so with every announce that is.
-/
namespace Myrmic
open OrderedBytes Fallible List

inductive ReplicationStatus where
  /-- Nothing is known to be missing. -/
  | active
  | requested
deriving DecidableEq

/-- Enters a head that a peer announces; of each version the latest epoch is kept. -/
def addTarget (target : EpochFloors) (head : Version × Epoch × NodeId) : EpochFloors :=
  target.insert head.1 ((target[head.1]?.map (max · head.2.1)).getD head.2.1)

/-- The loop body of `outstanding`: enters the heads of a peer's announce, unless it is too old. -/
def addPeer (s : Scope) (now : Nat) (target : EpochFloors) (entry : NodeId × PeerEntry) : EpochFloors :=
  match entry.2.scopes s with
  | some held =>
    if peerTtl < now - held.lastSeenAt then target
    else held.announce.heads.toList.foldl addTarget target
  | none => target

/-- The loop body of `prefixDiverged`: the baseline and the fold of a peer's announce. -/
def cutOf (s : Scope) (now : Nat) (entry : NodeId × PeerEntry) : Option (Version × Fingerprint) := do
  let held ← entry.2.scopes s
  if now - held.lastSeenAt ≤ peerTtl then
    let cut ← held.announce.baseline
    return (cut, held.announce.fingerprint)
  else none

section Status
-- the heads that a scan of the node's own store finds
variable (scopeHeads : Except String ScopeFrontier) (table : PeerTable) (s : Scope) (now : Nat)

/-- The announced heads that are missing here. -/
def outstanding : Except String EpochFloors := do
  let target := table.peerFrontiers.toList.foldl (addPeer s now) ∅
  if target.isEmpty then return target
  let ours ← scopeHeads
  return target.filter fun ts epoch => ours[ts]?.all fun head => head.1 < epoch

/-- Whether the fold at the baseline of some announce is not the one over the own heads. -/
def prefixDiverged : Except String Bool := do
  let cuts := table.peerFrontiers.toList.filterMap (cutOf s now)
  if cuts.isEmpty then return false
  let ours ← scopeHeads
  return cuts.any fun cut => foldHeadsAtCut ours cut.1 != cut.2

/-- What the node reports on the scope; nothing, if no live peer has announced anything for it. -/
def replicaStatus : Except String (Option ReplicationStatus) := do
  let anyLivePeerMentions := table.peerFrontiers.toList.any fun entry =>
    (entry.2.scopes s).any fun held => now - held.lastSeenAt ≤ peerTtl
  if !anyLivePeerMentions then return none
  if !(← outstanding scopeHeads table s now).isEmpty then return some .requested
  if ← prefixDiverged scopeHeads table s now then return some .requested
  return some .active

end Status

/-- All of a target is held here. -/
def Met (ours : ScopeFrontier) (target : EpochFloors) : Prop :=
  ∀ ts epoch, target[ts]? = some epoch → HoldsHead ours ts epoch

section Targets
variable {ours : ScopeFrontier} {ts : Version}

theorem holdsHead_max {a b : Epoch} :
    HoldsHead ours ts (max a b) ↔ HoldsHead ours ts a ∧ HoldsHead ours ts b := by
  unfold HoldsHead
  change (∃ held node, _ ∧ (if a ≤ b then b else a) ≤ held) ↔ _
  constructor
  · rintro ⟨held, node, hg, hle⟩
    by_cases hab : a ≤ b
    · rw [if_pos hab] at hle
      exact ⟨⟨held, node, hg, UInt64.le_trans hab hle⟩, held, node, hg, hle⟩
    · rw [if_neg hab] at hle
      have hba := UInt64.le_of_lt (UInt64.not_le.mp hab)
      exact ⟨⟨held, node, hg, hle⟩, held, node, hg, UInt64.le_trans hba hle⟩
  · rintro ⟨⟨held, node, hg, ha⟩, held', node', hg', hb⟩
    cases hg.symm.trans hg'
    exact ⟨held, node, hg, by split <;> assumption⟩

/-- A head entered into a target asks for what the head asks for. -/
theorem met_addTarget (target : EpochFloors) (head : Version × Epoch × NodeId) :
    Met ours (addTarget target head) ↔ Met ours target ∧ HoldsHead ours head.1 head.2.1 := by
  have hn : HoldsHead ours head.1 ((target[head.1]?.map (max · head.2.1)).getD head.2.1) ↔
      (∀ old, target[head.1]? = some old → HoldsHead ours head.1 old) ∧
        HoldsHead ours head.1 head.2.1 := by
    cases target[head.1]? <;> simp [holdsHead_max]
  unfold Met addTarget
  simp only [lookup_insertHead]
  constructor
  · intro h
    obtain ⟨ho, hh⟩ := hn.mp (h head.1 _ (if_pos rfl))
    refine ⟨fun ts epoch ht => ?_, hh⟩
    by_cases hts : head.1 = ts
    · subst hts
      exact ho epoch ht
    · exact h ts epoch (by rw [if_neg hts, ht])
  · rintro ⟨h, hh⟩ ts epoch ht
    split at ht
    · next hts =>
      subst hts
      cases ht
      exact hn.mpr ⟨h head.1, hh⟩
    · exact h ts epoch ht

theorem met_foldl (l : List (Version × Epoch × NodeId)) (target : EpochFloors) :
    Met ours (l.foldl addTarget target) ↔
      Met ours target ∧ ∀ head ∈ l, HoldsHead ours head.1 head.2.1 := by
  induction l generalizing target with
  | nil => simp
  | cons head l ih =>
    rw [foldl_cons, ih, met_addTarget]
    simp [and_assoc]

end Targets

variable (ours : ScopeFrontier) (table : PeerTable) (s : Scope) (now : Nat)

section Table
variable {table s now} {peer : NodeId} {entry : PeerEntry} {held : PeerScope}

theorem holds_of_mem (h : (peer, entry) ∈ table.peerFrontiers.toList)
    (hs : entry.scopes s = some held) : table.Holds peer s held :=
  ⟨entry, Std.ExtTreeMap.mem_toList_iff_getElem?_eq_some.mp h, hs⟩

theorem PeerTable.Holds.exists_mem (h : table.Holds peer s held) :
    ∃ entry, (peer, entry) ∈ table.peerFrontiers.toList ∧ entry.scopes s = some held := by
  obtain ⟨entry, he, hs⟩ := h
  exact ⟨entry, Std.ExtTreeMap.mem_toList_iff_getElem?_eq_some.mpr he, hs⟩

theorem met_addPeer (target : EpochFloors) : Met ours (addPeer s now target (peer, entry)) ↔
    Met ours target ∧ ∀ held, entry.scopes s = some held → now - held.lastSeenAt ≤ peerTtl →
      ∀ head ∈ held.announce.heads.toList, HoldsHead ours head.1 head.2.1 := by
  unfold addPeer
  dsimp only
  cases entry.scopes s with
  | none => simp
  | some held =>
    dsimp only
    split
    · next hold =>
      refine (and_iff_left fun _ he hle => ?_).symm
      cases he
      exact absurd hle (Nat.not_le.mpr hold)
    · next hle =>
      rw [met_foldl]
      refine and_congr_right fun _ => ⟨fun h _ he _ => ?_, fun h => ?_⟩
      · cases he
        exact h
      · exact h held rfl (Nat.le_of_not_lt hle)

/-- What entering the announces of some peers into a target asks for. -/
theorem met_foldl_addPeer (entries : List (NodeId × PeerEntry)) (target : EpochFloors) :
    Met ours (entries.foldl (addPeer s now) target) ↔ Met ours target ∧
      ∀ peer entry held, (peer, entry) ∈ entries → entry.scopes s = some held →
        now - held.lastSeenAt ≤ peerTtl →
        ∀ head ∈ held.announce.heads.toList, HoldsHead ours head.1 head.2.1 := by
  induction entries generalizing target with
  | nil => simp
  | cons entry entries ih =>
    obtain ⟨peer, entry⟩ := entry
    rw [foldl_cons, ih, met_addPeer, and_assoc]
    refine and_congr_right fun _ => ⟨?_, ?_⟩
    · rintro ⟨hf, hr⟩ p e held hm
      rcases mem_cons.mp hm with he | hm
      · cases he
        exact hf held
      · exact hr p e held hm
    · exact fun h => ⟨fun held => h peer entry held mem_cons_self,
        fun p e held hm => h p e held (mem_cons_of_mem _ hm)⟩

theorem cutOf_eq_some {cut : Version × Fingerprint} : cutOf s now (peer, entry) = some cut ↔
    ∃ held, entry.scopes s = some held ∧ now - held.lastSeenAt ≤ peerTtl ∧
      held.announce.baseline = some cut.1 ∧ held.announce.fingerprint = cut.2 := by
  unfold cutOf
  constructor
  · intro h
    obtain ⟨held, hs, h⟩ := Option.bind_eq_some_iff.mp h
    split at h
    · next hle =>
      obtain ⟨_, hb, h⟩ := Option.bind_eq_some_iff.mp h
      cases h
      exact ⟨held, hs, hle, hb, rfl⟩
    · cases h
  · rintro ⟨held, hs, hle, hb, hf⟩
    simp only [hs, Option.bind_eq_bind, Option.bind_some, if_pos hle, hb, hf]
    rfl

end Table

/-- Nothing is outstanding exactly if every explicit head of the young announces is held here. -/
theorem outstanding_spec : ∃ out, outstanding (.ok ours) table s now = .ok out ∧
    (out.isEmpty = true ↔ ∀ peer held, table.Holds peer s held → now - held.lastSeenAt ≤ peerTtl →
      ∀ head ∈ held.announce.heads.toList, HoldsHead ours head.1 head.2.1) := by
  have hempty : Met ours ∅ := fun ts epoch h => by simp at h
  have hall := @met_foldl_addPeer ours s now table.peerFrontiers.toList ∅
  rw [and_iff_right hempty] at hall
  have hheld : (∀ peer held, table.Holds peer s held → now - held.lastSeenAt ≤ peerTtl →
      ∀ head ∈ held.announce.heads.toList, HoldsHead ours head.1 head.2.1) ↔
      ∀ peer entry held, (peer, entry) ∈ table.peerFrontiers.toList → entry.scopes s = some held →
        now - held.lastSeenAt ≤ peerTtl →
        ∀ head ∈ held.announce.heads.toList, HoldsHead ours head.1 head.2.1 := by
    constructor
    · exact fun h peer entry held hm hs => h peer held (holds_of_mem hm hs)
    · intro h peer held hh
      obtain ⟨entry, hm, hs⟩ := hh.exists_mem
      exact h peer entry held hm hs
  rw [hheld, ← hall, outstanding]
  generalize foldl _ _ _ = target
  by_cases ht : target.isEmpty = true
  · refine ⟨target, by simp [ht, pure, Except.pure], iff_of_true ht ?_⟩
    rw [Std.ExtTreeMap.isEmpty_iff.mp ht]
    exact hempty
  · refine ⟨_, by simp only [ht]; rfl, ?_⟩
    rw [Std.ExtTreeMap.isEmpty_iff, Std.ExtTreeMap.filter_eq_empty_iff]
    have hh : ∀ ts epoch, (ours[ts]?.all fun head => head.1 < epoch) = false ↔
        HoldsHead ours ts epoch := by
      intro ts epoch
      unfold HoldsHead
      cases ours[ts]? <;> simp [Prod.ext_iff]
    simp only [Std.ExtTreeMap.getKey_eq, hh]
    constructor
    · intro h ts epoch hg
      have hin : ts ∈ target := Std.ExtTreeMap.mem_iff_isSome_getElem?.mpr (by rw [hg]; rfl)
      rw [getElem?_pos target ts hin] at hg
      cases hg
      exact h ts hin
    · exact fun h ts hin => h ts _ (getElem?_pos target ts hin)

/-- No fold has diverged exactly if the own one agrees with those of the young announces. -/
theorem prefixDiverged_spec : ∃ diverged, prefixDiverged (.ok ours) table s now = .ok diverged ∧
    (diverged = false ↔ ∀ peer held, table.Holds peer s held → now - held.lastSeenAt ≤ peerTtl →
      ∀ cut, held.announce.baseline = some cut →
        foldHeadsAtCut ours cut = held.announce.fingerprint) := by
  refine ⟨(table.peerFrontiers.toList.filterMap (cutOf s now)).any
    fun cut => foldHeadsAtCut ours cut.1 != cut.2, ?_, ?_⟩
  · rw [prefixDiverged]
    cases filterMap _ _ <;> rfl
  · simp only [any_eq_false, mem_filterMap, bne_iff_ne, not_not]
    constructor
    · intro h peer held hh hle cut hc
      obtain ⟨entry, hm, hs⟩ := hh.exists_mem
      exact h (cut, _) ⟨(peer, entry), hm, cutOf_eq_some.mpr ⟨held, hs, hle, hc, rfl⟩⟩
    · rintro h cut ⟨⟨peer, entry⟩, hm, hc⟩
      obtain ⟨held, hs, hle, hb, hf⟩ := cutOf_eq_some.mp hc
      exact (h peer held (holds_of_mem hm hs) hle _ hb).trans hf

/-- **The status of a replica is what the plans say.**  There is none exactly if the table has no
announce of the scope that is young enough, and otherwise it is active exactly if the plan for each such
announce is that nothing is missing. -/
theorem replica_status_matches_plan : ∃ status, replicaStatus (.ok ours) table s now = .ok status ∧
      (status = none ↔ ¬∃ peer held, table.Holds peer s held ∧ now - held.lastSeenAt ≤ peerTtl) ∧
      (status ≠ none → (status = some .active ↔ ∀ peer held, table.Holds peer s held →
        now - held.lastSeenAt ≤ peerTtl → planCatchup (known ours) held.announce = .caughtUp)) := by
  obtain ⟨out, ho, hout⟩ := outstanding_spec ours table s now
  obtain ⟨diverged, hd, hdiv⟩ := prefixDiverged_spec ours table s now
  have hplan : (out.isEmpty = true ∧ diverged = false) ↔ ∀ peer held, table.Holds peer s held →
      now - held.lastSeenAt ≤ peerTtl → planCatchup (known ours) held.announce = .caughtUp := by
    rw [hout, hdiv]
    constructor
    · rintro ⟨hh, hc⟩ peer held hp hle
      refine planCatchup_eq_caughtUp.mpr ⟨fun cut hb => ?_, fun ts epoch node hg => ?_⟩
      · rw [foldHeadsAtCut_known, hc peer held hp hle cut hb]
      · exact sufficient_known.mpr (hh peer held hp hle (ts, epoch, node) (mem_toList_frontier.mpr hg))
    · intro h
      have hpl := fun peer held hp hle => planCatchup_eq_caughtUp.mp (h peer held hp hle)
      refine ⟨fun peer held hp hle head hin => ?_, fun peer held hp hle cut hb => ?_⟩
      · exact sufficient_known.mp ((hpl peer held hp hle).2 _ _ _ (mem_toList_frontier.mp hin))
      · rw [← foldHeadsAtCut_known, (hpl peer held hp hle).1 cut hb]
  have hlive : (table.peerFrontiers.toList.any fun entry =>
        (entry.2.scopes s).any fun held => now - held.lastSeenAt ≤ peerTtl) = true ↔
      ∃ peer held, table.Holds peer s held ∧ now - held.lastSeenAt ≤ peerTtl := by
    simp only [any_eq_true, Option.any_eq_true, decide_eq_true_eq]
    constructor
    · rintro ⟨⟨peer, entry⟩, hm, held, hs, hle⟩
      exact ⟨peer, held, holds_of_mem hm hs, hle⟩
    · rintro ⟨peer, held, hh, hle⟩
      obtain ⟨entry, hm, hs⟩ := hh.exists_mem
      exact ⟨(peer, entry), hm, held, hs, hle⟩
  rw [replicaStatus, ← hplan, ← hlive]
  cases any _ _ with
  | false => exact ⟨none, rfl, by simp⟩
  | true =>
    simp only [ho, hd, bind, Except.bind]
    cases out.isEmpty <;> cases diverged <;> simp [pure, Except.pure]

end Myrmic
