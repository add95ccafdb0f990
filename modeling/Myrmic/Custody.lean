import Myrmic.Drain
import Myrmic.Peers

/-!
# Custody

A scope that no configuration names is held by **provisional** replicas, each with a custody row.
`custodyPass` is the watcher's pass over the rows a node owns.  Where the scope is not being drained,
`judgeCustody` decides alone, from what this node sees: convert when configuration names the node,
demote toward a configured replica, or else collapse toward the **rendezvous winner** of the visible
provisionals.  Where the scope is being drained, the pass watches for full replicas: if none was in
view for `replicasQuietFor`, the drain is re-armed.

The winner is the greatest in an order that ends with the node id, so it does not depend on how a node
lists its peers, and the greatest of all provisionals is also the greatest of any part of them that
contains it: **custody collapse keeps a holder** (`custody_collapse_keeps_holder`).

The start of the quiet window is kept in `quietSince` across passes, and dropped only when a replica is
in view of a pass that finds the scope draining.  A scope that stops draining and later drains again
keeps the old start, so one quiet pass re-arms it (`stale_quiet_window_rearms`).  While every scope with
a recorded start is a drain whose replicas each pass looks at, **a re-arm is preceded by a full quiet
window** (`rearm_after_quiet_window`).
-/
namespace Myrmic
open OrderedBytes Machine List Function Sample

/-! ## The rendezvous winner -/

/-- Feeds bytes to an FNV-1a hash; the multiplication wraps. -/
def eat (hash : UInt64) (bytes : Bytes) : UInt64 :=
  bytes.foldl (fun hash byte => (hash ^^^ byte.toUInt64) * 0x100000001b3) hash

/-- A node's draw for a scope: a hash of the scope's segments, each ended by a NUL, and the node id. -/
def rendezvousHash (s : Scope) (node : NodeId) : UInt64 :=
  let hash := eat (eat 0xcbf29ce484222325 (strBytes s.nameSpace.val)) [0]
  let hash := eat (eat hash (strBytes s.database.val)) [0]
  let hash := eat (eat hash (strBytes s.schema.val)) [0]
  eat hash node.bytes

/-- The last of the greatest elements. -/
def maxBy {α : Type} (cmp : α → α → Ordering) : List α → Option α
  | [] => none
  | x :: xs => some (xs.foldl (fun best y => if cmp best y = .gt then best else y) x)

/-- Nodes ordered by their draw, equal draws by the node id. -/
def compareDraw (s : Scope) : NodeId → NodeId → Ordering :=
  compareLex (compareOn (rendezvousHash s)) compare

/-- The node that all nodes with the same view choose. -/
def custodyWinner (s : Scope) (nodes : List NodeId) : Option NodeId := maxBy (compareDraw s) nodes

section MaxBy
variable {α : Type} (cmp : α → α → Ordering) [Std.TransCmp cmp]

theorem maxBy_cons_spec (x : α) (xs : List α) :
    ∃ w, maxBy cmp (x :: xs) = some w ∧ w ∈ x :: xs ∧ ∀ y ∈ x :: xs, (cmp y w).isLE = true := by
  refine ⟨_, rfl, ?_⟩
  induction xs generalizing x with
  | nil => simp [Std.ReflCmp.compare_self]
  | cons y ys ih =>
    rw [foldl_cons]
    split
    · next hgt =>
      obtain ⟨hme, hma⟩ := ih x
      have hyx : (cmp y x).isLE = true := by
        rw [Std.OrientedCmp.gt_iff_lt.mp hgt]
        rfl
      obtain ⟨hxm, hlm⟩ := forall_mem_cons.mp hma
      refine ⟨?_, forall_mem_cons.mpr ⟨hxm, forall_mem_cons.mpr ⟨Std.TransCmp.isLE_trans hyx hxm, hlm⟩⟩⟩
      rcases mem_cons.mp hme with he | hme
      · rw [he]
        exact mem_cons_self
      · exact mem_cons_of_mem _ (mem_cons_of_mem _ hme)
    · next hle =>
      obtain ⟨hme, hma⟩ := ih y
      have hxy : (cmp x y).isLE = true := by
        cases hc : cmp x y with
        | gt => exact absurd hc hle
        | _ => rfl
      refine ⟨mem_cons_of_mem _ hme, forall_mem_cons.mpr ⟨?_, hma⟩⟩
      exact Std.TransCmp.isLE_trans hxy (hma y mem_cons_self)

/-- **The greatest element** of a list, in an order that tells all elements apart, is the only one that
no other exceeds; how the list is arranged does not matter. -/
theorem maxBy_eq_some [Std.LawfulEqCmp cmp] {xs : List α} {w : α} (hm : w ∈ xs)
    (hma : ∀ y ∈ xs, (cmp y w).isLE = true) : maxBy cmp xs = some w := by
  cases xs with
  | nil => cases hm
  | cons x xs =>
    obtain ⟨v, hv, hvme, hvm⟩ := maxBy_cons_spec cmp x xs
    rw [hv, Std.LawfulEqCmp.eq_of_compare (Std.OrientedCmp.isLE_antisymm (hma v hvme) (hvm w hm))]

end MaxBy

instance (s : Scope) : Std.TransCmp (compareDraw s) :=
  inferInstanceAs (Std.TransCmp (compareLex (compareOn (rendezvousHash s)) compare))

instance (s : Scope) : Std.LawfulEqCmp (compareDraw s) where
  eq_of_compare h := Std.LawfulEqCmp.eq_of_compare (compareLex_eq_eq.mp h).2

/-! ## Judging a custody -/

/-- What a node decides to do about a scope. -/
inductive CustodyAction where
  /-- Stay, or become, the scope's provisional replica. -/
  | hold
  /-- Configuration names this node; the custody row is redundant. -/
  | convert
  /-- A better holder exists: unwind toward it. -/
  | demote (target : NodeId)
deriving DecidableEq

/-- What to do about one of this node's custody rows. -/
def judgeCustody (me : NodeId) (s : Scope) (configuredHere : Bool)
    (configured provisionals : List NodeId) : CustodyAction :=
  if configuredHere then .convert
  else
    match maxBy compare configured with
    | some target => .demote target
    | none =>
      match custodyWinner s (me :: provisionals) with
      | some winner => if winner ≠ me then .demote winner else .hold
      | none => .hold

section Collapse
variable {s : Scope} {me winner : NodeId} {provisionals : List NodeId}

/-- Without configured replicas a node follows the greatest draw among itself and what it sees. -/
theorem judgeCustody_of_greatest (hme : winner ∈ me :: provisionals)
    (hm : ∀ node ∈ me :: provisionals, (compareDraw s node winner).isLE = true) :
    judgeCustody me s false [] provisionals = if winner ≠ me then .demote winner else .hold := by
  simp only [judgeCustody, Bool.false_eq_true, if_false, maxBy]
  rw [show custodyWinner s (me :: provisionals) = some winner from
    maxBy_eq_some (compareDraw s) hme hm]

theorem exists_greatest_draw (s : Scope) {nodes : Finset NodeId} (hne : nodes.Nonempty) :
    ∃ winner ∈ nodes, ∀ node ∈ nodes, (compareDraw s node winner).isLE = true := by
  cases hl : nodes.toList with
  | nil => exact absurd (Finset.toList_eq_nil.mp hl) hne.ne_empty
  | cons x xs =>
    obtain ⟨winner, -, hme, hm⟩ := maxBy_cons_spec (compareDraw s) x xs
    rw [← hl] at hme hm
    exact ⟨winner, Finset.mem_toList.mp hme, fun node hn => hm node (Finset.mem_toList.mpr hn)⟩

end Collapse

/-- **Custody collapse keeps a holder.**  Among any provisionals, whatever each of them sees of the
others and however it lists them, there is one of greatest draw, and that one holds.  If all see each
other, every other one demotes toward it. -/
theorem custody_collapse_keeps_holder (s : Scope) (nodes : Finset NodeId) (hne : nodes.Nonempty)
    (sees : NodeId → List NodeId) (hsees : ∀ node ∈ nodes, ∀ peer ∈ sees node, peer ∈ nodes) :
    ∃! winner, winner ∈ nodes ∧ (∀ node ∈ nodes, (compareDraw s node winner).isLE = true) ∧
      judgeCustody winner s false [] (sees winner) = .hold ∧
      ((∀ node ∈ nodes, ∀ peer ∈ nodes, peer ≠ node → peer ∈ sees node) →
        ∀ node ∈ nodes, node ≠ winner →
          judgeCustody node s false [] (sees node) = .demote winner) := by
  obtain ⟨winner, hwi, hma⟩ := exists_greatest_draw s hne
  refine ⟨winner, ⟨hwi, hma, ?_, ?_⟩, ?_⟩
  · rw [judgeCustody_of_greatest mem_cons_self ?_, if_neg (by simp)]
    exact forall_mem_cons.mpr ⟨hma winner hwi, fun node hno => hma node (hsees winner hwi node hno)⟩
  · intro hal node hno hot
    rw [judgeCustody_of_greatest
      (mem_cons_of_mem _ (hal node hno winner hwi hot.symm)) ?_, if_pos hot.symm]
    exact forall_mem_cons.mpr ⟨hma node hno, fun peer hpe => hma peer (hsees node hno peer hpe)⟩
  · rintro other ⟨hot, hoth, -⟩
    exact Std.LawfulEqCmp.eq_of_compare
      (Std.OrientedCmp.isLE_antisymm (hma other hot) (hoth winner hwi))

/-- Two provisionals that see each other: the second draws higher. -/
theorem two_provisionals_collapse :
    judgeCustody (Sample.node 2) Sample.scope false [] [Sample.node 1] = .hold ∧
    judgeCustody (Sample.node 1) Sample.scope false [] [Sample.node 2] =
      .demote (Sample.node 2) := by
  have hd : Sample.node 2 ≠ Sample.node 1 := by decide
  obtain ⟨winner, ⟨hw, hm, hh, hde⟩, -⟩ := custody_collapse_keeps_holder Sample.scope
    {Sample.node 1, Sample.node 2} (by simp)
    (fun node => if node = Sample.node 1 then [Sample.node 2] else [Sample.node 1])
    (by simp [hd])
  obtain rfl : winner = Sample.node 2 := by
    rcases Finset.mem_insert.mp hw with rfl | hw
    · exact absurd (hm (Sample.node 2) (by simp)) (by decide +kernel)
    · exact Finset.mem_singleton.mp hw
  refine ⟨by simpa [hd] using hh, ?_⟩
  simpa using hde (by simp [hd, hd.symm]) (Sample.node 1) (by simp) hd.symm

/-! ## The custody pass -/

/-- A scope that a node has taken into custody. -/
structure CustodyRow where
  scope : Scope
  node : NodeId
deriving DecidableEq

/-- How long a full-replica peer without a custody row must be observed before it counts as a
configured replica.  Times are in nanoseconds. -/
def configuredGrace : Nat := 60 * 1000000000

/-- How long every full replica of a draining scope must stay out of view before the drain is
re-armed. -/
def replicasQuietFor : Nat := 30 * 1000000000

/-- What the watcher keeps from pass to pass: when each suspected configured replica was first seen,
and when each draining scope lost sight of every full replica. -/
structure Watch where
  suspects : Scope × NodeId → Option Nat
  quietSince : Scope → Option Nat

/-- What a pass finds: the custody rows, the configured subjects, the node's replicators and drains,
and its view of its peers. -/
structure Pass where
  rows : List CustodyRow
  active : List Subject
  always : List Subject
  handles : Handles
  offloading : List Scope
  peerView : Scope → List PeerView
  now : Nat

/-- What a pass does, in order. -/
inductive CustodyEffect where
  | rearmOffload (s : Scope)
  | startReplication (s : Scope)
  | deleteOwnCustodyRow (s : Scope)
  /-- Replication of the scope is stopped and its drain started. -/
  | unwind (s : Scope) (target : NodeId)
deriving DecidableEq

/-- What a pass works on. -/
structure PassState where
  watch : Watch
  handles : Handles
  offloading : List Scope
  /-- The suspects seen in this pass. -/
  observed : List (Scope × NodeId)
  effects : List CustodyEffect

/-- The replicas of a scope that this node can see. -/
def liveReplicas (p : Pass) (s : Scope) : List NodeId :=
  ((p.peerView s).filter fun peer => peer.state = .replica).map PeerView.id

/-- Notes a suspect; the time it was first seen stays. -/
def observeSuspect (p : Pass) (s : Scope) (st : PassState) (id : NodeId) : PassState :=
  let firstSeen := (st.watch.suspects (s, id)).getD p.now
  { st with
    watch.suspects := update st.watch.suspects (s, id) (some firstSeen)
    observed := (s, id) :: st.observed }

/-- A scope that is being drained: watches for full replicas. -/
def watchDrain (p : Pass) (s : Scope) (st : PassState) : PassState :=
  if liveReplicas p s = [] then
    let since := (st.watch.quietSince s).getD p.now
    { st with
      watch.quietSince := update st.watch.quietSince s (some since)
      effects := if replicasQuietFor ≤ p.now - since then st.effects ++ [.rearmOffload s]
        else st.effects }
  else
    { st with watch.quietSince := update st.watch.quietSince s none }

/-- A scope that is not being drained: its custody is judged. -/
def watchCustody (me : NodeId) (p : Pass) (s : Scope) (st : PassState) : PassState :=
  let others := (liveReplicas p s).filter (· ≠ me)
  let provisionals := others.filter fun id => (⟨s, id⟩ : CustodyRow) ∈ p.rows
  let configuredPeers := others.filter fun id => (⟨s, id⟩ : CustodyRow) ∉ p.rows
  let st := configuredPeers.foldl (observeSuspect p s) st
  let ripeConfigured := configuredPeers.filter fun id =>
    configuredGrace ≤ p.now - (st.watch.suspects (s, id)).getD p.now
  let configuredHere := (p.active ++ p.always).any fun subject => subject.contains s
  match judgeCustody me s configuredHere ripeConfigured provisionals with
  | .hold =>
    { st with
      handles := replicate st.handles (.scope s)
      effects := st.effects ++ [.startReplication s] }
  | .convert => { st with effects := st.effects ++ [.deleteOwnCustodyRow s] }
  | .demote target =>
    let handles := stopReplication st.handles (.scope s)
    { st with
      handles := handles
      -- no drain is started while another replicator covers the scope
      offloading := if isReplicating handles s then st.offloading else s :: st.offloading
      effects := st.effects ++ [.unwind s target] }

def visitRow (me : NodeId) (p : Pass) (st : PassState) (row : CustodyRow) : PassState :=
  if row.scope ∈ st.offloading then watchDrain p row.scope st
  else watchCustody me p row.scope st

/-- One pass over the custody rows this node owns.  Suspects that were not seen are dropped. -/
def custodyPass (me : NodeId) (p : Pass) (w : Watch) : PassState :=
  let st := (p.rows.filter fun row => row.node = me).foldl (visitRow me p)
    ⟨w, p.handles, p.offloading, [], []⟩
  { st with
    watch.suspects := fun key => if key ∈ st.observed then st.watch.suspects key else none }

section Pass
variable {me : NodeId} {p : Pass} {w : Watch} {st : PassState} {s : Scope}

theorem foldl_observeSuspect {ids : List NodeId} (st : PassState) :
    (ids.foldl (observeSuspect p s) st).watch.quietSince = st.watch.quietSince ∧
    (ids.foldl (observeSuspect p s) st).offloading = st.offloading ∧
    (ids.foldl (observeSuspect p s) st).effects = st.effects := by
  induction ids generalizing st with
  | nil => exact ⟨rfl, rfl, rfl⟩
  | cons id ids ih => exact ih (observeSuspect p s st id)

theorem judgeCustody_of_no_live {configuredHere : Bool} {target : NodeId}
    (h : judgeCustody me s configuredHere [] [] = .demote target) : False := by
  cases configuredHere with
  | true => cases h
  | false => simp [judgeCustody, maxBy, custodyWinner] at h

/-- Judging a custody leaves the quiet windows alone and re-arms nothing; it starts a drain only with a
full replica in view. -/
theorem watchCustody_spec (me : NodeId) (p : Pass) (s : Scope) (st : PassState) :
    (watchCustody me p s st).watch.quietSince = st.watch.quietSince ∧
    ((watchCustody me p s st).offloading = st.offloading ∨
      (watchCustody me p s st).offloading = s :: st.offloading ∧ liveReplicas p s ≠ []) ∧
    ∀ s', .rearmOffload s' ∈ (watchCustody me p s st).effects → .rearmOffload s' ∈ st.effects := by
  obtain ⟨hsi, hof, hef⟩ := foldl_observeSuspect st
  simp only [watchCustody]
  split
  · exact ⟨hsi, .inl hof, fun s' hin => hef ▸ (mem_append.mp hin).resolve_right (by simp)⟩
  · exact ⟨hsi, .inl hof, fun s' hin => hef ▸ (mem_append.mp hin).resolve_right (by simp)⟩
  · next target hju =>
    refine ⟨hsi, ?_, fun s' hin => hef ▸ (mem_append.mp hin).resolve_right (by simp)⟩
    by_cases hre : isReplicating (stopReplication
        ((((liveReplicas p s).filter (· ≠ me)).filter fun id =>
          (⟨s, id⟩ : CustodyRow) ∉ p.rows).foldl (observeSuspect p s) st).handles (.scope s)) s = true
    · exact .inl (by rw [if_pos hre, hof])
    · refine .inr ⟨by rw [if_neg hre, hof], fun hno => ?_⟩
      rw [hno] at hju
      exact judgeCustody_of_no_live hju

/-- **What a pass under way has done**: it drains what was drained, and has started drains only with a
replica in view; a recorded start of a quiet window is this pass or was recorded before; and a re-arm
was of a quiet drain with an old enough start. -/
structure PassSound (p : Pass) (w : Watch) (st : PassState) : Prop where
  kept : ∀ {s}, s ∈ p.offloading → s ∈ st.offloading
  started : ∀ {s}, s ∈ st.offloading → s ∈ p.offloading ∨ liveReplicas p s ≠ []
  since : ∀ {s since}, st.watch.quietSince s = some since →
    since = p.now ∨ w.quietSince s = some since
  rearmed : ∀ {s}, .rearmOffload s ∈ st.effects → s ∈ p.offloading ∧ liveReplicas p s = [] ∧
    ∃ since, w.quietSince s = some since ∧ replicasQuietFor ≤ p.now - since

theorem passSound_start : PassSound p w ⟨w, p.handles, p.offloading, [], []⟩ where
  kept h := h
  started h := .inl h
  since h := .inr h
  rearmed := nofun

variable (h : PassSound p w st)
include h

theorem PassSound.watchDrain (hs : s ∈ st.offloading) : PassSound p w (watchDrain p s st) := by
  unfold Myrmic.watchDrain
  split
  · next hqu =>
    have hsi : ∀ {since}, (st.watch.quietSince s).getD p.now = since →
        since = p.now ∨ w.quietSince s = some since := by
      rintro since rfl
      cases hold : st.watch.quietSince s with
      | none => exact .inl rfl
      | some since => exact h.since hold
    refine ⟨h.kept, h.started, fun {s' since} hge => ?_, fun {s'} hin => ?_⟩
    · by_cases hs' : s' = s
      · subst hs'
        simp only [update_self, Option.some.injEq] at hge
        exact hsi hge
      · simp only [update_of_ne hs'] at hge
        exact h.since hge
    · dsimp only at hin
      split at hin
      · next hlo =>
        rcases mem_append.mp hin with hin | hin
        · exact h.rearmed hin
        · cases mem_singleton.mp hin
          refine ⟨(h.started hs).resolve_right (not_not_intro hqu), hqu, _, ?_, hlo⟩
          -- a window that began with this pass is not long enough
          refine (hsi rfl).resolve_left fun hno => ?_
          rw [hno] at hlo
          simp [replicasQuietFor] at hlo
      · exact h.rearmed hin
  · refine ⟨h.kept, h.started, fun {s' since} hge => ?_, h.rearmed⟩
    by_cases hs' : s' = s
    · subst hs'
      simp at hge
    · simp only [update_of_ne hs'] at hge
      exact h.since hge

theorem PassSound.watchCustody (me : NodeId) (s : Scope) :
    PassSound p w (watchCustody me p s st) := by
  obtain ⟨hs, ho, he⟩ := watchCustody_spec me p s st
  refine ⟨fun hin => ?_, fun hin => ?_, fun hg => h.since (hs ▸ hg),
    fun hin => h.rearmed (he _ hin)⟩
  · rcases ho with heq | ⟨heq, -⟩
    · exact heq ▸ h.kept hin
    · exact heq ▸ mem_cons_of_mem _ (h.kept hin)
  · rcases ho with heq | ⟨heq, hl⟩
    · exact h.started (heq ▸ hin)
    · rcases mem_cons.mp (heq ▸ hin) with rfl | hin
      · exact .inr hl
      · exact h.started hin

theorem PassSound.visitRow (me : NodeId) (row : CustodyRow) :
    PassSound p w (visitRow me p st row) := by
  unfold Myrmic.visitRow
  split
  · next hs => exact h.watchDrain hs
  · exact h.watchCustody me row.scope

theorem PassSound.foldl (me : NodeId) (rows : List CustodyRow) :
    PassSound p w (rows.foldl (Myrmic.visitRow me p) st) := by
  induction rows generalizing st with
  | nil => exact h
  | cons row rows ih => exact ih (h.visitRow me row)

omit h

variable (hl : liveReplicas p s ≠ [])
include hl

theorem quietSince_visitRow (row : CustodyRow) (h : st.watch.quietSince s = none) :
    (visitRow me p st row).watch.quietSince s = none := by
  unfold visitRow
  split
  · by_cases hs : s = row.scope
    · subst hs
      simp [watchDrain, hl]
    · unfold watchDrain
      split <;> simpa [update_of_ne hs] using h
  · rw [(watchCustody_spec me p row.scope st).1]
    exact h

theorem quietSince_foldl (rows : List CustodyRow) (h : st.watch.quietSince s = none) :
    (rows.foldl (visitRow me p) st).watch.quietSince s = none := by
  induction rows generalizing st with
  | nil => exact h
  | cons row rows ih => exact ih (quietSince_visitRow hl row h)

/-- A pass that looks at a drain with a full replica in view ends its quiet window. -/
theorem quietSince_of_visited (me : NodeId) (rows : List CustodyRow)
    (hr : ∃ row ∈ rows, row.scope = s) (h : PassSound p w st) (hs : s ∈ p.offloading) :
    (rows.foldl (visitRow me p) st).watch.quietSince s = none := by
  induction rows generalizing st with
  | nil =>
    obtain ⟨row, hr, -⟩ := hr
    cases hr
  | cons row rows ih =>
    by_cases hsc : row.scope = s
    · subst hsc
      refine quietSince_foldl hl rows ?_
      simp [visitRow, watchDrain, h.kept hs, hl]
    · refine ih ?_ (h.visitRow me row)
      obtain ⟨row', hr', hsc'⟩ := hr
      rcases mem_cons.mp hr' with rfl | hr'
      · exact absurd hsc' hsc
      · exact ⟨row', hr', hsc'⟩

end Pass

/-! ## Passes one after the other -/

/-- The scope was being drained, and no full replica of it was in view. -/
def Pass.Quiet (p : Pass) (s : Scope) : Prop := s ∈ p.offloading ∧ liveReplicas p s = []

/-- The watcher with its passes so far, the last one first. -/
structure Watching where
  watch : Watch
  passes : List Pass

namespace Watching

def start : Watching := ⟨⟨fun _ => none, fun _ => none⟩, []⟩

/-- One more pass; time does not run backwards. -/
def step (me : NodeId) (st : Watching) (p : Pass) : Option Watching :=
  if ∀ q ∈ st.passes, q.now ≤ p.now then
    some ⟨(custodyPass me p st.watch).watch, p :: st.passes⟩
  else none

/-- Every scope with a recorded quiet window is still being drained, and if a full replica of it is in
view, the node's custody row for it is among the rows of the pass. -/
def Attended (me : NodeId) (st : Watching) (p : Pass) : Prop :=
  ∀ s since, st.watch.quietSince s = some since →
    s ∈ p.offloading ∧ (liveReplicas p s ≠ [] → (⟨s, me⟩ : CustodyRow) ∈ p.rows)

/-- Since a recorded window began, every pass found a quiet drain. -/
def WindowsQuiet (st : Watching) : Prop :=
  ∀ s since, st.watch.quietSince s = some since → ∀ q ∈ st.passes, since < q.now → q.Quiet s

variable {me : NodeId} {st st' : Watching} {p : Pass}

theorem WindowsQuiet.step (h : st.WindowsQuiet) (hat : Attended me st p)
    (hst : st.step me p = some st') : st'.WindowsQuiet := by
  unfold Watching.step at hst
  split at hst
  · next hti =>
    cases hst
    intro s since hsi q hq hla
    have hso := (passSound_start (p := p) (w := st.watch)).foldl me
      (p.rows.filter fun row => row.node = me)
    rcases hso.since hsi with hnow | hold
    · -- the window began with this pass, and no pass is later
      subst hnow
      rcases mem_cons.mp hq with rfl | hq
      · exact absurd hla (Nat.lt_irrefl _)
      · exact absurd hla (Nat.not_lt.mpr (hti q hq))
    · rcases mem_cons.mp hq with rfl | hq
      · obtain ⟨hof, hro⟩ := hat s since hold
        refine ⟨hof, by_contra fun hli => ?_⟩
        have hno := quietSince_of_visited hli me (q.rows.filter fun row => row.node = me)
          ⟨_, mem_filter.mpr ⟨hro hli, decide_eq_true rfl⟩, rfl⟩
          (passSound_start (w := st.watch)) hof
        rw [show (custodyPass me q st.watch).watch.quietSince s = none from hno] at hsi
        cases hsi
      · exact h s since hold q hq hla
  · cases hst

theorem windowsQuiet_of_reached (h : Reached (step me) (Attended me) start st) : st.WindowsQuiet :=
  h.holds (by rintro s since ⟨⟩) fun hst ha hs => hst.step ha hs

/-- A pass re-arms the drain of a scope only if every pass of the last `replicasQuietFor` found the
scope draining with no full replica in view. -/
def RearmsQuietly (me : NodeId) (st : Watching) (p : Pass) : Prop :=
  ∀ s, .rearmOffload s ∈ (custodyPass me p st.watch).effects →
    ∀ q ∈ p :: st.passes, p.now - q.now < replicasQuietFor → q.Quiet s

/-- **Re-arming needs a full quiet window**, in every run in which each scope with a recorded window
stays a drain whose replicas the passes look at. -/
theorem rearm_after_quiet_window (h : Reached (step me) (Attended me) start st) (p : Pass) :
    RearmsQuietly me st p := by
  intro s hr q hq hre
  have hso := (passSound_start (p := p) (w := st.watch)).foldl me
    (p.rows.filter fun row => row.node = me)
  obtain ⟨ho, hqu, since, hs, _⟩ := hso.rearmed hr
  rcases mem_cons.mp hq with rfl | hq
  · exact ⟨ho, hqu⟩
  · exact windowsQuiet_of_reached h s since hs q hq (by omega)

/-- A pass of the first node over the sample scope, of which the second node is a custodian too. -/
def samplePass (draining replicaInView : Bool) (now : Nat) : Pass where
  rows := [⟨Sample.scope, Sample.node 1⟩, ⟨Sample.scope, Sample.node 2⟩]
  active := []
  always := []
  handles := if draining then [] else [(.scope Sample.scope, false)]
  offloading := if draining then [Sample.scope] else []
  peerView _ := if replicaInView then [⟨Sample.node 2, 0, 7, .replica⟩] else []
  now := now

/-- The watcher after one pass that found a quiet drain. -/
def sampleWatching : Watching :=
  ⟨(custodyPass (Sample.node 1) (samplePass true false 0) start.watch).watch,
    [samplePass true false 0]⟩

/-- A drain that has no replica in view for the whole window is re-armed. -/
theorem quiet_drain_is_rearmed :
    Reached (step (Sample.node 1)) (Attended (Sample.node 1)) start sampleWatching ∧
    .rearmOffload Sample.scope ∈ (custodyPass (Sample.node 1) (samplePass true false replicasQuietFor)
      sampleWatching.watch).effects ∧
    RearmsQuietly (Sample.node 1) sampleWatching (samplePass true false replicasQuietFor) := by
  have hr : Reached (step (node 1)) (Attended (node 1)) start sampleWatching :=
    Reached.refl.tail (samplePass true false 0) (by rintro s since ⟨⟩) rfl
  exact ⟨hr, by decide +kernel, rearm_after_quiet_window hr _⟩

/-- A scope is found draining without a replica in view; a minute later the node is a replica again and
demotes itself toward the other custodian; ten seconds on, one pass does not see that one and re-arms
the drain. -/
theorem stale_quiet_window_rearms : ∃ st st',
    Reached (step (Sample.node 1)) (fun _ _ => True) start st ∧
    st.step (Sample.node 1) (samplePass true false (70 * 1000000000)) = some st' ∧
    ¬ RearmsQuietly (Sample.node 1) st (samplePass true false (70 * 1000000000)) := by
  obtain ⟨st, st', hr, hst', hre, q, hq, hrec, hd⟩ : ∃ st st',
      Reached (step (node 1)) (fun _ _ => True) start st ∧
      st.step (node 1) (samplePass true false (70 * 1000000000)) = some st' ∧
      .rearmOffload scope ∈ (custodyPass (node 1)
        (samplePass true false (70 * 1000000000)) st.watch).effects ∧
      ∃ q ∈ st.passes, 70 * 1000000000 - q.now < replicasQuietFor ∧ scope ∉ q.offloading :=
    exists_reached_some [samplePass true false 0, samplePass false true (60 * 1000000000)]
      (by decide +kernel)
  refine ⟨st, st', hr, hst', fun h => hd ?_⟩
  exact (h scope hre q (mem_cons_of_mem _ hq) hrec).1

end Watching

end Myrmic
