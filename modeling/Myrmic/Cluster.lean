import Myrmic.Replication

/-!
# A cluster of replicas of one scope

Any number of nodes hold replicas of one scope.  A node commits transactions, takes and restores
snapshots, serves chunks of its sync points and records chunks that were served anywhere before; a
chunk may be delivered to any node, any number of times, in any order, late or never.  A `Cluster` is
the nodes' stores together with everything that is under way: the chunks ever served, the snapshots
ever taken, and the earlier states a transaction may still have been begun on.

A version is **live** at a store when its latest head is a mutation and the store's cells at the
version are those of the commit; it is **dead** when no head of it is a mutation and the store has no
cell at it.  Everything a replica promises about a version is one of the two.
-/
namespace Myrmic
open OrderedBytes VersionedCell Fallible
variable [Postcard] {p : SyncPoint} {ks ks' : Keyspace} {s : Scope}

/-! ## Live and dead versions -/

/-- The latest head of the version is a mutation, and the cells are those of `effect`. -/
structure Live (s : Scope) (v : Version) (effect : Effect) (ks : Keyspace) : Prop where
  head : ∃ p m, p.scope = s ∧ p.ts = v ∧ IsHead ks p m ∧ m.marker = .mutation
  cells : ∀ k, s.encode <+: k → cell ks k v = effect k

/-- No head of the version is a mutation, and there are no cells. -/
structure Dead (s : Scope) (v : Version) (ks : Keyspace) : Prop where
  head : ∀ p m, p.scope = s → p.ts = v → IsHead ks p m → m.marker = .deletion
  cells : ∀ k, s.encode <+: k → cell ks k v = none

/-- Two stores look the same at a version: the same sync points and the same cells. -/
structure LooksSame (s : Scope) (v : Version) (ks ks' : Keyspace) : Prop where
  points : ∀ p : SyncPoint, p.scope = s → p.ts = v → metaAt ks' p = metaAt ks p
  cells : ∀ k, s.encode <+: k → cell ks' k v = cell ks k v

theorem AgreeAt.looksSame {v : Version} (h : AgreeAt s v ks ks') :
    LooksSame s v ks ks' := ⟨h.points, h.cells⟩

section LooksSame
variable {s : Scope} {v : Version} {ks ks' : Keyspace} {eff : Effect} (h : LooksSame s v ks ks')
  {m : SyncMeta}
include h

theorem LooksSame.symm : LooksSame s v ks' ks :=
  ⟨fun p hs hv => (h.points p hs hv).symm, fun k hk => (h.cells k hk).symm⟩

theorem LooksSame.isHead (hs : p.scope = s) (hv : p.ts = v) (hp : IsHead ks p m) :
    IsHead ks' p m := by
  refine ⟨(h.points p hs hv).trans hp.held, fun q m' hq hsa => ?_⟩
  rw [h.points q (hsa.2.trans hs) (hsa.1.trans hv)] at hq
  exact hp.latest q m' hq hsa

theorem LooksSame.live (hl : Live s v eff ks) : Live s v eff ks' := by
  obtain ⟨p, m, hs, hv, hp, hm⟩ := hl.head
  exact ⟨⟨p, m, hs, hv, h.isHead hs hv hp, hm⟩, fun k hk => (h.cells k hk).trans (hl.cells k hk)⟩

theorem LooksSame.dead (hd : Dead s v ks) : Dead s v ks' :=
  ⟨fun p m hs hv hp => hd.head p m hs hv (h.symm.isHead hs hv hp),
    fun k hk => (h.cells k hk).trans (hd.cells k hk)⟩

theorem LooksSame.settled (hv : Live s v eff ks ∨ Dead s v ks) :
    Live s v eff ks' ∨ Dead s v ks' := hv.imp h.live h.dead

omit h

theorem Live.of_head (h : Live s v eff ks ∨ Dead s v ks)
    (hs : p.scope = s) (hv : p.ts = v) (hp : IsHead ks p m) (hm : m.marker = .mutation) :
    Live s v eff ks := by
  refine h.resolve_right fun hd => ?_
  rw [hd.head p m hs hv hp] at hm
  cases hm

theorem cells_of_no_points (h : Live s v eff ks ∨ Dead s v ks)
    (hn : ∀ p : SyncPoint, p.scope = s → p.ts = v → metaAt ks p = none) :
    ∀ k, s.encode <+: k → cell ks k v = none := by
  rcases h with hl | hd
  · obtain ⟨p, m, hs, hv, hp, -⟩ := hl.head
    have := hp.held
    rw [hn p hs hv] at this
    cases this
  · exact hd.cells

theorem live_of_newest (hs : p.scope = s) (hv : p.ts = v)
    (hp : IsHead ks p m) (hm : m.marker = .mutation)
    (hc : ∀ k, s.encode <+: k → cell ks k v = eff k) : Live s v eff ks :=
  ⟨⟨p, m, hs, hv, hp, hm⟩, hc⟩

theorem dead_of_newest (hs : p.scope = s) (hv : p.ts = v)
    (hp : IsHead ks p m) (hm : m.marker = .deletion)
    (hc : ∀ k, s.encode <+: k → cell ks k v = none) : Dead s v ks := by
  refine ⟨fun q m' hqs hqv hq => ?_, hc⟩
  obtain ⟨-, rfl⟩ := hq.unique hp ⟨hqv.trans hv.symm, hqs.trans hs.symm⟩
  exact hm

end LooksSame

/-- **Recording keeps a version settled**, when the entries of a mutation describe the commit and the
new sync point is newer than the head or carries the same marker. -/
theorem RecordedAt.settled {sm : SyncMeta} {es : List (Bytes × Option Bytes)} {eff : Effect}
    (hwf : WellFormed ks) (hre : RecordedAt ks ks' p sm es) (hs : p.scope = s)
    (hde : sm.marker = .mutation → Describes s es eff) (hbe : Live s p.ts eff ks ∨ Dead s p.ts ks)
    (hnew : ∀ q m, IsHead ks q m → q.SameVersion p → q.Before p ∨ m.marker = sm.marker) :
    Live s p.ts eff ks' ∨ Dead s p.ts ks' := by
  subst hs
  -- the head afterwards is the new sync point, or the old head with the same marker
  have hhe : ∃ q m, q.SameVersion p ∧ IsHead ks' q m ∧ m.marker = sm.marker := by
    have hse : metaAt ks' p = some sm := by rw [hre.points p rfl rfl, if_pos rfl]
    by_cases han : ∃ q m, metaAt ks q = some m ∧ q.SameVersion p ∧ p.Before q
    · obtain ⟨q₀, m₀, hq₀, hsa₀, hb₀⟩ := han
      obtain ⟨q, m, hq, hsa⟩ := exists_isHead hwf hq₀
      have hqp := hsa.trans hsa₀
      have hpq : p.Before q := by
        rcases SyncPoint.before_trichotomy q q₀ with hlt | he | hgt
        · exact absurd hlt (hq.latest q₀ m₀ hq₀ hsa.symm)
        · exact he ▸ hb₀
        · exact hb₀.trans hgt
      have hmk := (hnew q m hq hqp).resolve_left hpq.asymm
      have hne : p ≠ q := by
        rintro rfl
        exact SyncPoint.Before.irrefl _ hpq
      refine ⟨q, m, hqp, ⟨?_, fun r mr hr hsr hb => ?_⟩, hmk⟩
      · rw [hre.points q hqp.2 hqp.1, if_neg hne, hq.held]
      · rw [hre.points r (hsr.trans hqp).2 (hsr.trans hqp).1] at hr
        split at hr
        · next he =>
          rw [← he] at hb
          exact hpq.asymm hb
        · exact hq.latest r mr hr hsr hb
    · refine ⟨p, sm, ⟨rfl, rfl⟩, isHead_of_newest hse fun q m hq hsa hne => ?_, rfl⟩
      rw [hre.points q hsa.2 hsa.1, if_neg hne.symm] at hq
      rcases SyncPoint.before_trichotomy q p with hlt | he | hgt
      · exact hlt
      · exact absurd he hne
      · exact absurd ⟨q, m, hq, hsa, hgt⟩ han
  obtain ⟨q, m, hsa, hq, hmk⟩ := hhe
  cases hm : sm.marker with
  | mutation =>
    refine .inl (live_of_newest hsa.2 hsa.1 hq (hmk.trans hm) fun k hk => ?_)
    rw [hre.cell_mutation hm hk]
    refine cell_applyEntries (hde hm) (fun k' hk' => ?_) hk
    rcases hbe with hl | hd
    · exact .inr (hl.cells k' hk')
    · exact .inl (hd.cells k' hk')
  | deletion =>
    exact .inr (dead_of_newest hsa.2 hsa.1 hq (hmk.trans hm) fun k hk => hre.cell_deletion hm hk)

/-! ## The cluster -/

/-- The stores of the nodes and what is under way between them. -/
structure Cluster where
  store : NodeId → Keyspace
  /-- The states of a node's store so far; a transaction may have begun on any of them. -/
  past : NodeId → List Keyspace
  /-- The timestamps of the commits so far. -/
  committed : List Version
  /-- The chunks served so far, each of which may still be delivered anywhere. -/
  served : List Chunk
  /-- The snapshots taken so far. -/
  taken : List Snapshot

namespace Cluster

def initial : Cluster := ⟨fun _ => ∅, fun _ => [∅], [], [], []⟩

def set (w : Cluster) (n : NodeId) (ks : Keyspace) : Cluster :=
  { w with
    store := Function.update w.store n ks
    past := Function.update w.past n (ks :: w.past n) }

inductive Action where
  | commit (n : NodeId) (seen : Keyspace) (ts : Version) (writes : List Write)
  | take (n : NodeId)
  | serve (n : NodeId) (chunk : Chunk)
  | apply (n : NodeId) (chunk : Chunk)
  | restore (n : NodeId) (snapshot : Snapshot) (now : Epoch)

/-- One step of the cluster.  Commit timestamps are distinct and carry no retention period; a
transaction began on some earlier state of its node; a served chunk stands for a sync point the node
holds, which is what pulled pages and changeset messages consist of. -/
inductive Step (s : Scope) (w : Cluster) : Action → Cluster → Prop
  | commit {n : NodeId} {seen : Keyspace} {ts : Version} {writes : List Write} {ks' : Keyspace} :
      seen ∈ w.past n → ts ∉ w.committed →
      Myrmic.commit seen (w.store n) ts n none writes = .ok ks' →
      Step s w (.commit n seen ts writes)
        { w.set n ks' with committed := ts :: w.committed }
  | take {n : NodeId} {snapshot : Snapshot} :
      takeSnapshot (w.store n) s = .ok snapshot →
      Step s w (.take n) { w with taken := snapshot :: w.taken }
  | serve {n : NodeId} {chunk : Chunk} :
      IsChunk (w.store n) s chunk →
      Step s w (.serve n chunk) { w with served := chunk :: w.served }
  | apply {n : NodeId} {chunk : Chunk} {ks' : Keyspace} :
      chunk ∈ w.served → applyChunk (w.store n) s chunk = .ok ks' →
      Step s w (.apply n chunk) (w.set n ks')
  | restore {n : NodeId} {snapshot : Snapshot} {now : Epoch} {ks' : Keyspace} :
      snapshot ∈ w.taken → restoreSnapshot (w.store n) s snapshot now n = .ok ks' →
      Step s w (.restore n snapshot now) (w.set n ks')

/-- The states that runs reach in which every step meets a condition on the state before it. -/
inductive Reachable (s : Scope) (condition : Cluster → Action → Prop) : Cluster → Prop
  | initial : Reachable s condition .initial
  | step {w w' : Cluster} {a : Action} :
      Reachable s condition w → condition w a → Step s w a w' → Reachable s condition w'

end Cluster

end Myrmic
