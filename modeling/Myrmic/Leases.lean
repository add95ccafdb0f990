import Myrmic.Cells
import Myrmic.KeyedTables

/-!
# Node leases

A node renews a lease row for as long as it lives: the row holds a sequence number and the time to live
that the node declares for itself.  Whoever wants to know whether the node is alive reads the rows and
keeps a **tracker**: for every node the highest sequence number seen, when it was first seen on the
observer's own clock, and the time to live that came with it.  A node whose number has not advanced for
longer than that is expired.

The sequence number is the wall clock of the node, so that it goes on advancing when the node restarts.
The tracker only ever accepts a higher number, hence **a node that renews on time is not expired as long
as its wall clock advances from one renewal to the next** (`renewing_node_not_expired`), and it is
expired while it renews once its clock has been set back far enough.

Two kinds of hosts judge the lease of a parent's node.  The Linux host observes every lease of a scan of
the table and then asks the tracker; the embedded host reads the row of the one node and lets the
tracker judge the read.  They agree **exactly when no read finds the row gone**
(`hosts_judge_alike_iff`).
-/
namespace Myrmic
open List Function
namespace Leases

/-! ## Lease rows -/

/-- The outcome of reading a row. -/
inductive RowRead (α : Type) where
  | ok (facts : α)
  | absent
  | failed
deriving DecidableEq

/-- A node's lease, without the id of the device. -/
structure NodeLease where
  seq : Nat
  ttlMs : Nat
deriving DecidableEq

def u64Max : Nat := 2 ^ 64 - 1

/-- The wall clock in milliseconds since the epoch, which a clock may also stand before. -/
def mintSeq (wallMs : Int) : Nat := min wallMs.toNat u64Max

/-- The rows of the lease table, one for a node. -/
structure LeaseTable where
  rows : List (RuntimeId × NodeLease)
  distinct : (rows.map Prod.fst).Nodup

def LeaseTable.empty : LeaseTable := ⟨[], nodup_nil⟩

/-- The lease that a node has stored. -/
def LeaseTable.lookup (table : LeaseTable) (id : RuntimeId) : Option NodeLease :=
  (KeyedTables.lookup Prod.fst id table.rows).map Prod.snd

def LeaseTable.put (table : LeaseTable) (id : RuntimeId) (lease : NodeLease) : LeaseTable :=
  ⟨KeyedTables.put Prod.fst (id, lease) table.rows, KeyedTables.nodup_put table.distinct⟩

/-- Drops a node's lease: its retention has run out, or the node was torn down. -/
def LeaseTable.drop (table : LeaseTable) (id : RuntimeId) : LeaseTable :=
  ⟨KeyedTables.erase Prod.fst id table.rows, KeyedTables.nodup_erase table.distinct⟩

namespace LeaseTable
variable {table : LeaseTable} {id node : RuntimeId} {lease : NodeLease}

@[simp] theorem lookup_put_self : (table.put id lease).lookup id = some lease := by
  have hr : KeyedTables.lookup Prod.fst id (KeyedTables.put Prod.fst (id, lease) table.rows) =
      some (id, lease) := @KeyedTables.lookup_put_self _ _ _ Prod.fst (id, lease) _
  simp only [lookup, put, hr, Option.map_some]

theorem lookup_put_of_ne (h : node ≠ id) : (table.put id lease).lookup node = table.lookup node :=
  congrArg (Option.map Prod.snd) (KeyedTables.lookup_put_of_ne h)

@[simp] theorem lookup_drop_self : (table.drop id).lookup id = none :=
  congrArg (Option.map Prod.snd) KeyedTables.lookup_erase_self

theorem lookup_drop_of_ne (h : node ≠ id) : (table.drop id).lookup node = table.lookup node :=
  congrArg (Option.map Prod.snd) (KeyedTables.lookup_erase_of_ne h)

end LeaseTable

/-! ## The tracker -/

/-- What an observer remembers of a node's lease. -/
structure Observed where
  id : RuntimeId
  seq : Nat
  /-- When the number advanced last, on the observer's clock. -/
  advancedAtMs : Nat
  ttlMs : Nat
deriving DecidableEq

/-- Keeping the old time on a number that does not advance is how a lease goes stale. -/
def Observed.renew (o : Observed) (lease : NodeLease) (nowMs : Nat) : Observed :=
  if o.seq < lease.seq then ⟨o.id, lease.seq, nowMs, lease.ttlMs⟩ else o

/-- For how long the sequence number has not advanced. -/
def Observed.silentFor (o : Observed) (nowMs : Nat) : Nat := nowMs - o.advancedAtMs

@[simp] theorem Observed.renew_id {o : Observed} {nowMs : Nat} :
    (o.renew lease nowMs).id = o.id := by
  unfold renew
  split <;> rfl

/-- Renews what is remembered of a node, or begins to remember it. -/
def observeIn (id : RuntimeId) (lease : NodeLease) (nowMs : Nat) : List Observed → List Observed
  | [] => [⟨id, lease.seq, nowMs, lease.ttlMs⟩]
  | o :: seen => if o.id = id then o.renew lease nowMs :: seen else o :: observeIn id lease nowMs seen

variable {lease : NodeLease} {nowMs : Nat} {seen : List Observed}

theorem mem_observeIn_id {id other : RuntimeId}
    (h : other ∈ (observeIn id lease nowMs seen).map Observed.id) :
    other = id ∨ other ∈ seen.map Observed.id := by
  induction seen with
  | nil => exact .inl (by simpa [observeIn] using h)
  | cons o seen ih =>
    unfold observeIn at h
    split at h
    · exact .inr (by simpa using h)
    · rcases mem_cons.mp h with h | h
      · exact .inr (mem_cons.mpr (.inl h))
      · exact (ih h).imp_right fun hm => mem_cons_of_mem _ hm

theorem nodup_observeIn {id : RuntimeId} (h : (seen.map Observed.id).Nodup) :
    ((observeIn id lease nowMs seen).map Observed.id).Nodup := by
  induction seen with
  | nil => exact nodup_singleton _
  | cons o seen ih =>
    obtain ⟨hh, ht⟩ := nodup_cons.mp h
    unfold observeIn
    split
    · simpa using h
    · next hne =>
      refine nodup_cons.mpr ⟨?_, ih ht⟩
      intro hm
      exact (mem_observeIn_id hm).elim hne hh

/-- What an observer remembers, one entry for a node. -/
structure LeaseTracker where
  seen : List Observed
  distinct : (seen.map Observed.id).Nodup

namespace LeaseTracker

def new : LeaseTracker := ⟨[], nodup_nil⟩

/-- What the tracker has seen of a node. -/
def observed (tracker : LeaseTracker) (id : RuntimeId) : Option Observed :=
  tracker.seen.find? fun o => o.id = id

/-- Takes a row that was read into account. -/
def observe (tracker : LeaseTracker) (id : RuntimeId) (lease : NodeLease) (nowMs : Nat) :
    LeaseTracker :=
  ⟨observeIn id lease nowMs tracker.seen, nodup_observeIn tracker.distinct⟩

/-- A node that was never observed is not expired. -/
def isExpired (tracker : LeaseTracker) (id : RuntimeId) (nowMs : Nat) : Bool :=
  (tracker.observed id).any fun o => o.ttlMs < o.silentFor nowMs

def staleFor (tracker : LeaseTracker) (id : RuntimeId) (nowMs : Nat) : Option Nat :=
  (tracker.observed id).map fun o => o.silentFor nowMs

/-- What the node declared when it was last seen to renew. -/
def ttlMsOf (tracker : LeaseTracker) (id : RuntimeId) : Option Nat :=
  (tracker.observed id).map Observed.ttlMs

/-- Whether a node has been silent for longer than the grace allows, or than the node declared when there
is no grace. -/
def judge (tracker : LeaseTracker) (id : RuntimeId) (graceMs : Option Nat) (unknown nowMs : Nat) :
    Bool :=
  (tracker.staleFor id nowMs).any fun stale =>
    (graceMs.or (tracker.ttlMsOf id)).getD unknown < stale

/-- Folds one read of a node's lease into the tracker and judges how stale it is.  A row that is gone
gives no verdict; a failed read is no evidence. -/
def judgeRead (tracker : LeaseTracker) (id : RuntimeId) (read : RowRead NodeLease)
    (graceMs : Option Nat) (nowMs : Nat) : LeaseTracker × Option Bool :=
  match read with
  | .ok lease =>
    let tracker := tracker.observe id lease nowMs
    (tracker, some (tracker.judge id graceMs u64Max nowMs))
  | .absent => (tracker, none)
  | .failed => (tracker, some (tracker.judge id graceMs u64Max nowMs))

/-- The nodes that were silent for longer than they declared. -/
def expired (tracker : LeaseTracker) (nowMs : Nat) : List RuntimeId :=
  (tracker.seen.filter fun o => o.ttlMs < o.silentFor nowMs).map Observed.id

def forget (tracker : LeaseTracker) (id : RuntimeId) : LeaseTracker :=
  ⟨tracker.seen.filter fun o => o.id ≠ id,
    tracker.distinct.sublist ((filter_sublist).map _)⟩

def observeAll (tracker : LeaseTracker) (rows : List (RuntimeId × NodeLease)) (nowMs : Nat) :
    LeaseTracker :=
  rows.foldl (fun tracker row => tracker.observe row.1 row.2 nowMs) tracker

variable {tr : LeaseTracker} {id node : RuntimeId} {lease : NodeLease} {nowMs : Nat}

def remembered (id : RuntimeId) (lease : NodeLease) (nowMs : Nat) : Option Observed → Observed
  | none => ⟨id, lease.seq, nowMs, lease.ttlMs⟩
  | some o => o.renew lease nowMs

theorem find_observeIn_self (seen : List Observed) :
    (observeIn id lease nowMs seen).find? (fun o => o.id = id) =
      some (remembered id lease nowMs (seen.find? fun o => o.id = id)) := by
  induction seen with
  | nil => simp [observeIn, remembered]
  | cons o seen ih =>
    unfold observeIn
    by_cases ho : o.id = id
    · simp [ho, remembered]
    · simp [ho, ih]

theorem find_observeIn_of_ne (h : node ≠ id) :
    (observeIn id lease nowMs seen).find? (fun o => o.id = node) =
      seen.find? fun o => o.id = node := by
  induction seen with
  | nil => simp [observeIn, h.symm]
  | cons o seen ih =>
    unfold observeIn
    by_cases ho : o.id = id
    · rw [if_pos ho]
      simp [ho, h.symm]
    · simp [ho, List.find?_cons, ih]

@[simp] theorem observed_observe_self : (tr.observe id lease nowMs).observed id =
      some (remembered id lease nowMs (tr.observed id)) :=
  find_observeIn_self _

theorem observed_observe_of_ne (h : node ≠ id) :
    (tr.observe id lease nowMs).observed node = tr.observed node :=
  find_observeIn_of_ne h

@[simp] theorem observed_forget_self : (tr.forget id).observed id = none := by
  simp [observed, forget]

theorem observed_forget_of_ne (h : node ≠ id) :
    (tr.forget id).observed node = tr.observed node := by
  simp only [observed, forget]
  rw [List.find?_filter]
  congr 1
  funext o
  by_cases ho : o.id = node
  · simp [ho, h]
  · simp [ho]

theorem observed_observeAll_of_notMem {rows : List (RuntimeId × NodeLease)}
    (h : id ∉ rows.map Prod.fst) : (tr.observeAll rows nowMs).observed id = tr.observed id := by
  induction rows generalizing tr with
  | nil => rfl
  | cons row rows ih =>
    obtain ⟨hro, hr⟩ := not_or.mp fun hm => h (mem_cons.mpr hm)
    exact (ih hr).trans (observed_observe_of_ne hro)

/-- **What a scan makes of a node**: its row is observed if there is one. -/
theorem observed_observeAll (table : LeaseTable) :
    (tr.observeAll table.rows nowMs).observed id = match table.lookup id with
      | some lease => some (remembered id lease nowMs (tr.observed id))
      | none => tr.observed id := by
  obtain ⟨rows, hdi⟩ := table
  induction rows generalizing tr with
  | nil => rfl
  | cons row rows ih =>
    obtain ⟨hhe, hta⟩ := nodup_cons.mp hdi
    by_cases hro : row.1 = id
    · subst hro
      have hlo : (LeaseTable.mk (row :: rows) hdi).lookup row.1 = some row.2 := by
        simp [LeaseTable.lookup, KeyedTables.lookup]
      rw [hlo]
      exact (observed_observeAll_of_notMem hhe).trans observed_observe_self
    · have hlo : (LeaseTable.mk (row :: rows) hdi).lookup id =
          (LeaseTable.mk rows hta).lookup id := by
        simp [LeaseTable.lookup, KeyedTables.lookup, hro]
      rw [hlo]
      have hre := @ih (tr.observe row.1 row.2 nowMs) hta
      rw [observed_observe_of_ne (Ne.symm hro)] at hre
      exact hre

theorem mem_expired_iff : id ∈ tr.expired nowMs ↔ tr.isExpired id nowMs = true := by
  obtain ⟨seen, hd⟩ := tr
  induction seen with
  | nil => simp [expired, isExpired, observed]
  | cons o seen ih =>
    obtain ⟨hh, ht⟩ := nodup_cons.mp hd
    have hr := ih ht
    simp only [expired, isExpired, observed] at hr ⊢
    by_cases ho : o.id = id
    · -- no later entry is about the same node
      have hn : id ∉ (seen.filter fun o => o.ttlMs < o.silentFor nowMs).map Observed.id := by
        intro hm
        obtain ⟨o', ho', hid⟩ := mem_map.mp hm
        exact hh (mem_map.mpr ⟨o', (mem_filter.mp ho').1, hid.trans ho.symm⟩)
      by_cases hs : o.ttlMs < o.silentFor nowMs
      · simp [ho, hs]
      · simp [ho, hs, hn]
    · by_cases hs : o.ttlMs < o.silentFor nowMs
      · simpa [ho, hs, Ne.symm ho] using hr
      · simpa [ho, hs] using hr

end LeaseTracker

/-! ## Renewals and an observer

Nodes renew, rows go away, and one observer scans the table; it may also stop tracking a node.  What the
nodes renewed last, and which lease of a node the observer saw last and since when, is kept for the
statements only. -/

/-- A renewal writes a sequence number off the wall clock. -/
def renewal (wallMs : Int) (ttlMs : Nat) : NodeLease := ⟨mintSeq wallMs, min ttlMs u64Max⟩

/-- A supervisor and the rows it watches, with what the nodes did. -/
structure Watch where
  table : LeaseTable
  tracker : LeaseTracker
  clock : Nat
  renewed : RuntimeId → Option NodeLease
  noticed : RuntimeId → Option (NodeLease × Nat)

namespace Watch

def start : Watch := ⟨.empty, .new, 0, fun _ => none, fun _ => none⟩

/-- Nodes renew and rows are dropped; the supervisor reads and decides. -/
inductive Event where
  /-- A node renews, whatever its wall clock says and whatever it declares since its last start. -/
  | renew (id : RuntimeId) (wallMs : Int) (ttlMs : Nat)
  | dropRow (id : RuntimeId)
  | scan (nowMs : Nat)
  | forget (id : RuntimeId)

/-- The lease that is seen, and since when it is seen. -/
def notice (lease : NodeLease) (nowMs : Nat) : Option (NodeLease × Nat) → NodeLease × Nat
  | none => (lease, nowMs)
  | some (last, since) => if last = lease then (last, since) else (lease, nowMs)

def step (st : Watch) : Event → Option Watch
  | .renew id wallMs ttlMs =>
    let lease := renewal wallMs ttlMs
    some { st with
      table := st.table.put id lease
      renewed := update st.renewed id (some lease) }
  | .dropRow id => some { st with table := st.table.drop id }
  | .scan nowMs =>
    if st.clock ≤ nowMs then
      some { st with
        tracker := st.tracker.observeAll st.table.rows nowMs
        clock := nowMs
        noticed := fun id =>
          match st.table.lookup id with
          | some lease => some (notice lease nowMs (st.noticed id))
          | none => st.noticed id }
    else none
  | .forget id => some { st with tracker := st.tracker.forget id }

/-- The lease of the node that was seen last has been seen for no longer than it declares. -/
def InTime (node : RuntimeId) (st : Watch) (nowMs : Nat) : Prop :=
  match st.noticed node with
  | none => True
  | some (lease, since) => nowMs - since ≤ lease.ttlMs

instance instDecidableInTime (node : RuntimeId) (st : Watch) (nowMs : Nat) :
    Decidable (InTime node st nowMs) :=
  match hseen : st.noticed node with
  | none => .isTrue (by simp only [InTime, hseen])
  | some (lease, since) =>
    decidable_of_iff (nowMs - since ≤ lease.ttlMs) (by simp only [InTime, hseen])

/-- The observer sees the leases of the node in time: at no scan has one been there for longer than it
declares. -/
def Timely (node : RuntimeId) (st : Watch) : Event → Prop
  | .scan nowMs => InTime node st nowMs
  | .renew _ _ _ | .dropRow _ | .forget _ => True

instance instDecidableTimely (node : RuntimeId) (st : Watch) (event : Event) :
    Decidable (Timely node st event) :=
  match event with
  | .scan nowMs => inferInstanceAs (Decidable (InTime node st nowMs))
  | .renew _ _ _ | .dropRow _ | .forget _ => inferInstanceAs (Decidable True)

/-- The wall clock of the node is ahead of the sequence number it renewed with last, unless the very same
lease is written again. -/
def ClockAdvances (node : RuntimeId) (st : Watch) : Event → Prop
  | .renew id wallMs ttlMs =>
    id = node → ∀ last ∈ st.renewed node, renewal wallMs ttlMs = last ∨ last.seq < mintSeq wallMs
  | .dropRow _ | .scan _ | .forget _ => True

instance instDecidableClockAdvances (node : RuntimeId) (st : Watch) (event : Event) :
    Decidable (ClockAdvances node st event) :=
  match event with
  | .renew id wallMs ttlMs => inferInstanceAs (Decidable (id = node →
      ∀ last ∈ st.renewed node, renewal wallMs ttlMs = last ∨ last.seq < mintSeq wallMs))
  | .dropRow _ | .scan _ | .forget _ => inferInstanceAs (Decidable True)

/-- The observer does not report the node while it sees its leases in time. -/
def NeverReported (node : RuntimeId) (st : Watch) : Prop :=
  ∀ nowMs, st.clock ≤ nowMs → InTime node st nowMs →
    st.tracker.isExpired node nowMs = false ∧ node ∉ st.tracker.expired nowMs

/-- What the observer remembers of a node is what it saw last. -/
structure Follows (node : RuntimeId) (st : Watch) : Prop where
  row : ∀ {lease}, st.table.lookup node = some lease → st.renewed node = some lease
  noticed : ∀ {lease since}, st.noticed node = some (lease, since) → since ≤ st.clock ∧
    ∃ last, st.renewed node = some last ∧ (lease = last ∨ lease.seq < last.seq)
  observed : ∀ {o}, st.tracker.observed node = some o → ∃ lease since,
    st.noticed node = some (lease, since) ∧ o.seq = lease.seq ∧ o.ttlMs = lease.ttlMs ∧
      since ≤ o.advancedAtMs

variable {node id : RuntimeId} {st st' : Watch}

theorem follows_start : Follows node start where
  row := by rintro _ ⟨⟩
  noticed := by rintro _ _ ⟨⟩
  observed := by rintro _ ⟨⟩

variable (h : Follows node st)
include h

theorem Follows.dropRow : Follows node { st with table := st.table.drop id } where
  __ := h
  row := by
    intro lease hl
    by_cases hid : node = id
    · subst hid
      rw [LeaseTable.lookup_drop_self] at hl
      cases hl
    · rw [LeaseTable.lookup_drop_of_ne hid] at hl
      exact h.row hl

open LeaseTracker

theorem Follows.forget : Follows node { st with tracker := st.tracker.forget id } where
  __ := h
  observed := by
    intro o ho
    by_cases hid : node = id
    · subst hid
      rw [observed_forget_self] at ho
      cases ho
    · rw [observed_forget_of_ne hid] at ho
      exact h.observed ho

theorem Follows.renew {wallMs : Int} {ttlMs : Nat}
    (hcl : ClockAdvances node st (.renew id wallMs ttlMs)) : Follows node { st with
      table := st.table.put id (renewal wallMs ttlMs)
      renewed := update st.renewed id (some (renewal wallMs ttlMs)) } := by
  by_cases hid : node = id
  · subst hid
    refine ⟨?_, ?_, h.observed⟩
    · intro lease hle
      rw [LeaseTable.lookup_put_self] at hle
      exact (update_self ..).trans hle
    · intro lease since hse
      obtain ⟨hsi, last, hla, hbe⟩ := h.noticed hse
      refine ⟨hsi, renewal wallMs ttlMs, update_self .., ?_⟩
      rcases hcl rfl last hla with hsa | hah
      · rw [hsa]
        exact hbe
      · rcases hbe with rfl | hlt
        · exact .inr hah
        · exact .inr (hlt.trans hah)
  · refine ⟨?_, ?_, h.observed⟩
    · intro lease hle
      rw [LeaseTable.lookup_put_of_ne hid] at hle
      exact (update_of_ne hid _ _).trans (h.row hle)
    · intro lease since hse
      obtain ⟨hsi, last, hla, hbe⟩ := h.noticed hse
      exact ⟨hsi, last, (update_of_ne hid _ _).trans hla, hbe⟩

omit h

theorem notice_fst (lease : NodeLease) (nowMs : Nat) (pre : Option (NodeLease × Nat)) :
    (notice lease nowMs pre).1 = lease := by
  cases pre with
  | none => rfl
  | some pre =>
    simp only [notice]
    split
    · next hs => exact hs
    · rfl

theorem notice_snd_le {pre : Option (NodeLease × Nat)}
    (h : ∀ p ∈ pre, p.2 ≤ nowMs) : (notice lease nowMs pre).2 ≤ nowMs := by
  cases pre with
  | none => exact le_refl _
  | some pre =>
    simp only [notice]
    split
    · exact h pre rfl
    · exact le_refl _

variable (h : Follows node st)
include h

/-- A scan that finds the lease seen last changes nothing about the node; one that finds another lease
finds a later one, and the tracker accepts it. -/
theorem Follows.remembered (hcl : st.clock ≤ nowMs) (hre : st.renewed node = some lease) :
    let o := remembered node lease nowMs (st.tracker.observed node)
    o.seq = lease.seq ∧ o.ttlMs = lease.ttlMs ∧
      (notice lease nowMs (st.noticed node)).2 ≤ o.advancedAtMs := by
  cases hkn : st.tracker.observed node with
  | none =>
    refine ⟨rfl, rfl, notice_snd_le ?_⟩
    intro p hp
    exact (h.noticed hp).1.trans hcl
  | some known =>
    obtain ⟨last, _, hbe, hse, htt, hsi⟩ := h.observed hkn
    obtain ⟨-, last', hla', hor⟩ := h.noticed hbe
    have hla : last' = lease := Option.some.inj (hla'.symm.trans hre)
    subst hla
    rw [hbe]
    by_cases hsa : last = last'
    · subst hsa
      have hold : known.renew last nowMs = known := if_neg (by omega)
      simp only [remembered, hold, notice, if_true]
      exact ⟨hse, htt, hsi⟩
    · have hlat : known.seq < last'.seq := by
        rcases hor with h' | h'
        · exact absurd h' hsa
        · omega
      simp [remembered, Observed.renew, hlat, notice, hsa]

theorem Follows.scan (hst : step st (.scan nowMs) = some st') : Follows node st' := by
  simp only [step] at hst
  split at hst
  · next hcl =>
    cases hst
    cases hro : st.table.lookup node with
    | none =>
      refine ⟨fun hle => h.row hle, ?_, ?_⟩
      · intro lease since hse
        simp only [hro] at hse
        obtain ⟨hsi, hla⟩ := h.noticed hse
        exact ⟨hsi.trans hcl, hla⟩
      · intro o ho
        rw [observed_observeAll, hro] at ho
        simp only [hro]
        exact h.observed ho
    | some lease =>
      have hre := h.row hro
      refine ⟨fun hle => h.row hle, ?_, ?_⟩
      · intro lease' since hse
        simp only [hro, Option.some.injEq] at hse
        obtain rfl : lease = lease' := by rw [← notice_fst lease nowMs (st.noticed node), hse]
        have hsi : (notice lease nowMs (st.noticed node)).2 ≤ nowMs :=
          notice_snd_le fun p hp => (h.noticed hp).1.trans hcl
        rw [hse] at hsi
        exact ⟨hsi, lease, hre, .inl rfl⟩
      · intro o ho
        rw [observed_observeAll, hro] at ho
        cases ho
        obtain ⟨hseq, htt, hsi⟩ := h.remembered hcl hre
        refine ⟨lease, _, ?_, hseq, htt, hsi⟩
        simp only [hro, Option.some.injEq]
        exact Prod.ext (notice_fst ..) rfl
  · cases hst

theorem Follows.step {event : Event} (hc : ClockAdvances node st event)
    (hst : Watch.step st event = some st') : Follows node st' := by
  cases event with
  | renew id wallMs ttlMs =>
    cases hst
    exact h.renew hc
  | dropRow id =>
    cases hst
    exact h.dropRow
  | scan nowMs => exact h.scan hst
  | forget id =>
    cases hst
    exact h.forget

theorem Follows.neverReported : NeverReported node st := by
  intro nowMs _ hin
  have he : st.tracker.isExpired node nowMs = false := by
    unfold isExpired
    cases ho : st.tracker.observed node with
    | none => rfl
    | some o =>
      obtain ⟨_, _, hs, -, _, _⟩ := h.observed ho
      simp only [InTime, hs] at hin
      have hsh : ¬ o.ttlMs < nowMs - o.advancedAtMs := by omega
      exact decide_eq_false hsh
  refine ⟨he, ?_⟩
  rw [mem_expired_iff, he]
  exact Bool.false_ne_true

omit h

/-- **A node that renews is not reported while its wall clock advances.**  In every run in which each
renewal of the node is made with a clock ahead of the one before, the observer does not report the node at
any time at which the lease it saw last has been there for no longer than declared. -/
theorem renewing_node_not_expired
    (hreached : Machine.Reached step (ClockAdvances node) start st) : NeverReported node st :=
  (hreached.holds (P := Follows node) follows_start (fun h hc hst => h.step hc hst)).neverReported

end Watch
namespace Sample

def node : RuntimeId := .fill 16 2

end Sample
open Sample
namespace Watch
open Machine

/-- Two renewals with a clock that advances, and the times between them. -/
theorem second_renewal_not_expired : ∃ st, Reached step (ClockAdvances node) start st ∧
      st.clock = 8 ∧ InTime node st 18 ∧ NeverReported node st := by
  obtain ⟨st, hr, hc, hin⟩ : ∃ st, Reached step (ClockAdvances node) start st ∧
      st.clock = 8 ∧ InTime node st 18 :=
    exists_reached [.renew node 1000 10, .scan 0, .renew node 1005 10, .scan 8] (by decide +kernel)
  exact ⟨st, hr, hc, hin, renewing_node_not_expired hr⟩

/-- **A clock that is set back makes a renewing node look dead.**  The node renews every few milliseconds
and the observer sees every new lease well within the ten milliseconds that the leases declare; but after
the first one none has a higher number, and the node is reported. -/
theorem node_expired_while_renewing :
    ∃ st, Reached step (Timely node) start st ∧ ∃ nowMs, st.clock ≤ nowMs ∧
      InTime node st nowMs ∧ st.tracker.isExpired node nowMs = true := by
  obtain ⟨st, hr, hf⟩ : ∃ st, Reached step (Timely node) start st ∧ st.clock ≤ 11 ∧
      InTime node st 11 ∧ st.tracker.isExpired node 11 = true :=
    exists_reached [.renew node 1000 10, .scan 0, .renew node 500 10, .scan 5,
      .renew node 506 10, .scan 11] (by decide +kernel)
  exact ⟨st, hr, 11, hf⟩

end Watch

/-! ## Two hosts judge a parent's lease

Both hosts judge the lease of the node that a parent's placement row names, against the grace of the edge
between parent and child. -/

/-- What a scan of the table, which may fail, says about a node's row. -/
def leaseRead (node : RuntimeId) : Option LeaseTable → RowRead NodeLease
  | none => .failed
  | some table =>
    match table.lookup node with
    | some lease => .ok lease
    | none => .absent

/-- The leases that a verify pass on Linux observes. -/
def observeScan (tracker : LeaseTracker) (scan : Option LeaseTable) (nowMs : Nat) : LeaseTracker :=
  match scan with
  | some table => tracker.observeAll table.rows nowMs
  | none => tracker

/-- The verdict of a verify pass on Linux. -/
def parentLeaseExpired (tracker : LeaseTracker) (node : RuntimeId) (graceMs : Option Nat)
    (timingTtlMs nowMs : Nat) : Option Bool :=
  some (tracker.judge node graceMs timingTtlMs nowMs)

/-- The verdicts of the passes on Linux, each at its time and with its scan. -/
def linuxVerdicts (node : RuntimeId) (graceMs : Option Nat) (timingTtlMs : Nat) :
    LeaseTracker → List (Nat × Option LeaseTable) → List (Option Bool)
  | _, [] => []
  | tracker, (nowMs, scan) :: scans =>
    let tracker := observeScan tracker scan nowMs
    parentLeaseExpired tracker node graceMs timingTtlMs nowMs ::
      linuxVerdicts node graceMs timingTtlMs tracker scans

/-- The verdicts of the passes on an embedded host, each at its time and with its read. -/
def embeddedVerdicts (node : RuntimeId) (graceMs : Option Nat) :
    LeaseTracker → List (Nat × RowRead NodeLease) → List (Option Bool)
  | _, [] => []
  | tracker, (nowMs, read) :: reads =>
    let judged := tracker.judgeRead node read graceMs nowMs
    judged.2 :: embeddedVerdicts node graceMs judged.1 reads

section Hosts
variable {tr tracker' : LeaseTracker} {node : RuntimeId} {graceMs : Option Nat}
  {timingTtlMs unknown unknown' nowMs : Nat} {scan : Option LeaseTable}
  (h : tr.observed node = tracker'.observed node)
include h

/-- A verdict rests on what is remembered of the node; what is assumed of nodes never seen does not
matter, since those are not stale. -/
theorem judge_congr :
    tr.judge node graceMs unknown nowMs = tracker'.judge node graceMs unknown' nowMs := by
  simp only [LeaseTracker.judge, LeaseTracker.staleFor, LeaseTracker.ttlMsOf, h]
  rcases Option.eq_none_or_eq_some (tracker'.observed node) with hs | ⟨o, hs⟩
  · simp [hs]
  · cases graceMs <;> simp [hs]

theorem observed_after_read : (observeScan tr scan nowMs).observed node =
      (tracker'.judgeRead node (leaseRead node scan) graceMs nowMs).1.observed node := by
  cases scan with
  | none => exact h
  | some table =>
    simp only [observeScan, leaseRead, LeaseTracker.observed_observeAll]
    cases table.lookup node with
    | none => exact h
    | some lease => simp only [LeaseTracker.judgeRead, LeaseTracker.observed_observe_self, h]

/-- The verdicts on one read agree unless the row is gone. -/
theorem verdict_eq_iff :
    parentLeaseExpired (observeScan tr scan nowMs) node graceMs timingTtlMs nowMs =
        (tracker'.judgeRead node (leaseRead node scan) graceMs nowMs).2 ↔
      leaseRead node scan ≠ .absent := by
  have ha : (observeScan tr scan nowMs).observed node =
      (tracker'.judgeRead node (leaseRead node scan) graceMs nowMs).1.observed node :=
    observed_after_read h
  cases hr : leaseRead node scan with
  | absent => simp [parentLeaseExpired, LeaseTracker.judgeRead]
  | _ =>
    rw [hr] at ha
    simp only [ne_eq, reduceCtorEq, not_false_eq_true, iff_true]
    exact congrArg some (judge_congr ha)

theorem verdicts_eq_iff {scans : List (Nat × Option LeaseTable)} :
    linuxVerdicts node graceMs timingTtlMs tr scans =
        embeddedVerdicts node graceMs tracker' (scans.map fun s => (s.1, leaseRead node s.2)) ↔
      ∀ s ∈ scans, leaseRead node s.2 ≠ .absent := by
  induction scans generalizing tr tracker' with
  | nil => simp [linuxVerdicts, embeddedVerdicts]
  | cons s scans ih =>
    simp only [linuxVerdicts, embeddedVerdicts, map_cons, List.cons.injEq, verdict_eq_iff h,
      ih (observed_after_read h), forall_mem_cons]

end Hosts

/-- **The hosts judge a parent's lease alike exactly when no read finds the row gone.** -/
theorem hosts_judge_alike_iff (node : RuntimeId) (graceMs : Option Nat) (timingTtlMs : Nat)
    (scans : List (Nat × Option LeaseTable)) : linuxVerdicts node graceMs timingTtlMs .new scans =
        embeddedVerdicts node graceMs .new (scans.map fun s => (s.1, leaseRead node s.2)) ↔
      ∀ s ∈ scans, leaseRead node s.2 ≠ .absent :=
  verdicts_eq_iff rfl

/-- A lease of ten milliseconds is seen once, and eleven milliseconds later its row is gone.  The Linux
host has the parent's node dead, and kills the child; the embedded host has no verdict. -/
theorem purged_lease_judged_differently :
    let scans := [(0, some (LeaseTable.empty.put node ⟨1, 10⟩)), (11, some LeaseTable.empty)]
    linuxVerdicts node none 30000 .new scans = [some false, some true] ∧
      embeddedVerdicts node none .new
        (scans.map fun s => (s.1, leaseRead node s.2)) = [some false, none] := by
  decide +kernel

end Leases

end Myrmic
