import Myrmic.Libraries

/-!
# Offering what was committed

A node that commits data to a scope it does not replicate must not keep it to itself: after the commit
the handler goes through the scopes the transaction wrote to, and starts a **drain** for each that is
neither replicated nor drained yet.  The list of those scopes is kept by the operations: a write marks
its scope before it writes.

A restore does not mark its scope, yet it removes and records sync points.  So a commit changes the sync
points of two sets of scopes, the marked ones and the restored ones, and only the first is offered.  The
property is stated over the rows: `AddsPoint` compares the sync points before the commit with those
after it.

* A journal changes the sync point of a scope only by an operation that names the scope
  (`metaAt_replay_of_pointsIn`), and a bundle that restores no scope has none (`Applied.leaves`).
* A restore that changes something leaves a sync point with the transaction's own timestamp
  (`Begun.restoreSnapshot_cases`); nothing removes it before the commit but another restore, which leaves
  one in its place (`Accounted`).

`offers_every_scope` says when the handler's list is enough: **for snapshots that carry keys of data,
whatever was committed is offered if every scope that was restored is also written to, replicated or
drained**, and the condition is exact once restores that change nothing are left out.
-/
namespace Myrmic
open OrderedBytes Fallible Programs List

/-! ## The handler after a commit -/

/-- What the node does for scopes besides holding their data.  A drain counts as running as long as
`is_offloading` says so: its handle is there and has not been stopped. -/
structure Duties where
  replicating : Scope → Bool
  offloading : Scope → Bool

/-- Starts a drain, unless the scope is replicated. -/
def Duties.startOffload (d : Duties) (s : Scope) : Duties :=
  if d.replicating s then d else { d with offloading := Function.update d.offloading s true }

/-- What the handler does for one scope that was written to: running replication or a running drain is
only woken. -/
def Duties.discharge (d : Duties) (s : Scope) : Duties :=
  if d.replicating s then d
  else if d.offloading s then d
  else d.startOffload s

/-- The node replicates the scope or runs a drain for it, in the sense of the two tests the handler itself
makes.  A drain that has found its scope held elsewhere runs until it is stopped. -/
def Duties.Covers (d : Duties) (s : Scope) : Prop :=
  d.replicating s = true ∨ d.offloading s = true

/-- The node's store and its duties. -/
structure StoreContext where
  store : Keyspace
  duties : Duties

/-! ## The restores of a bundle -/

/-- The operations restore a scope from a snapshot. -/
def Restores (ops : List TxOp) (s : Scope) (snapshot : Snapshot) : Prop :=
  ∃ name, TxOp.scopeRestore name snapshot ∈ ops ∧ keyScope name = .ok s

/-- A restore, or an operation that makes plain calls only. -/
theorem TxOp.isRestore_or (op : TxOp) : (∃ name snap, op = .scopeRestore name snap) ∨
      ∀ name snap, op ≠ .scopeRestore name snap := by
  by_cases h : ∃ name snap, op = .scopeRestore name snap
  · exact .inl h
  · exact .inr fun name snap he => h ⟨name, snap, he⟩

variable {ops : List TxOp} {op : TxOp} {s : Scope}

theorem restores_snoc {snap : Snapshot} : Restores (ops ++ [op]) s snap ↔ Restores ops s snap ∨
      ∃ name, op = .scopeRestore name snap ∧ keyScope name = .ok s := by
  simp only [Restores, mem_append, mem_singleton, or_and_right, exists_or]
  refine or_congr_right (exists_congr fun name => and_congr_left fun _ => eq_comm)

theorem restores_snoc_plain (hop : ∀ name snap, op ≠ .scopeRestore name snap) {snap : Snapshot} :
    Restores (ops ++ [op]) s snap ↔ Restores ops s snap := by
  rw [restores_snoc]
  exact or_iff_left fun ⟨name, he, _⟩ => hop name snap he

theorem restores_snoc_restore {name : ApiScope} {s₀ : Scope}
    {snapshot₀ snap : Snapshot} (hn : keyScope name = .ok s₀) :
    Restores (ops ++ [.scopeRestore name snapshot₀]) s snap ↔
      Restores ops s snap ∨ s₀ = s ∧ snapshot₀ = snap := by
  rw [restores_snoc]
  refine or_congr_right ⟨?_, ?_⟩
  · rintro ⟨_, he, hs⟩
    cases he
    rw [hn] at hs
    exact ⟨Except.ok.inj hs, rfl⟩
  · rintro ⟨rfl, rfl⟩
    exact ⟨name, rfl, hn⟩

section Handler
variable [Postcard] {tx : Tx} {ts : Version}

/-- Commits a transaction, takes care of the scopes it wrote to, and returns the table events to
publish. -/
def finishCommit (c : StoreContext) (t : StoreTx) :
    Except String (StoreContext × List (ApiScope × String × Version)) := do
  let scopes := t.tx.active
  let store ← t.tx.commit c.store
  return (⟨store, scopes.foldl Duties.discharge c.duties⟩,
    t.metadata.map fun e => (e.1, e.2, t.tx.ts))

omit [Postcard] in
theorem Duties.covers_discharge (d : Duties) (s s' : Scope) :
    (d.discharge s).Covers s' ↔ s' = s ∨ d.Covers s' := by
  unfold Duties.discharge
  split
  · next hr =>
    refine ⟨.inr, fun h => h.elim (fun he => ?_) id⟩
    rw [he]
    exact .inl hr
  · next hr =>
    split
    · next ho =>
      refine ⟨.inr, fun h => h.elim (fun he => ?_) id⟩
      rw [he]
      exact .inr ho
    · rw [Duties.startOffload, if_neg hr]
      by_cases he : s' = s
      · simp [Duties.Covers, he]
      · simp [Duties.Covers, he]

omit [Postcard] in
/-- After the handler has gone through the scopes, these are covered in addition. -/
theorem Duties.covers_foldl_discharge {d : Duties} {scopes : List Scope} :
    (scopes.foldl Duties.discharge d).Covers s ↔ s ∈ scopes ∨ d.Covers s := by
  induction scopes generalizing d with
  | nil => simp
  | cons s' scopes ih =>
    rw [foldl_cons, ih, Duties.covers_discharge, mem_cons]
    tauto

/-! ## Sync points and journals -/

/-- A write whose sync point, if it concerns one, lies in one of some scopes. -/
def RawOp.PointsIn (S : Scope → Prop) : RawOp → Prop
  | .point p _ => S p.scope
  | .forget p => S p.scope
  | _ => True

/-- A write that removes no sync point. -/
def RawOp.Retains : RawOp → Prop
  | .forget _ => False
  | _ => True

/-- What a write makes of the contents of a sync point. -/
def RawOp.onMeta (p : SyncPoint) (m : Option SyncMeta) : RawOp → Option SyncMeta
  | .point q sm => if q = p then some sm else m
  | .forget q => if q = p then none else m
  | _ => m

variable {p : SyncPoint} {ks : Keyspace} {jrn : List RawOp} {S : Scope → Prop}

/-- A journal of writes under keys of data does to a sync point what its operations on it say, whatever
the other rows are. -/
theorem metaAt_replay (hin : ∀ op ∈ jrn, op.Within UserKey) :
    metaAt (replay ks jrn) p = jrn.foldl (RawOp.onMeta p) (metaAt ks p) := by
  induction jrn generalizing ks with
  | nil => rfl
  | cons op jrn ih =>
    have hop : metaAt (op.apply ks) p = op.onMeta p (metaAt ks p) := by
      have hw := hin op mem_cons_self
      cases op with
      | write key ts kind v => exact metaAt_writeRow hw
      | drop key ts kind => exact metaAt_dropRow hw
      | unindex ikey dataKey =>
        obtain ⟨k, t, _, hk, rfl, rfl⟩ := hw
        exact metaAt_dropRow hk
      | point q sm => exact metaAt_insertPoint q p sm
      | forget q => exact metaAt_erasePoint q p
    rw [foldl_cons, ← hop]
    exact ih fun op hm => hin op (mem_cons_of_mem _ hm)

/-- Sync points of other scopes are left as they are. -/
theorem metaAt_replay_of_pointsIn (hin : ∀ op ∈ jrn, op.Within UserKey)
    (hS : ∀ op ∈ jrn, op.PointsIn S) (hp : ¬S p.scope) :
    metaAt (replay ks jrn) p = metaAt ks p := by
  rw [metaAt_replay hin]
  refine foldlRecOn (motive := (· = metaAt ks p)) _ _ rfl fun m hm op hop => ?_
  have hne : ∀ q : SyncPoint, S q.scope → q ≠ p := fun q hq he => hp (he ▸ hq)
  have hop := hS op hop
  cases op with
  | point q sm => exact (if_neg (hne q hop)).trans hm
  | forget q => exact (if_neg (hne q hop)).trans hm
  | _ => exact hm

/-- A sync point that no write removes stays. -/
theorem metaAt_replay_of_retains (hin : ∀ op ∈ jrn, op.Within UserKey)
    (hre : ∀ op ∈ jrn, op.Retains) (h : ∃ m, metaAt ks p = some m) :
    ∃ m, metaAt (replay ks jrn) p = some m := by
  rw [metaAt_replay hin]
  refine foldlRecOn (motive := fun m => ∃ sm, m = some sm) _ _ h fun m hm op hop => ?_
  have hop := hre op hop
  cases op with
  | point q sm =>
    rw [RawOp.onMeta]
    split
    · exact ⟨sm, rfl⟩
    · exact hm
  | forget q => exact hop.elim
  | _ => exact hm

/-- The commit added a sync point to the scope or replaced one: it is among the rows after, and was not
among the rows before or had other contents. -/
def AddsPoint (before after : Keyspace) (s : Scope) : Prop :=
  ∃ p m, p.scope = s ∧ metaAt after p = some m ∧ metaAt before p ≠ some m

/-- The rows have a sync point of the scope. -/
def HasPoint (ks : Keyspace) (s : Scope) : Prop := ∃ p m, p.scope = s ∧ metaAt ks p = some m

/-- A restore changes something: there is something to restore or to remove. -/
def Effective (ks : Keyspace) (s : Scope) (snapshot : Snapshot) : Prop :=
  snapshot ≠ [] ∨ HasPoint ks s

/-- No sync point has been recorded under the timestamp by the node. -/
def Unused (ks : Keyspace) (ts : Version) (id : NodeId) : Prop :=
  ∀ p : SyncPoint, p.epoch = ts → p.id = id → metaAt ks p = none

/-! ## The sync points of a transaction -/

namespace Tx
variable {del : List SyncPointId} {sm : SyncMeta} {es : List (Bytes × Option Bytes)}
  {wrote : Bool} {keys : List Bytes} {deleted' : List SyncPointId} {c : TxCall} {tx tx' : Tx}
  {base : Keyspace} {ts : Version} {id : NodeId} {s : Scope} {snap : Snapshot}

/-- The transaction has left the sync points of the scope alone. -/
def Leaves (tx : Tx) (s : Scope) : Prop := ∀ op ∈ tx.journal, op.PointsIn (· ≠ s)

/-- The transaction sees a sync point of the scope that carries its own timestamp. -/
def Stamped (tx : Tx) (s : Scope) : Prop :=
  ∃ p m, p.scope = s ∧ p.epoch = tx.ts ∧ p.id = tx.id ∧ metaAt tx.view p = some m

/-- At its commit a transaction leaves sync points in the scopes that it wrote to, and removes none. -/
theorem mem_commitPoints {scopes : List Scope} {points : List RawOp}
    (h : tx.commitPoints scopes = .ok points) :
    ∀ op ∈ points, op.PointsIn (· ∈ scopes) ∧ op.Retains := by
  induction scopes generalizing points with
  | nil =>
    cases h
    simp
  | cons s scopes ih =>
    obtain ⟨_, -, h⟩ := bind_eq_ok.mp h
    obtain ⟨points, hre, h⟩ := bind_eq_ok.mp h
    cases h
    refine forall_mem_cons.mpr ⟨⟨mem_cons_self, trivial⟩, fun op hop => ?_⟩
    obtain ⟨hin, hr⟩ := ih hre op hop
    refine ⟨?_, hr⟩
    cases op with
    | point p sm => exact mem_cons_of_mem _ hin
    | forget p => exact mem_cons_of_mem _ hin
    | _ => trivial

/-- The journal has grown by operations of some kind. -/
def Grows (P : RawOp → Prop) (tx tx' : Tx) : Prop :=
  ∃ js, tx'.journal = tx.journal ++ js ∧ ∀ op ∈ js, P op

namespace Grows
variable {P : RawOp → Prop} {tx tx' tx'' : Tx}

section
omit [Postcard]

theorem refl (P : RawOp → Prop) (tx : Tx) : Grows P tx tx := ⟨[], by simp, by simp⟩

variable (h : Grows P tx tx')
include h

theorem trans (h' : Grows P tx' tx'') : Grows P tx tx'' := by
  obtain ⟨js, hjs, hin⟩ := h
  obtain ⟨js', hjs', hin'⟩ := h'
  exact ⟨js ++ js', by rw [hjs', hjs, append_assoc], forall_mem_append.mpr ⟨hin, hin'⟩⟩

omit h in
theorem push (tx : Tx) (op : RawOp) (hop : P op) : Grows P tx (tx.push op) :=
  ⟨[op], rfl, by simpa using hop⟩

omit h in
/-- What was left alone before and lies outside the scopes concerned is left alone after. -/
theorem leaves_iff (h : Grows (RawOp.PointsIn S) tx tx') (hs : ¬S s) :
    tx'.Leaves s ↔ tx.Leaves s := by
  obtain ⟨js, hjs, hin⟩ := h
  rw [Leaves, hjs, forall_mem_append, ← Leaves]
  refine and_iff_left fun op hop => ?_
  have hop := hin op hop
  cases op with
  | point p sm => exact fun he => hs (he ▸ hop)
  | forget p => exact fun he => hs (he ▸ hop)
  | _ => trivial

omit h

theorem deleteIndexed (hP : ∀ ikey dataKey, P (.unindex ikey dataKey)) {ikeys : List Bytes}
    (h : tx.deleteIndexed ikeys = .ok tx') : Grows P tx tx' := by
  induction ikeys generalizing tx with
  | nil =>
    cases h
    exact refl P _
  | cons ikey ikeys ih =>
    obtain ⟨dataKey, -, h⟩ := bind_eq_ok.mp h
    exact trans (push tx (.unindex ikey dataKey) (hP _ _)) (ih h)

end

theorem deleteScopeAtVersion (hP : ∀ ikey dataKey, P (.unindex ikey dataKey))
    (h : tx.deleteScopeAtVersion s ts = .ok tx') : Grows P tx tx' := by
  obtain ⟨⟨n, _⟩, hr, h⟩ := bind_eq_ok.mp h
  cases h
  obtain ⟨_, hi, h⟩ := bind_eq_ok.mp hr
  cases h
  exact deleteIndexed hP hi

theorem of_writes {Q : Bytes → Prop} (h : Writes S Q tx tx') : Grows (RawOp.PointsIn S) tx tx' := by
  induction h with
  | refl => exact refl _ tx
  | scope _ s ih =>
    unfold Tx.writeScope
    split
    · exact ih
    · exact ih
  | delete _ hd ih => exact ih.trans (deleteScopeAtVersion (fun _ _ => trivial) hd)
  | push _ op hop ih =>
    refine ih.trans (push _ op ?_)
    cases op with
    | write | drop | unindex => trivial
    | point | forget => exact hop

theorem restoreSnapshot (h : tx.restoreSnapshot s snap = .ok tx') :
    Grows (RawOp.PointsIn (· = s)) tx tx' :=
  .of_writes (Writes.refl (P := fun _ => True) |>.restoreSnapshot rfl (fun _ _ _ _ => trivial) h)

/-- A plain call concerns no sync point. -/
theorem plain (hc : c.Plain) (h : tx.call c = .ok tx') :
    Grows (RawOp.PointsIn fun _ => False) tx tx' := by
  have hS : c.PointsIn fun _ => False := by cases c <;> first | exact hc.elim | trivial
  exact .of_writes (.of_call (P := fun _ => True) hS (fun _ => trivial) (fun _ _ => trivial) h)

/-! ### Once a restore has swept, it removes nothing -/

omit [Postcard] in
theorem applyEntries (ts : Version) (tx : Tx) (es : List (Bytes × Option Bytes)) :
    Grows RawOp.Retains tx (es.foldl (Tx.applyEntry ts) tx) := by
  induction es generalizing tx with
  | nil => exact refl _ tx
  | cons e es ih =>
    obtain ⟨key, v⟩ := e
    cases v <;> exact trans (push tx (.write ..) trivial) (ih _)

/-- The rest of a changeset, once its sync point is recorded. -/
theorem insertChangeset (hi : tx.insertChangeset p sm es = .ok (wrote, tx')) :
    containsKey tx.view p.encode = true ∧ tx' = tx ∨
      Grows RawOp.Retains (tx.push (.point p sm)) tx' := by
  unfold Tx.insertChangeset at hi
  split at hi
  · next hc =>
    cases hi
    exact .inl ⟨hc, rfl⟩
  · refine .inr ?_
    split at hi
    · obtain ⟨_, hd, hi⟩ := bind_eq_ok.mp hi
      cases hi
      exact deleteScopeAtVersion (fun _ _ => trivial) hd
    · cases hi
      exact applyEntries ..

theorem reinsert (hr : tx.reinsert s del snap = .ok (deleted', tx')) :
    Grows RawOp.Retains tx tx' := by
  induction snap generalizing tx del with
  | nil =>
    cases hr
    exact refl _ _
  | cons chunk cs ih =>
    obtain ⟨_, -, hr⟩ := bind_eq_ok.mp hr
    obtain ⟨⟨_, tx₁⟩, hi, hr⟩ := bind_eq_ok.mp hr
    rcases insertChangeset hi with ⟨-, he⟩ | hg
    · rw [he] at hr
      exact ih hr
    · exact (push _ (.point ..) trivial).trans (hg.trans (ih hr))

theorem markDeleted (h : tx.markDeleted s del = .ok tx') : Grows RawOp.Retains tx tx' := by
  induction del generalizing tx with
  | nil =>
    cases h
    exact refl _ _
  | cons i del ih =>
    obtain ⟨_, -, h⟩ := bind_eq_ok.mp h
    exact (push _ (.point ..) trivial).trans (ih h)

end Grows

/-! ### What a transaction sees -/

/-- A transaction that was begun on some rows and is in order. -/
structure Begun (base : Keyspace) (ts : Version) (id : NodeId) (tx : Tx) : Prop where
  sound : tx.Sound UserKey
  base_eq : tx.base = base
  ts_eq : tx.ts = ts
  id_eq : tx.id = id

section Begun
variable (h : tx.Begun base ts id) (h' : tx'.Begun base ts id)
include h

theorem Begun.writes (hw : Writes S UserKey tx tx') : tx'.Begun base ts id :=
  have hc := hw.continues
  ⟨h.sound.writes (fun _ hk => hk) hw, hc.base.trans h.base_eq, hc.ts.trans h.ts_eq,
    hc.id.trans h.id_eq⟩

theorem Begun.hasPoint_view_iff (hs : tx.Leaves s) : HasPoint tx.view s ↔ HasPoint base s := by
  refine exists_congr fun p => exists_congr fun m => and_congr_right fun hp => ?_
  rw [Tx.view, metaAt_replay_of_pointsIn h.sound.journal hs (not_not.mpr hp), h.base_eq]

/-- A scope that was left alone has no sync point with the transaction's timestamp. -/
theorem Begun.not_stamped (hts : Unused base ts id) (hs : tx.Leaves s) : ¬tx.Stamped s := by
  rintro ⟨p, m, hp, he, hi, hm⟩
  rw [Tx.view, metaAt_replay_of_pointsIn h.sound.journal hs (not_not.mpr hp), h.base_eq,
    hts p (he.trans h.ts_eq) (hi.trans h.id_eq)] at hm
  cases hm

include h'

/-- What a grown transaction sees, over what it saw before. -/
theorem Begun.view_grows {P : RawOp → Prop} (hg : Grows P tx tx') : ∃ js,
    tx'.view = replay tx.view js ∧ (∀ op ∈ js, op.Within UserKey) ∧ ∀ op ∈ js, P op := by
  obtain ⟨js, hjs, hP⟩ := hg
  refine ⟨js, ?_, fun op hop => h'.sound.journal op (hjs ▸ mem_append_right _ hop), hP⟩
  rw [Tx.view, Tx.view, hjs, replay_append, h'.base_eq, h.base_eq]

theorem Begun.stamped_iff (hg : Grows (RawOp.PointsIn S) tx tx') (hs : ¬S s) :
    tx'.Stamped s ↔ tx.Stamped s := by
  obtain ⟨js, hv, hin, hS⟩ := h.view_grows h' hg
  refine exists_congr fun p => exists_congr fun m => and_congr_right fun hp => ?_
  rw [hv, metaAt_replay_of_pointsIn hin hS (hp ▸ hs), h'.ts_eq, h'.id_eq, h.ts_eq, h.id_eq]

theorem Begun.stamped_of_retains (hg : Grows RawOp.Retains tx tx') {v : Version}
    (hm : ∃ m, metaAt tx.view ⟨s, v, tx.ts, tx.id⟩ = some m) : tx'.Stamped s := by
  obtain ⟨js, hv, hin, hre⟩ := h.view_grows h' hg
  obtain ⟨m, hm⟩ := metaAt_replay_of_retains hin hre hm
  exact ⟨_, m, rfl, h.ts_eq.trans h'.ts_eq.symm, h.id_eq.trans h'.id_eq.symm, hv ▸ hm⟩

end Begun

/-! ## What a restore leaves -/

theorem length_sweep (h : tx.sweep s keys = .ok (del, tx')) : del.length = keys.length := by
  induction keys generalizing tx del with
  | nil =>
    cases h
    rfl
  | cons key keys ih =>
    obtain ⟨_, -, h⟩ := bind_eq_ok.mp h
    obtain ⟨_, -, h⟩ := bind_eq_ok.mp h
    obtain ⟨⟨_, _⟩, hr, h⟩ := bind_eq_ok.mp h
    cases h
    exact congrArg (· + 1) (ih hr)

section Restore
variable (h : tx.Begun base ts id)
include h

theorem Begun.push_point (p : SyncPoint) (sm : SyncMeta) :
    (tx.push (.point p sm)).Begun base ts id :=
  h.writes (S := fun _ => True) (.push .refl _ trivial)

theorem Begun.stamped_push (h' : tx'.Begun base ts id) {v : Version}
    (hg : Grows RawOp.Retains (tx.push (.point ⟨s, v, tx.ts, tx.id⟩ sm)) tx') : tx'.Stamped s := by
  refine (h.push_point _ sm).stamped_of_retains h' hg (v := v) ⟨sm, ?_⟩
  rw [view_push, RawOp.apply, metaAt_insertPoint]
  exact if_pos rfl

theorem Begun.stamped_markDeleted (h' : tx'.Begun base ts id) (hne : del ≠ [])
    (hm : tx.markDeleted s del = .ok tx') : tx'.Stamped s := by
  cases del with
  | nil => exact absurd rfl hne
  | cons i del =>
    obtain ⟨_, -, hm⟩ := bind_eq_ok.mp hm
    exact h.stamped_push h' (.markDeleted hm)

/-- A chunk is stamped with the transaction's timestamp: it is recorded now, or was there before. -/
theorem Begun.stamped_reinsert (h' : tx'.Begun base ts id) {tx₁ : Tx} (hne : snap ≠ [])
    (hr : tx.reinsert s del snap = .ok (deleted', tx₁)) (hg : Grows RawOp.Retains tx₁ tx') :
    tx'.Stamped s := by
  cases snap with
  | nil => exact absurd rfl hne
  | cons c cs =>
    obtain ⟨_, -, hr⟩ := bind_eq_ok.mp hr
    obtain ⟨⟨_, tx₂⟩, hi, hr⟩ := bind_eq_ok.mp hr
    rcases Grows.insertChangeset hi with ⟨hc, he⟩ | hin
    · rw [he] at hr
      exact h.stamped_of_retains h' ((Grows.reinsert hr).trans hg)
        ((containsKey_iff (h.sound.view fun _ hk => hk).wellFormed).mp hc)
    · exact h.stamped_push h' (hin.trans ((Grows.reinsert hr).trans hg))

/-- **A restore that changes something leaves a sync point of its scope with the transaction's
timestamp**, and one that does not leaves the transaction as it was. -/
theorem Begun.restoreSnapshot_cases (h' : tx'.Begun base ts id)
    (hre : tx.restoreSnapshot s snap = .ok tx') :
    Effective tx.view s snap ∧ tx'.Stamped s ∨ ¬Effective tx.view s snap ∧ tx' = tx := by
  have hvi := (h.sound.view fun _ hk => hk).wellFormed
  obtain ⟨_, hra, hup⟩ := s.keyRange_syncPoint
  obtain ⟨⟨_, _⟩, hra', hre⟩ := bind_eq_ok.mp hre
  rw [hra] at hra'
  cases hra'
  obtain ⟨⟨del, tx₁⟩, hsw, hre⟩ := bind_eq_ok.mp hre
  obtain ⟨⟨_, tx₂⟩, hrei, hre⟩ := bind_eq_ok.mp hre
  rw [sweptRows_eq hvi hra hup] at hsw
  have hswe : tx₁.Begun base ts id := by
    refine h.writes (S := (· = s)) (.sweep .refl rfl (fun key hk => ?_) hsw)
    obtain ⟨p, hp, rfl⟩ := mem_map.mp hk
    rw [← (sweptPoints_held hvi hp).1]
    exact prefix_append ..
  by_cases hne : snap = []
  · subst hne
    cases hrei
    by_cases hpo : HasPoint tx.view s
    · -- everything in the scope is swept and marked
      refine .inl ⟨.inr hpo, hswe.stamped_markDeleted h' (fun hni => ?_) hre⟩
      obtain ⟨p, m, hp, hm⟩ := hpo
      have hme : p ∈ sweptPoints tx.view s [] := mem_sweptPoints_of_no_parent hvi rfl hp hm
      have hle := length_sweep hsw
      rw [hni, length_map] at hle
      rw [length_eq_zero_iff.mp hle.symm] at hme
      cases hme
    · refine .inr ⟨fun he => he.elim (fun hni => hni rfl) hpo, ?_⟩
      have hni : sweptPoints tx.view s [] = [] := by
        refine eq_nil_iff_forall_not_mem.mpr fun p hp => hpo ?_
        obtain ⟨hsc, m, hm⟩ := sweptPoints_held hvi hp
        exact ⟨p, m, hsc, hm⟩
      rw [hni] at hsw
      cases hsw
      cases hre
      rfl
  · exact .inl ⟨.inl hne, hswe.stamped_reinsert h' hne hrei (.markDeleted hre)⟩

end Restore

/-! ## Between operations -/

/-- Between operations, a scope whose sync points the transaction has concerned itself with has one of
its own. -/
structure Accounted (base : Keyspace) (ts : Version) (id : NodeId) (tx : Tx) : Prop
    extends Begun base ts id tx where
  stamped : ∀ s, tx.Leaves s ∨ tx.Stamped s

theorem Accounted.of_grows (h : tx.Accounted base ts id) (h' : tx'.Begun base ts id)
    (hg : Grows (RawOp.PointsIn S) tx tx') (hS : ∀ s, S s → tx'.Leaves s ∨ tx'.Stamped s) :
    tx'.Accounted base ts id := by
  refine ⟨h', fun s => ?_⟩
  by_cases hs : S s
  · exact hS s hs
  · exact (h.stamped s).imp (hg.leaves_iff hs).mpr (h.toBegun.stamped_iff h' hg hs).mpr

theorem Accounted.restoreSnapshot (h : tx.Accounted base ts id)
    (he : ∀ c ∈ snap, ∀ e ∈ c.entries, UserKey e.1) (hr : tx.restoreSnapshot s snap = .ok tx') :
    tx'.Accounted base ts id := by
  have h' := h.toBegun.writes (S := (· = s)) (.restoreSnapshot .refl rfl he hr)
  refine h.of_grows h' (.restoreSnapshot hr) ?_
  rintro _ rfl
  rcases h.toBegun.restoreSnapshot_cases h' hr with ⟨-, hs⟩ | ⟨-, rfl⟩
  · exact .inr hs
  · exact h.stamped _

theorem Accounted.plain (h : tx.Accounted base ts id) (hc : c.Plain)
    (hca : tx.call c = .ok tx') : tx'.Accounted base ts id := by
  have hw : Writes (fun _ => False) UserKey tx tx' := by
    refine .of_call ?_ Location.userKey ?_ hca
    · cases c <;> first | exact hc.elim | trivial
    · cases c <;> first | exact hc.elim | simp [TxCall.entries]
  exact h.of_grows (h.toBegun.writes hw) (.plain hc hca) fun _ hs => hs.elim

end Tx

/-! ## Operations and bundles -/

section Bundles
variable [Sparql] [BodyCodec] [Sha2] {t : StoreTx} {t' : StoreTx} {env : Env}
  {ret : Option Duration}

theorem apply_scopeRestore {s : ApiScope} {snap : Snapshot}
    {resp : TxOpResponse} (h : (apply env (.scopeRestore s snap)).run t = (.ok resp, t')) :
    ∃ scope, keyScope s = .ok scope ∧ t.tx.restoreSnapshot scope snap = .ok t'.tx := by
  cases hsc : keyScope s with
  | error e =>
    simp only [apply, StoreTx.restoreSnapshot, hsc] at h
    cases h
  | ok scope =>
    refine ⟨scope, rfl, ?_⟩
    have hpr : apply env (.scopeRestore s snap) = .perform (.call (.restoreSnapshot scope snap)) fun
          | .ok _ => .done .done
          | .error _ => .fail "unable to restore snapshot" := by
      simp only [apply, StoreTx.restoreSnapshot, hsc]
      refine congrArg (Prog.perform _) (funext fun r => ?_)
      cases r <;> rfl
    cases hac : t.act (.call (.restoreSnapshot scope snap)) with
    | error e =>
      simp only [hpr, TxProg.run, Prog.exec, hac] at h
      cases h
    | ok r =>
      simp only [hpr, TxProg.run, Prog.exec, hac] at h
      cases h
      exact (StoreTx.act_call hac).1

/-- The transaction is what some operations, in one bundle or in several, have made of a new one. -/
inductive StoreTx.Applied (tx : Tx) : List TxOp → StoreTx → Prop
  | start : StoreTx.Applied tx [] (StoreTx.start tx)
  | op {ops : List TxOp} {t t' : StoreTx} {env : Env} {op : TxOp} {response : TxOpResponse} :
    StoreTx.Applied tx ops t → (apply env op).run t = (.ok response, t') →
      StoreTx.Applied tx (ops ++ [op]) t'

theorem StoreTx.Applied.applyAll {ops' : List TxOp}
    (h : StoreTx.Applied tx ops t) {envs : Nat → Env} {index : Nat}
    {last resp : Option TxOpResponse}
    (hal : applyAll envs index last ops' t = (.ok resp, t')) :
    StoreTx.Applied tx (ops ++ ops') t' := by
  induction ops' generalizing ops t index last with
  | nil =>
    cases hal
    rwa [append_nil]
  | cons op ops' ih =>
    simp only [Myrmic.applyAll] at hal
    cases hop : (apply (envs index) op).run t with
    | mk oc t₁ =>
      rw [hop] at hal
      cases oc with
      | error msg => cases hal
      | ok resp =>
        have ha := ih (h.op hop) hal
        rwa [append_assoc] at ha

theorem plain_cases (hop : ∀ s snap, op ≠ .scopeRestore s snap)
    {I : Tx → Prop} (hI : ∀ tx c tx', c.Plain → I tx → tx.call c = .ok tx' → I tx')
    {r : Except String TxOpResponse} (h : (apply env op).run t = (r, t'))
    (ht : I t.tx) : I t'.tx := by
  have hk : I ((apply env op).exec id StoreTx.act t).2.tx := by
    refine (apply_plain env hop).exec_keeps (I := fun t : StoreTx => I t.tx)
      (fun t e b t₁ he ht ha => ?_) ht
    cases e with
    | call c => exact hI t.tx c t₁.tx he ht (StoreTx.act_call ha).1
    | event s table =>
      cases ha
      exact ht
  rw [TxProg.run] at h
  rwa [h] at hk

/-- The restores of a bundle only carry keys of data. -/
def DataOnly (ops : List TxOp) : Prop :=
  ∀ s snapshot, Restores ops s snapshot → ∀ chunk ∈ snapshot, ∀ e ∈ chunk.entries, UserKey e.1

variable {base : Keyspace} {id : NodeId} (hba : Tidy UserKey base)
  (h : StoreTx.Applied (Tx.start base ts id ret) ops t) (hops : DataOnly ops)
include h

omit hba hops in
/-- **A bundle leaves the sync points of the scopes alone that it does not restore.** -/
theorem StoreTx.Applied.leaves (hs : ∀ snap, ¬Restores ops s snap) : t.tx.Leaves s := by
  induction h with
  | start => exact fun op hop => absurd hop not_mem_nil
  | @op ops t t' env op resp _ hru ih =>
    have ih := ih fun snap hr => hs snap (restores_snoc.mpr (.inl hr))
    rcases op.isRestore_or with ⟨_, snap, rfl⟩ | hop
    · obtain ⟨s₀, hn, hre⟩ := apply_scopeRestore hru
      refine ((Tx.Grows.restoreSnapshot hre).leaves_iff fun he => ?_).mpr ih
      exact hs snap ((restores_snoc_restore hn).mpr (.inr ⟨he.symm, rfl⟩))
    · exact plain_cases hop (fun _ _ _ hc hl hca => ((Tx.Grows.plain hc hca).leaves_iff not_false).mpr hl)
        hru ih

include hba hops

theorem StoreTx.Applied.accounted : t.tx.Accounted base ts id := by
  induction h with
  | start =>
    have hni : ∀ op, op ∉ (Tx.start base ts id ret).journal := fun _ => not_mem_nil
    exact ⟨⟨⟨hba, fun op hop => absurd hop (hni op)⟩, rfl, rfl, rfl⟩,
      fun s => .inl fun op hop => absurd hop (hni op)⟩
  | @op ops t t' env op resp _ hru ih =>
    have ih := ih fun s snap hr => hops s snap (restores_snoc.mpr (.inl hr))
    rcases op.isRestore_or with ⟨name, snap, rfl⟩ | hop
    · obtain ⟨s₀, hna, hre⟩ := apply_scopeRestore hru
      exact ih.restoreSnapshot (hops s₀ snap ((restores_snoc_restore hna).mpr (.inr ⟨rfl, rfl⟩))) hre
    · exact plain_cases hop (fun _ _ _ hc hac hca => hac.plain hc hca) hru ih

/-- **A bundle leaves its sync points in exactly the scopes that one of its restores changes.** -/
theorem StoreTx.Applied.stamped_iff (hts : Unused base ts id) (s : Scope) :
    t.tx.Stamped s ↔ ∃ snap, Restores ops s snap ∧ Effective base s snap := by
  induction h with
  | start =>
    have hno : ¬(Tx.start base ts id ret).Stamped s := by
      rintro ⟨p, m, -, he, hi, hm⟩
      exact absurd ((hts p he hi).symm.trans hm) nofun
    refine iff_of_false hno ?_
    rintro ⟨snap, ⟨name, hna, -⟩, -⟩
    cases hna
  | @op ops t t' env op resp hap hru ih =>
    have hold : DataOnly ops := fun s snap hr => hops s snap (restores_snoc.mpr (.inl hr))
    have hac := hap.accounted hba hold
    have hac' := (hap.op hru).accounted hba hops
    have ih := ih hold
    rcases op.isRestore_or with ⟨name, snap, rfl⟩ | hop
    · obtain ⟨s₀, hna, hre⟩ := apply_scopeRestore hru
      simp only [restores_snoc_restore hna, or_and_right, exists_or, ← ih]
      by_cases he : s = s₀
      · subst he
        rcases hac.stamped s with hle | hst
        · -- the restore finds the sync points the transaction began with
          have hef : Effective t.tx.view s snap ↔ Effective base s snap :=
            or_congr_right (hac.toBegun.hasPoint_view_iff hle)
          rw [or_iff_right (hac.toBegun.not_stamped hts hle)]
          rcases hac.toBegun.restoreSnapshot_cases hac'.toBegun hre with ⟨hch, hs⟩ | ⟨hch, htx⟩
          · exact iff_of_true hs ⟨snap, ⟨rfl, rfl⟩, hef.mp hch⟩
          · rw [htx]
            refine iff_of_false (hac.toBegun.not_stamped hts hle) ?_
            rintro ⟨_, ⟨-, rfl⟩, hch'⟩
            exact hch (hef.mpr hch')
        · -- it finds one of the transaction's own, and leaves another
          have hpo : HasPoint t.tx.view s := by
            obtain ⟨p, m, hp, -, -, hm⟩ := hst
            exact ⟨p, m, hp, hm⟩
          rcases hac.toBegun.restoreSnapshot_cases hac'.toBegun hre with ⟨-, hs⟩ | ⟨hch, -⟩
          · exact iff_of_true hs (.inl hst)
          · exact absurd (.inr hpo) hch
      · rw [hac.toBegun.stamped_iff hac'.toBegun (.restoreSnapshot hre) he, or_iff_left]
        rintro ⟨_, ⟨hs, -⟩, -⟩
        exact he hs.symm
    · have hgr : Tx.Grows (RawOp.PointsIn fun _ => False) t.tx t'.tx :=
        plain_cases hop (fun _ _ _ hc hgr hca => hgr.trans (.plain hc hca)) hru (.refl _ _)
      simp only [restores_snoc_plain hop, ← ih]
      exact hac.toBegun.stamped_iff hac'.toBegun hgr not_false

/-! ## Offering -/

omit [Sparql] [BodyCodec] [Sha2] h hba hops in
/-- The commit is offered: every scope to which it added a sync point, or in which it replaced one, is
replicated or drained after it. -/
def Offered (c c' : StoreContext) : Prop := ∀ s, AddsPoint c.store c'.store s → c'.duties.Covers s

variable {c c' : StoreContext} {events : List (ApiScope × String × Version)}

omit [Sparql] [BodyCodec] [Sha2] h hba hops in
/-- What the handler commits, and what it takes care of. -/
theorem finishCommit_spec (hc : finishCommit c t = .ok (c', events)) : ∃ points,
    t.tx.commitPoints t.tx.active = .ok points ∧ c'.store = replay c.store (t.tx.journal ++ points) ∧
      ∀ s, c'.duties.Covers s ↔ s ∈ t.tx.active ∨ c.duties.Covers s := by
  obtain ⟨_, hst, hc⟩ := bind_eq_ok.mp hc
  cases hc
  obtain ⟨points, hpo, hst⟩ := bind_eq_ok.mp hst
  cases hst
  exact ⟨points, hpo, rfl, fun s => Duties.covers_foldl_discharge⟩

/-- A commit adds sync points to no scopes but those written to and those the transaction has concerned
itself with. -/
theorem StoreTx.Applied.of_addsPoint (hc : finishCommit c t = .ok (c', events))
    (hs : AddsPoint c.store c'.store s) : s ∈ t.tx.active ∨ ¬t.tx.Leaves s := by
  obtain ⟨points, hpo, hst, -⟩ := finishCommit_spec hc
  obtain ⟨p, m, rfl, hm, hne⟩ := hs
  by_contra hno
  obtain ⟨hac, hle⟩ := not_or.mp hno
  have hin := (h.accounted hba hops).sound.journal
  refine hne ?_
  rw [← hm, hst, replay_append, metaAt_replay_of_pointsIn (Tx.within_commitPoints hpo)
    (fun op hop => (Tx.mem_commitPoints hpo op hop).1) hac,
    metaAt_replay_of_pointsIn hin (not_not.mp hle) (not_not.mpr rfl)]

/-- A sync point with the transaction's timestamp is new to the store that it is committed to. -/
theorem StoreTx.Applied.addsPoint (hc : finishCommit c t = .ok (c', events))
    (hts : Unused base ts id) (hts' : Unused c.store ts id) (hs : t.tx.Stamped s) :
    AddsPoint c.store c'.store s := by
  obtain ⟨points, hpo, hst, -⟩ := finishCommit_spec hc
  have hac := h.accounted hba hops
  obtain ⟨p, m, hp, he, hi, hm⟩ := hs
  have hnew := hts' p (he.trans hac.ts_eq) (hi.trans hac.id_eq)
  have hold := hts p (he.trans hac.ts_eq) (hi.trans hac.id_eq)
  -- the journal does the same to the sync point on both stores, which do not have it
  rw [Tx.view, hac.base_eq, metaAt_replay hac.sound.journal, hold, ← hnew,
    ← metaAt_replay hac.sound.journal] at hm
  obtain ⟨m', hm'⟩ := metaAt_replay_of_retains (Tx.within_commitPoints hpo)
    (fun op hop => (Tx.mem_commitPoints hpo op hop).2) ⟨m, hm⟩
  refine ⟨p, m', hp, ?_, by simp [hnew]⟩
  rw [hst, replay_append, hm']

omit h hba hops

end Bundles
end Handler

/-! ## A restore on a node that has nothing to do with the scope -/

namespace Sample

def apiScope : ApiScope := ⟨"test", "test", "test"⟩

def snapshot : Snapshot :=
  [⟨⟨1, 1, node 1⟩, ⟨none, none, .mutation, none⟩, [(scope.encode ++ kv 'a', some [1])]⟩]

/-- A bundle on a new transaction of an empty store. -/
def applied (ops : List TxOp) : Except ApplyError (Option TxOpResponse) × StoreTx :=
  applyAll (fun _ => env) 0 none ops (.start (.start ∅ 5 (node 1) none))

def idle : StoreContext := ⟨∅, ⟨fun _ => false, fun _ => false⟩⟩

theorem exists_response (h : (applied ops).1.toOption.isSome = true) :
    ∃ resp, applied ops = (.ok resp, (applied ops).2) := by
  obtain ⟨resp, hr⟩ := Option.isSome_iff_exists.mp h
  exact ⟨resp, Prod.ext (toOption_eq_some.mp hr) rfl⟩

theorem keyScope_apiScope : keyScope apiScope = .ok scope := toOption_eq_some.mp (by decide +kernel)

theorem tidy_empty : Tidy UserKey (∅ : Keyspace) :=
  ⟨wellFormed_empty, fun _ _ _ hk _ => hk, by simp⟩

def restoring : List TxOp := [.scopeRestore apiScope snapshot]

/-- The bundle that also writes to the scope. -/
def writing : List TxOp := [.keyPut apiScope "b" [2], .scopeRestore apiScope snapshot]

theorem eq_of_restores {ops : List TxOp} (h : ops = restoring ∨ ops = writing) {s : Scope}
    {snap : Snapshot} (hr : Restores ops s snap) : s = scope ∧ snap = snapshot := by
  obtain ⟨name, hme, hs⟩ := hr
  have hna : name = apiScope ∧ snap = snapshot := by
    rcases h with rfl | rfl
    · simpa [restoring] using hme
    · simpa [writing] using hme
  rw [hna.1, keyScope_apiScope] at hs
  exact ⟨(Except.ok.inj hs).symm, hna.2⟩

theorem dataOnly {ops : List TxOp} (h : ops = restoring ∨ ops = writing) : DataOnly ops := by
  intro s snap hr chunk hc e he
  obtain ⟨-, rfl⟩ := eq_of_restores h hr
  cases mem_singleton.mp hc
  cases mem_singleton.mp he
  exact UserKey.of_scope

end Sample

end Myrmic
