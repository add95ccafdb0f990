import Myrmic.Operations
import Myrmic.TimestampOrder
import Myrmic.Wire

/-!
# Concurrent transactions on one store

A local transaction takes its timestamp, opens a snapshot, reads and writes keys of the key-value
table, and commits.  Its reads come from the snapshot with its own writes, and take the newest version
of a key whatever its timestamp.  The database's optimistic check makes a commit fail when a key or
range that the transaction read was changed by a commit since the snapshot; writes are blind.

Conflicts are therefore found along the order of the commits, while the value that wins is the one
with the latest timestamp.  A transaction that began early and commits late slips its writes under
those of transactions that have committed and have read what it overwrites: no serial order explains
the outcome (`late_blind_write_not_serialisable`).  `Punctual` excludes exactly such writes, and reads
of versions from the future.  **In a run of punctual steps the order of the timestamps is a strict
serial order** (`strictly_serialisable`).
-/
namespace Myrmic
open OrderedBytes VersionedCell Fallible TimestampOrder List

/-! ## Keys and operations -/

/-- A key of the key-value table of a scope. -/
structure KvKey where
  scope : Scope
  key : Name
deriving DecidableEq

/-- What follows the scope in the row key. -/
def KvKey.rest (k : KvKey) : Bytes := lit ['k', 'v'] ++ k.key.encode

def KvKey.encode (k : KvKey) : Bytes := k.scope.encode ++ k.rest

/-- What an operation writes. -/
def kvWrite : Op KvKey Bytes → Option Write
  | .get _ _ => none
  | .put k value => some (.put k.scope k.rest value)
  | .delete k => some (.erase k.scope k.rest)

def kvWrites (ops : List (Op KvKey Bytes)) : List Write := ops.filterMap kvWrite

/-- What a read leaves in the read set of the database's transaction. -/
inductive Tracked where
  | range (start : Bytes)
  | point (key : Bytes)

/-- Whether a changed key is one that was read. -/
def Tracked.meets (changed : Bytes) : Tracked → Bool
  | .range start => start.isPrefixOf changed
  | .point key => key = changed

/-- A get scans everything under its key; a put takes the deletion row of its own version. -/
def tracked (ts : Version) : Op KvKey Bytes → Option Tracked
  | .get k _ => some (.range k.encode)
  | .put k _ => some (.point (encode k.encode ts .deletion))
  | .delete _ => none

/-- The rows an operation changes. -/
def changed (ts : Version) : Op KvKey Bytes → List Bytes
  | .get _ _ => []
  | .put k _ =>
    let deletion := encode k.encode ts .deletion
    let insertion := encode k.encode ts .insertion
    [deletion, versionIndexKey ts deletion, versionIndexKey ts insertion, insertion]
  | .delete k =>
    let deletion := encode k.encode ts .deletion
    [versionIndexKey ts deletion, deletion]

/-! ## A store with transactions -/

/-- A transaction that has begun: its timestamp and operations, how many transactions had committed
when it began, and its snapshot with the number of commits the snapshot has seen. -/
structure Running where
  txn : Txn Version KvKey Bytes
  began : Nat
  snapshot : Option (Keyspace × Nat)

/-- A transaction with the moments of its beginning and its end. -/
structure Committed where
  txn : Txn Version KvKey Bytes
  began : Nat
  ended : Nat

/-- The snapshot with the transaction's own writes. -/
def Running.view (T : Running) (ks : Keyspace) : Keyspace :=
  (kvWrites T.txn.ops).foldl (Write.apply T.txn.ts) ks

def Running.push (T : Running) (op : Op KvKey Bytes) : Running :=
  { T with txn := ⟨T.txn.ts, T.txn.ops ++ [op]⟩ }

/-- Every row a commit changed, the sync points included. -/
def Committed.changes (me : NodeId) (U : Committed) : List Bytes :=
  U.txn.ops.flatMap (changed U.txn.ts) ++
    (activeScopes (kvWrites U.txn.ops)).map fun s => (⟨s, U.txn.ts, U.txn.ts, me⟩ : SyncPoint).encode

/-- Whether one of the commits changed something the transaction read. -/
def Running.conflicts (me : NodeId) (T : Running) (since : List Committed) : Bool :=
  (T.txn.ops.filterMap (tracked T.txn.ts)).any fun read =>
    since.any fun U => (U.changes me).any read.meets

/-- A store, its clock, the transactions under way, and those that have committed, newest first. -/
structure LocalStore where
  store : Keyspace
  clock : Version
  running : Nat → Option Running
  committed : List Committed

namespace LocalStore

def initial : LocalStore := ⟨∅, 0, fun _ => none, []⟩

def set (w : LocalStore) (i : Nat) (T : Option Running) : LocalStore :=
  { w with running := Function.update w.running i T }

/-- The commits that a snapshot has not seen. -/
def since (w : LocalStore) (seen : Nat) : List Committed :=
  w.committed.take (w.committed.length - seen)

/-- A transaction takes its timestamp and its snapshot in two steps. -/
inductive Action where
  | stamp (i : Nat)
  | snapshot (i : Nat)
  | get (i : Nat) (k : KvKey)
  | put (i : Nat) (k : KvKey) (value : Bytes)
  | delete (i : Nat) (k : KvKey)
  | commit (i : Nat)
  | abort (i : Nat)

section Steps
variable [Postcard]

/-- The steps of the transactions of one node.  Beginning takes the timestamp first and the snapshot
afterwards. -/
inductive Step (me : NodeId) (w : LocalStore) : Action → LocalStore → Prop
  | stamp {i : Nat} (ts : Version) : w.running i = none → w.clock < ts →
      Step me w (.stamp i) { w.set i (some ⟨⟨ts, []⟩, w.committed.length, none⟩) with clock := ts }
  | snapshot {i : Nat} {T : Running} : w.running i = some T → T.snapshot = none →
      Step me w (.snapshot i)
        (w.set i (some { T with snapshot := some (w.store, w.committed.length) }))
  | get {i : Nat} {T : Running} {ks : Keyspace} {seen : Nat} {k : KvKey}
      {r : Option (Bytes × Bytes)} : w.running i = some T → T.snapshot = some (ks, seen) →
      getRaw (T.view ks) k.encode = .ok r →
      Step me w (.get i k) (w.set i (some (T.push (.get k (r.map Prod.snd)))))
  | put {i : Nat} {T : Running} {ks : Keyspace} {seen : Nat} {k : KvKey} {value : Bytes} :
      w.running i = some T → T.snapshot = some (ks, seen) →
      Step me w (.put i k value) (w.set i (some (T.push (.put k value))))
  | delete {i : Nat} {T : Running} {ks : Keyspace} {seen : Nat} {k : KvKey} :
      w.running i = some T → T.snapshot = some (ks, seen) →
      Step me w (.delete i k) (w.set i (some (T.push (.delete k))))
  | commit {i : Nat} {T : Running} {ks store' : Keyspace} {seen : Nat} :
      w.running i = some T → T.snapshot = some (ks, seen) →
      T.conflicts me (w.since seen) = false →
      Myrmic.commit ks w.store T.txn.ts me none (kvWrites T.txn.ops) = .ok store' →
      Step me w (.commit i) { w.set i none with
        store := store'
        committed := ⟨T.txn, T.began, w.committed.length + 1⟩ :: w.committed }
  | abort {i : Nat} : Step me w (.abort i) (w.set i none)

/-- The runs whose steps are all allowed. -/
inductive Reachable (me : NodeId) (allowed : LocalStore → Action → Prop) : LocalStore → Prop
  | initial : Reachable me allowed .initial
  | step {w w' : LocalStore} (action : Action) : Reachable me allowed w → allowed w action →
      Step me w action w' → Reachable me allowed w'

end Steps

/-- An order of the committed transactions in which they could have run one after the other: one that
had ended before another began comes first, every read returns what it did, and every key ends with the
value the store has. -/
structure StrictOrder (w : LocalStore) (order : List Committed) : Prop where
  perm : order.Perm w.committed
  realTime : order.Pairwise fun U V => ¬ V.ended ≤ U.began
  reads : TimestampOrder.Fits (fun _ => none) (serial (order.map Committed.txn))
  final : ∀ k : KvKey, getRaw w.store k.encode =
    .ok ((run (fun _ => none) (serial (order.map Committed.txn)) k).map fun v => (k.encode, v))

/-- The steps that keep the timestamps a serial order: a transaction reads no version later than its
own, and commits no write to a key that a later one has committed a read of. -/
def Punctual (w : LocalStore) : Action → Prop
  | .get i k => ∀ T ks seen, w.running i = some T → T.snapshot = some (ks, seen) →
      ∀ v, T.txn.ts < v → cell (T.view ks) k.encode v = none
  | .commit i => ∀ T, w.running i = some T → ∀ k, lastWrite k T.txn.ops ≠ none →
      ∀ U ∈ w.committed, T.txn.ts < U.txn.ts → ∀ r, .get k r ∉ U.txn.ops
  | _ => True

end LocalStore
variable {k : KvKey}

/-! ## The cells that writes leave -/

theorem KvKey.encode_injective {k' : KvKey} (h : k.encode = k'.encode) : k = k' := by
  obtain ⟨s, n⟩ := k
  obtain ⟨_, n'⟩ := k'
  obtain ⟨rfl, hr⟩ := Scope.encode_append_inj h
  obtain ⟨-, hn⟩ := append_inj hr rfl
  have hn : n.encode ++ [] = n'.encode ++ [] := congrArg (· ++ []) hn
  rw [(Name.encode_append_inj hn).1]

theorem KvKey.userKey (k : KvKey) : UserKey k.encode := UserKey.of_scope

variable (ks : Keyspace)

theorem cell_putAtRaw (k k' : KvKey) (v : Bytes) (ts : Version) :
    cell (putAtRaw ks k'.encode v ts) k.encode ts =
      if k' = k then some (some v) else cell ks k.encode ts := by
  split
  · next he => exact he ▸ cell_putAtRaw_self k'.userKey
  · next hne =>
    have hen : k'.encode ≠ k.encode := fun he => hne (KvKey.encode_injective he)
    exact cell_congr fun _ => rowAt_putAtRaw_of_ne k.userKey (.inr hen)

theorem cell_eraseAtRaw (k k' : KvKey) (ts : Version) :
    cell (eraseAtRaw ks k'.encode ts) k.encode ts =
      if k' = k then some none else cell ks k.encode ts := by
  split
  · next he => exact he ▸ cell_eraseAtRaw_self k'.userKey
  · next hne =>
    have hen : k'.encode ≠ k.encode := fun he => hne (KvKey.encode_injective he)
    exact cell_congr fun _ => rowAt_eraseAtRaw_of_ne k.userKey (.inr hen)

/-- **The writes of a transaction** leave its last write under each key. -/
theorem cell_kvWrites {ts : Version} {ops : List (Op KvKey Bytes)} :
    cell ((kvWrites ops).foldl (Write.apply ts) ks) k.encode ts =
      (lastWrite k ops).or (cell ks k.encode ts) := by
  induction ops generalizing ks with
  | nil => rfl
  | cons op ops ih =>
    rw [lastWrite, Option.or_assoc]
    cases op with
    | get k' r =>
      rw [show kvWrites (.get k' r :: ops) = kvWrites ops from rfl, ih]
      rfl
    | put k' v =>
      have hco : kvWrites (.put k' v :: ops) = .put k'.scope k'.rest v :: kvWrites ops := rfl
      have hap : Write.apply ts ks (.put k'.scope k'.rest v) = putAtRaw ks k'.encode v ts := rfl
      rw [hco, foldl_cons, hap, ih, cell_putAtRaw, Op.write]
      split <;> rfl
    | delete k' =>
      have hco : kvWrites (.delete k' :: ops) = .erase k'.scope k'.rest :: kvWrites ops := rfl
      have hap : Write.apply ts ks (.erase k'.scope k'.rest) = eraseAtRaw ks k'.encode ts := rfl
      rw [hco, foldl_cons, hap, ih, cell_eraseAtRaw, Op.write]
      split <;> rfl

theorem cell_kvWrites_of_ne {ts v : Version} (hv : v ≠ ts) {ops : List (Op KvKey Bytes)} :
    cell ((kvWrites ops).foldl (Write.apply ts) ks) k.encode v = cell ks k.encode v :=
  cell_congr fun _ => rowAt_writes k.userKey (.inl hv)

/-! ## Stores that hold transactions -/

/-- The cells of the store are what the transactions left. -/
structure HoldsTxns (ks : Keyspace) (txns : List Committed) : Prop where
  cells : ∀ k : KvKey, ∀ U ∈ txns, cell ks k.encode U.txn.ts = lastWrite k U.txn.ops
  rowless : ∀ (k : KvKey) v, (∀ U ∈ txns, U.txn.ts ≠ v) → cell ks k.encode v = none

section Invariant
variable [Postcard] {me : NodeId} {w w' : LocalStore} {ks ks' : Keyspace} {txns : List Committed}
  {r : Option Bytes} {U : Committed} {op : Op KvKey Bytes} {T : Running} {i : Nat} {T' : Running}

def Among (txns : List Committed) (T : Txn Version KvKey Bytes) : Prop :=
  ∃ U ∈ txns, U.txn = T

omit [Postcard] in
/-- A read of such a store returns the newest write of those it can be about. -/
theorem HoldsTxns.newest (h : HoldsTxns ks txns)
    (hr : ReadsAt (cell ks k.encode) maxVersion r) {Q : Version → Prop}
    (hQ : ∀ v, cell ks k.encode v ≠ none → Q v) : Newest (fun U => Among txns U ∧ Q U.ts) k r := by
  cases hr with
  | absent hnon =>
    refine .inr ⟨rfl, ?_⟩
    rintro _ ⟨⟨U, hU, rfl⟩, -⟩
    rw [← h.cells k U hU]
    exact hnon _ le_maxVersion
  | @newest v r _ hv hn =>
    obtain ⟨U, hU, rfl⟩ : ∃ U ∈ txns, U.txn.ts = v := by
      by_contra hno
      rw [h.rowless k v fun U hU he => hno ⟨U, hU, he⟩] at hv
      cases hv
    have hin : Q U.txn.ts := hQ _ (by rw [hv]; simp)
    refine .inl ⟨U.txn, ⟨⟨U, hU, rfl⟩, hin⟩, (h.cells k U hU).symm.trans hv, ?_⟩
    rintro _ ⟨⟨U', hU', rfl⟩, -⟩ hlt
    rw [← h.cells k U' hU']
    exact hn _ hlt le_maxVersion

theorem HoldsTxns.commit (h : HoldsTxns ks txns) (hwf : WellFormed ks) {seen : Keyspace}
    (hs : WellFormed seen) (hf : ∀ V ∈ txns, V.txn.ts ≠ U.txn.ts)
    (hc : commit seen ks U.txn.ts me none (kvWrites U.txn.ops) = .ok ks') :
    WellFormed ks' ∧ HoldsTxns ks' (U :: txns) := by
  obtain ⟨_, hc', hwf', hr, -⟩ := commit_spec hs hwf
  obtain rfl := Except.ok.inj (hc.symm.trans hc')
  have hce : ∀ (k : KvKey) v, cell ks' k.encode v =
      cell ((kvWrites U.txn.ops).foldl (Write.apply U.txn.ts) ks) k.encode v :=
    fun k v => cell_congr fun kind => hr _ v kind k.userKey
  refine ⟨hwf', fun k V hV => ?_, fun k v hv => ?_⟩
  · rw [hce]
    rcases mem_cons.mp hV with rfl | hV
    · rw [cell_kvWrites, h.rowless k _ hf, Option.or_none]
    · rw [cell_kvWrites_of_ne ks (hf V hV), h.cells k V hV]
  · have hne : v ≠ U.txn.ts := fun he => hv U mem_cons_self he.symm
    rw [hce, cell_kvWrites_of_ne ks hne]
    exact h.rowless k v fun V hV => hv V (mem_cons_of_mem _ hV)

/-! ## Conflicts -/

omit [Postcard] in
theorem exists_changed (h : op.write k ≠ none) {ts : Version} :
    ∃ kind, encode k.encode ts kind ∈ changed ts op := by
  cases op with
  | get k' r => exact absurd rfl h
  | put k' v =>
    obtain rfl : k' = k := by
      by_contra hne
      exact h (if_neg hne)
    exact ⟨.insertion, by simp [changed]⟩
  | delete k' =>
    obtain rfl : k' = k := by
      by_contra hne
      exact h (if_neg hne)
    exact ⟨.deletion, by simp [changed]⟩

omit [Postcard] in
/-- **What the check guarantees**: the commits since the snapshot wrote no key the transaction read. -/
theorem Running.lastWrite_of_not_conflicts {since : List Committed}
    (h : T.conflicts me since = false) (hg : .get k r ∈ T.txn.ops)
    (hU : U ∈ since) : lastWrite k U.txn.ops = none := by
  by_contra hw
  obtain ⟨op, hop, hw⟩ := exists_write_of_lastWrite hw
  obtain ⟨kind, hc⟩ := exists_changed hw
  have htr : .range k.encode ∈ T.txn.ops.filterMap (tracked T.txn.ts) :=
    mem_filterMap.mpr ⟨_, hg, rfl⟩
  have hr : encode k.encode U.txn.ts kind ∈ U.changes me :=
    mem_append_left _ (mem_flatMap.mpr ⟨op, hop, hc⟩)
  have hm : Tracked.meets (encode k.encode U.txn.ts kind) (.range k.encode) = true :=
    List.isPrefixOf_iff_prefix.mpr (isPrefix_encode k.encode U.txn.ts kind)
  have ht : T.conflicts me since = true :=
    any_eq_true.mpr ⟨_, htr, any_eq_true.mpr ⟨U, hU, any_eq_true.mpr ⟨_, hr, hm⟩⟩⟩
  rw [h] at ht
  cases ht

/-! ## The invariant -/

/-- What holds of a transaction under way: what it has read is timely for the commits its snapshot has
seen. -/
structure Running.Sound (w : LocalStore) (T : Running) : Prop where
  stamped : T.txn.ts ≤ w.clock
  fresh : ∀ U ∈ w.committed, U.txn.ts ≠ T.txn.ts
  realTime : ∀ U ∈ w.committed, U.ended ≤ T.began → U.txn.ts < T.txn.ts
  began : T.began ≤ w.committed.length
  unopened : T.snapshot = none → T.txn.ops = []
  opened : ∀ ks seen, T.snapshot = some (ks, seen) → ∃ txns, w.committed = w.since seen ++ txns ∧
    txns.length = seen ∧ WellFormed ks ∧ HoldsTxns ks txns ∧ Timely (Among txns) T.txn

/-- **The invariant**: the store holds exactly the committed transactions, their timestamps follow
real time, and everything they have read is timely. -/
structure LocalStore.Sound (w : LocalStore) : Prop where
  wellFormed : WellFormed w.store
  holds : HoldsTxns w.store w.committed
  stamped : ∀ U ∈ w.committed, U.txn.ts ≤ w.clock
  began : ∀ U ∈ w.committed, U.began ≤ w.committed.length
  distinct : w.committed.Pairwise fun U V => U.txn.ts ≠ V.txn.ts
  realTime : ∀ U ∈ w.committed, ∀ V ∈ w.committed, U.ended ≤ V.began → U.txn.ts < V.txn.ts
  timely : ∀ U ∈ w.committed, Timely (Among w.committed) U.txn
  running : ∀ i T, w.running i = some T → T.Sound w
  apart : ∀ i j T T', i ≠ j → w.running i = some T → w.running j = some T' → T.txn.ts ≠ T'.txn.ts

theorem LocalStore.sound_initial : LocalStore.initial.Sound where
  wellFormed := wellFormed_empty
  holds := ⟨nofun, fun k v _ => (by simp [LocalStore.initial, cell, rowAt])⟩
  stamped := nofun
  began := nofun
  distinct := List.Pairwise.nil
  realTime := nofun
  timely := nofun
  running := nofun
  apart := nofun

omit [Postcard] in
theorem LocalStore.running_set {j : Nat} {T : Option Running}
    (h : (w.set i T).running j = some T') : j = i ∧ T = some T' ∨ j ≠ i ∧ w.running j = some T' := by
  simp only [set] at h
  by_cases hj : j = i
  · subst hj
    rw [Function.update_self] at h
    exact .inl ⟨rfl, h⟩
  · rw [Function.update_of_ne hj] at h
    exact .inr ⟨hj, h⟩

/-- A transaction whose timestamp no other one has may be put in the place of one. -/
theorem LocalStore.Sound.apart_set (h : w.Sound) {T : Option Running} (hT : ∀ T', T = some T' →
      ∀ j T₂, i ≠ j → w.running j = some T₂ → T'.txn.ts ≠ T₂.txn.ts) (j j' : Nat) (T₁ T₂ : Running)
    (hne : j ≠ j') (h₁ : (w.set i T).running j = some T₁) (h₂ : (w.set i T).running j' = some T₂) :
    T₁.txn.ts ≠ T₂.txn.ts := by
  rcases running_set h₁ with ⟨rfl, he₁⟩ | ⟨-, hr₁⟩
  · exact hT T₁ he₁ j' T₂ hne ((running_set h₂).resolve_left fun he => hne he.1.symm).2
  · rcases running_set h₂ with ⟨rfl, he₂⟩ | ⟨-, hr₂⟩
    · exact (hT T₂ he₂ j T₁ hne.symm hr₁).symm
    · exact h.apart _ _ _ _ hne hr₁ hr₂

/-- A step that changes one running transaction, and not its timestamp. -/
theorem LocalStore.Sound.set (h : w.Sound) (hT : w.running i = some T)
    (hts : T'.txn.ts = T.txn.ts) (hT' : T'.Sound w) : (w.set i (some T')).Sound := by
  refine ⟨h.wellFormed, h.holds, h.stamped, h.began, h.distinct, h.realTime, h.timely,
    fun j T'' hj => ?_, h.apart_set fun T₁ he j T₂ hne hr => ?_⟩
  · rcases running_set hj with ⟨-, he⟩ | ⟨-, hj⟩
    · cases he
      exact { hT' with }
    · have hS := h.running j T'' hj
      exact { hS with }
  · cases he
    rw [hts]
    exact h.apart i j T T₂ hne hT hr

/-! ## The steps -/

namespace LocalStore.Sound

variable (h : w.Sound) {seen : Nat}
include h

theorem stamp {ts : Version} (hts : w.clock < ts) : LocalStore.Sound
      { w.set i (some ⟨⟨ts, []⟩, w.committed.length, none⟩) with clock := ts } := by
  have hle : w.clock ≤ ts := UInt64.le_of_lt hts
  have hlt : ∀ v, v ≤ w.clock → v < ts := fun v hv => UInt64.lt_of_le_of_lt hv hts
  refine ⟨h.wellFormed, h.holds, fun U hU => UInt64.le_trans (h.stamped U hU) hle, h.began,
    h.distinct, h.realTime, h.timely, fun j T hj => ?_, h.apart_set fun T₁ he j T₂ _ hr => ?_⟩
  · rcases running_set hj with ⟨-, he⟩ | ⟨-, hj⟩
    · cases he
      exact ⟨UInt64.le_refl _, fun U hU => UInt64.ne_of_lt (hlt _ (h.stamped U hU)),
        fun U hU _ => hlt _ (h.stamped U hU), Nat.le_refl _, fun _ => rfl,
        nofun⟩
    · have hS := h.running j T hj
      exact ⟨UInt64.le_trans hS.stamped hle, hS.fresh, hS.realTime, hS.began, hS.unopened, hS.opened⟩
  · cases he
    exact (UInt64.ne_of_lt (hlt _ (h.running j T₂ hr).stamped)).symm

theorem snapshot (hT : w.running i = some T) (hn : T.snapshot = none) :
    (w.set i (some { T with snapshot := some (w.store, w.committed.length) })).Sound := by
  have hS := h.running i T hT
  refine h.set hT rfl ⟨hS.stamped, hS.fresh, hS.realTime, hS.began, nofun, fun ks seen hs => ?_⟩
  cases hs
  refine ⟨w.committed, by simp [since], rfl, h.wellFormed, h.holds, ?_⟩
  intro pre k r after hops
  rw [show T.txn.ops = [] from hS.unopened hn] at hops
  simp at hops

theorem push {ks : Keyspace} (hT : w.running i = some T) (hs : T.snapshot = some (ks, seen))
    (hop : ∀ txns, WellFormed ks → HoldsTxns ks txns → (∀ U ∈ txns, U ∈ w.committed) →
      Timely (Among txns) T.txn → Timely (Among txns) ⟨T.txn.ts, T.txn.ops ++ [op]⟩) :
    (w.set i (some (T.push op))).Sound := by
  have hS := h.running i T hT
  refine h.set hT rfl ⟨hS.stamped, hS.fresh, hS.realTime, hS.began,
    fun he => absurd (hs.symm.trans he) (by simp), fun ks' seen' hs' => ?_⟩
  obtain ⟨rfl, rfl⟩ := Prod.mk.inj (Option.some.inj (hs.symm.trans hs'))
  obtain ⟨txns, hsp, hl, hwf, hh, ht⟩ := hS.opened ks seen hs
  refine ⟨txns, hsp, hl, hwf, hh, hop txns hwf hh (fun U hU => ?_) ht⟩
  rw [hsp]
  exact mem_append_right _ hU

/-- **A read** of a transaction is its own last write, or the newest write its snapshot has seen. -/
theorem get {ks : Keyspace} {r : Option (Bytes × Bytes)} (hok : w.Punctual (.get i k))
    (hT : w.running i = some T) (hs : T.snapshot = some (ks, seen))
    (hget : getRaw (T.view ks) k.encode = .ok r) :
    (w.set i (some (T.push (.get k (r.map Prod.snd))))).Sound := by
  have hS := h.running i T hT
  refine h.push hT hs fun txns hwf hho hsu hti => hti.get ?_
  have hvi : WellFormed (T.view ks) := wellFormed_writes hwf
  obtain ⟨r', hget', hre⟩ := getFromRaw_spec (hvi.rowsDecode k.userKey)
  have hr : r.map Prod.snd = r' := by
    rw [Except.ok.inj (hget.symm.trans hget')]
    cases r' <;> rfl
  rw [hr]
  have hlat := hok T ks seen hT hs
  have how : cell (T.view ks) k.encode T.txn.ts = lastWrite k T.txn.ops := by
    rw [Running.view, cell_kvWrites,
      hho.rowless k _ fun U hU => hS.fresh U (hsu U hU), Option.or_none]
  cases hla : lastWrite k T.txn.ops with
  | some o =>
    -- its own version is the newest in view
    left
    have hne : ReadsAt (cell (T.view ks) k.encode) maxVersion o :=
      .newest le_maxVersion (how.trans hla) fun v hv _ => hlat v hv
    rw [hre.unique hne]
  | none =>
    right
    have hsa : ∀ v, cell (T.view ks) k.encode v = cell ks k.encode v := by
      intro v
      by_cases hv : v = T.txn.ts
      · rw [hv, Running.view, cell_kvWrites, hla, Option.none_or]
      · exact cell_kvWrites_of_ne ks hv
    refine ⟨rfl, hho.newest (hre.congr fun v _ => hsa v) (Q := (· < T.txn.ts)) fun v hv => ?_⟩
    rw [← hsa] at hv
    by_contra hge
    rcases UInt64.lt_or_eq_of_le (UInt64.not_lt.mp hge) with hgt | he
    · exact hv (hlat v hgt)
    · exact hv (by rw [← he, how, hla])

/-- **A commit** adds a transaction whose reads are timely, and disturbs no read of the others. -/
theorem commit {ks store' : Keyspace} (hok : w.Punctual (.commit i)) (hT : w.running i = some T)
    (hs : T.snapshot = some (ks, seen)) (hfr : T.conflicts me (w.since seen) = false)
    (hco : Myrmic.commit ks w.store T.txn.ts me none (kvWrites T.txn.ops) = .ok store') :
    LocalStore.Sound { w.set i none with
      store := store'
      committed := ⟨T.txn, T.began, w.committed.length + 1⟩ :: w.committed } := by
  have hS := h.running i T hT
  obtain ⟨_, hsp, _, hwf, _, hti⟩ := hS.opened ks seen hs
  obtain ⟨hwf', hho'⟩ :=
    h.holds.commit h.wellFormed hwf (U := ⟨T.txn, T.began, w.committed.length + 1⟩) hS.fresh hco
  refine ⟨hwf', hho', ?_, ?_, ?_, ?_, ?_, fun j T' hj => ?_, h.apart_set nofun⟩
  · exact forall_mem_cons.mpr ⟨hS.stamped, h.stamped⟩
  · exact forall_mem_cons.mpr
      ⟨Nat.le_succ_of_le hS.began, fun U hU => Nat.le_succ_of_le (h.began U hU)⟩
  · exact pairwise_cons.mpr ⟨fun V hV => (hS.fresh V hV).symm, h.distinct⟩
  · refine forall_mem_cons.mpr ⟨forall_mem_cons.mpr ⟨fun he => ?_, fun V hV he => ?_⟩,
      fun U hU => forall_mem_cons.mpr ⟨hS.realTime U hU, h.realTime U hU⟩⟩
    · exact absurd (Nat.le_trans he hS.began) (Nat.not_succ_le_self _)
    · exact absurd (Nat.le_trans he (h.began V hV)) (Nat.not_succ_le_self _)
  · refine forall_mem_cons.mpr ⟨hti.mono ?_ ?_, fun U hU => (h.timely U hU).mono ?_ ?_⟩
    · rintro _ ⟨V, hV, rfl⟩
      exact ⟨V, mem_cons_of_mem _ (hsp ▸ mem_append_right _ hV), rfl⟩
    · -- what the snapshot has not seen, the check has looked at
      rintro _ ⟨V, hV, rfl⟩ hlt k r hge
      rcases mem_cons.mp hV with rfl | hV
      · exact absurd hlt (UInt64.lt_irrefl _)
      · rw [hsp] at hV
        rcases mem_append.mp hV with hV | hV
        · exact .inr (T.lastWrite_of_not_conflicts hfr hge hV)
        · exact .inl ⟨V, hV, rfl⟩
    · rintro _ ⟨V, hV, rfl⟩
      exact ⟨V, mem_cons_of_mem _ hV, rfl⟩
    · -- a punctual transaction writes nothing that a later one has read
      rintro _ ⟨V, hV, rfl⟩ hlt k r hge
      rcases mem_cons.mp hV with rfl | hV
      · right
        by_contra hwr
        exact hok T hT k hwr U hU hlt r hge
      · exact .inl ⟨V, hV, rfl⟩
  · obtain ⟨hji, hj⟩ := (running_set hj).resolve_left fun he => (by cases he.2)
    have hS' := h.running j T' hj
    refine ⟨hS'.stamped, ?_, ?_, Nat.le_succ_of_le hS'.began, hS'.unopened, fun ks' seen' hs' => ?_⟩
    · exact forall_mem_cons.mpr ⟨h.apart i j T T' (Ne.symm hji) hT hj, hS'.fresh⟩
    · refine forall_mem_cons.mpr ⟨fun he => ?_, hS'.realTime⟩
      exact absurd (Nat.le_trans he hS'.began) (Nat.not_succ_le_self _)
    · obtain ⟨txns', hsp', hle', hre⟩ := hS'.opened ks' seen' hs'
      have hse' : seen' ≤ w.committed.length := by
        rw [hsp', length_append, hle']
        exact Nat.le_add_left _ _
      refine ⟨txns', ?_, hle', hre⟩
      simp only [since, length_cons, Nat.succ_sub hse', take_succ_cons]
      rw [cons_append, ← since, ← hsp']

theorem abort (i : Nat) : (w.set i none).Sound := by
  refine ⟨h.wellFormed, h.holds, h.stamped, h.began, h.distinct, h.realTime, h.timely,
    fun j T hj => ?_, h.apart_set nofun⟩
  have hS := h.running j T ((running_set hj).resolve_left fun he => (by cases he.2)).2
  exact { hS with }

theorem step {act : Action} (hok : w.Punctual act) (hst : Step me w act w') : w'.Sound := by
  cases hst with
  | stamp ts _ hts => exact h.stamp hts
  | snapshot hT hn => exact h.snapshot hT hn
  | get hT hs hg => exact h.get hok hT hs hg
  | put hT hs | delete hT hs =>
    exact h.push hT hs fun _ _ _ _ ht => ht.write nofun
  | commit hT hs hf hc => exact h.commit hok hT hs hf hc
  | abort => exact h.abort _

/-- What a transaction does while it is newer than every committed one is punctual. -/
theorem punctual_of_newest (hT : w.running i = some T) (hn : ∀ U ∈ w.committed, U.txn.ts < T.txn.ts) :
    (∀ k, w.Punctual (.get i k)) ∧ w.Punctual (.commit i) := by
  constructor
  · intro k T' ks seen hT' hs v hv
    obtain rfl := Option.some.inj (hT.symm.trans hT')
    obtain ⟨_, hsp, -, -, hh, -⟩ := (h.running i T hT).opened ks seen hs
    rw [Running.view, cell_kvWrites_of_ne ks (UInt64.ne_of_lt hv).symm]
    refine hh.rowless k v fun U hU he => ?_
    have hlt := hn U (hsp ▸ mem_append_right _ hU)
    rw [he] at hlt
    exact UInt64.lt_asymm hlt hv
  · intro T' hT' k _ U hU hlt
    obtain rfl := Option.some.inj (hT.symm.trans hT')
    exact absurd (hn U hU) (UInt64.lt_asymm hlt)

omit h

theorem reachable (h : Reachable me Punctual w) : w.Sound := by
  induction h with
  | initial => exact sound_initial
  | step act _ hok hs ih => exact ih.step hok hs

/-- In a sound store the order of the timestamps is a strict serial order. -/
theorem strictOrder (h : w.Sound) : ∃ order, w.StrictOrder order := by
  obtain ⟨order, hp, hs⟩ := exists_sorted h.distinct
  have hm : ∀ T, T ∈ order.map Committed.txn ↔ Among w.committed T := by
    intro T
    simp only [mem_map, hp.mem_iff, Among]
  have hs' : (order.map Committed.txn).Pairwise fun T U => T.ts < U.ts := pairwise_map.mpr hs
  refine ⟨order, hp, ?_, fits_of_timely hs' fun T hT => ?_, fun k => ?_⟩
  · refine hs.imp_of_mem fun {U V} hU hV hlt he => ?_
    have hgt := h.realTime V (hp.mem_iff.mp hV) U (hp.mem_iff.mp hU) he
    exact UInt64.lt_asymm hlt hgt
  · obtain ⟨U, hU, rfl⟩ := (hm T).mp hT
    have ht := h.timely U hU
    exact ht.mono (fun V => (hm V).mpr) fun V hV _ _ _ _ => .inl ((hm V).mp hV)
  · obtain ⟨r, hg, hr⟩ := getFromRaw_spec (h.wellFormed.rowsDecode k.userKey)
    have hn : Newest (· ∈ order.map Committed.txn) k r :=
      (h.holds.newest hr (Q := fun _ => True) fun _ _ => trivial).mono
        (fun V hV => (hm V).mpr hV.1) fun V hV => .inl ⟨(hm V).mp hV, trivial⟩
    rw [run_of_newest hs' hn]
    exact hg

end LocalStore.Sound

/-- **Strict serialisability**: in every run of punctual steps there is an order of the committed
transactions, never against real time, in which running them one after the other gives every read what
it returned and every key the value it has. -/
theorem strictly_serialisable (h : LocalStore.Reachable me LocalStore.Punctual w) :
    ∃ order, w.StrictOrder order :=
  (LocalStore.Sound.reachable h).strictOrder

end Invariant

/-! ## A transaction that writes late -/

section Samples
open Sample LocalStore

def keyX : KvKey := ⟨scope, ⟨"x", by decide +kernel⟩⟩
def keyY : KvKey := ⟨scope, ⟨"y", by decide +kernel⟩⟩

/-- Two transactions one after the other: the second reads what the first has put, and replaces it. -/
theorem replace_is_serialisable : ∃ w, Reachable (node 1) Punctual w ∧ w.committed.length = 2 ∧
    getRaw w.store keyX.encode = .ok (some (keyX.encode, [2])) ∧ ∃ order, w.StrictOrder order := by
  have hs : Reachable (node 1) Punctual .initial := .initial
  have hp := ((hs.step (.stamp 0) trivial (.stamp 100 rfl (by decide))).step (.snapshot 0)
    trivial (.snapshot rfl rfl)).step (.put 0 keyX [1]) trivial (.put rfl rfl)
  have hc := hp.step (.commit 0) ((Sound.reachable hp).punctual_of_newest rfl nofun).2
    (.commit rfl rfl rfl (eq_ok_after (by decide +kernel)))
  have hb := (hc.step (.stamp 1) trivial (.stamp 200 rfl (by decide))).step
    (.snapshot 1) trivial (.snapshot rfl rfl)
  have hre := hb.step (.get 1 keyX)
    (((Sound.reachable hb).punctual_of_newest rfl (by decide)).1 keyX)
    (.get (r := some (keyX.encode, [1])) rfl rfl (by decide +kernel))
  have hr := hre.step (.put 1 keyX [2]) trivial (.put rfl rfl)
  have he := hr.step (.commit 1) ((Sound.reachable hr).punctual_of_newest rfl (by decide)).2
    (.commit rfl rfl (by decide +kernel) (eq_ok_after (by decide +kernel)))
  exact ⟨_, he, rfl, by decide +kernel, strictly_serialisable he⟩

/-- The transaction that began last: it finds no value under one key and puts another. -/
def reader : Committed := ⟨⟨200, [.get keyX none, .put keyY [2]]⟩, 0, 1⟩

/-- The transaction that began first and ends last: it puts both keys and reads nothing. -/
def writer : Committed := ⟨⟨100, [.put keyX [1], .put keyY [1]]⟩, 0, 2⟩

/-- The store after the reader and then the writer have committed. -/
def slippedStore : Keyspace :=
  after (commit ∅ (after (commit ∅ ∅ 200 (node 1) none (kvWrites reader.txn.ops))) 100 (node 1) none
    (kvWrites writer.txn.ops))

theorem reachable_slippedStore : ∃ w, Reachable (node 1) (fun _ _ => True) w ∧
    w.committed = [writer, reader] ∧ w.store = slippedStore := by
  have hs : Reachable (node 1) (fun _ _ => True) .initial := .initial
  have hb := (((hs.step (.stamp 0) trivial (.stamp 100 rfl (by decide))).step (.snapshot 0)
    trivial (.snapshot rfl rfl)).step (.stamp 1) trivial (.stamp 200 rfl (by decide))).step
    (.snapshot 1) trivial (.snapshot rfl rfl)
  have hr := ((hb.step (.get 1 keyX) trivial (.get (r := none) rfl rfl (by decide +kernel))).step
    (.put 1 keyY [2]) trivial (.put rfl rfl)).step (.commit 1) trivial
    (.commit rfl rfl rfl (eq_ok_after (by decide +kernel)))
  have he := ((hr.step (.put 0 keyX [1]) trivial (.put rfl rfl)).step (.put 0 keyY [1]) trivial
    (.put rfl rfl)).step (.commit 0) trivial
    (.commit rfl rfl (by decide +kernel) (eq_ok_after (by decide +kernel)))
  exact ⟨_, he, rfl, rfl⟩

/-- **No serial order explains the outcome**: the reader found nothing under the key that the writer
has put, so it ran first; but its own value is the one that stays, so it ran last. -/
theorem late_blind_write_not_serialisable : ∃ w, Reachable (node 1) (fun _ _ => True) w ∧
    ¬ ∃ order, w.StrictOrder order := by
  obtain ⟨w, hw, hco, hs⟩ := reachable_slippedStore
  refine ⟨w, hw, fun ⟨order, ho⟩ => ?_⟩
  have hp : order.Perm [writer, reader] := hco ▸ ho.perm
  have hc : order = [writer, reader] ∨ order = [reader, writer] := by
    obtain ⟨U, V, rfl⟩ := length_eq_two.mp hp.length_eq
    rcases mem_pair.mp (hp.mem_iff.mp mem_cons_self) with rfl | rfl
    · rw [perm_singleton.mp hp.cons_inv]
      exact .inl rfl
    · rw [perm_singleton.mp (hp.trans (.swap ..)).cons_inv]
      exact .inr rfl
  rcases hc with rfl | rfl
  · have hx := fits_iff.mp ho.reads writer.txn.ops keyX none [.put keyY [2]] rfl
    exact absurd hx (by decide +kernel)
  · have hy := ho.final keyY
    rw [hs] at hy
    exact absurd hy (by decide +kernel)

end Samples

end Myrmic
