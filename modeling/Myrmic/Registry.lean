import Myrmic.Offering

/-!
# The registry of open transactions

A client applies bundles of operations to a transaction.  A bundle may begin its transaction, may leave
it open for further bundles, and may end it by a commit or a rollback; an open transaction is kept in a
**registry**, where every request that names it finds it, and where a reaper removes what has been idle
for too long.  Requests are handled at the same time.  What a handler does while it holds the registry's
lock on an entry is one step of the machine `Registry`; between two steps of a handler every other
request may take its own.

A bundle that fails on a transaction in the registry gives the lock back before it takes the entry out.
`all_or_nothing` says what that costs: **in every run in which no request takes a transaction out to
commit it while a failed bundle is about to remove it**, nothing of a transaction with a failed bundle
becomes visible, and every other one becomes visible at most once, whole, and by a commit that is
answered with success.  `failed_bundle_visible` is a run in which a second request uses the gap.
-/
namespace Myrmic
open OrderedBytes Fallible Machine List Function

/-! ## Requests and answers -/

/-- Where a client wants its transaction to be. -/
inductive Constraint where
  | routed (s : ApiScope)
  | routedAt (s : ApiScope) (version : Version)
  | ignore

/-- What a transaction is begun for. -/
inductive Access where
  | read
  | write
deriving DecidableEq

/-- What is done with the transaction after the operations. -/
inductive Finish where
  | keepOpen
  | commit
  | rollback
deriving DecidableEq

abbrev TxId := ByteVec 16

/-- The transaction a bundle is for. -/
inductive Target where
  | new (constraint : Constraint) (access : Access) (retention : Option Duration)
  | existing (id : TxId)

/-- The requests that concern transactions. -/
inductive DbRequest where
  | txApply (target : Target) (ops : List TxOp) (finish : Finish)
  | txCommit (id : TxId)
  | txRollback (id : TxId)

/-- What a client is told. -/
inductive Answer where
  | applied (tx : Option TxId) (last : Option TxOpResponse)
  | committed
  | rolledBack
  | error (e : Option ApplyError)

def Answer.isSuccess : Answer → Bool
  | .error _ => false
  | _ => true

/-- Why the database does not do what it is asked to. -/
inductive Refusal where
  | conflict
  | unavailable
deriving DecidableEq

def Refusal.message : Refusal → String
  | .conflict => "Transaction encountered concurrent changes and wasn't applied."
  | .unavailable => "the database is unavailable: a storage failure (most likely a full disk) " ++
      "poisoned it; it reopens once space is freed"

/-! ## Placing a transaction -/

/-- Where a routed write lands.  A scope of which another node is seen to be a replica is not taken
again while it is drained. -/
def placeRoutedWrite (d : Duties) (replicaVisible : Bool) (name : ApiScope) :
    Except String Duties :=
  match keyScope name with
  | .error _ => .ok d
  | .ok s =>
    if d.replicating s then .ok d
    else if d.offloading s then
      if replicaVisible then
        let nameSpace := name.nameSpace
        let database := name.database
        let schema := name.schema
        .error (s!"scope {nameSpace}/{database}/{schema} is draining here " ++
          "while a live replica exists; re-locate")
      else .ok d
    else .ok (d.startOffload s)

section Registry
variable [Postcard]

def scopeHasVersion (ks : Keyspace) (name : ApiScope) (version : Version) : Except String Bool := do
  let s ← keyScope name
  let found ← findLastSyncpoint ks s (some version)
  return found.isSome

/-- What is checked before a transaction is begun. -/
def admission (c : StoreContext) (replicaVisible : Bool) (constraint : Constraint) (access : Access)
    (finish : Finish) : Except ApplyError StoreContext :=
  match constraint with
  | .routedAt name version =>
    match scopeHasVersion c.store name version with
    | .ok true => .ok c
    | .ok false =>
      .error ⟨s!"node has not applied version {version} for the requested scope", none⟩
    | .error message => .error ⟨message, none⟩
  | .routed name =>
    if access = .write ∧ finish ≠ .rollback then
      match placeRoutedWrite c.duties replicaVisible name with
      | .ok duties => .ok { c with duties := duties }
      | .error message => .error ⟨message, none⟩
    else .ok c
  | .ignore => .ok c

/-! ## The machine -/

/-- A transaction that was begun.  `serial` and `origin` only serve to speak about it: its number, and
what it was when it was begun. -/
structure Entry where
  serial : Nat
  origin : Tx
  t : StoreTx

/-- What the handler of a request does next. -/
inductive Task where
  /-- Applies operations to an entry of the registry. -/
  | registered (id : TxId) (ops : List TxOp)
  /-- Has failed on an entry and is about to remove it. -/
  | failing (id : TxId) (e : ApplyError)
  /-- Applies operations to a transaction of its own, which it then ends. -/
  | taken (entry : Entry) (ops : List TxOp) (finish : Finish)
  /-- Commits a transaction of its own, and then gives an answer. -/
  | committing (entry : Entry) (success : Answer)

/-- The transaction that a handler has for itself. -/
def Task.own : Task → Option Entry
  | .taken entry _ _ => some entry
  | .committing entry _ => some entry
  | _ => none

/-- A transaction that has become visible, and the request that committed it. -/
structure Visible where
  request : Nat
  entry : Entry

/-- A node's store, its registry and the requests it is handling.  The last three fields record what
has happened: the transactions of which a bundle failed, the bundles that were applied, and the
transactions that became visible. -/
structure Registry where
  node : NodeId
  context : StoreContext
  entries : TxId → Option Entry
  tasks : Nat → Option Task
  answers : Nat → Option Answer
  requests : Nat
  begun : Nat
  broken : List Nat
  applied : List (Nat × List TxOp)
  visible : List Visible

/-- What a request takes from outside: the clock, a new id, what is known of peers, and whether the
database is there. -/
structure Arrival where
  ts : Version
  id : TxId
  replicaVisible : Bool
  unavailable : Bool

namespace Registry

/-- A request arrives, a handler takes its next step, or the reaper looks. -/
inductive Action where
  | receive (request : DbRequest) (arrival : Arrival)
  | advance (r : Nat) (envs : Nat → Env) (refused : Option Refusal)
  | reap (id : TxId)

/-- A node that is handling no request and has no open transaction. -/
def idle (node : NodeId) (context : StoreContext) : Registry :=
  ⟨node, context, fun _ => none, fun _ => none, fun _ => none, 0, 0, [], [], []⟩

def setEntry (st : Registry) (id : TxId) (entry : Option Entry) : Registry :=
  { st with entries := update st.entries id entry }

def setTask (st : Registry) (r : Nat) (task : Task) : Registry :=
  { st with tasks := update st.tasks r (some task) }

/-- The request is answered and its handler ends. -/
def reply (st : Registry) (r : Nat) (answer : Answer) : Registry :=
  { st with
    tasks := update st.tasks r none
    answers := update st.answers r (some answer) }

/-- Records that operations were applied. -/
def record (st : Registry) (serial : Nat) (ops : List TxOp) : Registry :=
  { st with applied := st.applied ++ [(serial, ops)] }

/-- Records that an operation failed. -/
def fail (st : Registry) (serial : Nat) : Registry := { st with broken := serial :: st.broken }

/-- A commit makes a transaction visible. -/
def publish (st : Registry) (r : Nat) (entry : Entry) (context : StoreContext) : Registry :=
  { st with context := context, visible := st.visible ++ [⟨r, entry⟩] }

def newEntry (st : Registry) (ts : Version) (retention : Option Duration) : Entry :=
  let tx := Tx.start st.context.store ts st.node retention
  ⟨st.begun, tx, .start tx⟩

/-- Applies to a transaction that is begun for it. -/
def applyNew (st : Registry) (r : Nat) (constraint : Constraint) (access : Access)
    (retention : Option Duration) (ops : List TxOp) (finish : Finish) (arrival : Arrival) : Registry :=
  match admission st.context arrival.replicaVisible constraint access finish with
  | .error e => st.reply r (.error (some e))
  | .ok context =>
    let st := { st with context := context }
    if arrival.unavailable then st.reply r (.error (some ⟨Refusal.unavailable.message, none⟩))
    else
      let entry := st.newEntry arrival.ts retention
      let st := { st with begun := st.begun + 1 }
      if finish = .keepOpen then
        (st.setEntry arrival.id (some entry)).setTask r (.registered arrival.id ops)
      else st.setTask r (.taken entry ops finish)

/-- Applies to a transaction of the registry. -/
def applyExisting (st : Registry) (r : Nat) (id : TxId) (ops : List TxOp) (finish : Finish) :
    Registry :=
  if finish = .keepOpen then st.setTask r (.registered id ops)
  else
    match st.entries id with
    | none => st.reply r (.error none)
    | some entry => (st.setEntry id none).setTask r (.taken entry ops finish)

/-- The first step of a handler. -/
def receive (st : Registry) (r : Nat) (arrival : Arrival) : DbRequest → Registry
  | .txApply (.new constraint access retention) ops finish =>
    st.applyNew r constraint access retention ops finish arrival
  | .txApply (.existing id) ops finish => st.applyExisting r id ops finish
  | .txCommit id =>
    match st.entries id with
    | none => st.reply r (.error none)
    | some entry => (st.setEntry id none).setTask r (.committing entry .committed)
  | .txRollback id =>
    match st.entries id with
    | none => st.reply r (.error none)
    | some _ => (st.setEntry id none).reply r .rolledBack

variable [Sparql] [BodyCodec] [Sha2] {id : TxId} {task : Task} {serial : Nat} {ops : List TxOp}
  {st' : Registry} {e' : Entry} {context : StoreContext} {entry : Entry} {finish : Finish}
  {success : Answer}

/-- The next step of a handler.  Where it commits, the database may refuse. -/
def advance (st : Registry) (r : Nat) (envs : Nat → Env) (refused : Option Refusal) :
    Task → Registry
  | .registered id ops =>
    match st.entries id with
    | none => st.reply r (.error none)
    | some entry =>
      match applyAll envs 0 none ops entry.t with
      | (.ok last, t) =>
        ((st.setEntry id (some { entry with t := t })).record entry.serial ops).reply r
          (.applied (some id) last)
      | (.error e, t) =>
        ((st.setEntry id (some { entry with t := t })).fail entry.serial).setTask r (.failing id e)
  | .failing id e => (st.setEntry id none).reply r (.error (some e))
  | .taken entry ops finish =>
    match applyAll envs 0 none ops entry.t with
    | (.ok last, t) =>
      if finish = .rollback then st.reply r (.applied none last)
      else (st.record entry.serial ops).setTask r
        (.committing { entry with t := t } (.applied none last))
    | (.error e, _) => (st.fail entry.serial).reply r (.error (some e))
  | .committing entry success =>
    match refused with
    | some refusal => st.reply r (.error (some ⟨refusal.message, none⟩))
    | none =>
      match finishCommit st.context entry.t with
      | .ok (context, _) => (st.publish r entry context).reply r success
      | .error message => st.reply r (.error (some ⟨message, none⟩))

/-- A request can always arrive, a task can be continued if there is one, and the reaper removes what
it likes. -/
def step (st : Registry) : Action → Option Registry
  | .receive request arrival =>
    some (({ st with requests := st.requests + 1 } : Registry).receive st.requests arrival request)
  | .advance r envs refused => (st.tasks r).map (st.advance r envs refused)
  | .reap id => some (st.setEntry id none)

/-! ## The gap -/

/-- A failed bundle is about to remove the transaction. -/
def waits (st : Registry) (id : TxId) : Bool :=
  (List.range st.requests).any fun r =>
    match st.tasks r with
    | some (.failing id' _) => id' = id
    | _ => false

/-- The transaction that a request takes out of the registry to commit it. -/
def committed : DbRequest → Option TxId
  | .txApply (.existing id) _ .commit => some id
  | .txCommit id => some id
  | _ => none

/-- **The condition on a step**: it does not take a transaction out to commit it while a failed bundle
is about to remove it. -/
def Keeps (st : Registry) : Action → Prop
  | .receive request _ => ∀ id ∈ committed request, st.waits id = false
  | _ => True

instance (st : Registry) (action : Action) : Decidable (st.Keeps action) :=
  match action with
  | .receive request _ =>
    inferInstanceAs (Decidable (∀ id ∈ committed request, st.waits id = false))
  | .advance .. => .isTrue trivial
  | .reap _ => .isTrue trivial

/-! ## The property -/

/-- Commits one after another. -/
inductive Commits (start : Keyspace) : List StoreTx → Keyspace → Prop
  | nil : Commits start [] start
  | snoc {ts : List StoreTx} {t : StoreTx} {ks ks' : Keyspace} :
    Commits start ts ks → t.tx.commit ks = .ok ks' → Commits start (ts ++ [t]) ks'

/-- What was applied to a transaction, by all bundles in order. -/
def opsOf (applied : List (Nat × List TxOp)) (serial : Nat) : List TxOp :=
  (applied.filter fun bundle => bundle.1 = serial).flatMap Prod.snd

/-- The transaction is what the operations of its bundles have made of it. -/
def Whole (st : Registry) (entry : Entry) : Prop :=
  StoreTx.Applied entry.origin (opsOf st.applied entry.serial) entry.t

/-- **All or nothing**, for the rows a node started with. -/
structure AllOrNothing (start : Keyspace) (st : Registry) : Prop where
  /-- Nothing of a transaction with a failed bundle is visible. -/
  unbroken : ∀ v ∈ st.visible, v.entry.serial ∉ st.broken
  /-- A transaction becomes visible at most once, -/
  once : (st.visible.map fun v => v.entry.serial).Nodup
  /-- with all that was applied to it, -/
  whole : ∀ v ∈ st.visible, st.Whole v.entry
  /-- by a request that is answered with success. -/
  answered : ∀ v ∈ st.visible, (st.answers v.request).any Answer.isSuccess = true
  /-- And nothing else changes the store. -/
  store : Commits start (st.visible.map fun v => v.entry.t) st.context.store

/-! ## Where transactions are -/

/-- A transaction is in the registry, in the hands of a handler, or visible through a request. -/
inductive Place where
  | entry (id : TxId)
  | task (r : Nat)
  | seen (r : Nat)

def Holds (st : Registry) : Place → Entry → Prop
  | .entry id, entry => st.entries id = some entry
  | .task r, entry => (st.tasks r).bind Task.own = some entry
  | .seen r, entry => ⟨r, entry⟩ ∈ st.visible

/-- Where a transaction with a failed bundle may be: a failed bundle is about to remove it, or it has
been taken out to be rolled back. -/
def MayBreak (st : Registry) : Place → Prop
  | .entry id => ∃ r e, st.tasks r = some (.failing id e)
  | .task r => ∃ entry ops, st.tasks r = some (.taken entry ops .rollback)
  | .seen _ => False

section Places

omit [Postcard] [Sparql] [BodyCodec] [Sha2]

variable {st : Registry} {p : Place} {entry : Entry} {r : Nat} {o : Option Task}

theorem holds_setEntry_self {o : Option Entry} :
    (st.setEntry id o).Holds (.entry id) entry ↔ o = some entry := by
  simp [Holds, setEntry]

theorem holds_setEntry {o : Option Entry} (hp : p ≠ .entry id) :
    (st.setEntry id o).Holds p entry ↔ st.Holds p entry := by
  cases p with
  | entry id' =>
    have hne : id' ≠ id := fun he => hp (he ▸ rfl)
    simp [Holds, setEntry, hne]
  | _ => rfl

theorem own_of_holds (h : st'.Holds (.task r) entry) (ht : st'.tasks = update st.tasks r o) :
    o.bind Task.own = some entry := by
  rwa [Holds, ht, update_self] at h

theorem holds_of_update (h : st'.Holds p entry) (hp : p ≠ .task r)
    (ht : st'.tasks = update st.tasks r o) (hen : st'.entries = st.entries)
    (hv : st'.visible = st.visible) : st.Holds p entry := by
  cases p with
  | entry id => rwa [Holds, hen] at h
  | task r' =>
    have hne : r' ≠ r := fun he => hp (he ▸ rfl)
    rwa [Holds, ht, update_of_ne hne] at h
  | seen r' => rwa [Holds, hv] at h

theorem holds_record : (st.record serial ops).Holds p entry ↔ st.Holds p entry := by
  cases p <;> exact Iff.rfl

theorem holds_fail : (st.fail serial).Holds p entry ↔ st.Holds p entry := by
  cases p <;> exact Iff.rfl

variable (applied : List (Nat × List TxOp)) {n : Nat}

theorem opsOf_record_of_ne (hne : n ≠ serial) :
    opsOf (applied ++ [(serial, ops)]) n = opsOf applied n := by
  simp [opsOf, filter_append, hne.symm]

theorem mem_fail_of_ne (hne : n ≠ serial) : n ∈ (st.fail serial).broken ↔ n ∈ st.broken := by
  simp [fail, hne]

theorem holds_publish : (st.publish r entry context).Holds p e' ↔
      p = .seen r ∧ entry = e' ∨ st.Holds p e' := by
  cases p with
  | seen r' =>
    simp only [Holds, publish, mem_append, mem_singleton, Place.seen.injEq,
      Visible.mk.injEq, eq_comm (a := entry)]
    tauto
  | _ => simp [Holds, publish]

/-- A handler that is about to remove an entry finds none. -/
def Free (st : Registry) (r : Nat) : Prop :=
  ∀ id e, st.tasks r = some (.failing id e) → st.entries id = none

theorem free_of_tasks (hr : st.tasks r = o) (ho : ∀ id e, o ≠ some (.failing id e)) : st.Free r :=
  fun id e he => absurd (hr.symm.trans he) (ho id e)

/-- A step of such a handler changes where a failed transaction may be only for what it has itself. -/
theorem mayBreak_of_update (ht : st'.tasks = update st.tasks r o) (hp : p ≠ .task r)
    (hf : st.Free r) (hold : st.Holds p entry) (h : st.MayBreak p) : st'.MayBreak p := by
  cases p with
  | entry id =>
    obtain ⟨r', e, hr'⟩ := h
    have hne : r' ≠ r := by
      rintro rfl
      rw [Holds, hf id e hr'] at hold
      cases hold
    refine ⟨r', e, ?_⟩
    rw [ht, update_of_ne hne]
    exact hr'
  | task r' =>
    obtain ⟨entry, ops, hr'⟩ := h
    have hne : r' ≠ r := fun he => hp (he ▸ rfl)
    refine ⟨entry, ops, ?_⟩
    rw [ht, update_of_ne hne]
    exact hr'
  | seen r' => exact h

end Places

/-- Every transaction is in one place, has a number that was given out, and is whole unless one of its
bundles failed; then it is on its way out. -/
structure Held (st : Registry) : Prop where
  begun : ∀ p entry, st.Holds p entry → entry.serial < st.begun
  broken : ∀ p entry, st.Holds p entry → entry.serial ∈ st.broken → st.MayBreak p
  whole : ∀ p entry, st.Holds p entry → entry.serial ∉ st.broken → st.Whole entry
  unique : ∀ p q entry entry', st.Holds p entry → st.Holds q entry' →
    entry.serial = entry'.serial → p = q
  broken_begun : ∀ n ∈ st.broken, n < st.begun
  applied_begun : ∀ bundle ∈ st.applied, bundle.1 < st.begun

theorem Held.of_fields {st : Registry} (h : st.Held) {reqs : Nat} :
    ({ st with requests := reqs, context := context } : Registry).Held :=
  { h with }

/-- A step that concerns one transaction, the one with the number `k`, which is then at `q` if it is
anywhere. -/
structure Moves (st st' : Registry) (k : Nat) (q : Place) : Prop where
  begun : st.begun ≤ st'.begun
  broken : ∀ n, n ≠ k → (n ∈ st'.broken ↔ n ∈ st.broken)
  applied : ∀ n, n ≠ k → opsOf st'.applied n = opsOf st.applied n
  broken_begun : ∀ n ∈ st'.broken, n < st'.begun
  applied_begun : ∀ bundle ∈ st'.applied, bundle.1 < st'.begun
  others : ∀ p entry, st'.Holds p entry → p ≠ q →
    st.Holds p entry ∧ entry.serial ≠ k ∧ (st.MayBreak p → st'.MayBreak p)
  moved : ∀ entry, st'.Holds q entry → entry.serial = k ∧ k < st'.begun ∧
    (k ∈ st'.broken → st'.MayBreak q) ∧ (k ∉ st'.broken → st'.Whole entry)

theorem Held.of_moves {st : Registry} {k : Nat} {q : Place} (h : st.Held)
    (hmo : st.Moves st' k q) : st'.Held := by
  have hca : ∀ p entry, st'.Holds p entry → entry.serial = k ∧ p = q ∨
      entry.serial ≠ k ∧ st.Holds p entry ∧ (st.MayBreak p → st'.MayBreak p) := by
    intro p entry hp
    by_cases hpq : p = q
    · subst hpq
      exact .inl ⟨(hmo.moved entry hp).1, rfl⟩
    · obtain ⟨hold, hne, hma⟩ := hmo.others p entry hp hpq
      exact .inr ⟨hne, hold, hma⟩
  refine ⟨?_, ?_, ?_, ?_, hmo.broken_begun, hmo.applied_begun⟩
  · intro p entry hp
    rcases hca p entry hp with ⟨hk, rfl⟩ | ⟨-, hold, -⟩
    · rw [hk]
      exact (hmo.moved entry hp).2.1
    · exact Nat.lt_of_lt_of_le (h.begun p entry hold) hmo.begun
  · intro p entry hp hbr
    rcases hca p entry hp with ⟨hk, rfl⟩ | ⟨hne, hold, hma⟩
    · rw [hk] at hbr
      exact (hmo.moved entry hp).2.2.1 hbr
    · exact hma (h.broken p entry hold ((hmo.broken _ hne).mp hbr))
  · intro p entry hp hbr
    rcases hca p entry hp with ⟨hk, rfl⟩ | ⟨hne, hold, -⟩
    · rw [hk] at hbr
      exact (hmo.moved entry hp).2.2.2 hbr
    · rw [Whole, hmo.applied _ hne]
      exact h.whole p entry hold fun hb => hbr ((hmo.broken _ hne).mpr hb)
  · intro p p' entry e' hp hp' he
    rcases hca p entry hp with ⟨hk, hpq⟩ | ⟨hne, hold, -⟩
    · rcases hca p' e' hp' with ⟨-, hpq'⟩ | ⟨hne', -, -⟩
      · rw [hpq, hpq']
      · exact absurd (he.symm.trans hk) hne'
    · rcases hca p' e' hp' with ⟨hk', -⟩ | ⟨-, hold', -⟩
      · exact absurd (he.trans hk') hne
      · exact h.unique p p' entry e' hold hold' he

/-! ### The steps of a handler -/

section Steps
variable {st : Registry} {r : Nat} (h : st.Held) {envs : Nat → Env} {last : Option TxOpResponse}
  {t : StoreTx}
include h

theorem Held.serial_ne {p q : Place} (hq : st.Holds q e') (hp : st.Holds p entry) (hne : p ≠ q) :
    entry.serial ≠ e'.serial :=
  fun he => hne (h.unique p q entry e' hp hq he)

/-- A handler goes on, or ends, without the transaction it has, if any. -/
theorem Held.letGo (hf : st.Free r) {o : Option Task} (ho : o.bind Task.own = none)
    (answers : Nat → Option Answer) :
    ({ st with tasks := update st.tasks r o, answers := answers } : Registry).Held := by
  refine h.of_moves (k := st.begun) (q := .task r) ⟨Nat.le_refl _, fun _ _ => Iff.rfl,
    fun _ _ => rfl, h.broken_begun, h.applied_begun, fun p entry hp hne => ?_, fun entry hp => ?_⟩
  · have hold : st.Holds p entry := holds_of_update hp hne rfl rfl rfl
    exact ⟨hold, Nat.ne_of_lt (h.begun p entry hold), mayBreak_of_update rfl hne hf hold⟩
  · cases ho.symm.trans (own_of_holds hp rfl)

theorem Held.drop (id : TxId) : (st.setEntry id none).Held := by
  refine h.of_moves (k := st.begun) (q := .entry id) ⟨Nat.le_refl _, fun _ _ => Iff.rfl,
    fun _ _ => rfl, h.broken_begun, h.applied_begun, fun p entry hp hne => ?_, fun entry hp => ?_⟩
  · have hold := (holds_setEntry hne).mp hp
    exact ⟨hold, Nat.ne_of_lt (h.begun p entry hold), fun hm => hm⟩
  · cases holds_setEntry_self.mp hp

/-- A handler that has just begun takes an entry: to commit it if none of its bundles has failed, and in
any case to roll it back. -/
theorem Held.take (hf : st.Free r) (he : st.entries id = some entry) (ho : task.own = some entry)
    (hfi : entry.serial ∈ st.broken → ∃ ops, task = .taken entry ops .rollback) :
    ((st.setEntry id none).setTask r task).Held := by
  have hh : st.Holds (.entry id) entry := he
  refine h.of_moves (k := entry.serial) (q := .task r) ⟨Nat.le_refl _, fun _ _ => Iff.rfl,
    fun _ _ => rfl, h.broken_begun, h.applied_begun, fun p e' hp hne => ?_, fun e' hp => ?_⟩
  · have hp : (st.setEntry id none).Holds p e' := holds_of_update hp hne rfl rfl rfl
    have hne' : p ≠ .entry id := by
      rintro rfl
      cases holds_setEntry_self.mp hp
    have hold := (holds_setEntry hne').mp hp
    exact ⟨hold, h.serial_ne hh hold hne', mayBreak_of_update rfl hne hf hold⟩
  · obtain rfl : entry = e' := Option.some.inj (ho.symm.trans (own_of_holds hp rfl))
    refine ⟨rfl, h.begun _ _ hh, fun hb => ?_, h.whole _ _ hh⟩
    obtain ⟨ops, rfl⟩ := hfi hb
    exact ⟨entry, ops, update_self ..⟩

theorem Held.opsOf_begun : opsOf st.applied st.begun = [] := by
  have hn : (st.applied.filter fun bundle => bundle.1 = st.begun) = [] := by
    refine filter_eq_nil_iff.mpr fun bundle hb => ?_
    have := h.applied_begun bundle hb
    simp
    omega
  rw [opsOf, hn]
  rfl

/-- A new transaction is whole. -/
theorem Held.newEntry (ts : Version) (ret : Option Duration) :
    (st.newEntry ts ret).serial ∉ st.broken ∧ st.Whole (st.newEntry ts ret) := by
  refine ⟨fun hb => Nat.lt_irrefl _ (h.broken_begun _ hb), ?_⟩
  have hops := h.opsOf_begun
  rw [Whole]
  exact hops ▸ StoreTx.Applied.start

theorem Held.begin_entry (id : TxId) (ts : Version) (ret : Option Duration) :
    (({ st with begun := st.begun + 1 } : Registry).setEntry id
      (some (st.newEntry ts ret))).Held := by
  have hnew := h.newEntry ts ret
  refine h.of_moves (k := st.begun) (q := .entry id) ⟨Nat.le_succ _, fun _ _ => Iff.rfl,
    fun _ _ => rfl, fun n hn => Nat.lt_succ_of_lt (h.broken_begun n hn),
    fun b hb => Nat.lt_succ_of_lt (h.applied_begun b hb), fun p entry hp hne => ?_,
    fun entry hp => ?_⟩
  · have hold : st.Holds p entry := (holds_setEntry hne).mp hp
    exact ⟨hold, Nat.ne_of_lt (h.begun p entry hold), fun hm => hm⟩
  · cases holds_setEntry_self.mp hp
    exact ⟨rfl, Nat.lt_succ_self _, fun hbr => absurd hbr hnew.1, fun _ => hnew.2⟩

theorem Held.begin_task (hf : st.Free r) {ts : Version} {ret : Option Duration} :
    (({ st with begun := st.begun + 1 } : Registry).setTask r
      (.taken (st.newEntry ts ret) ops finish)).Held := by
  have hnew := h.newEntry ts ret
  refine h.of_moves (k := st.begun) (q := .task r) ⟨Nat.le_succ _, fun _ _ => Iff.rfl,
    fun _ _ => rfl, fun n hn => Nat.lt_succ_of_lt (h.broken_begun n hn),
    fun b hb => Nat.lt_succ_of_lt (h.applied_begun b hb), fun p entry hp hne => ?_,
    fun entry hp => ?_⟩
  · have hold : st.Holds p entry := holds_of_update hp hne rfl rfl rfl
    exact ⟨hold, Nat.ne_of_lt (h.begun p entry hold), mayBreak_of_update rfl hne hf hold⟩
  · cases own_of_holds hp rfl
    exact ⟨rfl, Nat.lt_succ_self _, fun hbr => absurd hbr hnew.1, fun _ => hnew.2⟩

omit h

/-- Operations that all succeed keep a transaction whole. -/
theorem Whole.applyAll (h : st.Whole entry)
    (hal : applyAll envs 0 none ops entry.t = (.ok last, t)) :
    (st.record entry.serial ops).Whole { entry with t := t } := by
  have ha := StoreTx.Applied.applyAll h hal
  simpa [Whole, opsOf, record, filter_append] using ha

variable (h : st.Held)
include h

theorem Held.applied_begun_record (hs : serial < st.begun) :
    ∀ bundle ∈ (st.record serial ops).applied, bundle.1 < st.begun :=
  forall_mem_append.mpr ⟨h.applied_begun, forall_mem_singleton.mpr hs⟩

theorem Held.applied_entry (he : st.entries id = some entry)
    (ha : applyAll envs 0 none ops entry.t = (.ok last, t)) :
    ((st.setEntry id (some { entry with t := t })).record entry.serial ops).Held := by
  have hh : st.Holds (.entry id) entry := he
  have hb := h.begun _ _ hh
  refine h.of_moves (k := entry.serial) (q := .entry id) ⟨Nat.le_refl _, fun _ _ => Iff.rfl,
    fun n hn => opsOf_record_of_ne _ hn, h.broken_begun, h.applied_begun_record hb,
    fun p e' hp hne => ?_, fun e' hp => ?_⟩
  · have hold := (holds_setEntry hne).mp (holds_record.mp hp)
    exact ⟨hold, h.serial_ne hh hold hne, fun hm => hm⟩
  · cases holds_setEntry_self.mp (holds_record.mp hp)
    refine ⟨rfl, hb, h.broken _ _ hh, fun hbr => ?_⟩
    have hw : st.Whole entry := h.whole _ _ hh hbr
    exact hw.applyAll ha

theorem Held.broken_begun_fail (hs : serial < st.begun) :
    ∀ n ∈ (st.fail serial).broken, n < st.begun :=
  forall_mem_cons.mpr ⟨hs, h.broken_begun⟩

/-- A bundle has failed on an entry that its handler is about to remove. -/
theorem Held.failed_entry {e : ApplyError} (hr : st.tasks r = some (.failing id e))
    (he : st.entries id = some entry) :
    ((st.setEntry id (some { entry with t := t })).fail entry.serial).Held := by
  have hh : st.Holds (.entry id) entry := he
  have hb := h.begun _ _ hh
  refine h.of_moves (k := entry.serial) (q := .entry id) ⟨Nat.le_refl _,
    fun n hn => mem_fail_of_ne hn, fun _ _ => rfl, h.broken_begun_fail hb, h.applied_begun,
    fun p e' hp hne => ?_, fun e' hp => ?_⟩
  · have hold := (holds_setEntry hne).mp (holds_fail.mp hp)
    exact ⟨hold, h.serial_ne hh hold hne, fun hm => hm⟩
  · cases holds_setEntry_self.mp (holds_fail.mp hp)
    exact ⟨rfl, hb, fun _ => ⟨r, e, hr⟩, fun hno => absurd mem_cons_self hno⟩

/-- What a handler has taken to commit has no failed bundle. -/
theorem Held.unbroken (hr : st.tasks r = some task) (ho : task.own = some entry)
    (hta : ∀ ops, task ≠ .taken entry ops .rollback) : entry.serial ∉ st.broken := by
  intro hb
  have hh : st.Holds (.task r) entry := by simp [Holds, hr, ho]
  obtain ⟨_, ops, ht⟩ := h.broken _ _ hh hb
  rw [hr] at ht
  cases ht
  cases ho
  exact hta ops rfl

variable (hr : st.tasks r = some (.taken entry ops finish))
include hr

/-- A bundle is applied to the transaction of a handler, which then commits. -/
theorem Held.applied_task (hf : finish ≠ .rollback)
    (ha : applyAll envs 0 none ops entry.t = (.ok last, t)) :
    ((st.record entry.serial ops).setTask r (.committing { entry with t := t } success)).Held := by
  have hh : st.Holds (.task r) entry := by simp [Holds, hr, Task.own]
  have hb := h.begun _ _ hh
  have hu := h.unbroken hr rfl fun ops he => hf (by cases he; rfl)
  refine h.of_moves (k := entry.serial) (q := .task r) ⟨Nat.le_refl _, fun _ _ => Iff.rfl,
    fun n hn => opsOf_record_of_ne _ hn, h.broken_begun, h.applied_begun_record hb,
    fun p e' hp hne => ?_, fun e' hp => ?_⟩
  · have hold : st.Holds p e' := holds_of_update hp hne rfl rfl rfl
    exact ⟨hold, h.serial_ne hh hold hne, mayBreak_of_update rfl hne (free_of_tasks hr nofun) hold⟩
  · cases own_of_holds hp rfl
    refine ⟨rfl, hb, fun hbr => absurd hbr hu, fun _ => ?_⟩
    have hw : st.Whole entry := h.whole _ _ hh hu
    exact hw.applyAll ha

/-- A bundle fails on the transaction of a handler, which is then dropped. -/
theorem Held.failed_task (ans : Answer) : ((st.fail entry.serial).reply r ans).Held := by
  have hh : st.Holds (.task r) entry := by simp [Holds, hr, Task.own]
  refine h.of_moves (k := entry.serial) (q := .task r) ⟨Nat.le_refl _,
    fun n hn => mem_fail_of_ne hn, fun _ _ => rfl, h.broken_begun_fail (h.begun _ _ hh),
    h.applied_begun, fun p e' hp hne => ?_, fun e' hp => ?_⟩
  · have hold : st.Holds p e' := holds_of_update hp hne rfl rfl rfl
    exact ⟨hold, h.serial_ne hh hold hne, mayBreak_of_update rfl hne (free_of_tasks hr nofun) hold⟩
  · cases own_of_holds hp rfl

omit hr

theorem Held.publish (hr : st.tasks r = some (.committing entry success))
    (hn : ∀ v ∈ st.visible, v.request ≠ r) (context : StoreContext) :
    ((st.publish r entry context).reply r success).Held := by
  have hh : st.Holds (.task r) entry := by simp [Holds, hr, Task.own]
  have hu := h.unbroken hr rfl nofun
  refine h.of_moves (k := entry.serial) (q := .seen r) ⟨Nat.le_refl _, fun _ _ => Iff.rfl,
    fun _ _ => rfl, h.broken_begun, h.applied_begun, fun p e' hp hne => ?_, fun e' hp => ?_⟩
  · have hne' : p ≠ .task r := by
      rintro rfl
      cases own_of_holds hp rfl
    have hp := holds_of_update hp hne' rfl rfl rfl
    have hold := (holds_publish.mp hp).resolve_left fun hp => hne hp.1
    exact ⟨hold, h.serial_ne hh hold hne',
      mayBreak_of_update rfl hne' (free_of_tasks hr nofun) hold⟩
  · have hp := holds_of_update hp nofun rfl rfl rfl
    rcases holds_publish.mp hp with ⟨-, rfl⟩ | hold
    · exact ⟨rfl, h.begun _ _ hh, fun hb => absurd hb hu, fun _ => h.whole _ _ hh hu⟩
    · exact absurd rfl (hn _ hold)

end Steps

/-! ### Requests and their answers -/

/-- Requests are numbered, a commit that succeeds will be answered with success, and the requests that
made something visible were. -/
structure Answered (st : Registry) : Prop where
  idle : ∀ r, st.requests ≤ r → st.tasks r = none
  success : ∀ r entry answer, st.tasks r = some (.committing entry answer) →
    answer.isSuccess = true
  visible : ∀ v ∈ st.visible, v.request < st.requests ∧ st.tasks v.request = none ∧
    (st.answers v.request).any Answer.isSuccess = true

/-- The request has arrived and nothing became visible by it yet. -/
def Live (st : Registry) (r : Nat) : Prop := r < st.requests ∧ ∀ v ∈ st.visible, v.request ≠ r

section Answered

omit [Postcard] [Sparql] [BodyCodec] [Sha2]

variable {st : Registry} {r : Nat} (h : st.Answered)
include h

theorem Answered.live (hr : st.tasks r = some task) : st.Live r := by
  refine ⟨?_, fun v hv he => ?_⟩
  · by_contra hlt
    rw [h.idle r (Nat.le_of_not_lt hlt)] at hr
    cases hr
  · have hd := (h.visible v hv).2.1
    rw [he, hr] at hd
    cases hd

/-- A step of the handler of a request; no other request is answered by it. -/
theorem Answered.update (hr : st.Live r) {o : Option Task}
    (ht : ∀ entry ans, o = some (.committing entry ans) → ans.isSuccess = true)
    {answers : Nat → Option Answer} (ha : ∀ r', r' ≠ r → answers r' = st.answers r') :
    ({ st with tasks := update st.tasks r o, answers := answers } : Registry).Answered := by
  refine ⟨fun r' hr' => ?_, fun r' entry ans hr' => ?_, fun v hv => ?_⟩
  · exact (update_of_ne (Nat.lt_of_lt_of_le hr.1 hr').ne' ..).trans (h.idle r' hr')
  · by_cases hne : r' = r
    · subst hne
      simp only [update_self] at hr'
      exact ht entry ans hr'
    · exact h.success r' entry ans ((update_of_ne hne ..).symm.trans hr')
  · simp only [update_of_ne (hr.2 v hv), ha _ (hr.2 v hv)]
    exact h.visible v hv

theorem Answered.reply (hr : st.Live r) (ans : Answer) : (st.reply r ans).Answered :=
  h.update hr (fun _ _ he => by cases he) fun _ hne => update_of_ne hne ..

theorem Answered.publish (hr : st.tasks r = some (.committing entry success))
    (context : StoreContext) : ((st.publish r entry context).reply r success).Answered := by
  have hl := h.live hr
  have hre := h.reply hl success
  refine ⟨hre.idle, hre.success, fun v hv => ?_⟩
  rcases mem_append.mp hv with hv | hv
  · exact hre.visible v hv
  · simp only [mem_singleton.mp hv, Registry.reply, update_self]
    exact ⟨hl.1, trivial, h.success r entry success hr⟩

end Answered

/-! ## The theorem -/

/-- The invariant of runs in which every request keeps to the condition. -/
structure Inv (start : Keyspace) (st : Registry) : Prop where
  held : st.Held
  answered : st.Answered
  once : (st.visible.map fun v => v.entry.serial).Nodup
  store : Commits start (st.visible.map fun v => v.entry.t) st.context.store

section Runs
variable {start : Keyspace} {st : Registry} {r : Nat} (h : st.Inv start)
include h

/-- Everything but a commit leaves the store and what is visible. -/
theorem Inv.of_same (hh : st'.Held) (ha : st'.Answered) (hv : st'.visible = st.visible)
    (hs : st'.context.store = st.context.store) : st'.Inv start :=
  ⟨hh, ha, hv ▸ h.once, by rw [hv, hs]; exact h.store⟩

theorem Inv.reply (hl : st.Live r) (hf : st.Free r) (ans : Answer) : (st.reply r ans).Inv start :=
  h.of_same (h.held.letGo hf rfl _) (h.answered.reply hl ans) rfl rfl

theorem Inv.drop (id : TxId) : (st.setEntry id none).Inv start :=
  h.of_same (h.held.drop id) { h.answered with } rfl rfl

theorem Inv.arrive : ({ st with requests := st.requests + 1 } : Registry).Inv start ∧
      ({ st with requests := st.requests + 1 } : Registry).Live st.requests ∧
      st.tasks st.requests = none := by
  have ha : ({ st with requests := st.requests + 1 } : Registry).Answered := by
    refine ⟨fun r hr => h.answered.idle r (Nat.le_of_succ_le hr), h.answered.success, fun v hv => ?_⟩
    obtain ⟨hlt, hre⟩ := h.answered.visible v hv
    exact ⟨Nat.lt_succ_of_lt hlt, hre⟩
  have hh : ({ st with requests := st.requests + 1 } : Registry).Held := h.held.of_fields
  refine ⟨h.of_same hh ha rfl rfl, ⟨Nat.lt_succ_self _, fun v hv => ?_⟩,
    h.answered.idle _ (Nat.le_refl _)⟩
  exact (h.answered.visible v hv).1.ne

omit h

omit [Postcard] [Sparql] [BodyCodec] [Sha2] in
theorem store_admission {c c' : StoreContext} {replicaVisible : Bool} {con : Constraint}
    {access : Access}
    (h : admission c replicaVisible con access finish = .ok c') : c'.store = c.store := by
  unfold admission at h
  split at h
  · split at h <;> cases h
    rfl
  · split at h
    · split at h <;> cases h
      rfl
    · cases h
      rfl
  · cases h
    rfl

variable (h : st.Inv start)
include h

theorem Inv.applyNew (hli : st.Live r) (hr : st.tasks r = none) (con : Constraint) (access : Access)
    (ret : Option Duration) (ops : List TxOp) (finish : Finish) (arrival : Arrival) :
    (st.applyNew r con access ret ops finish arrival).Inv start := by
  have hfr := free_of_tasks hr nofun
  unfold Registry.applyNew
  split
  · exact h.reply hli hfr _
  · next context had =>
    have hco : ({ st with context := context } : Registry).Inv start :=
      h.of_same h.held.of_fields { h.answered with } rfl (store_admission had)
    split
    · exact hco.reply hli hfr _
    · split
      · refine hco.of_same
          ((hco.held.begin_entry _ _ _).letGo (free_of_tasks hr nofun) rfl _) ?_ rfl rfl
        have han : Answered (({ st with context := context, begun := st.begun + 1 } :
            Registry).setEntry arrival.id (some (({ st with context := context } : Registry).newEntry
              arrival.ts ret))) :=
          { h.answered with }
        exact han.update hli (fun _ _ he => by cases he) fun _ _ => rfl
      · refine hco.of_same (hco.held.begin_task hfr) ?_ rfl rfl
        have han : Answered { st with context := context, begun := st.begun + 1 } :=
          { h.answered with }
        exact han.update hli (fun _ _ he => by cases he) fun _ _ => rfl

theorem Inv.take (hl : st.Live r) (hr : st.tasks r = none) (he : st.entries id = some entry)
    (ho : task.own = some entry)
    (ht : ∀ entry ans, some task = some (.committing entry ans) → ans.isSuccess = true)
    (hf : entry.serial ∈ st.broken → ∃ ops, task = .taken entry ops .rollback) :
    ((st.setEntry id none).setTask r task).Inv start := by
  have ha : (st.setEntry id none).Answered := { h.answered with }
  exact h.of_same (h.held.take (free_of_tasks hr nofun) he ho hf) (ha.update hl ht fun _ _ => rfl) rfl rfl

/-- An entry that no failed bundle is about to remove has no failed bundle. -/
theorem Inv.not_broken (hw : st.waits id = false) (he : st.entries id = some entry) :
    entry.serial ∉ st.broken := by
  intro hb
  obtain ⟨r, e, hr⟩ := h.held.broken (.entry id) entry he hb
  have ht : st.waits id = true := by
    refine any_eq_true.mpr ⟨r, mem_range.mpr (h.answered.live hr).1, ?_⟩
    rw [hr]
    exact decide_eq_true rfl
  rw [ht] at hw
  cases hw

theorem Inv.applyExisting (hl : st.Live r) (hr : st.tasks r = none)
    (hk : finish = .commit → st.waits id = false) :
    (st.applyExisting r id ops finish).Inv start := by
  unfold Registry.applyExisting
  split
  · exact h.of_same (h.held.letGo (free_of_tasks hr nofun) rfl _)
      (h.answered.update hl (fun _ _ he => by cases he) fun _ _ => rfl) rfl rfl
  · next ho =>
    split
    · exact h.reply hl (free_of_tasks hr nofun) _
    · next entry hen =>
      refine h.take hl hr hen rfl (fun _ _ => nofun) fun hb => ?_
      cases finish with
      | keepOpen => exact absurd rfl ho
      | commit => exact absurd hb (h.not_broken (hk rfl) hen)
      | rollback => exact ⟨ops, rfl⟩

theorem Inv.receive (hli : st.Live r) (hr : st.tasks r = none) {req : DbRequest}
    (hke : ∀ id ∈ committed req, st.waits id = false) (arrival : Arrival) :
    (st.receive r arrival req).Inv start := by
  have hfr := free_of_tasks hr nofun
  cases req with
  | txApply target ops finish =>
    cases target with
    | new con access ret => exact h.applyNew hli hr _ _ _ _ _ _
    | existing id =>
      refine h.applyExisting hli hr fun hfi => ?_
      subst hfi
      exact hke id rfl
  | txCommit id =>
    simp only [Registry.receive]
    split
    · exact h.reply hli hfr _
    · next entry hen =>
      refine h.take hli hr hen rfl (fun _ _ he => ?_) fun hbr => ?_
      · cases he
        rfl
      · exact absurd hbr (h.not_broken (hke id rfl) hen)
  | txRollback id =>
    simp only [Registry.receive]
    split
    · exact h.reply hli hfr _
    · exact (h.drop id).reply hli (free_of_tasks hr nofun) _

theorem Inv.publish (hr : st.tasks r = some (.committing entry success))
    {events : List (ApiScope × String × Version)}
    (hc : finishCommit st.context entry.t = .ok (context, events)) :
    ((st.publish r entry context).reply r success).Inv start := by
  have hl := h.answered.live hr
  have hh : st.Holds (.task r) entry := by simp [Holds, hr, Task.own]
  refine ⟨h.held.publish hr hl.2 context, h.answered.publish hr context, ?_, ?_⟩
  · show ((st.visible ++ [Visible.mk r entry]).map fun v => v.entry.serial).Nodup
    rw [map_append, map_singleton]
    refine h.once.append (nodup_singleton _) fun n hn hn' => ?_
    obtain ⟨v, hv, rfl⟩ := mem_map.mp hn
    have hs : st.Holds (.seen v.request) v.entry := hv
    cases h.held.unique _ _ _ _ hs hh (mem_singleton.mp hn')
  · show Commits start ((st.visible ++ [Visible.mk r entry]).map fun v => v.entry.t) context.store
    rw [map_append, map_singleton]
    obtain ⟨_, hst, hc⟩ := bind_eq_ok.mp hc
    cases hc
    exact h.store.snoc hst

theorem Inv.advance (hr : st.tasks r = some task) (envs : Nat → Env) (refused : Option Refusal) :
    (st.advance r envs refused task).Inv start := by
  have hli := h.answered.live hr
  -- a handler that is not about to remove an entry may answer at any time
  have hre : ∀ ans, (∀ id e, task ≠ .failing id e) → (st.reply r ans).Inv start := by
    intro ans hno
    exact h.reply hli (free_of_tasks hr fun id e he => hno id e (Option.some.inj he)) ans
  cases task with
  | registered id ops =>
    simp only [Registry.advance]
    split
    · exact hre _ nofun
    · next entry hen =>
      split
      · next last t hal =>
        have hap : ((st.setEntry id (some { entry with t := t })).record entry.serial
            ops).Inv start :=
          h.of_same (h.held.applied_entry hen hal) { h.answered with } rfl rfl
        exact hap.reply hli (free_of_tasks hr nofun) _
      · next e t hal =>
        have han : ((st.setEntry id (some { entry with t := t })).fail
            entry.serial).Answered := { h.answered with }
        have hfa : (st.setTask r (.failing id e)).Held :=
          h.held.letGo (free_of_tasks hr nofun) rfl _
        exact h.of_same (hfa.failed_entry (update_self ..) hen)
          (han.update hli (fun _ _ he => by cases he) fun _ _ => rfl) rfl rfl
  | failing id e =>
    refine (h.drop id).reply hli (fun id' e' he => ?_) _
    have hta : st.tasks r = some (.failing id' e') := he
    rw [hr] at hta
    cases hta
    exact update_self ..
  | taken entry ops finish =>
    simp only [Registry.advance]
    split
    · next last t hal =>
      split
      · exact hre _ nofun
      · next hfi =>
        have han : (st.record entry.serial ops).Answered := { h.answered with }
        refine h.of_same (h.held.applied_task hr hfi hal)
          (han.update hli (fun _ _ he => ?_) fun _ _ => rfl) rfl rfl
        cases he
        rfl
    · next e t hal =>
      have han : (st.fail entry.serial).Answered := { h.answered with }
      exact h.of_same (h.held.failed_task hr _) (han.reply hli _) rfl rfl
  | committing entry success =>
    simp only [Registry.advance]
    split
    · exact hre _ nofun
    · split
      · next context events hco => exact h.publish hr hco
      · exact hre _ nofun

/-- **Every step that keeps to the condition keeps the invariant.** -/
theorem Inv.step {act : Action} (hk : st.Keeps act) (hs : st.step act = some st') :
    st'.Inv start := by
  cases act with
  | receive req arrival =>
    cases hs
    obtain ⟨ha, hl, hn⟩ := h.arrive
    refine ha.receive hl hn (fun id hid => ?_) arrival
    have hw := hk id hid
    simp only [waits, range_succ, any_append, any_cons, any_nil, hn, Bool.or_false] at hw ⊢
    exact hw
  | advance r envs refused =>
    obtain ⟨_, ht, rfl⟩ := Option.map_eq_some_iff.mp hs
    exact h.advance ht envs refused
  | reap id =>
    cases hs
    exact h.drop id

omit h

theorem inv_idle {node : NodeId} :
    (idle node context).Inv context.store := by
  have hn : ∀ {p entry}, ¬(idle node context).Holds p entry := by
    intro p entry hp
    cases p <;> cases hp
  exact ⟨⟨fun _ _ hp => absurd hp hn, fun _ _ hp => absurd hp hn,
    fun _ _ hp => absurd hp hn, fun _ _ _ _ hp => absurd hp hn, nofun, nofun⟩,
    ⟨fun _ _ => rfl, nofun, nofun⟩, nodup_nil, .nil⟩

theorem Inv.allOrNothing (h : st.Inv start) : st.AllOrNothing start where
  __ := h
  unbroken v hv hb := h.held.broken (.seen v.request) v.entry hv hb
  whole v hv := h.held.whole (.seen v.request) v.entry hv
    fun hb => h.held.broken (.seen v.request) v.entry hv hb
  answered v hv := (h.answered.visible v hv).2.2

/-- **All or nothing**: in every run of a node whose steps keep to the condition, nothing of a
transaction with a failed bundle becomes visible, and every transaction becomes visible at most once,
whole, by a commit that is answered with success. -/
theorem all_or_nothing {node : NodeId} {context : StoreContext}
    (h : Reached step Keeps (idle node context) st) : st.AllOrNothing context.store := by
  have hi : st.Inv context.store := h.holds inv_idle fun hi hk hs => hi.step hk hs
  exact hi.allOrNothing

end Runs
end Registry
end Registry

/-! ## A run that uses the gap -/

namespace Sample

def txId : TxId := .fill 16 7

def arrival : Arrival := ⟨5, txId, false, false⟩

/-- A client writes a value and keeps the transaction open, and then sends a bundle whose second
operation has a key that cannot be stored. -/
def brokenBundle : List Registry.Action :=
  [.receive (.txApply (.new .ignore .write none) [.keyPut apiScope "a" [1]] .keepOpen) arrival,
    .advance 0 (fun _ => env) none,
    .receive (.txApply (.existing txId)
      [.keyPut apiScope "b" [2], .keyPut apiScope "\x00" [3]] .keepOpen) arrival,
    .advance 1 (fun _ => env) none]

/-- Another request commits the transaction before the failed one removes it. -/
def commitInGap : List Registry.Action :=
  brokenBundle ++ [.receive (.txCommit txId) arrival, .advance 2 (fun _ => env) none]

/-- The failed bundle removes the transaction first. -/
def commitAfterGap : List Registry.Action :=
  brokenBundle ++ [.advance 1 (fun _ => env) none, .receive (.txCommit txId) arrival,
    .receive (.txApply (.new .ignore .write none) [.keyPut apiScope "c" [4]] .commit) arrival,
    .advance 3 (fun _ => env) none, .advance 3 (fun _ => env) none]

end Sample

open Sample in
/-- The second bundle of a transaction fails, and a commit that arrives before the failed request has
removed the transaction makes its first operations visible. -/
theorem failed_bundle_visible :
    ∃ st, Reached Registry.step (fun _ _ => True) (.idle (node 1) idle) st ∧
      ∃ v ∈ st.visible, v.entry.serial ∈ st.broken :=
  exists_reached commitInGap (by decide +kernel)

open Sample in
/-- In a run with a failed bundle and a later commit, the commit finds nothing, and what is visible is
the transaction that had no failed bundle. -/
theorem all_or_nothing_commitAfterGap :
    ∃ st, Reached Registry.step Registry.Keeps (.idle (node 1) idle) st ∧
      st.AllOrNothing idle.store ∧ st.broken = [0] ∧
      (st.visible.map fun v => v.entry.serial) = [1] := by
  obtain ⟨st, hr, hst⟩ : ∃ st, Reached Registry.step Registry.Keeps (.idle (node 1) idle) st ∧
      st.broken = [0] ∧ (st.visible.map fun v => v.entry.serial) = [1] :=
    exists_reached commitAfterGap (by decide +kernel)
  exact ⟨st, hr, Registry.all_or_nothing hr, hst⟩

end Myrmic
