import Myrmic.Libraries
import Myrmic.Tables

/-!
# Streams of events

The events of one name are the rows of a table that is only ever appended to.  A row that comes without
an id is given one by the server, made from the time its transaction began.  A **stream** reads the
table from a position of its own: when it subscribes it counts the rows and skips that many, and after
each row it has read it goes on behind that row's id.

The position only looks forward, so a stream misses what is committed behind it, and ids follow the
order in which transactions begin, not the order in which they commit.  `events_exactly_once` says when
nothing is missed: **if every commit adds its rows behind what the stream has passed, and no poll is
used up by rows that do not decode**, then the polled events are the committed ones, each once.
`late_commit_missed` is a run where a transaction begins first, commits last, and is never seen.
-/
namespace Myrmic
open OrderedBytes Fallible Machine List

/-! ## The stream -/

def eventsTable : Name := ⟨"events", by decide +kernel⟩

/-- Reads rows of a table, and counts them if asked to, on a snapshot of its own. -/
def peekTable (ks : Keyspace) (name : ApiScope) (table : String) (cursor : Option Cursor)
    (limit : Option Nat) (order : Option TbOrderBy) (count : Bool) :
    Except String (List (Bytes × Bytes) × Option Nat) := do
  let s ← keyScope name
  let table ← Name.ofString table
  let entities ← tbList ks s table cursor limit order
  if count then
    let n ← tbCount ks s table
    return (entities, some n)
  else return (entities, none)

/-- A subscription: the events of a scope after a cursor. -/
structure EventStream where
  scope : ApiScope
  cursor : Cursor
deriving DecidableEq

namespace EventStream

def count (ks : Keyspace) (scope : ApiScope) : Except String Nat := do
  let (_, count) ← peekTable ks scope eventsTable.val none (some 0) none true
  return count.getD 0

/-- Starts behind all events that exist. -/
def subscribe (ks : Keyspace) (scope : ApiScope) : Except String EventStream := do
  let count ← count ks scope
  return ⟨scope, .skip count⟩

variable {Event : Type} (decodeEvent : Bytes → Option Event)

/-- Moves behind a row and keeps its event, if it decodes. -/
def read (state : List Event × EventStream) (row : Bytes × Bytes) : List Event × EventStream :=
  let cursor := match Id.ofBytes row.1 with
    | .ok id => .after id
    | .error _ => state.2.cursor
  (state.1 ++ (decodeEvent row.2).toList, { state.2 with cursor := cursor })

/-- Reads up to `batchSize` rows. -/
def poll (ks : Keyspace) (stream : EventStream) (batchSize : Nat) :
    Except String (List Event × EventStream) := do
  let (entities, _) ← peekTable ks stream.scope eventsTable.val (some stream.cursor)
    (some batchSize) none false
  return entities.foldl (read decodeEvent) ([], stream)

end EventStream

/-! ## Appending -/

/-- The ways to append rows and let the server name them. -/
inductive Append where
  | insert (value : Bytes)
  | append (value : Bytes)
  | batch (values : List Bytes)

/-- The id made for a row. -/
def mintedId (env : Env) (i : Nat) (ts : Version) : Id :=
  ⟨(env.mint i ts).bytes, by rw [(env.mint i ts).length_eq]; decide⟩

namespace Append

def op (scope : ApiScope) : Append → TxOp
  | .insert value => .tbInsert scope eventsTable.val none value
  | .append value => .tbAppend scope eventsTable.val none value
  | .batch values => .tbInsertBatched scope eventsTable.val (values.map fun value => (none, value))

/-- The rows that an append writes, with the ids it mints. -/
def rows (env : Env) (ts : Version) : Append → List (Id × Bytes)
  | .insert value => [(mintedId env 0 ts, value)]
  | .append value => [(mintedId env 0 ts, value)]
  | .batch values => values.zipIdx.map fun value => (mintedId env value.2 ts, value.1)

end Append

/-! ## The machine -/

/-- A transaction that appends, and what it has appended. -/
structure Writer where
  t : StoreTx
  rows : List (Id × Bytes)

/-- A store with transactions that append to the events of one name, and a stream.  The last four fields
record what has happened: the events polled, the ids made, the rows committed since the stream
subscribed, and how many these were at the last poll that returned nothing. -/
structure Feed (Event : Type) where
  store : Keyspace
  writers : Nat → Option Writer
  stream : Option EventStream
  delivered : List Event
  minted : List Id
  committed : List (Id × Bytes)
  heard : Nat

/-- The ids that a table's rows have, deleted rows included. -/
def rowIds (s : Scope) (ks : Keyspace) : List Id :=
  (ks.prefixOf (tablePrefix s eventsTable)).filterMap fun row => do
    let (userKey, _, _) ← (decode row.1).toOption
    let bytes ← (decodeEntity userKey).toOption
    (Id.ofBytes bytes).toOption

namespace Feed

/-- Writers begin, append and commit; the subscriber reads. -/
inductive Action where
  | start (i : Nat) (ts : Version)
  | append (i : Nat) (env : Env) (a : Append)
  | commit (i : Nat)
  | drop (i : Nat)
  | subscribe
  | poll (batchSize : Nat)

variable {Event : Type} (decodeEvent : Bytes → Option Event) (node : NodeId) (s : Scope)

/-- Before anyone appends or reads. -/
def initial (ks : Keyspace) : Feed Event := ⟨ks, fun _ => none, none, [], rowIds s ks, [], 0⟩

def setWriter (st : Feed Event) (i : Nat) (writer : Option Writer) : Feed Event :=
  { st with writers := Function.update st.writers i writer }

section Step
variable [Postcard] [Sparql] [BodyCodec] [Sha2]

/-- Adds the rows of an operation that succeeds; no id is made twice. -/
def appendRows (st : Feed Event) (i : Nat) (env : Env) (a : Append) (writer : Writer) :
    Option (Feed Event) :=
  let new := a.rows env writer.t.tx.ts
  if (new.map Prod.fst).Nodup ∧ ∀ id ∈ new.map Prod.fst, id ∉ st.minted then
    match (apply env (a.op s.api)).run writer.t with
    | (.ok _, t) =>
      some { st.setWriter i (some ⟨t, writer.rows ++ new⟩) with
        minted := st.minted ++ new.map Prod.fst }
    | (.error _, _) => none
  else none

/-- Reads what the stream has not passed; a poll that fails changes nothing. -/
def pollStream [DecidableEq Event] (st : Feed Event) (stream : EventStream) (batchSize : Nat) :
    Option (Feed Event) :=
  match stream.poll decodeEvent st.store batchSize with
  | .ok (events, stream) =>
    some { st with
      stream := some stream
      delivered := st.delivered ++ events
      heard := if events = [] then st.committed.length else st.heard }
  | .error _ => none

/-- Reads are of the committed store; appends go to the writer's own transaction. -/
def step [DecidableEq Event] (st : Feed Event) : Action → Option (Feed Event)
  | .start i ts =>
    match st.writers i with
    | none => some (st.setWriter i (some ⟨.start (.start st.store ts node none), []⟩))
    | some _ => none
  | .append i env a => (st.writers i).bind (st.appendRows s i env a)
  | .commit i => do
    let writer ← st.writers i
    let ks ← (writer.t.tx.commit st.store).toOption
    return { st.setWriter i none with
      store := ks
      committed := if st.stream.isSome then st.committed ++ writer.rows else st.committed }
  | .drop i => some (st.setWriter i none)
  | .subscribe =>
    match st.stream with
    | none => (EventStream.subscribe st.store s.api).toOption.map fun stream =>
      { st with stream := some stream }
    | some _ => none
  | .poll batchSize => st.stream.bind fun stream => st.pollStream decodeEvent stream batchSize

end Step
end Feed
variable {ks : Keyspace}

/-! ## What appending writes -/

section Writes
variable (s : Scope)

def rowOps (ts : Version) (row : Id × Bytes) : List RawOp :=
  [.drop (rowKey s eventsTable row.1) ts .deletion,
    .write (rowKey s eventsTable row.1) ts .insertion row.2]

def putAll (tx : Tx) (rows : List (Id × Bytes)) : Tx :=
  rows.foldl (fun tx row => tx.putRaw (rowKey s eventsTable row.1) row.2) tx

variable {s}

theorem putAll_spec (tx : Tx) {rows : List (Id × Bytes)} : (putAll s tx rows).ts = tx.ts ∧
    (putAll s tx rows).journal = tx.journal ++ rows.flatMap (rowOps s tx.ts) := by
  induction rows generalizing tx with
  | nil => exact ⟨rfl, (append_nil _).symm⟩
  | cons row rows ih =>
    obtain ⟨hts, hj⟩ := ih (tx.putRaw (rowKey s eventsTable row.1) row.2)
    refine ⟨hts, hj.trans ?_⟩
    simp [Tx.putRaw, Tx.putAtRaw, Tx.push, rowOps]

theorem writeScope_spec {tx : Tx} :
    (tx.writeScope s).ts = tx.ts ∧ (tx.writeScope s).journal = tx.journal := by
  rw [Tx.writeScope]
  split
  · exact ⟨rfl, rfl⟩
  · exact ⟨rfl, rfl⟩

variable [Postcard]

theorem replay_rowOps (ks : Keyspace) (ts : Version) (rows : List (Id × Bytes)) :
    replay ks (rows.flatMap (rowOps s ts)) = putRows s eventsTable ts ks rows := by
  induction rows generalizing ks with
  | nil => rfl
  | cons row rows ih =>
    rw [flatMap_cons, replay_append, ih]
    rfl

open TxProg

theorem run_tbInsert (t : StoreTx) (id : Id) (v : Bytes) :
    (StoreTx.tbInsert s.api eventsTable.val id.bytes v).run t =
      (.ok (), { t with tx := putAll s (t.tx.writeScope s) [(id, v)] }) := by
  rw [StoreTx.tbInsert, run_bind, run_writeScope, Scope.new_api]
  dsimp only
  rw [run_bind, run_lift, Name.ofString_val]
  dsimp only
  rw [run_bind, run_lift, Id.ofBytes_bytes]
  rfl

theorem run_tbInsertBatched (t : StoreTx) (rows : List (Id × Bytes)) :
    (StoreTx.tbInsertBatched s.api eventsTable.val (rows.map listed)).run t =
      (.ok (), { t with tx := putAll s (t.tx.writeScope s) rows }) := by
  rw [StoreTx.tbInsertBatched, run_bind, run_writeScope, Scope.new_api]
  dsimp only
  generalize t.tx.writeScope s = tx
  induction rows generalizing tx with
  | nil => rfl
  | cons row rows ih =>
    rw [map_cons, Programs.Prog.each]
    refine (run_bind _ _ _).trans ?_
    rw [run_bind, run_lift, Name.ofString_val]
    dsimp only
    rw [run_bind, run_lift, listed, Id.ofBytes_bytes]
    exact ih (tx.putRaw (rowKey s eventsTable row.1) row.2)

variable (env : Env) {tx : Tx}

omit [Postcard] in
theorem zip_eids (ts : Version) (vs : List Bytes) (n : Nat) :
    (((vs.map fun v => ((none : Option Bytes), v)).zipIdx n).map
        fun e => e.1.1.getD (env.mint e.2 ts).bytes).zip
      ((vs.map fun v => ((none : Option Bytes), v)).map Prod.snd) =
    ((vs.zipIdx n).map fun v => (mintedId env v.2 ts, v.1)).map listed := by
  induction vs generalizing n with
  | nil => rfl
  | cons v vs ih => exact congrArg _ (ih (n + 1))

theorem run_insertRow {t : StoreTx} {v : Bytes} : ∃ md,
    (insertRow env s.api eventsTable.val none v).run t = (.ok (env.mint 0 t.tx.ts).bytes,
        ⟨putAll s (t.tx.writeScope s) [(mintedId env 0 t.tx.ts, v)], md⟩) := by
  obtain ⟨md, he⟩ := run_event
    { t with tx := putAll s (t.tx.writeScope s) [(mintedId env 0 t.tx.ts, v)] }
    s.api eventsTable.val
  refine ⟨md, ?_⟩
  rw [insertRow, run_bind, run_ask]
  dsimp only
  have hi := run_tbInsert (s := s) t (mintedId env 0 t.tx.ts) v
  rw [run_bind]
  rw [show ((none : Option Bytes).getD (env.mint 0 t.tx.ts).bytes) =
    (mintedId env 0 t.tx.ts).bytes from rfl, hi]
  dsimp only
  rw [run_bind, he]
  rfl

theorem run_batch (t : StoreTx) (vs : List Bytes) : ∃ eids md,
    (tbInsertBatched env s.api eventsTable.val (vs.map fun v => (none, v))).run t = (.ok eids,
        ⟨putAll s (t.tx.writeScope s) ((Append.batch vs).rows env t.tx.ts), md⟩) := by
  obtain ⟨md, he⟩ := run_event
    { t with tx := putAll s (t.tx.writeScope s) ((Append.batch vs).rows env t.tx.ts) }
    s.api eventsTable.val
  simp only [tbInsertBatched, run_bind, run_ask, zip_eids, run_tbInsertBatched]
  generalize ((vs.map fun v => ((none : Option Bytes), v)).zipIdx.map fun e =>
    e.1.1.getD (env.mint e.2 t.tx.ts).bytes) = eids
  cases eids.isEmpty with
  | true => exact ⟨eids, t.metadata, rfl⟩
  | false =>
    refine ⟨eids, md, (run_bind _ _ _).trans ?_⟩
    simp only [Append.rows] at he
    rw [he]
    rfl

/-! ### Committing the rows -/

theorem lookup_commitPoints {scopes : List Scope} {points : List RawOp}
    (h : tx.commitPoints scopes = .ok points) (ks : Keyspace) {key : Bytes}
    (hk : tablePrefix s eventsTable <+: key) : (replay ks points)[key]? = ks[key]? := by
  induction scopes generalizing points ks with
  | nil =>
    cases h
    rfl
  | cons scope scopes ih =>
    rw [Tx.commitPoints] at h
    obtain ⟨_, -, h⟩ := bind_eq_ok.mp h
    obtain ⟨points, hp, h⟩ := bind_eq_ok.mp h
    cases h
    have hne : SyncPoint.encode ⟨scope, tx.ts, tx.ts, tx.id⟩ ≠ key := by
      rintro rfl
      obtain ⟨x, hx⟩ := hk
      have hh : (tablePrefix s eventsTable ++ x).head? = some '@'.toUInt8 := rfl
      rw [hx, head_syncPoint] at hh
      cases hh
    refine (ih hp _).trans ?_
    rw [RawOp.apply, insertPoint, Store.lookup_insert, if_neg hne]

/-- **A commit adds the rows of its transaction to the table, and nothing else.** -/
theorem commit_rows {rows new : List (Id × Bytes)} {ks' : Keyspace}
    (hj : tx.journal = new.flatMap (rowOps s tx.ts)) (h : tx.commit ks = .ok ks')
    (hks : TableInOrder s eventsTable ks) (hr : IsTable s eventsTable ks rows)
    (hn : (new.map Prod.fst).Nodup) (hi : ∀ row ∈ new, NoRow s eventsTable ks row.1) :
    TableInOrder s eventsTable ks' ∧
      (∃ rows', IsTable s eventsTable ks' rows' ∧ rows'.Perm (rows ++ new)) ∧
      ∀ a, NoRow s eventsTable ks a → a ∉ new.map Prod.fst → NoRow s eventsTable ks' a := by
  obtain ⟨points, hpo, h⟩ := bind_eq_ok.mp h
  cases h
  have hs : ∀ key, tablePrefix s eventsTable <+: key →
      (replay ks (tx.journal ++ points))[key]? = (putRows s eventsTable tx.ts ks new)[key]? := by
    intro key hk
    rw [replay_append, lookup_commitPoints hpo _ hk, hj, replay_rowOps]
  obtain ⟨hks', rows', hr', hp⟩ := hr.putRows hks hn hi tx.ts
  refine ⟨hks'.congr hs, ⟨rows', hr'.congr hs, hp⟩, fun a ha hno => ?_⟩
  exact (ha.putRows hno tx.ts).congr hs

/-! ### The operations -/

variable [Sparql] [BodyCodec] [Sha2]

/-- **Appending succeeds and writes the rows it makes.** -/
theorem run_append (a : Append) (t : StoreTx) : ∃ resp md,
    (apply env (a.op s.api)).run t = (.ok resp,
      ⟨putAll s (t.tx.writeScope s) (a.rows env t.tx.ts), md⟩) := by
  cases a with
  | insert v =>
    obtain ⟨md, hro⟩ := run_insertRow (s := s) env
    refine ⟨.eid (env.mint 0 t.tx.ts).bytes, md, ?_⟩
    rw [Append.op, apply, run_bind, hro]
    rfl
  | append v =>
    obtain ⟨md, hro⟩ := run_insertRow (s := s) env
    refine ⟨.done, md, ?_⟩
    rw [Append.op, apply, run_bind, hro]
    rfl
  | batch vs =>
    obtain ⟨eids, md, hr⟩ := run_batch (s := s) env t vs
    refine ⟨.eids eids, md, ?_⟩
    rw [Append.op, apply, run_bind, hr]
    rfl

end Writes
namespace Feed
variable {Event : Type} {stream : EventStream} {id : Id}

/-! ## What a run should give -/

section Property
variable (decodeEvent : Bytes → Option Event) (s : Scope)

def eventsOf (rows : List (Id × Bytes)) : List Event := rows.filterMap fun row => decodeEvent row.2

theorem eventsOf_cons (row : Id × Bytes) (rows : List (Id × Bytes)) :
    eventsOf decodeEvent (row :: rows) = (decodeEvent row.2).toList ++ eventsOf decodeEvent rows := by
  cases hd : decodeEvent row.2 <;> simp [eventsOf, hd]

theorem eventsOf_append (rows rows' : List (Id × Bytes)) :
    eventsOf decodeEvent (rows ++ rows') = eventsOf decodeEvent rows ++ eventsOf decodeEvent rows' :=
  filterMap_append

/-- **Every event is delivered once**: the polled events are those of the rows committed before the last
poll that returned nothing, with some of those of the rows committed after it. -/
def ExactlyOnce (st : Feed Event) : Prop :=
  ∃ later, st.delivered.Perm (eventsOf decodeEvent (st.committed.take st.heard) ++ later) ∧
    later.Subperm (eventsOf decodeEvent (st.committed.drop st.heard))

def rowsFrom (st : Feed Event) (cursor : Cursor) (n : Nat) : List (Bytes × Bytes) :=
  (tbList st.store s eventsTable (some cursor) (some n) none).toOption.getD []

/-- The ids that bound what the stream has passed. -/
def passed (st : Feed Event) (stream : EventStream) : List Id :=
  match stream.cursor with
  | .after id => [id]
  | .at _ => []
  | .skip n => (st.rowsFrom s (.skip 0) n).filterMap fun row => (Id.ofBytes row.1).toOption

/-- Where the stream keeps up: **a commit adds rows behind what the stream has passed, and the rows of a
poll are not used up by rows that do not decode**. -/
def Clear (st : Feed Event) : Action → Prop
  | .commit i => ∀ writer ∈ st.writers i, ∀ stream ∈ st.stream, ∀ id ∈ st.passed s stream,
      ∀ row ∈ writer.rows, id.Before row.1
  | .poll n => ∀ stream ∈ st.stream,
      (st.rowsFrom s stream.cursor n).length < n ∨
        ∃ row ∈ st.rowsFrom s stream.cursor n, (decodeEvent row.2).isSome = true
  | _ => True

instance decidableClear (st : Feed Event) (action : Action) :
    Decidable (st.Clear decodeEvent s action) :=
  match action with
  | .commit i => inferInstanceAs (Decidable (∀ writer ∈ st.writers i, ∀ stream ∈ st.stream,
      ∀ id ∈ st.passed s stream, ∀ row ∈ writer.rows, id.Before row.1))
  | .poll n => inferInstanceAs (Decidable (∀ stream ∈ st.stream,
      (st.rowsFrom s stream.cursor n).length < n ∨
        ∃ row ∈ st.rowsFrom s stream.cursor n, (decodeEvent row.2).isSome = true))
  | .start _ _ | .append _ _ _ | .drop _ | .subscribe => inferInstanceAs (Decidable True)

end Property

/-! ## The position of a stream -/

section Position
variable (decodeEvent : Bytes → Option Event) {s : Scope} {ks : Keyspace}

/-- A position behind the rows `old`, which were there before the stream, and `seen`, which it has
read. -/
def Behind (old seen : List (Id × Bytes)) : Cursor → Prop
  | .after id => ∃ front value, seen = front ++ [(id, value)]
  | .at _ => False
  | .skip n => n = old.length ∧ seen = []

variable {old seen ahead : List (Id × Bytes)} {cursor : Cursor}
  (hks : TableInOrder s eventsTable ks)
include hks

variable (h : IsTable s eventsTable ks (old ++ seen ++ ahead))
include h

/-- A listing from a position returns the rows that are ahead of it. -/
theorem tbList_behind (hc : Behind old seen cursor) (n : Nat) :
    tbList ks s eventsTable (some cursor) (some n) none = .ok ((ahead.take n).map listed) := by
  cases cursor with
  | after id =>
    obtain ⟨front, v, rfl⟩ := hc
    have hsp : old ++ (front ++ [(id, v)]) ++ ahead = (old ++ front) ++ (id, v) :: ahead := by simp
    rw [hsp] at h
    refine (tbList_eq hks h (some (.after id)) .keyAsc).trans ?_
    rw [rowsFromCursor, TbOrderBy.ordered, filter_precedes .keyAsc h.sorted]
    rfl
  | «at» id => exact hc.elim
  | skip m =>
    obtain ⟨rfl, rfl⟩ := hc
    refine (tbList_eq hks h (some (.skip old.length)) .keyAsc).trans ?_
    rw [rowsFromCursor, TbOrderBy.ordered, append_nil, drop_left]
    rfl

omit h in
omit hks in
/-- Reading rows moves behind them and keeps their events. -/
theorem foldl_read {rows : List (Id × Bytes)} (events : List Event) (stream : EventStream)
    (hc : Behind old seen stream.cursor) :
    ∃ cursor, (rows.map listed).foldl (EventStream.read decodeEvent) (events, stream) =
        (events ++ eventsOf decodeEvent rows, ⟨stream.scope, cursor⟩) ∧
      Behind old (seen ++ rows) cursor := by
  induction rows generalizing events stream seen with
  | nil => exact ⟨stream.cursor, by simp [eventsOf], by rwa [append_nil]⟩
  | cons row rows ih =>
    have hro : Behind old (seen ++ [row]) (.after row.1) := ⟨seen, row.2, rfl⟩
    obtain ⟨cursor, hf, hb⟩ := ih (events ++ (decodeEvent row.2).toList)
      ⟨stream.scope, .after row.1⟩ hro
    refine ⟨cursor, ?_, by simpa using hb⟩
    have hr : EventStream.read decodeEvent (events, stream) (listed row) =
        (events ++ (decodeEvent row.2).toList, ⟨stream.scope, .after row.1⟩) := by
      simp [EventStream.read, listed, Id.ofBytes_bytes]
    rw [map_cons, foldl_cons, hr, hf, eventsOf_cons, append_assoc]

/-- **A poll reads the next rows.** -/
theorem poll_behind (hs : stream.scope = s.api) (hc : Behind old seen stream.cursor) (n : Nat) :
    ∃ cursor, stream.poll decodeEvent ks n =
        .ok (eventsOf decodeEvent (ahead.take n), ⟨s.api, cursor⟩) ∧
      Behind old (seen ++ ahead.take n) cursor := by
  obtain ⟨cursor, hf, hb⟩ := foldl_read decodeEvent [] stream hc
  refine ⟨cursor, ?_, hb⟩
  simp only [EventStream.poll, peekTable, hs, Scope.keyScope_api, Name.ofString_val, bind,
    Except.bind, tbList_behind hks h hc n, pure, Except.pure, Bool.false_eq_true, if_false]
  rw [hf, hs]
  rfl

omit h

theorem subscribe_behind (h : IsTable s eventsTable ks old) :
    EventStream.subscribe ks s.api = .ok ⟨s.api, .skip old.length⟩ := by
  have hl : tbList ks s eventsTable none (some 0) none = .ok [] := 
    tbList_eq hks h none .keyAsc
  simp only [EventStream.subscribe, EventStream.count, peekTable, Scope.keyScope_api,
    Name.ofString_val, bind, Except.bind, hl, tbCount_eq h, pure, Except.pure, if_true,
    Option.getD_some]

end Position

/-! ## The invariant -/

section Invariant
variable (decodeEvent : Bytes → Option Event) (s : Scope)

/-- Where a stream is: behind the rows `old`, which were there before it, and `seen`, which it has read.
What was committed since is `seen` and `ahead`. -/
structure Follows (st : Feed Event) (stream : EventStream) (old seen ahead : List (Id × Bytes)) :
    Prop where
  scope : stream.scope = s.api
  table : IsTable s eventsTable st.store (old ++ seen ++ ahead)
  cursor : Behind old seen stream.cursor
  committed : st.committed.Perm (seen ++ ahead)
  delivered : st.delivered = eventsOf decodeEvent seen
  bound : st.heard ≤ st.committed.length
  heard : ∃ n, (seen.take n).Perm (st.committed.take st.heard)

/-- The rows a transaction has made are in its journal and new to the store. -/
structure Ready (store : Keyspace) (minted : List Id) (writer : Writer) : Prop where
  wrote : writer.t.tx.journal = writer.rows.flatMap (rowOps s writer.t.tx.ts)
  nodup : (writer.rows.map Prod.fst).Nodup
  minted : ∀ id ∈ writer.rows.map Prod.fst, id ∈ minted
  noRow : ∀ id ∈ writer.rows.map Prod.fst, NoRow s eventsTable store id

/-- No two open transactions share a row. -/
structure Fresh (st : Feed Event) : Prop where
  ready : ∀ {i writer}, st.writers i = some writer → Ready s st.store st.minted writer
  apart : ∀ {i j writer writer'}, i ≠ j → st.writers i = some writer → st.writers j = some writer' →
    ∀ id ∈ writer.rows.map Prod.fst, id ∉ writer'.rows.map Prod.fst

/-- The rows are in order and the stream stands somewhere in them; this carries the proof. -/
structure Inv (st : Feed Event) : Prop where
  ordered : TableInOrder s eventsTable st.store
  known : ∀ id, id ∉ st.minted → NoRow s eventsTable st.store id
  fresh : st.Fresh s
  quiet : st.stream = none → st.delivered = [] ∧ st.committed = [] ∧ st.heard = 0
  follows : ∀ {stream}, st.stream = some stream →
    ∃ old seen ahead, st.Follows decodeEvent s stream old seen ahead

variable {decodeEvent s} {st st' : Feed Event} {ahead : List (Id × Bytes)} {i : Nat}

theorem Follows.exactlyOnce {old seen : List (Id × Bytes)}
    (h : st.Follows decodeEvent s stream old seen ahead) : st.ExactlyOnce decodeEvent := by
  obtain ⟨n, hhe⟩ := h.heard
  refine ⟨eventsOf decodeEvent (seen.drop n), ?_, ?_⟩
  · have hsp : st.delivered =
        eventsOf decodeEvent (seen.take n) ++ eventsOf decodeEvent (seen.drop n) := by
      rw [← eventsOf_append, take_append_drop, h.delivered]
    rw [hsp]
    exact (hhe.filterMap _).append_right _
  · have hre : (st.committed.drop st.heard).Perm (seen.drop n ++ ahead) := by
      refine (perm_append_left_iff (seen.take n)).mp ?_
      calc (seen.take n ++ st.committed.drop st.heard).Perm
            (st.committed.take st.heard ++ st.committed.drop st.heard) := hhe.append_right _
        _ = st.committed := take_append_drop _ _
        _ |>.Perm (seen ++ ahead) := h.committed
        _ = seen.take n ++ (seen.drop n ++ ahead) := by
          rw [← append_assoc, take_append_drop]
    have hev : (eventsOf decodeEvent (st.committed.drop st.heard)).Perm
        (eventsOf decodeEvent (seen.drop n) ++ eventsOf decodeEvent ahead) := by
      rw [← eventsOf_append]
      exact hre.filterMap _
    exact hev.symm.subperm_left.mp (sublist_append_left _ _).subperm

theorem Inv.exactlyOnce (h : st.Inv decodeEvent s) : st.ExactlyOnce decodeEvent := by
  cases hs : st.stream with
  | none =>
    obtain ⟨hd, hc, -⟩ := h.quiet hs
    exact ⟨[], by simp [hd, hc, eventsOf], by simp [hc, eventsOf]⟩
  | some stream =>
    obtain ⟨_, _, _, hf⟩ := h.follows hs
    exact hf.exactlyOnce

theorem noRow_of_not_mem (h : id ∉ rowIds s ks) : NoRow s eventsTable ks id := by
  intro t kind hm
  obtain ⟨v, hv⟩ := Store.mem_iff_exists_lookup.mp hm
  refine h (mem_filterMap.mpr ⟨(encode (rowKey s eventsTable id) t kind, v), ?_, ?_⟩)
  · exact Store.mem_prefixOf.mpr ⟨hv,
      (tablePrefix_isPrefix s eventsTable id).trans (isPrefix_encode _ _ _)⟩
  · simp [decode_encode, decodeEntity_rowKey, Id.ofBytes_bytes, Except.toOption]

theorem inv_initial (h : TableInOrder s eventsTable ks) :
    (initial s ks : Feed Event).Inv decodeEvent s where
  ordered := h
  known := fun _ hid => noRow_of_not_mem hid
  fresh := ⟨nofun, nofun⟩
  quiet := fun _ => ⟨rfl, rfl, rfl⟩
  follows := nofun

/-! ### Steps -/

@[simp] theorem writers_setWriter (st : Feed Event) (i : Nat) (writer : Option Writer) (j : Nat) :
    (st.setWriter i writer).writers j = if j = i then writer else st.writers j :=
  Function.update_apply ..

theorem Fresh.set (h : st.Fresh s) {new : Option Writer}
    (hot : ∀ j, st'.writers j = if j = i then new else st.writers j)
    (hre : ∀ {writer}, new = some writer → Ready s st'.store st'.minted writer)
    (hke : ∀ {j writer}, j ≠ i → st.writers j = some writer →
      Ready s st.store st.minted writer → Ready s st'.store st'.minted writer)
    (hap : ∀ {j writer writer'}, j ≠ i → new = some writer → st.writers j = some writer' →
      ∀ id ∈ writer.rows.map Prod.fst, id ∉ writer'.rows.map Prod.fst) : st'.Fresh s := by
  refine ⟨fun {j writer} hj => ?_, fun {j k writer writer'} hne hj hk => ?_⟩
  · rw [hot] at hj
    by_cases hji : j = i
    · rw [if_pos hji] at hj
      exact hre hj
    · rw [if_neg hji] at hj
      exact hke hji hj (h.ready hj)
  · rw [hot] at hj hk
    by_cases hji : j = i
    · rw [if_pos hji] at hj
      rw [if_neg (hji ▸ hne.symm)] at hk
      exact hap (hji ▸ hne.symm) hj hk
    · rw [if_neg hji] at hj
      by_cases hki : k = i
      · rw [if_pos hki] at hk
        intro id hid hid'
        exact hap hji hk hj id hid' hid
      · rw [if_neg hki] at hk
        exact h.apart hne hj hk

variable (h : st.Inv decodeEvent s) {writer : Writer} {n : Nat}
include h

/-- A step that changes no store and no stream keeps what is known about the stream. -/
theorem Inv.of_fresh (hfr : st'.Fresh s) (hmi : ∀ id ∈ st.minted, id ∈ st'.minted)
    (hsto : st'.store = st.store) (hstr : st'.stream = st.stream)
    (hde : st'.delivered = st.delivered) (hco : st'.committed = st.committed)
    (hhe : st'.heard = st.heard) : st'.Inv decodeEvent s where
  ordered := by rw [hsto]; exact h.ordered
  known := by
    intro id hid
    rw [hsto]
    exact h.known id fun hme => hid (hmi id hme)
  fresh := hfr
  quiet := by rw [hstr, hde, hco, hhe]; exact h.quiet
  follows := by
    intro stream hst
    rw [hstr] at hst
    obtain ⟨old, seen, ahead, hf⟩ := h.follows hst
    refine ⟨old, seen, ahead, hf.scope, hsto ▸ hf.table, hf.cursor, hco ▸ hf.committed,
      hde.trans hf.delivered, ?_, ?_⟩
    · rw [hhe, hco]
      exact hf.bound
    · rw [hhe, hco]
      exact hf.heard

theorem inv_drop (i : Nat) : (st.setWriter i none).Inv decodeEvent s :=
  h.of_fresh (h.fresh.set (writers_setWriter st i none) nofun (fun _ _ hr => hr) nofun)
    (fun _ hid => hid) rfl rfl rfl rfl rfl

theorem inv_start (i : Nat) (tx : Tx) (hj : tx.journal = []) :
    (st.setWriter i (some ⟨.start tx, []⟩)).Inv decodeEvent s := by
  refine h.of_fresh (h.fresh.set (writers_setWriter st i _) ?_ (fun _ _ hr => hr) ?_)
    (fun _ hid => hid) rfl rfl rfl rfl rfl
  · intro writer hw
    cases hw
    exact ⟨hj, nodup_nil, nofun, nofun⟩
  · intro j writer writer' _ hw _
    cases hw
    exact nofun

omit h

section Append
variable [Postcard] [Sparql] [BodyCodec] [Sha2]

theorem inv_append (h : st.Inv decodeEvent s) {env : Env} {a : Append}
    (hwr : st.writers i = some writer) (hst : st.appendRows s i env a writer = some st') :
    st'.Inv decodeEvent s := by
  obtain ⟨_, _, hru⟩ := run_append (s := s) env a writer.t
  simp only [appendRows, hru] at hst
  split at hst
  · next hnew =>
    obtain ⟨hno, hun⟩ := hnew
    cases hst
    obtain ⟨hts, hjo⟩ := putAll_spec (s := s) (writer.t.tx.writeScope s)
    obtain ⟨hts', hjo'⟩ := writeScope_spec
    have hre := h.fresh.ready hwr
    refine h.of_fresh (h.fresh.set (writers_setWriter st i _) ?_ ?_ ?_)
      (fun id hid => mem_append_left _ hid) rfl rfl rfl rfl rfl
    · intro writer' hw
      cases hw
      refine ⟨?_, ?_, ?_, ?_⟩
      · dsimp only
        rw [hjo, hts, hts', hjo', hre.wrote, flatMap_append]
      · rw [map_append]
        refine hre.nodup.append hno fun id hid hid' => ?_
        exact hun id hid' (hre.minted id hid)
      · rw [map_append]
        exact forall_mem_append.mpr
          ⟨fun id hid => mem_append_left _ (hre.minted id hid), fun id => mem_append_right _⟩
      · rw [map_append]
        exact forall_mem_append.mpr ⟨hre.noRow, fun id hid => h.known id (hun id hid)⟩
    · intro j writer' _ _ hr
      exact ⟨hr.wrote, hr.nodup, fun id hid => mem_append_left _ (hr.minted id hid), hr.noRow⟩
    · intro j writer₁ writer' hne hw hj
      cases hw
      rw [map_append]
      refine forall_mem_append.mpr ⟨h.fresh.apart (Ne.symm hne) hwr hj, fun id hid hid' => ?_⟩
      exact hun id hid ((h.fresh.ready hj).minted id hid')
  · cases hst

end Append

/-- What is behind the ids that bound the stream's position is behind all rows it has passed. -/
theorem Follows.behind {old seen new : List (Id × Bytes)}
    (hks : TableInOrder s eventsTable st.store) (h : st.Follows decodeEvent s stream old seen ahead)
    (hne : ∀ id ∈ st.passed s stream, ∀ row ∈ new, id.Before row.1) :
    ∀ a ∈ old ++ seen, ∀ b ∈ new, a.1.Before b.1 := by
  intro a ha b hb
  have hcu := h.cursor
  rw [passed] at hne
  cases hc : stream.cursor with
  | after id =>
    rw [hc] at hcu hne
    obtain ⟨_, _, rfl⟩ := hcu
    have hid := hne id (mem_singleton_self _) b hb
    have hso := (pairwise_append.mp h.table.sorted).1
    rw [← append_assoc] at hso ha
    rcases mem_append.mp ha with ha | ha
    · exact ((pairwise_append.mp hso).2.2 a ha _ (mem_singleton_self _)).trans hid
    · rw [mem_singleton.mp ha]
      exact hid
  | «at» id =>
    rw [hc] at hcu
    exact hcu.elim
  | skip n =>
    rw [hc] at hcu hne
    obtain ⟨rfl, rfl⟩ := hcu
    have hli : st.rowsFrom s (.skip 0) old.length = old.map listed := by
      have hta : IsTable s eventsTable st.store ([] ++ [] ++ (old ++ [] ++ ahead)) := h.table
      have hbe : Behind [] [] (.skip 0) := ⟨rfl, rfl⟩
      rw [rowsFrom, tbList_behind hks hta hbe, append_nil, take_left]
      rfl
    rw [append_nil] at ha
    refine hne a.1 (mem_filterMap.mpr ⟨listed a, ?_, ?_⟩) b hb
    · rw [hli]
      exact mem_map_of_mem ha
    · rw [listed, Id.ofBytes_bytes]
      rfl

theorem inv_commit [Postcard] (h : st.Inv decodeEvent s) (hwr : st.writers i = some writer)
    (hcom : writer.t.tx.commit st.store = .ok ks)
    (hcl : ∀ stream ∈ st.stream, ∀ id ∈ st.passed s stream, ∀ row ∈ writer.rows, id.Before row.1)
    (hwri : st'.writers = (st.setWriter i none).writers) (hmi : st'.minted = st.minted)
    (hsto : st'.store = ks) (hstr : st'.stream = st.stream) (hde : st'.delivered = st.delivered)
    (hhe : st'.heard = st.heard)
    (hco : st'.committed = if st.stream.isSome then st.committed ++ writer.rows else st.committed) :
    st'.Inv decodeEvent s := by
  have hre := h.fresh.ready hwr
  have hids : ∀ row ∈ writer.rows, NoRow s eventsTable st.store row.1 :=
    fun row hrow => hre.noRow row.1 (mem_map_of_mem hrow)
  have had : ∀ {rows}, IsTable s eventsTable st.store rows → TableInOrder s eventsTable ks ∧
      (∃ rows', IsTable s eventsTable ks rows' ∧ rows'.Perm (rows ++ writer.rows)) ∧
      ∀ a, NoRow s eventsTable st.store a → a ∉ writer.rows.map Prod.fst →
        NoRow s eventsTable ks a :=
    fun hro => commit_rows hre.wrote hcom h.ordered hro hre.nodup hids
  obtain ⟨rows, hro⟩ := h.ordered.exists_isTable
  obtain ⟨hor, -, hnoR⟩ := had hro
  refine ⟨hsto ▸ hor, fun id hid => ?_, ?_, fun hno => ?_, fun {stream} hst => ?_⟩
  · rw [hmi] at hid
    rw [hsto]
    exact hnoR id (h.known id hid) fun hme => hid (hre.minted id hme)
  · have hot : ∀ j, st'.writers j = if j = i then none else st.writers j := by
      intro j
      rw [hwri, writers_setWriter]
    refine h.fresh.set hot nofun ?_ nofun
    intro j writer' hne hj hr
    rw [hsto, hmi]
    exact ⟨hr.wrote, hr.nodup, hr.minted, fun id hid =>
      hnoR id (hr.noRow id hid) (h.fresh.apart hne hj hwr id hid)⟩
  · rw [hstr] at hno
    rw [hde, hco, hhe, hno]
    exact h.quiet hno
  · rw [hstr] at hst
    obtain ⟨old, seen, _, hf⟩ := h.follows hst
    obtain ⟨-, ⟨rows', hro', hpe⟩, -⟩ := had hf.table
    obtain ⟨ahead', rfl, hah⟩ := eq_append_of_perm hf.table.sorted hro'.sorted hpe
      (hf.behind h.ordered (hcl stream hst))
    have hso : st'.committed = st.committed ++ writer.rows := by
      rw [hco, hst]
      rfl
    refine ⟨old, seen, ahead', hf.scope, hsto ▸ hro', hf.cursor, ?_, hde.trans hf.delivered, ?_, ?_⟩
    · rw [hso]
      refine (hf.committed.append_right writer.rows).trans ?_
      rw [append_assoc]
      exact hah.symm.append_left seen
    · rw [hhe, hso, length_append]
      exact hf.bound.trans (Nat.le_add_right _ _)
    · rw [hhe, hso, take_append_of_le_length hf.bound]
      exact hf.heard

/-- A poll that returns nothing, though its rows were not used up, has read everything. -/
theorem eq_nil_of_clear (hc : ((ahead.take n).map listed).length < n ∨
      ∃ row ∈ (ahead.take n).map listed, (decodeEvent row.2).isSome = true)
    (hev : eventsOf decodeEvent (ahead.take n) = []) : ahead.drop n = [] := by
  rcases hc with hs | ⟨row, hr, hd⟩
  · rw [length_map, length_take] at hs
    refine drop_eq_nil_of_le ?_
    omega
  · obtain ⟨row', hr', rfl⟩ := mem_map.mp hr
    obtain ⟨event, he⟩ := Option.isSome_iff_exists.mp hd
    have hm : event ∈ eventsOf decodeEvent (ahead.take n) := mem_filterMap.mpr ⟨row', hr', he⟩
    rw [hev] at hm
    cases hm

theorem inv_poll [DecidableEq Event] (h : st.Inv decodeEvent s) (hs : st.stream = some stream)
    (hcl : (st.rowsFrom s stream.cursor n).length < n ∨
      ∃ row ∈ st.rowsFrom s stream.cursor n, (decodeEvent row.2).isSome = true)
    (hst : st.pollStream decodeEvent stream n = some st') : st'.Inv decodeEvent s := by
  obtain ⟨old, seen, ahead, hf⟩ := h.follows hs
  obtain ⟨_, hpo, hcu⟩ := poll_behind decodeEvent h.ordered hf.table hf.scope hf.cursor n
  have hli : st.rowsFrom s stream.cursor n = (ahead.take n).map listed := by
    rw [rowsFrom, tbList_behind h.ordered hf.table hf.cursor]
    rfl
  rw [hli] at hcl
  simp only [pollStream, hpo] at hst
  cases hst
  refine ⟨h.ordered, h.known, { h.fresh with }, nofun, fun {stream'} hs' => ?_⟩
  cases hs'
  have hsp : seen ++ ahead.take n ++ ahead.drop n = seen ++ ahead := by
    rw [append_assoc, take_append_drop]
  refine ⟨old, seen ++ ahead.take n, ahead.drop n, rfl, ?_, hcu, ?_, ?_, ?_, ?_⟩
  · have hta := hf.table
    rwa [append_assoc, ← hsp, ← append_assoc] at hta
  · rw [hsp]
    exact hf.committed
  · rw [eventsOf_append, ← hf.delivered]
  · dsimp only
    split
    · exact le_refl _
    · exact hf.bound
  · dsimp only
    by_cases hev : eventsOf decodeEvent (ahead.take n) = []
    · rw [if_pos hev, take_length]
      refine ⟨(seen ++ ahead.take n).length, ?_⟩
      have hal : seen ++ ahead.take n = seen ++ ahead := by
        rw [← hsp, eq_nil_of_clear hcl hev, append_nil]
      rw [take_length, hal]
      exact hf.committed.symm
    · rw [if_neg hev]
      obtain ⟨m, hm⟩ := hf.heard
      refine ⟨min m seen.length, ?_⟩
      rw [take_append_of_le_length (Nat.min_le_right _ _), ← take_eq_take_min]
      exact hm

/-! ### Runs -/

variable [Postcard] [Sparql] [BodyCodec] [Sha2] [DecidableEq Event] {node : NodeId}

theorem inv_step {act : Action} (h : st.Inv decodeEvent s)
    (hcl : st.Clear decodeEvent s act) (hst : st.step decodeEvent node s act = some st') :
    st'.Inv decodeEvent s := by
  cases act with
  | start i ts =>
    simp only [step] at hst
    split at hst
    · cases hst
      exact inv_start h i _ rfl
    · cases hst
  | append i env a =>
    obtain ⟨writer, hwr, hst⟩ := Option.bind_eq_some_iff.mp hst
    exact inv_append h hwr hst
  | commit i =>
    obtain ⟨writer, hwr, hst⟩ := Option.bind_eq_some_iff.mp hst
    obtain ⟨ks, hks, hst⟩ := Option.bind_eq_some_iff.mp hst
    cases hst
    exact inv_commit h hwr (toOption_eq_some.mp hks) (hcl writer hwr) rfl rfl rfl rfl rfl rfl rfl
  | drop i =>
    cases hst
    exact inv_drop h i
  | subscribe =>
    simp only [step] at hst
    split at hst
    · next hno =>
      obtain ⟨stream, hstr, hst⟩ := Option.map_eq_some_iff.mp hst
      cases hst
      have hsu := toOption_eq_some.mp hstr
      refine ⟨h.ordered, h.known, { h.fresh with }, nofun, fun {stream'} hs => ?_⟩
      cases hs
      obtain ⟨old, hold⟩ := h.ordered.exists_isTable
      rw [subscribe_behind h.ordered hold] at hsu
      cases hsu
      obtain ⟨hd, hc, hh⟩ := h.quiet hno
      refine ⟨old, [], [], rfl, by simpa using hold, ⟨rfl, rfl⟩, ?_, hd, ?_, 0, ?_⟩
      · simp [hc]
      · simp [hh]
      · simp [hh]
    · cases hst
  | poll n =>
    obtain ⟨stream, hstr, hst⟩ := Option.bind_eq_some_iff.mp hst
    exact inv_poll h hstr (hcl stream hstr) hst

end Invariant
end Feed
section Main
variable {Event : Type} [DecidableEq Event] [Postcard] [Sparql] [BodyCodec] [Sha2]

/-- **Events are delivered once and none is skipped**, where every commit adds its rows behind what the
stream has passed and no poll is used up by rows that do not decode. -/
theorem events_exactly_once (decodeEvent : Bytes → Option Event) (node : NodeId) (s : Scope)
    (ks : Keyspace) (hks : TableInOrder s eventsTable ks) {st : Feed Event}
    (h : Reached (Feed.step decodeEvent node s) (Feed.Clear decodeEvent s) (Feed.initial s ks) st) :
    st.ExactlyOnce decodeEvent :=
  (h.holds (Feed.inv_initial hks) Feed.inv_step).exactlyOnce

end Main

/-! ## A late commit -/

namespace Sample

/-- Ids from the transaction's time and the place in the batch. -/
def minting : Env := ⟨fun i ts => ⟨be64 (UInt64.ofNat i + (ts <<< 8)) ++ be64 0, by simp⟩, fun _ _ => ""⟩

def eventByte : Bytes → Option UInt8
  | [b] => some b
  | _ => none

/-- Two transactions begin, the second commits and is polled, then the first commits. -/
def lateCommit : List Feed.Action :=
  [.subscribe, .start 0 1, .start 1 2, .append 0 minting (.append [1]),
    .append 1 minting (.append [2]), .commit 1, .poll 4, .commit 0, .poll 4]

/-- The same, but the first commits first. -/
def commitsInOrder : List Feed.Action :=
  [.subscribe, .start 0 1, .start 1 2, .append 0 minting (.append [1]),
    .append 1 minting (.append [2]), .commit 0, .poll 4, .commit 1, .poll 4, .poll 4]

end Sample
open Sample

/-- **The event of a transaction that began early and committed late is never delivered**: the last poll
returns nothing, and of the two events that were committed only one has been polled. -/
theorem late_commit_missed : ∃ st : Feed UInt8,
    Reached (Feed.step eventByte (node 1) scope) (fun _ _ => True) (Feed.initial scope ∅) st ∧
    st.committed.map Prod.snd = [[2], [1]] ∧ st.heard = 2 ∧ st.delivered = [2] ∧
    ¬st.ExactlyOnce eventByte := by
  obtain ⟨st, hr, hco, hh, hd, he⟩ : ∃ st : Feed UInt8,
      Reached (Feed.step eventByte (node 1) scope) (fun _ _ => True) (Feed.initial scope ∅) st ∧
      st.committed.map Prod.snd = [[2], [1]] ∧ st.heard = 2 ∧ st.delivered = [2] ∧
      Feed.eventsOf eventByte (st.committed.take st.heard) = [2, 1] :=
    exists_reached lateCommit (by decide +kernel)
  refine ⟨st, hr, hco, hh, hd, ?_⟩
  rintro ⟨_, hp, -⟩
  have hc := hp.length_eq
  rw [hd, he] at hc
  simp at hc

theorem events_exactly_once_inOrder : TableInOrder scope eventsTable ∅ ∧ ∃ st : Feed UInt8,
    Reached (Feed.step eventByte (node 1) scope)
      (Feed.Clear eventByte scope) (Feed.initial scope ∅) st ∧
    st.delivered = [1, 2] ∧ st.heard = 2 ∧ st.ExactlyOnce eventByte := by
  have he : TableInOrder scope eventsTable ∅ := by
    intro key hm _
    simp at hm
  obtain ⟨st, hr, hd, hh⟩ : ∃ st : Feed UInt8, Reached (Feed.step eventByte (node 1) scope)
        (Feed.Clear eventByte scope) (Feed.initial scope ∅) st ∧
      st.delivered = [1, 2] ∧ st.heard = 2 := exists_reached commitsInOrder (by decide +kernel)
  exact ⟨he, st, hr, hd, hh, events_exactly_once eventByte (node 1) scope ∅ he hr⟩

end Myrmic
