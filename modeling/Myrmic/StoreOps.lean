import Myrmic.Programs
import Myrmic.Records
import Myrmic.Stores

/-!
# The operations of a transaction

A transaction as the handlers hold it is an open transaction with the table events its commit will
publish.  Its operations on key-value pairs, tables, measurements and blobs are **programs**: they look
at what the transaction sees and perform the calls of `TxCall`.  An operation that fails keeps what it
has done; it is up to its caller to roll the transaction back.

Names arrive as strings and are checked where the source encodes them, so a write first marks its scope
as written to and may fail on its key after that.
-/
namespace Myrmic
open OrderedBytes Fallible Programs

/-- A scope as a client names it. -/
structure ApiScope where
  nameSpace : String
  database : String
  schema : String
deriving DecidableEq

/-- The scope that a key is built from; encoding the key refuses names with a NUL. -/
def keyScope (s : ApiScope) : Except String Scope := do
  let nameSpace ← Name.ofString s.nameSpace
  let database ← Name.ofString s.database
  let schema ← Name.ofString s.schema
  return ⟨nameSpace, database, schema⟩

def Scope.api (s : Scope) : ApiScope := ⟨s.nameSpace.val, s.database.val, s.schema.val⟩

theorem Name.ofString_val (n : Name) : Name.ofString n.val = .ok n := dif_pos n.noNul

theorem Scope.keyScope_api (s : Scope) : keyScope s.api = .ok s := by
  simp [keyScope, Scope.api, Name.ofString_val, bind, Except.bind, pure, Except.pure]

theorem Scope.new_api (s : Scope) :
    Scope.new s.api.nameSpace s.api.database s.api.schema = .ok s := by
  simp [Scope.new, Scope.api, Name.ofString_val, bind, Except.bind, pure, Except.pure]

/-! ## Transactions with their events -/

/-- An open transaction and the tables whose events its commit publishes. -/
structure StoreTx where
  tx : Tx
  metadata : List (ApiScope × String)

/-- What an operation does to its transaction. -/
inductive TxEffect where
  | call (c : TxCall)
  | event (s : ApiScope) (table : String)

/-- A call that writes rows at the transaction's own timestamp. -/
def TxCall.Plain : TxCall → Prop
  | .writeScope _ => True
  | .put _ _ => True
  | .putIfAbsent _ _ => True
  | .erase _ => True
  | _ => False

def TxEffect.Plain : TxEffect → Prop
  | .call c => c.Plain
  | .event _ _ => True

/-- The hash that blobs are named by. -/
class Sha2 where
  sha256 : Bytes → ByteVec 32

section StoreTx
variable [Postcard] {c : TxCall} {b : Bool}

/-- What a call answers: whether it wrote something. -/
def Tx.perform (tx : Tx) (c : TxCall) : Except String (Bool × Tx) :=
  match c with
  | .putIfAbsent loc value => tx.putIfAbsentRaw loc.key value
  | .insertChangeset p sm entries => tx.insertChangeset p sm entries
  | c => (tx.call c).map fun tx => (true, tx)

theorem Tx.call_of_perform {tx tx' : Tx} (h : tx.perform c = .ok (b, tx')) :
    tx.call c = .ok tx' := by
  cases c with
  | putIfAbsent loc value | insertChangeset p sm es =>
    simp only [Tx.perform] at h
    simp [Tx.call, h, Except.map]
  | _ =>
    rw [Tx.perform] at h
    · obtain ⟨_, h, ⟨⟩⟩ := map_eq_ok.mp h
      exact h
    all_goals nofun

def StoreTx.start (tx : Tx) : StoreTx := ⟨tx, []⟩

def StoreTx.act (t : StoreTx) : TxEffect → Except String (Bool × StoreTx)
  | .call c => (t.tx.perform c).map fun r => (r.1, { t with tx := r.2 })
  | .event s table =>
    .ok (true, { t with metadata := if (s, table) ∈ t.metadata then t.metadata
      else (s, table) :: t.metadata })

theorem StoreTx.act_call {t t' : StoreTx} (h : t.act (.call c) = .ok (b, t')) :
    t.tx.call c = .ok t'.tx ∧ t'.metadata = t.metadata := by
  obtain ⟨_, hc, ⟨⟩⟩ := map_eq_ok.mp h
  exact ⟨Tx.call_of_perform hc, rfl⟩

end StoreTx

/-! ## Programs of a transaction -/

abbrev TxProg := Prog StoreTx TxEffect String

namespace TxProg

/-- Replaces the outermost message of a failure. -/
def context {α : Type} (msg : String) (p : TxProg α) : TxProg α := p.mapError fun _ => msg

def call (c : TxCall) : TxProg Bool := Prog.call (.call c)

def event (s : ApiScope) (table : String) : TxProg Unit := do
  let _ ← (Prog.call (.event s table) : TxProg Bool)
  return ()

variable [Postcard]

def run {α : Type} (p : TxProg α) (t : StoreTx) : Except String α × StoreTx :=
  p.exec id StoreTx.act t

def view {α : Type} (f : Keyspace → Except String α) : TxProg α := Prog.ask fun t => f t.tx.view

def get (key : Bytes) : TxProg (Option Bytes) :=
  view fun ks => (getRaw ks key).map (Option.map Prod.snd)

/-- Marks the scope as written to, or touches nothing if it cannot be encoded. -/
def writeScope (s : ApiScope) : TxProg Scope := do
  let scope ← Scope.new s.nameSpace s.database s.schema
  let _ ← call (.writeScope scope)
  return scope

def put (s : Scope) (k : DataKey) (value : Bytes) : TxProg Unit := do
  let _ ← call (.put (.data s k) value)
  return ()

def erase (s : Scope) (k : DataKey) : TxProg Unit := do
  let _ ← call (.erase (.data s k))
  return ()

/-! ### Running the pieces -/

section Run
variable {α β : Type} (t : StoreTx)

theorem run_bind (p : TxProg α) (f : α → TxProg β) : (p >>= f).run t = match p.run t with
    | (.ok a, t') => (f a).run t'
    | (.error e, t') => (.error e, t') := by
  have hb : (p >>= f).run t = (p.bind f).exec id StoreTx.act t := rfl
  rw [hb, Prog.exec_bind]
  cases hr : p.run t with
  | mk r t' =>
    rw [run] at hr
    rw [hr]
    cases r <;> rfl

theorem run_lift (x : Except String α) : (liftM x : TxProg α).run t = (x, t) := by
  cases x <;> rfl

theorem run_ask (f : StoreTx → Except String α) : run (Prog.ask f) t = (f t, t) := by
  have hr : run (Prog.ask f) t = run (Prog.ofExcept (f t)) t := rfl
  rw [hr]
  cases f t <;> rfl

theorem run_writeScope (s : ApiScope) : (writeScope s).run t =
    match Scope.new s.nameSpace s.database s.schema with
    | .ok scope => (.ok scope, { t with tx := t.tx.writeScope scope })
    | .error e => (.error e, t) := by
  rw [writeScope, run_bind, run_lift]
  cases Scope.new s.nameSpace s.database s.schema <;> rfl

theorem run_event (s : ApiScope) (table : String) : ∃ md,
    (event s table).run t = (.ok (), { t with metadata := md }) := ⟨_, rfl⟩

end Run
end TxProg
namespace StoreTx
open TxProg

/-! ### Key-value pairs -/

def keyPut (s : ApiScope) (key : String) (value : Bytes) : TxProg Unit := do
  let scope ← writeScope s
  let key ← Name.ofString key
  put scope (.kv key) value

def keyDelete (s : ApiScope) (key : String) : TxProg Unit := do
  let scope ← writeScope s
  let key ← Name.ofString key
  erase scope (.kv key)

/-! ### Tables -/

def tbInsert (s : ApiScope) (table : String) (id value : Bytes) : TxProg Unit := do
  let scope ← writeScope s
  let table ← Name.ofString table
  put scope (.table table (← Id.ofBytes id)) value

def tbDelete (s : ApiScope) (table : String) (id : Bytes) : TxProg Unit := do
  let scope ← writeScope s
  let table ← Name.ofString table
  erase scope (.table table (← Id.ofBytes id))

/-- Inserts many rows into a single table. -/
def tbInsertBatched (s : ApiScope) (table : String) (entries : List (Bytes × Bytes)) :
    TxProg Unit := do
  let scope ← writeScope s
  Prog.each (fun entry => do
    let table ← Name.ofString table
    put scope (.table table (← Id.ofBytes entry.1)) entry.2) entries

/-! ### Measurements -/

def publishMeasurement [BodyCodec] (s : ApiScope) (measurement : String) (tags : Tags)
    (fields : Fields) (timestamp : UInt64) : TxProg Unit := do
  let scope ← writeScope s
  let measurement ← Name.ofString measurement
  put scope (.measurement measurement timestamp) (BodyCodec.toAllocvec tags fields)

/-! ### Blobs -/

def storeBlob [Sha2] (s : ApiScope) (blob : Bytes) : TxProg (ByteVec 32) := do
  let scope ← writeScope s
  let hash := Sha2.sha256 blob
  put scope (.blobId hash) blob
  return hash

def linkBlob (s : ApiScope) (path : String) (hash : ByteVec 32) : TxProg Unit := do
  let scope ← writeScope s
  let path ← Name.ofString path
  put scope (.blobMeta hash path) []
  put scope (.path path) (scope.dataKey (.blobId hash))

section Reads
variable [Postcard]

def keyGet (s : ApiScope) (key : String) : TxProg (Option Bytes) := do
  let scope ← keyScope s
  let key ← Name.ofString key
  get (scope.dataKey (.kv key))

def keyPrefix (s : ApiScope) (start : String) : TxProg (List String) := do
  let scope ← keyScope s
  let start ← Name.ofString start
  view fun ks => Myrmic.keyPrefix ks scope start

def keyList (s : ApiScope) (start : String) : TxProg (List (String × Bytes)) := do
  let scope ← keyScope s
  let start ← Name.ofString start
  view fun ks => Myrmic.keyList ks scope start

def tbCount (s : ApiScope) (table : String) : TxProg Nat := do
  let scope ← keyScope s
  let table ← Name.ofString table
  view fun ks => Myrmic.tbCount ks scope table

def tbGet (s : ApiScope) (table : String) (id : Bytes) : TxProg (Option Bytes) := do
  let scope ← keyScope s
  let table ← Name.ofString table
  get (scope.dataKey (.table table (← Id.ofBytes id)))

def tbList (s : ApiScope) (table : String) (cursor : Option Cursor) (limit : Option Nat)
    (order : Option TbOrderBy) : TxProg (List (Bytes × Bytes)) := do
  let scope ← keyScope s
  let table ← Name.ofString table
  view fun ks => Myrmic.tbList ks scope table cursor limit order

def findMeasurement [BodyCodec] (s : ApiScope) (measurement : String) (limit : Option Nat)
    (start stop : Option UInt64) (order : Option TsOrderBy) :
    TxProg (List (Tags × Fields × UInt64)) := do
  let scope ← keyScope s
  let measurement ← Name.ofString measurement
  view fun ks => Myrmic.findMeasurement ks scope measurement limit start stop order

/-- Unlinks a path and returns the blob it led to, with the metadata of the link. -/
def unlinkBlob (s : ApiScope) (path : String) : TxProg (Option (ByteVec 32 × Option Bytes)) := do
  let scope ← writeScope s
  let path ← Name.ofString path
  match ← get (scope.dataKey (.path path)) with
  | none => return none
  | some id =>
    let (_, hash) ← Myrmic.context "unable to decode blob id" (decodeBlobId id)
    let metadata ← get (scope.dataKey (.blobMeta hash path))
    if metadata.isSome then
      erase scope (.blobMeta hash path)
    erase scope (.path path)
    return some (hash, metadata)

def moveBlob (s : ApiScope) (oldPath newPath : String) : TxProg Unit := do
  let unlinked ← unlinkBlob s oldPath
  let (hash, _) ← contextNone "no blob at source path" unlinked
  linkBlob s newPath hash

def resolveBlob (s : ApiScope) (hash : ByteVec 32) : TxProg (Option Bytes) := do
  let scope ← keyScope s
  get (scope.dataKey (.blobId hash))

/-- The blob behind a path; the scope it is looked up in is the one the path's row names. -/
def resolvePath (s : ApiScope) (path : String) : TxProg (Option (Bytes × ByteVec 32)) := do
  let scope ← keyScope s
  let path ← Name.ofString path
  match ← get (scope.dataKey (.path path)) with
  | none => return none
  | some id =>
    let (owner, hash) ← Myrmic.context "unable to decode blob id" (decodeBlobId id)
    match ← get (owner.dataKey (.blobId hash)) with
    | none => return none
    | some blob => return some (blob, hash)

def listPaths (s : ApiScope) (limit : Option Nat) : TxProg (List String) := do
  let scope ← keyScope s
  view fun ks => Myrmic.listPaths ks scope limit

/-! ### Snapshots -/

def takeSnapshot (s : ApiScope) : TxProg Snapshot := do
  let scope ← keyScope s
  view fun ks => Myrmic.takeSnapshot ks scope

end Reads

def restoreSnapshot (s : ApiScope) (snapshot : Snapshot) : TxProg Unit := do
  let scope ← Myrmic.context "unable to construct sync point range" (keyScope s)
  let _ ← call (.restoreSnapshot scope snapshot)
  return ()

/-! ### Which calls the operations make

Every operation but a restore makes plain calls only. -/

/-- The program makes plain calls only. -/
abbrev Plain {α : Type} (p : TxProg α) : Prop := p.Only TxEffect.Plain

section Plain
open Prog

variable (s : ApiScope)

theorem plain_writeScope : Plain (writeScope s) :=
  only_lift.bind fun _ => (only_call trivial).bind fun _ => only_pure

theorem plain_put {s : Scope} {k : DataKey} {v : Bytes} : Plain (put s k v) :=
  (only_call trivial).bind fun _ => only_pure

theorem plain_erase (s : Scope) (k : DataKey) : Plain (erase s k) :=
  (only_call trivial).bind fun _ => only_pure

variable (table : String)

theorem plain_event : Plain (event s table) := (only_call trivial).bind fun _ => only_pure

theorem plain_tbInsert (id v : Bytes) : Plain (tbInsert s table id v) :=
  (plain_writeScope s).bind fun _ => only_lift.bind fun _ => only_lift.bind fun _ =>
    plain_put ..

theorem plain_tbInsertBatched (es : List (Bytes × Bytes)) : Plain (tbInsertBatched s table es) :=
  (plain_writeScope s).bind fun _ => only_each fun _ _ => only_lift.bind fun _ =>
    only_lift.bind fun _ => plain_put ..

variable (path : String)

theorem plain_linkBlob (hash : ByteVec 32) : Plain (linkBlob s path hash) :=
  (plain_writeScope s).bind fun _ => only_lift.bind fun _ => (plain_put ..).bind fun _ =>
    plain_put ..

variable [Postcard]

theorem plain_view {α : Type} {f : Keyspace → Except String α} : Plain (view f) := only_ask

theorem plain_unlinkBlob : Plain (unlinkBlob s path) := by
  refine (plain_writeScope s).bind fun scope => only_lift.bind fun name =>
    plain_view.bind fun found => ?_
  cases found with
  | none => exact only_pure
  | some id =>
    refine only_lift.bind fun owner => plain_view.bind fun md => ?_
    dsimp only
    split
    · exact (plain_erase ..).bind fun _ => (plain_erase ..).bind fun _ => only_pure
    · exact (plain_erase ..).bind fun _ => only_pure

theorem plain_moveBlob (oldPath newPath : String) : Plain (moveBlob s oldPath newPath) :=
  (plain_unlinkBlob s oldPath).bind fun _ => only_lift.bind fun _ => plain_linkBlob ..

theorem plain_resolvePath : Plain (resolvePath s path) := by
  refine only_lift.bind fun scope => only_lift.bind fun name =>
    plain_view.bind fun found => ?_
  cases found with
  | none => exact only_pure
  | some id =>
    refine only_lift.bind fun owner => plain_view.bind fun blob => ?_
    cases blob <;> exact only_pure

end Plain
end StoreTx

end Myrmic
