import Myrmic.Semantic

/-!
# Applying operations to a transaction

A client's bundle is a list of operations.  Each is applied in turn, and the first that fails ends the
bundle with an error that names the operation and its place.  What the operations before it, and the
failed one up to its failure, have written stays in the transaction: it is the handler that has to roll
the transaction back.

Ids of new rows and names of new blank nodes come from outside the store; `Env` provides them.
-/
namespace Myrmic
open OrderedBytes Fallible Programs

/-! ## Operations and responses -/

structure BlobId where
  scope : ApiScope
  hash : ByteVec 32
deriving DecidableEq

structure ChunkRange where
  offset : UInt64
  length : UInt64
deriving DecidableEq

structure BlobResponse where
  blob : Bytes
  blobId : BlobId
  range : Option ChunkRange
  totalLen : Nat
deriving DecidableEq

/-- Every operation that can be applied inside a transaction. -/
inductive TxOp where
  | scopeBackup (s : ApiScope)
  | scopeRestore (s : ApiScope) (snapshot : Snapshot)
  | keyPut (s : ApiScope) (key : String) (value : Bytes)
  | keyGet (s : ApiScope) (key : String)
  | keyDelete (s : ApiScope) (key : String)
  | keyPrefix (s : ApiScope) (start : String)
  | keyList (s : ApiScope) (start : String)
  | tbInsert (s : ApiScope) (table : String) (eid : Option Bytes) (value : Bytes)
  | tbAppend (s : ApiScope) (table : String) (eid : Option Bytes) (value : Bytes)
  | tbInsertBatched (s : ApiScope) (table : String) (entries : List (Option Bytes × Bytes))
  | tbCount (s : ApiScope) (table : String)
  | tbGet (s : ApiScope) (table : String) (eid : Bytes)
  | tbList (s : ApiScope) (table : String) (cursor : Option Cursor) (limit : Option Nat)
      (order : Option TbOrderBy)
  | tbDelete (s : ApiScope) (table : String) (eid : Bytes)
  | tsPublish (s : ApiScope) (measurement : String) (tags : Tags) (fields : Fields)
      (timestamp : UInt64)
  | tsFind (s : ApiScope) (measurement : String) (limit : Option Nat) (start stop : Option UInt64)
      (order : Option TsOrderBy)
  | blobStore (s : ApiScope) (blob : Bytes)
  | blobLink (id : BlobId) (path : String)
  | blobUnlink (s : ApiScope) (path : String)
  | blobMove (s : ApiScope) (oldPath newPath : String)
  | blobResolve (id : BlobId) (range : Option ChunkRange)
  | pathResolve (s : ApiScope) (path : String) (range : Option ChunkRange)
  | pathsList (s : ApiScope) (limit : Option Nat)
  | semUpdate (s : ApiScope) (query : String) (baseIri : Option String)
  | semSelect (s : ApiScope) (query : String) (baseIri : Option String) (skip limit : Option Nat)
  | semAsk (s : ApiScope) (query : String) (baseIri : Option String)
  | semConstruct (s : ApiScope) (query : String) (baseIri : Option String) (skip limit : Option Nat)
  | semDescribe (s : ApiScope) (query : String) (baseIri : Option String) (skip limit : Option Nat)

def TxOp.name : TxOp → String
  | .scopeBackup _ => "SCOPE_BACKUP"
  | .scopeRestore _ _ => "SCOPE_RESTORE"
  | .keyPut _ _ _ => "KEY_PUT"
  | .keyGet _ _ => "KEY_GET"
  | .keyDelete _ _ => "KEY_DELETE"
  | .keyPrefix _ _ => "KEY_PREFIX"
  | .keyList _ _ => "KEY_LIST"
  | .tbInsert _ _ _ _ => "TB_INSERT"
  | .tbAppend _ _ _ _ => "TB_APPEND"
  | .tbInsertBatched _ _ _ => "TB_INSERT_BATCHED"
  | .tbCount _ _ => "TB_COUNT"
  | .tbGet _ _ _ => "TB_GET"
  | .tbList _ _ _ _ _ => "TB_LIST"
  | .tbDelete _ _ _ => "TB_DELETE"
  | .tsPublish _ _ _ _ _ => "TS_PUBLISH"
  | .tsFind _ _ _ _ _ _ => "TS_FIND"
  | .blobStore _ _ => "BLOB_STORE"
  | .blobLink _ _ => "BLOB_LINK"
  | .blobUnlink _ _ => "BLOB_UNLINK"
  | .blobMove _ _ _ => "BLOB_MOVE"
  | .blobResolve _ _ => "BLOB_RESOLVE"
  | .pathResolve _ _ _ => "PATH_RESOLVE"
  | .pathsList _ _ => "PATHS_LIST"
  | .semUpdate _ _ _ => "SEM_UPDATE"
  | .semSelect _ _ _ _ _ => "SEM_SELECT"
  | .semAsk _ _ _ => "SEM_ASK"
  | .semConstruct _ _ _ _ _ => "SEM_CONSTRUCT"
  | .semDescribe _ _ _ _ _ => "SEM_DESCRIBE"

/-- What an operation answers; most writes answer nothing. -/
inductive TxOpResponse where
  | done
  | snapshot (snapshot : Snapshot)
  | value (value : Option Bytes)
  | keys (keys : List String)
  | entries (entries : List (String × Bytes))
  | eid (eid : Bytes)
  | eids (eids : List Bytes)
  | count (count : Nat)
  | entities (entities : List (Bytes × Bytes))
  | samples (samples : List (Tags × Fields × UInt64))
  | blobId (id : BlobId)
  | blob (blob : Option BlobResponse)
  | paths (paths : List String)
  | solutions (vars : List String) (solutions : List (List (Option String)))
  | answer (answer : Bool)
  | triples (triples : List (String × String × String))

/-- What an operation takes from outside the store: the ids made for rows without one, from the
transaction's time and a counter of the process, and the names of new blank nodes. -/
structure Env where
  mint : Nat → Version → ByteVec 16
  fresh : Nat → Nat → String

/-! ## Applying one operation -/

def defaultPageSize : Nat := 100

/-- Cuts the requested range out of a resolved blob. -/
def chunkOfBlob (blob : Bytes) (blobId : BlobId) (range : Option ChunkRange) :
    Except String BlobResponse :=
  let totalLen := blob.length
  match range with
  | none => .ok ⟨blob, blobId, none, totalLen⟩
  | some ⟨offset, length⟩ =>
    if length = 0 then .ok ⟨[], blobId, some ⟨offset, 0⟩, totalLen⟩
    else
      let start := offset.toNat
      let stop := min (min (start + length.toNat) maxUsize) totalLen
      if start ≤ stop then
        let chunk := (blob.take stop).drop start
        .ok ⟨chunk, blobId, some ⟨offset, UInt64.ofNat chunk.length⟩, totalLen⟩
      else
        let past := min (offset.toNat + length.toNat) maxUsize
        .error s!"requested chunk {offset}..{past} is out of bounds for a blob of {totalLen} bytes"

section Apply
variable [Sparql]

def parseUpdate (query : String) (baseIri : Option String) : Except String SparqlUpdate :=
  if baseIri.all Sparql.validBaseIri then
    contextNone "unable to parse update" (Sparql.parseUpdate baseIri query)
  else .error "invalid base iri"

def parseQuery (query : String) (baseIri : Option String) : Except String SparqlQuery :=
  if baseIri.all Sparql.validBaseIri then
    contextNone "unable to parse update" (Sparql.parseQuery baseIri query)
  else .error "invalid base iri"

/-- Parses a query and refuses any form but the expected one. -/
def semQuery (query : String) (baseIri : Option String) (expected : QueryKind) :
    Except String SparqlQuery := do
  let query ← parseQuery query baseIri
  let got := query.kind.name
  let wanted := expected.name
  if query.kind ≠ expected then .error s!"Expected `{wanted}` query, got `{got}`" else .ok query

variable [Postcard] [BodyCodec] [Sha2]
open TxProg

/-- Inserts a row and returns its id, made from the transaction's timestamp if none is given. -/
def insertRow (env : Env) (s : ApiScope) (table : String) (eid : Option Bytes) (value : Bytes) :
    TxProg Bytes := do
  let ts ← Prog.ask fun t : StoreTx => .ok t.tx.ts
  let eid := eid.getD (env.mint 0 ts).bytes
  StoreTx.tbInsert s table eid value
  event s table
  return eid

def tbInsertBatched (env : Env) (s : ApiScope) (table : String)
    (entries : List (Option Bytes × Bytes)) : TxProg (List Bytes) := do
  let ts ← Prog.ask fun t : StoreTx => .ok t.tx.ts
  let eids := entries.zipIdx.map fun e => e.1.1.getD (env.mint e.2 ts).bytes
  StoreTx.tbInsertBatched s table (eids.zip (entries.map Prod.snd))
  if !eids.isEmpty then
    event s table
  return eids

def semGraphOp (s : ApiScope) (query : SparqlQuery) (skip limit : Option Nat) :
    TxProg (List (String × String × String)) := do
  let scope ← keyScope s
  view fun ks => semGraph ks scope query (skip.getD 0) (limit.getD defaultPageSize)

/-- Applies one operation, leaving the transaction uncommitted. -/
def apply (env : Env) : TxOp → TxProg TxOpResponse
  | .scopeBackup s => do
    let snapshot ← TxProg.context "unable to take snapshot" (StoreTx.takeSnapshot s)
    return .snapshot snapshot
  | .scopeRestore s snapshot => do
    TxProg.context "unable to restore snapshot" (StoreTx.restoreSnapshot s snapshot)
    return .done
  | .keyPut s key value => do
    StoreTx.keyPut s key value
    event s "@keys"
    return .done
  | .keyGet s key => return .value (← StoreTx.keyGet s key)
  | .keyDelete s key => do
    StoreTx.keyDelete s key
    return .done
  | .keyPrefix s start => return .keys (← StoreTx.keyPrefix s start)
  | .keyList s start => return .entries (← StoreTx.keyList s start)
  | .tbInsert s table eid value => return .eid (← insertRow env s table eid value)
  | .tbAppend s table eid value => do
    let _ ← insertRow env s table eid value
    return .done
  | .tbInsertBatched s table entries => return .eids (← tbInsertBatched env s table entries)
  | .tbCount s table => return .count (← StoreTx.tbCount s table)
  | .tbGet s table eid => return .value (← StoreTx.tbGet s table eid)
  | .tbList s table cursor limit order =>
    return .entities (← StoreTx.tbList s table cursor limit order)
  | .tbDelete s table eid => do
    StoreTx.tbDelete s table eid
    return .done
  | .tsPublish s measurement tags fields timestamp => do
    StoreTx.publishMeasurement s measurement tags fields timestamp
    return .done
  | .tsFind s measurement limit start stop order =>
    return .samples (← StoreTx.findMeasurement s measurement limit start stop order)
  | .blobStore s blob => return .blobId ⟨s, ← StoreTx.storeBlob s blob⟩
  | .blobLink id path => do
    StoreTx.linkBlob id.scope path id.hash
    return .done
  | .blobUnlink s path => do
    let _ ← StoreTx.unlinkBlob s path
    return .done
  | .blobMove s oldPath newPath => do
    StoreTx.moveBlob s oldPath newPath
    return .done
  | .blobResolve id range => do
    match ← StoreTx.resolveBlob id.scope id.hash with
    | none => return .blob none
    | some blob => return .blob (some (← chunkOfBlob blob id range))
  | .pathResolve s path range => do
    match ← StoreTx.resolvePath s path with
    | none => return .blob none
    | some (blob, hash) => return .blob (some (← chunkOfBlob blob ⟨s, hash⟩ range))
  | .pathsList s limit => return .paths (← StoreTx.listPaths s limit)
  | .semUpdate s query baseIri => do
    let update ← parseUpdate query baseIri
    StoreTx.semUpdate env.fresh s update
    return .done
  | .semSelect s query baseIri skip limit => do
    let query ← semQuery query baseIri .select
    let scope ← keyScope s
    let (vars, solutions) ← view fun ks =>
      semSolution ks scope query (skip.getD 0) (limit.getD defaultPageSize)
    return .solutions vars (solutions.map fun solution =>
      solution.map fun term => term.map Sparql.termToString)
  | .semAsk s query baseIri => do
    let query ← semQuery query baseIri .ask
    let scope ← keyScope s
    return .answer (← view fun ks => semAsk ks scope query)
  | .semConstruct s query baseIri skip limit => do
    let query ← semQuery query baseIri .construct
    return .triples (← semGraphOp s query skip limit)
  | .semDescribe s query baseIri skip limit => do
    let query ← semQuery query baseIri .describe
    return .triples (← semGraphOp s query skip limit)

/-! ## Which calls an operation makes -/

section Plain
open Prog StoreTx

variable (env : Env)

omit [Sparql] [Postcard] [BodyCodec] [Sha2] in
theorem plain_insertRow {s : ApiScope} {table : String} {eid : Option Bytes} {v : Bytes} :
    Plain (insertRow env s table eid v) :=
  only_ask.bind fun _ => (plain_tbInsert ..).bind fun _ => (plain_event ..).bind fun _ =>
    only_pure

omit [Sparql] [Postcard] [BodyCodec] [Sha2] in
theorem plain_tbInsertBatchedOp {s : ApiScope} {table : String} {es : List (Option Bytes × Bytes)} :
    Plain (tbInsertBatched env s table es) := by
  refine only_ask.bind fun ts => (plain_tbInsertBatched ..).bind fun _ => ?_
  dsimp only
  split
  · exact (plain_event ..).bind fun _ => only_pure
  · exact only_pure

/-- **Every operation but a restore makes plain calls only.** -/
theorem apply_plain {op : TxOp} (hop : ∀ s snap, op ≠ .scopeRestore s snap) :
    Plain (apply env op) := by
  have read : ∀ {α : Type} {p : TxProg α} {f : α → TxOpResponse}, Plain p →
      Plain (p >>= fun a => pure (f a)) := fun hp => hp.bind fun _ => only_pure
  cases op with
  | scopeRestore s snap => exact absurd rfl (hop s snap)
  | scopeBackup s => exact read ((only_lift.bind fun _ => plain_view).mapError _)
  | keyPut s key v =>
    refine ((plain_writeScope s).bind fun _ => only_lift.bind fun _ => plain_put ..).bind fun _ => ?_
    exact (plain_event ..).bind fun _ => only_pure
  | keyGet s key | keyPrefix s start | keyList s start | tbCount s table
  | tbList s table cursor limit order | tsFind s measurement limit start stop order =>
    exact read (only_lift.bind fun _ => only_lift.bind fun _ => plain_view)
  | keyDelete s key =>
    exact read ((plain_writeScope s).bind fun _ => only_lift.bind fun _ => plain_erase ..)
  | tbInsert s table eid v => exact read (plain_insertRow env)
  | tbAppend s table eid v => exact (plain_insertRow env).bind fun _ => only_pure
  | tbInsertBatched s table es => exact read (plain_tbInsertBatchedOp env)
  | tbGet s table eid =>
    exact read (only_lift.bind fun _ => only_lift.bind fun _ =>
      only_lift.bind fun _ => plain_view)
  | tbDelete s table eid =>
    exact read ((plain_writeScope s).bind fun _ => only_lift.bind fun _ => only_lift.bind fun _ =>
      plain_erase ..)
  | tsPublish s measurement tags fields ts =>
    exact read ((plain_writeScope s).bind fun _ => only_lift.bind fun _ => plain_put ..)
  | blobStore s blob =>
    exact read ((plain_writeScope s).bind fun _ => (plain_put ..).bind fun _ => only_pure)
  | blobLink id path => exact (plain_linkBlob ..).bind fun _ => only_pure
  | blobUnlink s path => exact (plain_unlinkBlob ..).bind fun _ => only_pure
  | blobMove s oldPath newPath => exact (plain_moveBlob ..).bind fun _ => only_pure
  | blobResolve id range =>
    refine (only_lift.bind fun _ => plain_view).bind fun found => ?_
    cases found with
    | none => exact only_pure
    | some blob => exact only_lift.bind fun _ => only_pure
  | pathResolve s path range =>
    refine (plain_resolvePath s path).bind fun found => ?_
    cases found with
    | none => exact only_pure
    | some found => exact only_lift.bind fun _ => only_pure
  | pathsList s limit => exact read (only_lift.bind fun _ => plain_view)
  | semUpdate s query baseIri =>
    exact only_lift.bind fun _ => read ((plain_writeScope s).bind fun _ =>
      only_each fun _ _ => plain_semOperation ..)
  | semSelect s query baseIri skip limit | semAsk s query baseIri =>
    exact only_lift.bind fun _ => only_lift.bind fun _ => plain_view.bind fun _ =>
      only_pure
  | semConstruct s query baseIri skip limit | semDescribe s query baseIri skip limit =>
    exact only_lift.bind fun _ => read (only_lift.bind fun _ => plain_view)

end Plain

/-! ## Applying a bundle -/

/-- Why a bundle was refused, and the operation that failed. -/
structure ApplyError where
  message : String
  index : Option Nat
deriving DecidableEq

/-- Applies every operation in order and returns the last one's response.  `envs` provides for each
operation what it takes from outside. -/
def applyAll (envs : Nat → Env) (index : Nat) (last : Option TxOpResponse) :
    List TxOp → StoreTx → Except ApplyError (Option TxOpResponse) × StoreTx
  | [], t => (.ok last, t)
  | op :: ops, t =>
    match (apply (envs index) op).run t with
    | (.ok response, t) => applyAll envs (index + 1) (some response) ops t
    | (.error message, t) =>
      let name := op.name
      (.error ⟨s!"{name}: {message}", some (min index (2 ^ 32 - 1))⟩, t)

end Apply

end Myrmic
