import Myrmic.Cells
import Myrmic.Dialogs
import Myrmic.TxOps

/-!
# The registries

The placements and instances of cells, the restart specs and deaths of roots and the gateway's routes
are rows of the database.  Every change of them is a **registry call**: a body that reads and writes rows in one transaction.  The source wraps the body
such that its outcome reaches the transaction as a *value*: a body that refuses looks like one that
succeeded, and what it has written before is committed all the same.

A body is a dialog whose requests are the operations of the database (`Body`), and `RegistryCall.body`
collects the bodies of all calls.  What a call reads in transactions of its own before its write
transaction is an argument here.
-/
namespace Myrmic
open OrderedBytes Fallible Dialogs

/-! ## Bodies -/

/-- What comes back for an operation. -/
inductive Reply where
  | response (r : TxOpResponse)
  | refused (message : String)
  | lost

/-- What a client does with an open transaction. -/
abbrev Body := Dialog TxOp Reply String

/-- Sends an operation and narrows the response to the operation's own type; the first text is that of
a request that could not be sent, the second that of an operation that failed. -/
def Body.request {β : Type} (sending failing : String) (op : TxOp) (pick : TxOpResponse → Option β) :
    Body β :=
  .send op fun
    | .lost => .fail sending
    | .refused message => .fail (failing ++ ": " ++ message)
    | .response r =>
      match pick r with
      | some b => .done b
      | none => .fail (failing ++ ": application returned the wrong response for " ++ op.name)

/-! ## Where the rows are -/

def placementScope : ApiScope := ⟨"sorg", "cell-placement", "p"⟩

/-- The key that every claim of a cell reads and writes. -/
def placementClaimKey (sri : Sri) : String := "claim/" ++ sri.display

def instanceRegistryScope : ApiScope := ⟨"sorg", "cell-instance-registry", "p"⟩

def rootRestartScope : ApiScope := ⟨"sorg", "root-restart", "p"⟩

def rootDeathScope : ApiScope := ⟨"sorg", "root-death", "p"⟩

def gatewayConfigScope : ApiScope := ⟨"gw", "gateway-config", "p"⟩

def entriesTable : String := "entries"

/-- The scope a cell serves its assets from. -/
def cellAssetScope (sri : Sri) : ApiScope := ⟨"gw", "gateway-assets", sri.display⟩

/-! ## Narrowing responses -/

namespace TxOpResponse

def value? : TxOpResponse → Option (Option Bytes)
  | .value v => some v
  | _ => none

def eid? : TxOpResponse → Option Bytes
  | .eid e => some e
  | _ => none

def done? : TxOpResponse → Option Unit
  | .done => some ()
  | _ => none

def keys? : TxOpResponse → Option (List String)
  | .keys ks => some ks
  | _ => none

def entries? : TxOpResponse → Option (List (String × Bytes))
  | .entries es => some es
  | _ => none

end TxOpResponse
open TxOpResponse (value? eid? done? keys? entries?)

/-! ## Reading and writing rows of tables -/

/-- A point read of a table's row. -/
def tableGet (failing : String) (scope : ApiScope) (table : String) (eid : Bytes) :
    Body (Option Bytes) :=
  Body.request "unable to send get request" failing (.tbGet scope table eid) value?

def tableInsert (failing : String) (scope : ApiScope) (table : String) (eid value : Bytes) :
    Body Unit := do
  let _ ← Body.request "unable to send insert request" failing
    (.tbInsert scope table (some eid) value) eid?
  return ()

def tableDelete (failing : String) (scope : ApiScope) (table : String) (eid : Bytes) : Body Unit :=
  Body.request "unable to send delete request" failing (.tbDelete scope table eid) done?

def decoded {α : Type} [Stored α] (failing : String) (bytes : Bytes) : Body α :=
  match Stored.fromBytes bytes with
  | .ok a => .done a
  | .error _ => .fail failing

def decodedOption {α : Type} [Stored α] (failing : String) : Option Bytes → Body (Option α)
  | none => .done none
  | some bytes => do return some (← decoded failing bytes)

/-! ## Text -/

/-- The bytes that pairs of hexadecimal digits write. -/
def hexPairs : List Char → Option Bytes
  | [] => some []
  | [_] => none
  | a :: b :: cs => do
    let hi ← hexValue a
    let lo ← hexValue b
    return UInt8.ofNat (16 * hi + lo) :: (← hexPairs cs)

/-! ## Rows per generation -/

namespace GenerationRows
variable [UuidText]

def generationsIn (scope : ApiScope) (sri : Sri) : Body (List Gen) := do
  let keys ← Body.request "unable to send prefix request" "unable to list generations"
    (.keyPrefix scope (generationsOf sri)) keys?
  keys.mapM fun key =>
    match parseGenerationKey key with
    | some (_, genId) => .done genId
    | none => .fail ("malformed generation key " ++ key.quote)

/-- The newest generation of a cell; its own key is read too, for the store's conflict check. -/
def newestGeneration (scope : ApiScope) (sri : Sri) (genId : Gen) : Body (Option Gen) := do
  let _ ← Body.request "unable to send get request" "unable to read generation"
    (.keyGet scope (generationKey sri genId)) value?
  return (← generationsIn scope sri).max?

/-- Whether a write to a generation may go ahead. -/
def admitted (scope : ApiScope) (sri : Sri) (genId : Gen) : Body (Except FenceOutcome Unit) := do
  return fenceAdmission (← newestGeneration scope sri genId) genId

/-- Removes the row of a generation, whether or not the transaction sees it. -/
def remove (scope : ApiScope) (sri : Sri) (genId : Gen) : Body FenceOutcome := do
  let newest ← newestGeneration scope sri genId
  Body.request "unable to send delete request" "unable to remove row"
    (.keyDelete scope (generationKey sri genId)) done?
  match fenceAdmission newest genId with
  | .ok () => return .applied
  | .error outcome => return outcome

def list (scope : ApiScope) (start : String) : Body (List (String × Bytes)) :=
  Body.request "unable to send list request" "unable to list rows" (.keyList scope start) entries?

def put (scope : ApiScope) (key : String) (value : Bytes) : Body Unit :=
  Body.request "unable to send put request" "unable to write row" (.keyPut scope key value) done?

end GenerationRows
open GenerationRows
section Cells
variable [UuidText]

/-! ## Placements -/

inductive PlacementClaimOutcome where
  | claimed
  | alreadyExists
deriving DecidableEq

section Placements
variable [Stored PlacementRow]

/-- A cell's placement, its newest generation. -/
def getPlacementInTx (sri : Sri) : Body (Option PlacementEntry) := do
  let entries ← list placementScope (generationsOf sri)
  match (newestPlacements entries).mapM fun placement => placement with
  | .ok placements => return placements.getLast?
  | .error e => .fail ("unable to read placement: " ++ e)

def putPlacement (entry : PlacementEntry) : Body Unit :=
  put placementScope (generationKey entry.sri entry.genId) (Stored.toAllocvec entry.row)

def doClaim (entry : PlacementEntry) : Body PlacementClaimOutcome := do
  -- read and written by every claim of the cell, so that two concurrent claims conflict
  let _ ← Body.request "placement claim read failed" "placement claim read failed"
    (.keyGet placementScope (placementClaimKey entry.sri)) value?
  match ← getPlacementInTx entry.sri with
  | some _ => return .alreadyExists
  | none =>
    put placementScope (placementClaimKey entry.sri) []
    putPlacement entry
    return .claimed

def doCommitPlacement (entry : PlacementEntry) : Body FenceOutcome := do
  match ← admitted placementScope entry.sri entry.genId with
  | .error outcome => return outcome
  | .ok () =>
    putPlacement entry
    return .applied

end Placements

def doRemovePlacement (sri : Sri) (genId : Gen) : Body FenceOutcome := do
  let outcome ← remove placementScope sri genId
  Body.request "placement claim removal failed" "placement claim removal failed"
    (.keyDelete placementScope (placementClaimKey sri)) done?
  return outcome

/-! ## Instances -/

section Instances
variable [Stored InstanceRow]

/-- Writes a generation's row and removes those of older ones. -/
def writeRegistryEntry (record : CellInstance) (gens : List Gen) : Body Unit := do
  Dialog.each (fun genId => do
    let _ ← remove instanceRegistryScope record.sri genId
    return ()) (gens.filter fun genId => genId < record.genId)
  put instanceRegistryScope (generationKey record.sri record.genId) (Stored.toAllocvec record.row)

def doInsertRegistryEntry (record : CellInstance) : Body Unit := do
  let gens ← generationsIn instanceRegistryScope record.sri
  writeRegistryEntry record gens

end Instances
end Cells

/-! ## Restart specs and deaths of roots -/

def sriEid (sri : Sri) : Bytes := strBytes sri.display

section Roots
variable [Stored CellDeployment] [Stored RootDeath]

def doWriteSpec (deployment : CellDeployment) : Body Unit :=
  tableInsert "unable to insert root restart spec" rootRestartScope entriesTable
    (sriEid deployment.sri) (Stored.toAllocvec deployment)

def doGetSpec (sri : Sri) : Body (Option CellDeployment) := do
  let value ← tableGet "unable to get root restart spec" rootRestartScope entriesTable (sriEid sri)
  decodedOption "failed to deserialize root restart spec" value

def doEraseSpec (sri : Sri) : Body Bool := do
  match ← doGetSpec sri with
  | none => return false
  | some _ =>
    tableDelete "unable to delete root restart spec" rootRestartScope entriesTable (sriEid sri)
    return true

def doRecord (death : RootDeath) : Body Unit :=
  tableInsert "unable to insert root death" rootDeathScope entriesTable (sriEid death.sri)
    (Stored.toAllocvec death)

def doClear (sri : Sri) : Body Bool := do
  match ← tableGet "unable to get root death" rootDeathScope entriesTable (sriEid sri) with
  | none => return false
  | some _ =>
    tableDelete "unable to delete root death" rootDeathScope entriesTable (sriEid sri)
    return true

end Roots

/-! ## Gateway routes and assets -/

def deregisterGatewayRouteInTx (mount : String) : Body Unit :=
  Body.request "gateway route delete failed" "gateway route delete failed"
    (.tbDelete gatewayConfigScope entriesTable (strBytes mount)) done?

def unlinkPathsInTx (scope : ApiScope) (paths : List String) : Body Unit :=
  Dialog.each (fun path => Body.request "unable to send unlink request" "unable to unlink cell asset"
    (.blobUnlink scope path) done?) paths

/-! ## The calls -/

/-- A call that changes a registry. -/
inductive RegistryCall where
  | claimPlacement (entry : PlacementEntry)
  | commitPlacement (entry : PlacementEntry)
  | removePlacement (sri : Sri) (genId : Gen)
  | removeInstance (sri : Sri) (genId : Gen)
  | insertRegistryEntry (record : CellInstance)
  | writeSpec (deployment : CellDeployment)
  | eraseSpec (sri : Sri)
  | recordDeath (death : RootDeath)
  | clearDeath (sri : Sri)
  | deregisterCellRoutes (mounts : List String)
  | purgeCellAssets (sri : Sri) (paths : List String)

namespace RegistryCall

def Result : RegistryCall → Type
  | claimPlacement .. => PlacementClaimOutcome
  | commitPlacement .. => FenceOutcome
  | removePlacement .. => FenceOutcome
  | removeInstance .. => FenceOutcome
  | eraseSpec .. => Bool
  | clearDeath .. => Bool
  | _ => Unit

variable [UuidText] [Stored PlacementRow] [Stored InstanceRow] [Stored CellDeployment]
  [Stored RootDeath]

/-- What a call does inside its transaction. -/
def body : (c : RegistryCall) → Body c.Result
  | claimPlacement entry => doClaim entry
  | commitPlacement entry => doCommitPlacement entry
  | removePlacement sri genId => doRemovePlacement sri genId
  | removeInstance sri genId => remove instanceRegistryScope sri genId
  | insertRegistryEntry record => doInsertRegistryEntry record
  | writeSpec deployment => doWriteSpec deployment
  | eraseSpec sri => doEraseSpec sri
  | recordDeath death => doRecord death
  | clearDeath sri => doClear sri
  | deregisterCellRoutes mounts => Dialog.each deregisterGatewayRouteInTx mounts
  | purgeCellAssets sri paths => unlinkPathsInTx (cellAssetScope sri) paths

end RegistryCall

end Myrmic
