import Myrmic.Registries

/-!
# Deploys, rollbacks and undeploys

A deploy claims every cell of its batch by a placeholder, lets runtimes load the cells, publishes their
placements and at last writes the restart specs of the roots.  It keeps a record of what it has done
(`DeployTransaction`), and a deploy that fails undoes what the record says.  An undeploy releases what a
cell has declared for itself, and then the placement and the instance of the life it found.

Cells of a batch are loaded one after another here; that they load at the same time makes no difference
to the registries, which only the cells themselves write to meanwhile.
-/
namespace Myrmic
open Processes

/-! ## Waiting for answers -/

abbrev Orch := Process Request Request.Ans

namespace Orch

def call (c : DbCall) : Orch (Except String c.Value) := Process.ask (Request.db c)

def listSpecs : Orch (Except String (List CellDeployment)) := call .listSpecs

def listDeaths : Orch (Except String (List RootDeath)) := call .listDeaths

def listPlacements : Orch (Except String (List PlacementEntry)) := call .listPlacements

def listInstances : Orch (Except String (List CellInstance)) := call .listInstances

def listGatewayRoutes : Orch (Except String (List Route)) := call .listGatewayRoutes

def listCellAssets (sri : Sri) : Orch (Except String (List String)) := call (.listCellAssets sri)

def getSpec (sri : Sri) : Orch (Except String (Option CellDeployment)) := call (.getSpec sri)

def getPlacement (sri : Sri) : Orch (Except String (Option PlacementEntry)) :=
  call (.getPlacement sri)

def getInstance (sri : Sri) : Orch (Except String (Option CellInstance)) := call (.getInstance sri)

def eraseSpec (sri : Sri) : Orch (Except String Bool) := call (.eraseSpec sri)

def claimPlacement (entry : PlacementEntry) (deployment : CellDeployment) :
    Orch (Except String PlacementClaimOutcome) := call (.claimPlacement entry deployment)

def commitPlacement (entry : PlacementEntry) : Orch (Except String FenceOutcome) :=
  call (.commitPlacement entry)

def removePlacement (sri : Sri) (genId : Gen) : Orch (Except String FenceOutcome) :=
  call (.removePlacement sri genId)

def removeInstanceRow (sri : Sri) (genId : Gen) : Orch (Except String FenceOutcome) :=
  call (.removeInstanceRow sri genId)

def mint : Orch Gen := Process.ask Request.mint

def placeCells (cells : List CellDeployment) :
    Orch (Except DeploymentError (List (CellDeployment × RuntimeId))) :=
  Process.ask (Request.placeCells cells)

def deployCell (sri : Sri) (runtime : RuntimeId) (genId : Gen) (lineage : SpawnLineage) :
    Orch (Except CellFailureKind PlacementKind) :=
  Process.ask (Request.deployCell sri runtime genId lineage)

end Orch

/-- Removes the instance row of a life, unless the placement that was found is of that life. -/
def removeUnplaced (sri : Sri) (genId : Gen) (found : Option PlacementEntry) :
    Orch (Except String FenceOutcome) :=
  if found.any fun entry => entry.genId = genId then
    .done (.error ("cannot remove instance '" ++ sri.display ++ "': cell is currently deployed"))
  else Orch.removeInstanceRow sri genId

/-- The instance row of a life goes only once no placement of that life is left; the placement is read
in a transaction of its own. -/
def removeInstance (sri : Sri) (genId : Gen) : Orch (Except String FenceOutcome) := do
  match ← Orch.getPlacement sri with
  | .error e => return .error e
  | .ok found => removeUnplaced sri genId found

/-! ## What a cell declares for itself -/

def deleteMounts (sri : Sri) (mounts : List String) : Orch (Except String (List String)) :=
  if mounts = [] then .done (.ok [])
  else do
    match ← Orch.call (.deleteRoutes sri mounts) with
    | .error e => return .error e
    | .ok () => return .ok mounts

def deregisterCellRoutes (sri : Sri) : Orch (Except String (List String)) := do
  match ← Orch.listGatewayRoutes with
  | .error e => return .error e
  | .ok routes => deleteMounts sri ((routes.filter fun r => r.owner = sri).map Route.mount)

def unlinkPaths (sri : Sri) (paths : List String) : Orch (Except String Nat) :=
  if paths = [] then .done (.ok 0)
  else do
    match ← Orch.call (.unlinkAssets sri paths) with
    | .error e => return .error e
    | .ok () => return .ok paths.length

def purgeCellAssets (sri : Sri) : Orch (Except String Nat) := do
  match ← Orch.listCellAssets sri with
  | .error e => return .error e
  | .ok paths => unlinkPaths sri paths

/-- What is left over of a step that failed. -/
def leftover {α : Type} (what : String) : Except String α → List String
  | .ok _ => []
  | .error e => [what ++ ": " ++ e]

/-- Erases the restart spec if it is asked to. -/
def eraseSpecIf (erased : Bool) (sri : Sri) : Orch (List String) :=
  if erased then do return leftover "restart spec" (← Orch.eraseSpec sri) else .done []

/-- Every step runs regardless; what could not be removed is returned. -/
def releaseCellResources (sri : Sri) (eraseSpec : Bool) : Orch (List String) := do
  let spec ← eraseSpecIf eraseSpec sri
  let routes ← deregisterCellRoutes sri
  let assets ← purgeCellAssets sri
  return spec ++ leftover "gateway routes" routes ++ leftover "gateway assets" assets

/-! ## Undeploy -/

def Gen.display (g : Gen) : String :=
  toString g.time.toNat ++ "/" ++ String.ofList (Nat.toDigits 16 g.id.toNat)

/-- The kill of a cell on its runtime; a failure of it is only logged. -/
def teardownCellOnExec (sri : Sri) (genId : Gen) : PlacementKind → Orch Unit
  | .wasm runtime => do
    let _ ← (Process.ask (Request.undeployWasmCell sri genId runtime) : Orch _)
    return ()
  | _ => .done ()

/-- What an undeploy reports once the rows are gone. -/
def undeployOutcome (sri : Sri) (leftovers : List String) : FenceOutcome → Except String Unit
  | .superseded current => .error ("cell '" ++ sri.display ++ "' was redeployed concurrently " ++
      "(generation " ++ current.display ++ "); the new incarnation was left untouched")
  | _ =>
    if leftovers = [] then .ok ()
    else .error ("cell '" ++ sri.display ++ "' was undeployed, but some of its records could not " ++
      "be removed: " ++ "; ".intercalate leftovers)

/-- Undeploys the life that was found. -/
def undeployLife (sri : Sri) (entry : PlacementEntry) : Orch (Except String Unit) := do
  teardownCellOnExec sri entry.genId entry.kind
  let leftovers ← releaseCellResources sri true
  match ← Orch.removePlacement sri entry.genId with
  | .error e => return .error e
  | .ok placement =>
    let «instance» ← removeInstance sri entry.genId
    return undeployOutcome sri (leftovers ++ leftover "instance row" «instance») placement

def undeployCell (sri : Sri) : Orch (Except String Unit) := do
  match ← Orch.getPlacement sri with
  | .error e => return .error e
  | .ok none => return .error ("cell '" ++ sri.display ++ "' is not deployed")
  | .ok (some entry) => undeployLife sri entry

/-! ## Deploy -/

/-- What a deploy has done so far. -/
structure DeployTransaction where
  claimed : List (Sri × Gen)
  deployed : List (Sri × PlacementKind)
  wroteSpecs : List Sri

namespace DeployTransaction

def new : DeployTransaction := ⟨[], [], []⟩

end DeployTransaction

/-- A part of a deploy: it may fail, and what it has done is recorded in either case. -/
def Deploying (α : Type) := DeployTransaction → Orch (Except DeploymentError α × DeployTransaction)

namespace Deploying
variable {α β : Type}

instance instMonadDeploying : Monad Deploying where
  pure a := fun txn => .done (.ok a, txn)
  bind p f := fun txn => (p txn).bind fun
    | (.ok a, txn) => f a txn
    | (.error e, txn) => .done (.error e, txn)

def fail (e : DeploymentError) : Deploying α := fun txn => .done (.error e, txn)

/-- A step that is not recorded. -/
def lift (p : Orch α) : Deploying α := fun txn => p.bind fun a => .done (.ok a, txn)

/-- A call of a registry; its failure is an internal one. -/
def orFail (p : Orch (Except String α)) : Deploying α := fun txn =>
  p.bind fun
    | .ok value => .done (.ok value, txn)
    | .error e => .done (.error (.internal e), txn)

def note (f : DeployTransaction → DeployTransaction) : Deploying Unit := fun txn =>
  .done (.ok (), f txn)

/-- Goes through a list and collects what each element gives. -/
def each (f : α → Deploying β) : List α → Deploying (List β)
  | [] => pure []
  | a :: as => do
    let b ← f a
    let bs ← each f as
    return b :: bs

end Deploying
open Deploying (fail lift orFail note)

/-- All cells already have a restart spec. -/
def allHaveSpecs : List CellDeployment → Deploying Bool
  | [] => pure true
  | cell :: cells => do
    match ← orFail (Orch.getSpec cell.sri) with
    | none => return false
    | some _ => allHaveSpecs cells

/-- The roots of a batch that claim a name are restarts. -/
def allClaimantsAreRestarts (roots : List CellDeployment) (name : String) : Deploying Bool :=
  allHaveSpecs (roots.filter fun c => c.app = some name)

/-- Every name that is in use must be claimed by restarts alone. -/
def rejectNames (roots : List CellDeployment) (existing : List PlacementEntry) :
    List String → Deploying Unit
  | [] => pure ()
  | name :: names => do
    if existing.any fun e => e.app = some name then
      if ← allClaimantsAreRestarts roots name then rejectNames roots existing names
      else fail (.duplicateAppName name)
    else rejectNames roots existing names

def rejectDuplicateAppNames (cells : List CellDeployment) : Deploying Unit := do
  let roots := cells.filter fun c => c.lineage.parent = none
  let names := ((roots.filterMap CellDeployment.app).mergeSort fun a b => decide (a ≤ b)).dedup
  if names = [] then return ()
  else
    let existing ← orFail Orch.listPlacements
    rejectNames roots existing names

/-- A cell's app is what it declares, or the app of the parent that spawned it. -/
def resolveApp (cell : CellDeployment) : Deploying (Option String) := do
  match cell.app with
  | some app => return some app
  | none =>
    match cell.lineage.parent with
    | none => return none
    | some parent =>
      let found ← orFail (Orch.getPlacement parent)
      return found.bind PlacementEntry.app

/-- The generation minted for a cell: the last one, if a batch names a cell twice.  Every cell of a
batch has one. -/
def genOf (gens : List (Sri × Gen)) (sri : Sri) : Gen :=
  ((gens.reverse.find? fun g => g.1 = sri).map Prod.snd).getD ⟨0, 0⟩

def mintAll (cells : List CellDeployment) : Deploying (List (Sri × Gen)) :=
  Deploying.each (fun cell => do
    let genId ← lift Orch.mint
    return (cell.sri, genId)) cells

/-- Claims a cell, and gives the app it is deployed under. -/
def claimCell (gens : List (Sri × Gen)) (cell : CellDeployment) :
    Deploying (Sri × Option String) := do
  let app ← resolveApp cell
  let genId := genOf gens cell.sri
  match ← orFail (Orch.claimPlacement ⟨cell.sri, .placeholder, app, genId⟩ cell) with
  | .claimed =>
    note fun txn => { txn with claimed := txn.claimed ++ [(cell.sri, genId)] }
    return (cell.sri, app)
  | .alreadyExists => fail (.duplicateSri cell.sri)

structure DeployedCell where
  sri : Sri
  runtime : RuntimeId
  kind : PlacementKind

/-- Lets a runtime load a cell; a failure is collected, not raised. -/
def deployPlaced (gens : List (Sri × Gen)) (placed : CellDeployment × RuntimeId) :
    Deploying (Except CellFailure DeployedCell) := do
  let cell := placed.1
  match ← lift (Orch.deployCell cell.sri placed.2 (genOf gens cell.sri) cell.lineage) with
  | .ok kind =>
    note fun txn => { txn with deployed := txn.deployed ++ [(cell.sri, kind)] }
    return .ok ⟨cell.sri, placed.2, kind⟩
  | .error kind => return .error ⟨cell.sri, placed.2, kind⟩

def failuresOf (results : List (Except CellFailure DeployedCell)) : List CellFailure :=
  results.filterMap fun
    | .error failure => some failure
    | .ok _ => none

def deployedOf (results : List (Except CellFailure DeployedCell)) : List DeployedCell :=
  results.filterMap fun
    | .ok d => some d
    | .error _ => none

theorem mem_deployedOf {results : List (Except CellFailure DeployedCell)} {d : DeployedCell}
    (h : d ∈ deployedOf results) : .ok d ∈ results := by
  obtain ⟨_ | _, hr, ⟨⟩⟩ := List.mem_filterMap.mp h
  exact hr

/-- Places the whole batch, then deploys every cell.  Succeeds only if all cells deploy. -/
def placeAndDeploy (cells : List CellDeployment) (gens : List (Sri × Gen)) :
    Deploying (List DeployedCell) := do
  match ← lift (Orch.placeCells cells) with
  | .error e => fail e
  | .ok placed =>
    let results ← Deploying.each (deployPlaced gens) placed
    if failuresOf results = [] then return deployedOf results
    else fail (.deploymentFailed (failuresOf results))

/-- Publishes a placement, or says that the deploy was overtaken. -/
def commitCell (gens : List (Sri × Gen)) (apps : List (Sri × Option String)) (d : DeployedCell) :
    Deploying (List CellFailure) := do
  let app := (apps.find? fun a => a.1 = d.sri).bind Prod.snd
  match ← orFail (Orch.commitPlacement ⟨d.sri, d.kind, app, genOf gens d.sri⟩) with
  | .applied => return []
  | _ => return [⟨d.sri, d.runtime, .superseded⟩]

def writeSpecOf (gens : List (Sri × Gen)) (spec : CellDeployment) : Deploying Unit := do
  orFail (Orch.call (.writeSpec spec (genOf gens spec.sri)))
  note fun txn => { txn with wroteSpecs := txn.wroteSpecs ++ [spec.sri] }

/-- A root with an enabled policy. -/
def CellDeployment.isRestartable (cell : CellDeployment) : Bool :=
  cell.lineage.parent = none && cell.restart.isEnabled

def executeDeploy (cells : List CellDeployment) :
    Deploying (List (Sri × Option RuntimeId)) := do
  if cells = [] then fail .emptyDeployment
  else
    rejectDuplicateAppNames cells
    let gens ← mintAll cells
    let apps ← Deploying.each (claimCell gens) cells
    let deployed ← placeAndDeploy cells gens
    let superseded ← Deploying.each (commitCell gens apps) deployed
    if superseded.flatten = [] then
      let _ ← Deploying.each (writeSpecOf gens) (cells.filter CellDeployment.isRestartable)
      return deployed.map fun d => (d.sri, d.kind.host)
    else fail (.deploymentFailed superseded.flatten)

/-! ## Rollback -/

/-- Cells run their init before the batch commits, so a claimed cell may already have declared
something; not so once its placement is gone. -/
def releaseIf (placed : Bool) (sri : Sri) : Orch (List String) :=
  if placed then releaseCellResources sri false else .done []

/-- Undoes what followed from a claim. -/
def rollbackLife (txn : DeployTransaction) (sri : Sri) (genId : Gen) (row : Option PlacementEntry) :
    Orch Unit := do
  let _ ← releaseIf row.isSome sri
  let _ ← eraseSpecIf (sri ∈ txn.wroteSpecs) sri
  let _ ← Orch.removePlacement sri genId
  let _ ← removeInstance sri genId
  return ()

/-- What another generation holds is the successor's. -/
def rollbackUnlessHeld (txn : DeployTransaction) (claim : Sri × Gen) (row : Option PlacementEntry) :
    Orch Unit :=
  if row.any fun entry => entry.genId ≠ claim.2 then .done ()
  else rollbackLife txn claim.1 claim.2 row

def rollbackClaim (txn : DeployTransaction) (claim : Sri × Gen) : Orch Unit := do
  match ← Orch.getPlacement claim.1 with
  | .error _ => return ()
  | .ok row => rollbackUnlessHeld txn claim row

/-- The kill of what was deployed, under the generation it was claimed with. -/
def rollbackDeployed (txn : DeployTransaction) (deployed : Sri × PlacementKind) : Orch Unit :=
  teardownCellOnExec deployed.1 (genOf txn.claimed deployed.1) deployed.2

def rollback (txn : DeployTransaction) : Orch Unit := do
  Process.each (rollbackDeployed txn) txn.deployed
  Process.each (rollbackClaim txn) txn.claimed

/-- Answers a deploy; a deploy that fails is rolled back first. -/
def handleDeployCellQuery (cells : List CellDeployment) :
    Orch (Except DeploymentError (List (Sri × Option RuntimeId))) :=
  (executeDeploy cells .new).bind fun
    | (.ok cells, _) => .done (.ok cells)
    | (.error e, txn) => (rollback txn).bind fun _ => .done (.error e)

end Myrmic
