import Myrmic.KeyedTables
import Myrmic.Processes
import Myrmic.RegistryCalls

/-!
# The registries as their callers see them

Orchestrators and nodes keep what they know of cells in registries: the restart specs and the deaths
of roots, the placements and instances of every life of a cell, the routes and assets that cells
serve.  A call of a registry is one transaction, so that its callers see it done at once
(`DbCall.perform`); what they must expect is that a call fails, and that a call that fails may or may
not have taken effect.

`Request` is all that an orchestrator or a node waits for: calls of registries, the clock, the
scheduler and the runtimes, the mailbox of a parent, the rows of runtimes and leases, of which
nothing is kept here, and answers to deploys it has asked for.  The rows of `Registries` carry, besides
what is stored, **who wrote them**: the generation whose deploy wrote a spec, and the generation that
declared a route or an asset.  These, and the last two fields of `Registries` and of `Swarm`, are not
part of the stored data and only serve to speak about it.
-/
namespace Myrmic
open KeyedTables Processes

/-! ## Rows -/

/-- A restart spec, with the generation whose deploy wrote it. -/
structure Spec where
  deployment : CellDeployment
  author : Gen
deriving DecidableEq

/-- A mount point of the gateway, with the generation that declared it. -/
structure Route where
  mount : String
  owner : Sri
  author : Gen
deriving DecidableEq

/-- An asset that a cell serves on its routes. -/
structure Asset where
  owner : Sri
  path : String
  author : Gen
deriving DecidableEq

/-- A row that a node has still to remove; an embedded node owes both rows of a life at once. -/
inductive CleanupAction where
  | releaseCell (sri : Sri) (genId : Gen)
  | removeInstance (sri : Sri) (genId : Gen)
  | releaseRows (sri : Sri) (genId : Gen)
deriving DecidableEq

/-- A life of a cell: what was deployed, and its generation. -/
structure Life where
  deployment : CellDeployment
  genId : Gen
deriving DecidableEq

/-- The registries' calls. -/
inductive DbCall where
  | listSpecs
  | listDeaths
  | listPlacements
  | listInstances
  | listGatewayRoutes
  | listCellAssets (sri : Sri)
  | getSpec (sri : Sri)
  | getPlacement (sri : Sri)
  | getInstance (sri : Sri)
  | recordDeath (death : RootDeath)
  | clearDeath (sri : Sri)
  | writeSpec (deployment : CellDeployment) (author : Gen)
  | eraseSpec (sri : Sri)
  /-- The deployment is not part of the row. -/
  | claimPlacement (entry : PlacementEntry) (deployment : CellDeployment)
  | commitPlacement (entry : PlacementEntry)
  | removePlacement (sri : Sri) (genId : Gen)
  | removeInstanceRow (sri : Sri) (genId : Gen)
  /-- Routes are deleted by their mounts; the owner is not part of the call. -/
  | deleteRoutes (owner : Sri) (mounts : List String)
  | unlinkAssets (sri : Sri) (paths : List String)
deriving DecidableEq

/-- The rows.  The last two fields record what has happened: the lives that were claimed and the deaths
that were recorded. -/
structure Registries where
  specs : List Spec
  deaths : List RootDeath
  placements : List PlacementEntry
  instances : List CellInstance
  routes : List Route
  assets : List Asset
  lives : List Life
  recorded : List RootDeath

/-! ## Reading -/

namespace Registries
variable (st : Registries)

def listSpecs : List CellDeployment := st.specs.map Spec.deployment

/-- Every cell's newest generation. -/
def listPlacements : List PlacementEntry := latest PlacementEntry.sri PlacementEntry.genId st.placements

def listInstances : List CellInstance := latest CellInstance.sri CellInstance.genId st.instances

def getSpec (sri : Sri) : Option CellDeployment := lookup CellDeployment.sri sri st.listSpecs

def getPlacement (sri : Sri) : Option PlacementEntry := lookup PlacementEntry.sri sri st.listPlacements

def getInstance (sri : Sri) : Option CellInstance := lookup CellInstance.sri sri st.listInstances

variable {st} in
theorem getPlacement_eq_none {sri : Sri} :
    st.getPlacement sri = none ↔ ∀ e ∈ st.placements, e.sri ≠ sri := by
  unfold getPlacement
  rw [lookup_eq_none]
  constructor
  · intro h e he hs
    obtain ⟨newest, hn, hk⟩ : ∃ e' ∈ st.listPlacements, e'.sri = e.sri := exists_latest he
    exact h newest hn (hk.trans hs)
  · exact fun h e he => h e (mem_latest.mp he).1

def placementGens (sri : Sri) : List Gen :=
  (st.placements.filter fun p => p.sri = sri).map PlacementEntry.genId

def instanceGens (sri : Sri) : List Gen :=
  (st.instances.filter fun i => i.sri = sri).map CellInstance.genId

end Registries

/-- What the removal of a generation reports. -/
def removalOutcome (gens : List Gen) (genId : Gen) : FenceOutcome :=
  match fenceAdmission gens.max? genId with
  | .ok () => .applied
  | .error outcome => outcome

/-! ## Calls -/

namespace DbCall

def Value : DbCall → Type
  | listSpecs => List CellDeployment
  | listDeaths => List RootDeath
  | listPlacements => List PlacementEntry
  | listInstances => List CellInstance
  | listGatewayRoutes => List Route
  | listCellAssets _ => List String
  | getSpec _ => Option CellDeployment
  | getPlacement _ => Option PlacementEntry
  | getInstance _ => Option CellInstance
  | recordDeath _ => Unit
  | clearDeath _ => Bool
  | writeSpec _ _ => Unit
  | eraseSpec _ => Bool
  | claimPlacement _ _ => PlacementClaimOutcome
  | commitPlacement _ => FenceOutcome
  | removePlacement _ _ => FenceOutcome
  | removeInstanceRow _ _ => FenceOutcome
  | deleteRoutes _ _ => Unit
  | unlinkAssets _ _ => Unit

/-- A placement or an instance is stored under its cell and its generation. -/
def placementKey (p : PlacementEntry) : Sri × Gen := (p.sri, p.genId)

def instanceKey (i : CellInstance) : Sri × Gen := (i.sri, i.genId)

/-- What a call returns and does. -/
def perform : (c : DbCall) → Registries → c.Value × Registries
  | listSpecs, st => (st.listSpecs, st)
  | listDeaths, st => (st.deaths, st)
  | listPlacements, st => (st.listPlacements, st)
  | listInstances, st => (st.listInstances, st)
  | listGatewayRoutes, st => (st.routes, st)
  | listCellAssets sri, st => ((st.assets.filter fun a => a.owner = sri).map Asset.path, st)
  | getSpec sri, st => (st.getSpec sri, st)
  | getPlacement sri, st => (st.getPlacement sri, st)
  | getInstance sri, st => (st.getInstance sri, st)
  | recordDeath death, st =>
    -- the last write wins
    ((), { st with deaths := put RootDeath.sri death st.deaths, recorded := death :: st.recorded })
  | clearDeath sri, st =>
    (st.deaths.any fun d => d.sri = sri, { st with deaths := erase RootDeath.sri sri st.deaths })
  | writeSpec deployment author, st =>
    ((), { st with specs := put (fun s => s.deployment.sri) ⟨deployment, author⟩ st.specs })
  | eraseSpec sri, st =>
    (st.specs.any fun s => s.deployment.sri = sri,
      { st with specs := erase (fun s => s.deployment.sri) sri st.specs })
  | claimPlacement entry deployment, st =>
    if (st.getPlacement entry.sri).isSome then (.alreadyExists, st)
    else (.claimed, { st with
      placements := put placementKey entry st.placements
      lives := ⟨deployment, entry.genId⟩ :: st.lives })
  | commitPlacement entry, st =>
    match fenceAdmission (st.placementGens entry.sri).max? entry.genId with
    | .error outcome => (outcome, st)
    | .ok () => (.applied, { st with placements := put placementKey entry st.placements })
  | removePlacement sri genId, st =>
    (removalOutcome (st.placementGens sri) genId,
      { st with placements := erase placementKey (sri, genId) st.placements })
  | removeInstanceRow sri genId, st =>
    (removalOutcome (st.instanceGens sri) genId,
      { st with instances := erase instanceKey (sri, genId) st.instances })
  | deleteRoutes _ mounts, st =>
    ((), { st with routes := st.routes.filter fun r => r.mount ∉ mounts })
  | unlinkAssets sri paths, st =>
    ((), { st with assets := st.assets.filter fun a => ¬(a.owner = sri ∧ a.path ∈ paths) })

/-- Whether a call does what it says, rather than report that something is in its way. -/
def takesHold (st : Registries) : DbCall → Bool
  | claimPlacement entry _ => (st.getPlacement entry.sri).isNone
  | commitPlacement entry => (fenceAdmission (st.placementGens entry.sri).max? entry.genId).toBool
  | _ => true

/-! ### Table by table -/

section Tables
variable (st : Registries)

theorem perform_claim_taken {e found : PlacementEntry} (dep : CellDeployment)
    (h : st.getPlacement e.sri = some found) :
    (claimPlacement e dep).perform st = (.alreadyExists, st) := by
  simp [perform, h]

theorem perform_claim_free {e : PlacementEntry} (dep : CellDeployment)
    (h : st.getPlacement e.sri = none) :
    (claimPlacement e dep).perform st = (.claimed, { st with
      placements := put placementKey e st.placements
      lives := ⟨dep, e.genId⟩ :: st.lives }) := by
  simp [perform, h]

theorem perform_claim {e : PlacementEntry} {dep : CellDeployment} :
    (claimPlacement e dep).perform st = (.alreadyExists, st) ∨
      st.getPlacement e.sri = none ∧
        (claimPlacement e dep).perform st = (.claimed, { st with
          placements := put placementKey e st.placements
          lives := ⟨dep, e.genId⟩ :: st.lives }) := by
  cases hf : st.getPlacement e.sri with
  | none => exact .inr ⟨rfl, perform_claim_free st dep hf⟩
  | some found => exact .inl (perform_claim_taken st dep hf)

theorem perform_commit {e : PlacementEntry} : (∃ oc, (commitPlacement e).perform st = (oc, st)) ∨
      fenceAdmission (st.placementGens e.sri).max? e.genId = .ok () ∧
        (commitPlacement e).perform st =
          (.applied, { st with placements := put placementKey e st.placements }) := by
  simp only [perform]
  split
  · next oc h => exact .inl ⟨oc, rfl⟩
  · next h => exact .inr ⟨h, rfl⟩

variable (c : DbCall)

theorem deaths_cases : (c.perform st).2.deaths = st.deaths ∨
      (∃ d, c = .recordDeath d ∧ (c.perform st).2.deaths = put RootDeath.sri d st.deaths) ∨
      ∃ sri, c = .clearDeath sri ∧ (c.perform st).2.deaths = erase RootDeath.sri sri st.deaths := by
  cases c with
  | recordDeath d => exact .inr (.inl ⟨d, rfl, rfl⟩)
  | clearDeath sri => exact .inr (.inr ⟨sri, rfl, rfl⟩)
  | claimPlacement e dep | commitPlacement e =>
    simp only [perform]
    split <;> exact .inl rfl
  | _ => exact .inl rfl

theorem specs_cases : (c.perform st).2.specs = st.specs ∨
      (∃ dep author, c = .writeSpec dep author ∧
        (c.perform st).2.specs = put (fun s => s.deployment.sri) ⟨dep, author⟩ st.specs) ∨
      ∃ sri, c = .eraseSpec sri ∧
        (c.perform st).2.specs = erase (fun s => s.deployment.sri) sri st.specs := by
  cases c with
  | writeSpec dep author => exact .inr (.inl ⟨dep, author, rfl, rfl⟩)
  | eraseSpec sri => exact .inr (.inr ⟨sri, rfl, rfl⟩)
  | claimPlacement e dep | commitPlacement e =>
    simp only [perform]
    split <;> exact .inl rfl
  | _ => exact .inl rfl

theorem placements_cases : (c.perform st).2.placements = st.placements ∨
      (∃ e dep, c = .claimPlacement e dep ∧ st.getPlacement e.sri = none ∧
        (c.perform st).2.placements = put placementKey e st.placements ∧
        (c.perform st).2.lives = ⟨dep, e.genId⟩ :: st.lives) ∨
      (∃ e, c = .commitPlacement e ∧
        fenceAdmission (st.placementGens e.sri).max? e.genId = .ok () ∧
        (c.perform st).2.placements = put placementKey e st.placements) ∨
      ∃ sri genId, c = .removePlacement sri genId ∧
        (c.perform st).2.placements = erase placementKey (sri, genId) st.placements := by
  cases c with
  | claimPlacement e dep =>
    rcases perform_claim st with h | ⟨hn, h⟩
    · exact .inl (by rw [h])
    · exact .inr (.inl ⟨e, dep, rfl, hn, by rw [h], by rw [h]⟩)
  | commitPlacement e =>
    rcases perform_commit st with ⟨_, h⟩ | ⟨hf, h⟩
    · exact .inl (by rw [h])
    · exact .inr (.inr (.inl ⟨e, rfl, hf, by rw [h]⟩))
  | removePlacement sri genId => exact .inr (.inr (.inr ⟨sri, genId, rfl, rfl⟩))
  | _ => exact .inl rfl

theorem instances_cases : (c.perform st).2.instances = st.instances ∨
      ∃ sri genId, c = .removeInstanceRow sri genId ∧
        (c.perform st).2.instances = erase instanceKey (sri, genId) st.instances := by
  cases c with
  | removeInstanceRow sri genId => exact .inr ⟨sri, genId, rfl, rfl⟩
  | claimPlacement e dep | commitPlacement e =>
    simp only [perform]
    split <;> exact .inl rfl
  | _ => exact .inl rfl

theorem lives_cases : (c.perform st).2.lives = st.lives ∨
      ∃ e dep, c = .claimPlacement e dep ∧
        (c.perform st).2.lives = ⟨dep, e.genId⟩ :: st.lives := by
  cases c with
  | claimPlacement e dep =>
    rcases perform_claim st with h | ⟨-, h⟩
    · exact .inl (by rw [h])
    · exact .inr ⟨e, dep, rfl, by rw [h]⟩
  | commitPlacement e =>
    rcases perform_commit st with ⟨_, h⟩ | ⟨-, h⟩ <;> exact .inl (by rw [h])
  | _ => exact .inl rfl

/-- Calls do not add routes or assets; cells do that themselves. -/
theorem routes_subset : ∀ r ∈ (c.perform st).2.routes, r ∈ st.routes := by
  intro r hr
  cases c with
  | claimPlacement e dep | commitPlacement e =>
    simp only [perform] at hr
    split at hr <;> exact hr
  | deleteRoutes owner mounts => exact List.mem_of_mem_filter hr
  | _ => exact hr

theorem assets_subset : ∀ a ∈ (c.perform st).2.assets, a ∈ st.assets := by
  intro a ha
  cases c with
  | claimPlacement e dep | commitPlacement e =>
    simp only [perform] at ha
    split at ha <;> exact ha
  | unlinkAssets owner paths => exact List.mem_of_mem_filter ha
  | _ => exact ha

end Tables
end DbCall

/-! ## Requests -/

/-- Why the deploy of a cell failed. -/
inductive CellFailureKind where
  | runtimeReported (message : String)
  | timeout
  | superseded
deriving DecidableEq

/-- A cell's failure during the deploy phase. -/
structure CellFailure where
  cell : Sri
  runtime : RuntimeId
  kind : CellFailureKind
deriving DecidableEq

/-- Why a deployment failed; what a runtime lacks is left out. -/
inductive DeploymentError where
  | noRuntimesAvailable
  | infeasible (cells : List Sri)
  | placementConflicts
  | deploymentFailed (failures : List CellFailure)
  | orchestratorUnreachable
  | emptyDeployment
  | duplicateAppName (name : String)
  | duplicateSri (sri : Sri)
  | unknownClass («class» : BlobHash)
  | queryTimeout
  | internal (message : String)
deriving DecidableEq

/-- A notification that a parent is owed; `cellGen` is not part of the message. -/
structure CellLostNote where
  parent : Sri
  cell : Sri
  cellGen : Gen
  localName : Option String
deriving DecidableEq

/-- What an orchestrator or a node waits for. -/
inductive Request where
  | db (c : DbCall)
  /-- A new timestamp of the session's clock. -/
  | mint
  | placeCells (cells : List CellDeployment)
  | deployCell (sri : Sri) (runtime : RuntimeId) (genId : Gen) (lineage : SpawnLineage)
  /-- The teardown of a cell on its runtime. -/
  | undeployWasmCell (sri : Sri) (genId : Gen) (runtime : RuntimeId)
  | emitCellLost (note : CellLostNote) (reason : LostReason)
  /-- Asks an orchestrator for a deploy, and is told which process handles it. -/
  | sendDeploy (cells : List CellDeployment)
  | awaitDeploy (handler : Nat)
  | deregisterExec (id : RuntimeId)
  | deleteLease (id : RuntimeId)
  /-- A node's memory of the rows it has still to remove. -/
  | owe (node : RuntimeId) (actions : List CleanupAction)
  | takeOwed (node : RuntimeId)

namespace Request

def Ans : Request → Type
  | db c => Except String c.Value
  | mint => Gen
  | placeCells _ => Except DeploymentError (List (CellDeployment × RuntimeId))
  | deployCell .. => Except CellFailureKind PlacementKind
  | undeployWasmCell .. => Except String Unit
  | emitCellLost .. => Except String Unit
  | sendDeploy _ => Nat
  | awaitDeploy _ => Except DeploymentError Unit
  | deregisterExec _ => Except String Unit
  | deleteLease _ => Except String Unit
  | owe .. => Unit
  | takeOwed _ => List CleanupAction

end Request

/-- How a request goes.  A request that is lost takes effect and fails. -/
inductive Fate where
  | done
  | refused (e : String)
  | lost (e : String)
  | clock (genId : Gen)
  | placed (outcome : Except DeploymentError (List (CellDeployment × RuntimeId)))
  | deployed (outcome : Except CellFailureKind PlacementKind)
  | unanswered (e : DeploymentError)

/-- The registries and what nodes remember.  The last two fields record what has happened: the
generations the clock gave out, and the calls that took effect although they failed. -/
structure Swarm where
  reg : Registries
  owed : List (RuntimeId × CleanupAction)
  minted : List Gen
  lost : List DbCall

namespace Swarm

/-- A call succeeds, fails without an effect, or fails although it took effect. -/
def call (st : Swarm) (c : DbCall) : Fate → Option (Except String c.Value × Swarm)
  | .done => some (.ok (c.perform st.reg).1, { st with reg := (c.perform st.reg).2 })
  | .refused e => some (.error e, st)
  | .lost e =>
    some (.error e, { st with
      reg := (c.perform st.reg).2
      lost := if c.takesHold st.reg then c :: st.lost else st.lost })
  | _ => none

/-- A message that leaves the registries alone. -/
def message (st : Swarm) : Fate → Option (Except String Unit × Swarm)
  | .done => some (.ok (), st)
  | .refused e => some (.error e, st)
  | .lost e => some (.error e, st)
  | _ => none

/-- The clock gives every generation out once. -/
def mint (st : Swarm) : Fate → Option (Gen × Swarm)
  | .clock genId =>
    if genId ∈ st.minted then none else some (genId, { st with minted := genId :: st.minted })
  | _ => none

/-- The scheduler places every cell it is asked to place, or none. -/
def placeCells (st : Swarm) (cells : List CellDeployment) :
    Fate → Option (Except DeploymentError (List (CellDeployment × RuntimeId)) × Swarm)
  | .placed (.error e) => some (.error e, st)
  | .placed (.ok placed) =>
    if (placed.map Prod.fst).Perm cells then some (.ok placed, st) else none
  | _ => none

def deployCell (st : Swarm) : Fate → Option (Except CellFailureKind PlacementKind × Swarm)
  | .deployed outcome => some (outcome, st)
  | _ => none

def owe (st : Swarm) (node : RuntimeId) (actions : List CleanupAction) : Swarm :=
  { st with owed := st.owed ++ actions.map fun action => (node, action) }

def takeOwed (st : Swarm) (node : RuntimeId) : List CleanupAction × Swarm :=
  ((st.owed.filter fun o => o.1 = node).map Prod.snd,
    { st with owed := st.owed.filter fun o => o.1 ≠ node })

/-- Answers a request, other than for deploys. -/
def answer (st : Swarm) (fate : Fate) : (req : Request) → Option (req.Ans × Swarm)
  | .db c => st.call c fate
  | .mint => st.mint fate
  | .placeCells cells => st.placeCells cells fate
  | .deployCell .. => st.deployCell fate
  | .undeployWasmCell .. => st.message fate
  | .emitCellLost .. => st.message fate
  | .deregisterExec _ => st.message fate
  | .deleteLease _ => st.message fate
  | .sendDeploy _ => none
  | .awaitDeploy _ => none
  | .owe node actions => some ((), st.owe node actions)
  | .takeOwed node => some (st.takeOwed node)

variable {st st' : Swarm} {fate : Fate}

theorem mint_eq_some {genId : Gen} (h : st.mint fate = some (genId, st')) :
    fate = .clock genId ∧ genId ∉ st.minted ∧ st' = { st with minted := genId :: st.minted } := by
  revert h
  fun_cases mint st fate <;> rintro ⟨⟩
  next hne => exact ⟨rfl, hne, rfl⟩

theorem placeCells_eq_some {cells : List CellDeployment}
    {outcome : Except DeploymentError (List (CellDeployment × RuntimeId))}
    (h : st.placeCells cells fate = some (outcome, st')) :
    st' = st ∧ ∀ placed, outcome = .ok placed → (placed.map Prod.fst).Perm cells := by
  revert h
  fun_cases placeCells st cells fate <;> rintro ⟨⟩
  · exact ⟨rfl, nofun⟩
  · next hp => exact ⟨rfl, fun _ hok => by cases hok; exact hp⟩

theorem deployCell_eq_some {outcome : Except CellFailureKind PlacementKind}
    (h : st.deployCell fate = some (outcome, st')) : st' = st := by
  revert h
  fun_cases deployCell st fate <;> rintro ⟨⟩
  rfl

theorem message_eq_some {a : Except String Unit} (h : st.message fate = some (a, st')) :
    st' = st := by
  revert h
  fun_cases message st fate <;> rintro ⟨⟩ <;> rfl

end Swarm

end Myrmic
