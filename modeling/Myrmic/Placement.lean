import Myrmic.Contracts
import Myrmic.GreedyAssignment

/-!
# Placement

A deploy asks for a batch of cells to be placed.  The decision is taken on a snapshot of the swarm: the
runtimes with their tags, the classes that are registered, and the cells that runtimes host already.
**Preprocessing** finds the eligible runtimes of every cell: those that have its tags and its artifact
and, if they are embedded, host nothing yet.  **Triage** binds a batch in which every cell has one
eligible runtime, and checks it for conflicts; any other batch goes to the **optimizer**, which binds the
cells with one eligible runtime first and spreads the others, the most constrained ones first, each on
its least loaded runtime.

The optimizer's loop is `GreedyAssignment.place`.  It looks at the capacity of an embedded runtime when it
spreads a cell, but not when it binds a cell that has no choice; and it does not revisit a choice.
-/
namespace Myrmic
open GreedyAssignment
namespace Placement

/-! ## Runtimes -/

inductive Platform where
  | linux
  | esp32c5
  | esp32c6
  | esp32c61
deriving DecidableEq

def Platform.tryFrom (s : String) : Option Platform :=
  if s = "linux" then some .linux
  else if s = "esp32c5" then some .esp32c5
  else if s = "esp32c6" then some .esp32c6
  else if s = "esp32c61" then some .esp32c61
  else none

/-- How a runtime executes cells. -/
inductive RuntimeKind where
  | linux
  | esp32c5
  | esp32c6
  | esp32c61
  | unknown
deriving DecidableEq

/-- Embedded runtimes host one cell at most. -/
def RuntimeKind.isEmbedded : RuntimeKind → Bool
  | .linux | .unknown => false
  | .esp32c5 | .esp32c6 | .esp32c61 => true

def Platform.runtimeKind : Platform → RuntimeKind
  | .linux => .linux
  | .esp32c5 => .esp32c5
  | .esp32c6 => .esp32c6
  | .esp32c61 => .esp32c61

structure ExecRuntime where
  id : RuntimeId
  capabilities : List String
deriving DecidableEq

/-- The first tag that names a platform decides. -/
def ExecRuntime.runtimeKind (runtime : ExecRuntime) : RuntimeKind :=
  match runtime.capabilities.findSome? Platform.tryFrom with
  | some platform => platform.runtimeKind
  | none => .unknown

/-! ## Requests and contexts -/

/-- A cell of a batch, with the tags it requires. -/
structure PlacementCell where
  deployment : CellDeployment
  tags : List String
deriving DecidableEq

def PlacementCell.sri (cell : PlacementCell) : Sri := cell.deployment.sri

/-- The snapshot that a decision is taken on.  Runtimes are registered by their ids; `hosted` has the
host and the cell of every placement that names a host. -/
structure PlacementContext where
  execs : List ExecRuntime
  classInfo : BlobHash → Option ClassInfo
  hosted : List (RuntimeId × Sri)
  distinct : (execs.map ExecRuntime.id).Nodup

namespace PlacementContext
variable (context : PlacementContext)

def cellsPerRuntime (id : RuntimeId) : List Sri :=
  (context.hosted.filter fun h => h.1 = id).map Prod.snd

def embeddedNodes (id : RuntimeId) : Bool :=
  context.execs.any fun e => e.runtimeKind.isEmbedded && e.id = id

def existingLoad (id : RuntimeId) : Nat := (context.cellsPerRuntime id).length

end PlacementContext

/-! ## Preprocessing -/

inductive TagRequirement where
  | met
  | unmet (missing : List String)
deriving DecidableEq

def fulfillsRequirementTag (capabilities : List String) (tag : String) : Bool :=
  capabilities.any fun capTag => capTag = tag

def checkTagRequirements (capabilities : List String) (requirementTags : List String) :
    TagRequirement :=
  let missing := requirementTags.filter fun tag => !fulfillsRequirementTag capabilities tag
  if missing = [] then .met else .unmet missing

inductive ArtifactKind where
  | wasm
  | aot (target : ArtifactPlatform)
deriving DecidableEq

inductive RejectionReason where
  | missingTags (missing : List String)
  | missingArtifact (kind : ArtifactKind)
  | atCapacity
  | unsupportedRuntime
deriving DecidableEq

structure RuntimeRejection where
  runtime : RuntimeId
  reason : RejectionReason
deriving DecidableEq

structure CellInfeasibility where
  cell : Sri
  rejections : List RuntimeRejection
deriving DecidableEq

def tagsRejection (runtime : ExecRuntime) (cell : PlacementCell) : Option RejectionReason :=
  match checkTagRequirements runtime.capabilities cell.tags with
  | .unmet missing => some (.missingTags missing)
  | .met => none

def hasAot (info : Option ClassInfo) (platform : ArtifactPlatform) : Bool :=
  match info with
  | some (.wasm aot _) => aot.any fun entry => entry.1 = platform
  | some (.aot p _) => p = platform
  | none => false

/-- Bridges have no class, and so no artifacts. -/
def artifactRejection (cell : PlacementCell) (runtime : ExecRuntime)
    (classInfo : BlobHash → Option ClassInfo) : Option RejectionReason :=
  match cell.deployment.class with
  | none => none
  | some cls =>
    match runtime.runtimeKind with
    | .linux =>
      match classInfo cls with
      | some (.wasm _ _) => none
      | _ => some (.missingArtifact .wasm)
    | .esp32c5 | .esp32c6 | .esp32c61 =>
      if hasAot (classInfo cls) .riscv32imac then none
      else some (.missingArtifact (.aot .riscv32imac))
    | .unknown => some .unsupportedRuntime

def capacityRejection (runtime : ExecRuntime) (context : PlacementContext) :
    Option RejectionReason :=
  if runtime.runtimeKind.isEmbedded && !(context.cellsPerRuntime runtime.id).isEmpty then
    some .atCapacity
  else none

def rejection (context : PlacementContext) (cell : PlacementCell) (runtime : ExecRuntime) :
    Option RejectionReason :=
  (tagsRejection runtime cell).or
    ((artifactRejection cell runtime context.classInfo).or (capacityRejection runtime context))

def eligible (context : PlacementContext) (cell : PlacementCell) : List RuntimeId :=
  (context.execs.filter fun rt => (rejection context cell rt).isNone).map ExecRuntime.id

def rejections (context : PlacementContext) (cell : PlacementCell) : List RuntimeRejection :=
  context.execs.filterMap fun rt =>
    (rejection context cell rt).map fun reason => ⟨rt.id, reason⟩

inductive PlacementOptions where
  | infeasible (rejections : List RuntimeRejection)
  | trivial (id : RuntimeId)
  | untrivial (ids : List RuntimeId)
deriving DecidableEq

structure CellMapping where
  sri : Sri
  options : PlacementOptions
deriving DecidableEq

def mappingForCell (context : PlacementContext) (cell : PlacementCell) : CellMapping where
  sri := cell.sri
  options :=
    match eligible context cell with
    | [] => .infeasible (rejections context cell)
    | [id] => .trivial id
    | ids => .untrivial ids

inductive CellMappings where
  | infeasible (cells : List CellInfeasibility)
  | trivial (mappings : List CellMapping)
  | untrivial (mappings : List CellMapping)

/-- What is reported for a cell that no runtime can take. -/
def CellMapping.infeasibility (mapping : CellMapping) : Option CellInfeasibility :=
  match mapping.options with
  | .infeasible rejections => some ⟨mapping.sri, rejections⟩
  | _ => none

def CellMapping.isUntrivial (mapping : CellMapping) : Bool :=
  match mapping.options with
  | .untrivial _ => true
  | _ => false

def preprocess (cells : List PlacementCell) (context : PlacementContext) : CellMappings :=
  let mappings := cells.map (mappingForCell context)
  let infeasible := mappings.filterMap CellMapping.infeasibility
  if infeasible ≠ [] then .infeasible infeasible
  else if mappings.any CellMapping.isUntrivial then .untrivial mappings
  else .trivial mappings

/-! ## The optimizer -/

structure CellBinding where
  sri : Sri
  rtId : RuntimeId
deriving DecidableEq

/-- The eligible runtime that carries the fewest cells, the earliest of them; embedded runtimes that
carry a cell are skipped. -/
def pickLeastLoaded (eligible : List RuntimeId) (load : RuntimeId → Nat)
    (embeddedNodes : RuntimeId → Bool) : Option RuntimeId :=
  leastLoaded embeddedNodes eligible load

/-- The cell is forced onto its one runtime. -/
def CellMapping.forced (mapping : CellMapping) : Option CellBinding :=
  match mapping.options with
  | .trivial id => some ⟨mapping.sri, id⟩
  | _ => none

def CellMapping.flexible (mapping : CellMapping) : Option (Sri × List RuntimeId) :=
  match mapping.options with
  | .untrivial ids => some (mapping.sri, ids)
  | _ => none

/-- Spreads cells, in the order they come in. -/
def spread (embeddedNodes : RuntimeId → Bool) (load : RuntimeId → Nat) :
    List (Sri × List RuntimeId) → Option (List CellBinding)
  | [] => some []
  | (sri, ids) :: flexible =>
    match pickLeastLoaded ids load embeddedNodes with
    | none => none
    | some id => (spread embeddedNodes (bump load id) flexible).map (⟨sri, id⟩ :: ·)

/-- Binds the cells that have no choice, then spreads the others, those with the fewest eligible runtimes
first. -/
def bindUntrivialMappings (mappings : List CellMapping) (embeddedNodes : RuntimeId → Bool)
    (existingLoad : RuntimeId → Nat) : Option (List CellBinding) :=
  let forced := mappings.filterMap CellMapping.forced
  let load := forced.foldl (fun load b => bump load b.rtId) existingLoad
  let flexible := (mappings.filterMap CellMapping.flexible).insertionSort
    fun a b => a.2.length ≤ b.2.length
  (spread embeddedNodes load flexible).map (forced ++ ·)

/-! ## Triage -/

inductive TriageOutcome where
  | bound (bindings : List CellBinding)
  | infeasible (cells : List CellInfeasibility)
  | placementConflicts

/-- Binds a batch in which every cell is forced; two of them on one embedded runtime are a conflict. -/
def bindTrivial (mappings : List CellMapping) (embeddedNodes : RuntimeId → Bool) : TriageOutcome :=
  let bindings := mappings.filterMap CellMapping.forced
  let limited := (bindings.map CellBinding.rtId).filter embeddedNodes
  if limited.any fun id => 1 < limited.count id then .placementConflicts else .bound bindings

def bindUntrivial (mappings : List CellMapping) (embeddedNodes : RuntimeId → Bool)
    (existingLoad : RuntimeId → Nat) : TriageOutcome :=
  match bindUntrivialMappings mappings embeddedNodes existingLoad with
  | some bindings => .bound bindings
  | none => .placementConflicts

def triage (mappings : CellMappings) (embeddedNodes : RuntimeId → Bool)
    (existingLoad : RuntimeId → Nat) : TriageOutcome :=
  match mappings with
  | .infeasible cells => .infeasible cells
  | .trivial mappings => bindTrivial mappings embeddedNodes
  | .untrivial mappings => bindUntrivial mappings embeddedNodes existingLoad

/-! ## The decision -/

structure CellPlacement where
  cell : PlacementCell
  runtime : ExecRuntime
deriving DecidableEq

inductive PlacementError where
  | noRuntimesAvailable
  | unknownClass (cls : BlobHash)
  | infeasible (cells : List CellInfeasibility)
  | placementConflicts
deriving DecidableEq

/-- The first class of the batch that is not registered. -/
def unknownClass (cells : List PlacementCell) (context : PlacementContext) : Option BlobHash :=
  cells.findSome? fun cell =>
    match cell.deployment.class with
    | some cls => if context.classInfo cls = none then some cls else none
    | none => none

/-- The cell and the runtime that a binding is about; of several of one name the last one. -/
def resolve (cells : List PlacementCell) (context : PlacementContext) (binding : CellBinding) :
    Option CellPlacement := do
  let cell ← cells.reverse.find? fun c => c.sri = binding.sri
  let runtime ← context.execs.reverse.find? fun e => e.id = binding.rtId
  return ⟨cell, runtime⟩

def decideCellPlacement (cells : List PlacementCell) (context : PlacementContext) :
    Except PlacementError (List CellPlacement) :=
  if context.execs = [] then .error .noRuntimesAvailable
  else
    match unknownClass cells context with
    | some cls => .error (.unknownClass cls)
    | none =>
      match triage (preprocess cells context) context.embeddedNodes context.existingLoad with
      | .bound bindings => .ok (bindings.filterMap (resolve cells context))
      | .infeasible cells => .error (.infeasible cells)
      | .placementConflicts => .error .placementConflicts

end Placement

end Myrmic
