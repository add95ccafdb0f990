import Myrmic.Deploys

/-!
# Supervision

The leader of the orchestrators watches over nodes and roots.  Its **hygiene** cleans up after nodes
that have been silent for too long: it reads the placements, then the instances, plans from both
(`planHygiene`), records the deaths of roots, tells the parents of other cells and releases the rows.
Its **restarts** read the specs, the deaths, the placements and the instances one after another, plan
from them (`planRootRestarts`), redeploy, drop specs and clear deaths.  What a leader remembers between
two passes (silences, the restart budget, the specs that looked orphaned) is an argument of a pass.

A node cleans up after itself: when a cell of it exits, when it finds rows of a previous run, and
whenever rows that it owes could not be removed.
-/
namespace Myrmic
open Processes List Function

/-! ## Hygiene -/

/-- What a pass over the placements has decided to do. -/
structure HygienePlan where
  notes : List CellLostNote
  releaseCells : List Sri
  removeInstances : List Sri
  teardownNodes : List RuntimeId
deriving DecidableEq

def HygienePlan.isEmpty (plan : HygienePlan) : Bool :=
  plan.notes = [] && plan.releaseCells = [] && plan.teardownNodes = []

/-- Durations in milliseconds. -/
structure SupervisionTiming where
  ttl : Nat
  renew : Nat
  margin : Nat

/-- What a leader knows of nodes: how long they have been silent, which are to be torn down, and the
lifetimes of leases they have declared. -/
structure NodeWatch where
  silence : RuntimeId → Option Nat
  teardownReady : List RuntimeId
  nodeTtls : RuntimeId → Option Nat
  timing : SupervisionTiming

namespace NodeWatch
variable (watch : NodeWatch)

/-- A cell is given two renewals of its node at least. -/
def minDeadline : Nat := watch.timing.renew * 2

def instanceOf (instances : List CellInstance) (sri : Sri) : Option CellInstance :=
  instances.reverse.find? fun i => i.sri = sri

/-- How long the node of a cell may be silent. -/
def deadline (instances : List CellInstance) (sri : Sri) (node : RuntimeId) : Nat :=
  match (instanceOf instances sri).bind fun i => i.lineage.deadlineMs with
  | some ms => max ms watch.minDeadline
  | none => (watch.nodeTtls node).getD watch.timing.ttl + watch.timing.margin

/-- The node of the cell was silent for longer than the cell allows. -/
def isDue (instances : List CellInstance) (cell : PlacementEntry) : Bool :=
  cell.kind.host.any fun node =>
    (watch.silence node).any fun silent => watch.deadline instances cell.sri node ≤ silent

/-- The cells that are declared dead. -/
def due (cells : List PlacementEntry) (instances : List CellInstance) : List Sri :=
  (cells.filter (watch.isDue instances)).map PlacementEntry.sri

/-- The notification that is owed for a cell, if any: not for detached cells, and only to a placed
parent that is not itself declared dead. -/
def noteFor (cells : List PlacementEntry) (instances : List CellInstance) (sri : Sri) :
    Option CellLostNote :=
  match instanceOf instances sri with
  | none => none
  | some i =>
    if i.lineage.detached then none
    else match i.lineage.parent with
      | none => none
      | some parent =>
        if parent ∈ watch.due cells instances then none
        else if cells.any fun c => c.sri = parent && c.kind.host.isSome then
          some ⟨parent, sri, i.genId, i.lineage.localName⟩
        else none

def planHygiene (cells : List PlacementEntry) (instances : List CellInstance) : HygienePlan :=
  let due := watch.due cells instances
  let doomed := (cells.map PlacementEntry.sri).filter fun sri => sri ∈ due
  { notes := doomed.filterMap (watch.noteFor cells instances)
    releaseCells := doomed
    removeInstances := doomed
    teardownNodes := watch.teardownReady.filter fun node =>
      cells.all fun c => c.kind.host ≠ some node || c.sri ∈ due }

/-- Whether a node looks dead. -/
def looksDead (cells : List PlacementEntry) : Bool :=
  watch.teardownReady ≠ [] || cells.any fun c =>
    c.kind.host.any fun node => (watch.silence node).any fun silent => watch.minDeadline ≤ silent

end NodeWatch
open NodeWatch (instanceOf)

/-- Records the death of a root, so that its restart policy is applied to node loss too. -/
def recordNodeLoss (instances : List CellInstance) (sri : Sri) : Orch Unit :=
  match instanceOf instances sri with
  | none => .done ()
  | some i =>
    if i.lineage.parent = none then do
      let _ ← Orch.call (.recordDeath ⟨sri, i.genId, .nodeLost⟩)
      return ()
    else .done ()

/-- Sends the notifications, and says whether all were sent. -/
def emitNotes : List CellLostNote → Orch Bool
  | [] => .done true
  | note :: notes => do
    let sent : Except String Unit ← Process.ask (Request.emitCellLost note .nodeLost)
    let rest ← emitNotes notes
    return sent.toBool && rest

/-- The generation that was listed, which fences the removal. -/
def placementGen (cells : List PlacementEntry) (sri : Sri) : Option Gen :=
  (cells.reverse.find? fun c => c.sri = sri).map PlacementEntry.genId

/-- A failed removal is only logged. -/
def releasePlacement (cells : List PlacementEntry) (sri : Sri) : Orch Unit :=
  match placementGen cells sri with
  | none => .done ()
  | some genId => do
    let _ ← Orch.removePlacement sri genId
    return ()

def releaseInstance (instances : List CellInstance) (sri : Sri) : Orch Unit :=
  match instanceOf instances sri with
  | none => .done ()
  | some i => do
    let _ ← removeInstance sri i.genId
    return ()

/-- The lease row goes last. -/
def teardownNode (id : RuntimeId) : Orch Unit := do
  let _ ← (Process.ask (Request.deregisterExec id) : Orch _)
  let _ ← (Process.ask (Request.deleteLease id) : Orch _)
  return ()

/-- Carries a plan out.  Notifications precede the cleanup, which does not take place if one could not
be sent. -/
def carryOut (plan : HygienePlan) (cells : List PlacementEntry) (instances : List CellInstance) :
    Orch Unit := do
  Process.each (recordNodeLoss instances) plan.removeInstances
  if ← emitNotes plan.notes then
    Process.each (releasePlacement cells) plan.releaseCells
    Process.each (releaseInstance instances) plan.removeInstances
    Process.each teardownNode plan.teardownNodes
  else return ()

def cleanUp (plan : HygienePlan) (cells : List PlacementEntry) (instances : List CellInstance) :
    Orch Unit :=
  if plan.isEmpty then .done () else carryOut plan cells instances

/-- Without the instances a pass does nothing. -/
def runHygiene (watch : NodeWatch) (cells : List PlacementEntry) : Orch Unit := do
  match ← Orch.listInstances with
  | .error _ => return ()
  | .ok instances => cleanUp (watch.planHygiene cells instances) cells instances

/-- Hygiene runs only when a node looks dead. -/
def hygieneIfDead (watch : NodeWatch) (cells : List PlacementEntry) : Orch Unit :=
  if watch.looksDead cells then runHygiene watch cells else .done ()

/-- The part of a leader's pass that is about nodes. -/
def hygienePass (watch : NodeWatch) : Orch Unit := do
  match ← Orch.listPlacements with
  | .error _ => return ()
  | .ok cells => hygieneIfDead watch cells

/-! ## Restarts -/

/-- The moments of the restarts of each root. -/
structure RestartBudget where
  attempts : Sri → List Nat

namespace RestartBudget

def new : RestartBudget := ⟨fun _ => []⟩

/-- The attempts that are not older than the window. -/
def recent (b : RestartBudget) (sri : Sri) (window now : Nat) : List Nat :=
  (b.attempts sri).dropWhile fun t => window < now - t

/-- Records an attempt, and says whether it is within the budget. -/
def allow (b : RestartBudget) (sri : Sri) (maxRestarts window now : Nat) : Bool × RestartBudget :=
  let recent := b.recent sri window now
  if maxRestarts ≤ recent.length then (false, ⟨update b.attempts sri recent⟩)
  else (true, ⟨update b.attempts sri (recent ++ [now])⟩)

/-- The delay since the last attempt has elapsed. -/
def ready (b : RestartBudget) (sri : Sri) (delay now : Nat) : Bool :=
  (b.attempts sri).getLast?.all fun last => delay ≤ now - last

/-- Takes the last attempt back. -/
def refund (b : RestartBudget) (sri : Sri) : RestartBudget :=
  ⟨update b.attempts sri (b.attempts sri).dropLast⟩

def forget (b : RestartBudget) (sri : Sri) : RestartBudget :=
  ⟨update b.attempts sri []⟩

end RestartBudget

/-- What a pass over the deaths of roots has decided to do. -/
structure RestartPlan where
  restart : List Sri
  dropSpecs : List Sri
  clearDeaths : List Sri
deriving DecidableEq

def specOf (specs : List CellDeployment) (sri : Sri) : Option CellDeployment :=
  specs.reverse.find? fun s => s.sri = sri

/-- What becomes of a death. -/
inductive DeathVerdict where
  | wait
  | clear
  | restart
  | giveUp
deriving DecidableEq

/-- Resolves a death.  It is acted on only once the placement of the dead life is gone; a newer one
means that the root has come back. -/
def resolveDeath (specs : List CellDeployment) (placements : List PlacementEntry) (now : Nat)
    (budget : RestartBudget) (death : RootDeath) : DeathVerdict × RestartBudget :=
  match specOf specs death.sri with
  | none => (.clear, budget)
  | some spec =>
    match placementGen placements death.sri with
    | some current => if death.genId < current then (.clear, budget) else (.wait, budget)
    | none =>
      if shouldRestart spec.restart.restartType death.reason then
        if budget.ready death.sri spec.restart.delayMs now then
          let (allowed, budget) :=
            budget.allow death.sri spec.restart.maxRestarts spec.restart.windowMs now
          if allowed then (.restart, budget) else (.giveUp, budget.forget death.sri)
        else (.wait, budget)
      else (.giveUp, budget.forget death.sri)

def RestartPlan.add (plan : RestartPlan) (sri : Sri) : DeathVerdict → RestartPlan
  | .wait => plan
  | .clear => { plan with clearDeaths := plan.clearDeaths ++ [sri] }
  | .restart => { plan with restart := plan.restart ++ [sri] }
  | .giveUp =>
    { plan with dropSpecs := plan.dropSpecs ++ [sri], clearDeaths := plan.clearDeaths ++ [sri] }

/-- The deaths are judged in order, and each restart uses up its budget. -/
def planDeaths (specs : List CellDeployment) (placements : List PlacementEntry) (now : Nat) :
    RestartPlan → RestartBudget → List RootDeath → RestartPlan × RestartBudget
  | plan, budget, [] => (plan, budget)
  | plan, budget, death :: deaths =>
    let (verdict, budget) := resolveDeath specs placements now budget death
    planDeaths specs placements now (plan.add death.sri verdict) budget deaths

/-- The roots with a spec that are gone without a death. -/
def orphans (specs : List CellDeployment) (deaths : List RootDeath)
    (placements : List PlacementEntry) (instances : List CellInstance) : List Sri :=
  (specs.map CellDeployment.sri).filter fun sri =>
    !(placements.any fun p => p.sri = sri) && !(instances.any fun i => i.sri = sri) &&
      !(deaths.any fun d => d.sri = sri)

/-- What looked orphaned in the pass before. -/
abbrev RestartSweep := List Sri

/-- The plan of a pass, and what the leader remembers of it.  A spec is dropped as orphaned only if it
looked so in two passes. -/
def planRootRestarts (specs : List CellDeployment) (deaths : List RootDeath)
    (placements : List PlacementEntry) (instances : List CellInstance) (budget : RestartBudget)
    (sweep : RestartSweep) (now : Nat) : RestartPlan × RestartBudget × RestartSweep :=
  let (plan, budget) := planDeaths specs placements now ⟨[], [], []⟩ budget deaths
  let orphaned := orphans specs deaths placements instances
  let confirmed := orphaned.filter fun sri => sri ∈ sweep
  ({ plan with dropSpecs := plan.dropSpecs ++ confirmed },
    confirmed.foldl RestartBudget.forget budget, orphaned)

variable {sri : Sri} {specs : List CellDeployment}

theorem mem_of_specOf {spec : CellDeployment}
    (h : specOf specs sri = some spec) : spec ∈ specs ∧ spec.sri = sri := by
  refine ⟨mem_reverse.mp (mem_of_find?_eq_some h), ?_⟩
  simpa using List.find?_some h

theorem specOf_eq_none (h : specOf specs sri = none) : ∀ spec ∈ specs, spec.sri ≠ sri := by
  intro spec hs
  simpa using List.find?_eq_none.mp h spec (mem_reverse.mpr hs)

theorem mem_of_placementGen {cells : List PlacementEntry} {genId : Gen}
    (h : placementGen cells sri = some genId) : ∃ e ∈ cells, e.sri = sri ∧ e.genId = genId := by
  obtain ⟨e, he, rfl⟩ := Option.map_eq_some_iff.mp h
  refine ⟨e, mem_reverse.mp (mem_of_find?_eq_some he), ?_, rfl⟩
  simpa using List.find?_some he

/-! ### Why a pass acts -/

section PlanDeaths
variable (specs : List CellDeployment) (placements : List PlacementEntry) (deaths : List RootDeath)

/-- Why a plan does what it does. -/
structure RestartPlan.Justified (plan : RestartPlan) : Prop where
  restart : ∀ sri ∈ plan.restart, ∃ d ∈ deaths, d.sri = sri
  clear : ∀ sri ∈ plan.clearDeaths, ∃ d ∈ deaths, d.sri = sri ∧
    ((∀ spec ∈ specs, spec.sri ≠ sri) ∨ (∃ e ∈ placements, e.sri = sri ∧ d.genId < e.genId) ∨
      sri ∈ plan.dropSpecs)

variable {specs placements deaths} {now : Nat} {budget : RestartBudget} {d : RootDeath}
  {plan : RestartPlan}

/-- A death that is cleared at once has no spec, or is older than a placement. -/
theorem resolveDeath_clear {budget' : RestartBudget}
    (h : resolveDeath specs placements now budget d = (.clear, budget')) :
    (∀ spec ∈ specs, spec.sri ≠ d.sri) ∨ ∃ e ∈ placements, e.sri = d.sri ∧ d.genId < e.genId := by
  revert h
  fun_cases resolveDeath specs placements now budget d <;> rintro ⟨⟩
  · next hn => exact .inl (specOf_eq_none hn)
  · next hc hlt =>
    obtain ⟨e, he, hs, hg⟩ := mem_of_placementGen hc
    exact .inr ⟨e, he, hs, hg ▸ hlt⟩

theorem RestartPlan.Justified.add {verdict : DeathVerdict}
    (h : plan.Justified specs placements deaths) (hd : d ∈ deaths) (hcl : verdict = .clear →
      (∀ spec ∈ specs, spec.sri ≠ d.sri) ∨ ∃ e ∈ placements, e.sri = d.sri ∧ d.genId < e.genId) :
    (plan.add d.sri verdict).Justified specs placements deaths := by
  cases verdict with
  | wait => exact h
  | clear =>
    refine ⟨h.restart, forall_mem_append.mpr ⟨h.clear, forall_mem_singleton.mpr ⟨d, hd, rfl, ?_⟩⟩⟩
    exact (hcl rfl).imp_right .inl
  | restart =>
    exact ⟨forall_mem_append.mpr ⟨h.restart, forall_mem_singleton.mpr ⟨d, hd, rfl⟩⟩, h.clear⟩
  | giveUp =>
    refine ⟨h.restart, forall_mem_append.mpr ⟨fun sri hsr => ?_, forall_mem_singleton.mpr ?_⟩⟩
    · obtain ⟨d', hd', hsr', hwh⟩ := h.clear sri hsr
      exact ⟨d', hd', hsr', hwh.imp_right fun hwh => hwh.imp_right (mem_append_left _)⟩
    · exact ⟨d, hd, rfl, .inr (.inr (mem_append_right _ (mem_singleton_self _)))⟩

theorem planDeaths_justified {rest : List RootDeath} (h : plan.Justified specs placements deaths)
    (hr : ∀ d ∈ rest, d ∈ deaths) :
    (planDeaths specs placements now plan budget rest).1.Justified specs placements deaths := by
  induction rest generalizing plan budget with
  | nil => exact h
  | cons d rest ih =>
    have ha : (plan.add d.sri (resolveDeath specs placements now budget d).1).Justified specs
        placements deaths :=
      h.add (hr d mem_cons_self) fun hv => resolveDeath_clear (Prod.ext hv rfl)
    exact ih ha fun d' hd' => hr d' (mem_cons_of_mem d hd')

theorem planRootRestarts_justified {insts : List CellInstance} {sweep : RestartSweep} :
    (planRootRestarts specs deaths placements insts budget sweep now).1.Justified specs
      placements deaths := by
  have hp : (planDeaths specs placements now ⟨[], [], []⟩ budget deaths).1.Justified specs
      placements deaths :=
    planDeaths_justified ⟨nofun, nofun⟩ fun _ h => h
  refine ⟨hp.restart, fun sri hsr => ?_⟩
  obtain ⟨d, hd, hds, hw⟩ := hp.clear sri hsr
  refine ⟨d, hd, hds, ?_⟩
  rcases hw with hs | hpl | hdr
  · exact .inl hs
  · exact .inr (.inl hpl)
  · exact .inr (.inr (mem_append_left _ hdr))

end PlanDeaths

def deployCells (cells : List CellDeployment) : Orch (Except DeploymentError Unit) := do
  let handler : Nat ← Process.ask (Request.sendDeploy cells)
  Process.ask (Request.awaitDeploy handler)

def clearDeath (sri : Sri) : Orch Unit := do
  let _ ← Orch.call (.clearDeath sri)
  return ()

def dropSpec (sri : Sri) : Orch Unit := do
  let _ ← Orch.eraseSpec sri
  return ()

/-- Redeploys a root.  An attempt that finds no runtime is not charged. -/
def restartRoot (specs : List CellDeployment) (budget : RestartBudget) (sri : Sri) :
    Orch RestartBudget :=
  match specOf specs sri with
  | none => .done budget
  | some spec => do
    match ← deployCells [spec] with
    | .ok () =>
      clearDeath sri
      return budget
    | .error (.infeasible _) => return budget.refund sri
    | .error .noRuntimesAvailable => return budget.refund sri
    | .error _ => return budget

/-- The restarts come first; specs and deaths are dropped after them. -/
def carryOutRestarts (specs : List CellDeployment) (plan : RestartPlan) (budget : RestartBudget) :
    Orch RestartBudget := do
  let budget ← Process.fold (restartRoot specs) budget plan.restart
  Process.each dropSpec plan.dropSpecs
  Process.each clearDeath plan.clearDeaths
  return budget

/-- Goes on from the specs and the deaths that were read. -/
def restartFrom (budget : RestartBudget) (sweep : RestartSweep) (now : Nat)
    (specs : List CellDeployment) (deaths : List RootDeath) : Orch (RestartBudget × RestartSweep) :=
  if specs = [] ∧ deaths = [] then .done (budget, sweep)
  else do
    match ← Orch.listPlacements with
    | .error _ => return (budget, sweep)
    | .ok placements =>
      match ← Orch.listInstances with
      | .error _ => return (budget, sweep)
      | .ok instances =>
        let (plan, budget, sweep) :=
          planRootRestarts specs deaths placements instances budget sweep now
        let budget ← carryOutRestarts specs plan budget
        return (budget, sweep)

/-- The part of a leader's pass that is about roots. -/
def processRootRestarts (budget : RestartBudget) (sweep : RestartSweep) (now : Nat) :
    Orch (RestartBudget × RestartSweep) := do
  match ← Orch.listSpecs with
  | .error _ => return (budget, sweep)
  | .ok specs =>
    match ← Orch.listDeaths with
    | .error _ => return (budget, sweep)
    | .ok deaths => restartFrom budget sweep now specs deaths

/-! ## Nodes -/

/-- Reports a death: a detached cell's to no one, another cell's to its parent, and a root's to the
orchestrators. -/
def reportCellDeath (cell : Sri) (genId : Gen) (lineage : SpawnLineage) (reason : LostReason) :
    Orch (Except String Unit) :=
  if lineage.detached then .done (.ok ())
  else match lineage.parent with
    | some parent =>
      Process.ask (Request.emitCellLost ⟨parent, cell, genId, lineage.localName⟩ reason)
    | none => Orch.call (.recordDeath ⟨cell, genId, reason⟩)

/-- A life that a node hosts. -/
structure WatchedCell where
  genId : Gen
  lineage : SpawnLineage

/-- The exit of a cell is a crash of what is hosted under its name, not the end of something that was
replaced. -/
def exitIsCrash (hosted : Option Gen) (exited : Gen) : Bool := hosted.all fun g => g = exited

def owe (node : RuntimeId) (actions : List CleanupAction) : Orch Unit :=
  Process.ask (Request.owe node actions)

/-- A cell's task has ended.  The rows are queued for release and the death is reported, by a task of
its own. -/
def handleCellExited (node : RuntimeId) (registered : Bool) (watched : Option WatchedCell)
    (sri : Sri) (genId : Gen) : Orch (Except String Unit) :=
  if registered && exitIsCrash (watched.map WatchedCell.genId) genId then
    match watched with
    | none => .done (.ok ())
    | some cell => do
      owe node [.releaseCell sri cell.genId, .removeInstance sri cell.genId]
      reportCellDeath sri cell.genId cell.lineage .crashed
  else .done (.ok ())

/-- The placements that name a node and that it does not host. -/
def selectRemnants (cells : List PlacementEntry) (node : RuntimeId) (hosted : List Sri) :
    List (Sri × Gen) :=
  (cells.filter fun c => c.kind = .wasm node && c.sri ∉ hosted).map fun c => (c.sri, c.genId)

/-- Reports the remnant of a previous run and queues its rows; says whether that was possible. -/
def sweepRemnant (node : RuntimeId) (remnant : Sri × Gen) : Orch Bool := do
  match ← Orch.getInstance remnant.1 with
  | .error _ => return false
  | .ok none =>
    owe node [.releaseCell remnant.1 remnant.2]
    return true
  | .ok (some i) =>
    match ← reportCellDeath remnant.1 i.genId i.lineage .crashed with
    | .error _ => return false
    | .ok () =>
      owe node [.releaseCell remnant.1 remnant.2, .removeInstance remnant.1 i.genId]
      return true

/-- Goes on with what could be done so far. -/
def sweepRemnants (sweep : Sri × Gen → Orch Bool) : List (Sri × Gen) → Orch Bool
  | [] => .done true
  | remnant :: remnants => do
    let swept ← sweep remnant
    let rest ← sweepRemnants sweep remnants
    return swept && rest

/-- The sweep of a node's verification pass; it is repeated until it succeeds. -/
def startupSweep (node : RuntimeId) (hosted : List Sri) : Orch Bool := do
  match ← Orch.listPlacements with
  | .error _ => return false
  | .ok cells => sweepRemnants (sweepRemnant node) (selectRemnants cells node hosted)

/-- Removes rows that are owed, and says whether they need not be owed any longer. -/
def releaseOwed : CleanupAction → Orch Bool
  | .releaseCell sri genId => do return (← Orch.removePlacement sri genId).toBool
  | .removeInstance sri genId => do return (← removeInstance sri genId).toBool
  | .releaseRows sri genId => do
    match ← Orch.removePlacement sri genId with
    | .error _ => return false
    | .ok _ => return (← Orch.removeInstanceRow sri genId).toBool

/-- A row that cannot be removed is owed again. -/
def retryOwed (node : RuntimeId) (action : CleanupAction) : Orch Unit := do
  if ← releaseOwed action then return () else owe node [action]

/-- Attempts every cleanup that is owed. -/
def drainCleanup (node : RuntimeId) : Orch Unit := do
  let pending : List CleanupAction ← Process.ask (Request.takeOwed node)
  Process.each (retryOwed node) pending

/-- The part of a node's verification pass that is about rows. -/
def verifyPass (node : RuntimeId) (hosted : List Sri) (sweepDone : Bool) : Orch Unit := do
  if sweepDone then drainCleanup node
  else
    let _ ← startupSweep node hosted
    drainCleanup node

/-- Notifies the parent of a remnant, if it has one, and says whether the rows may go. -/
def notifyParent (sri : Sri) (i : CellInstance) : Orch Bool :=
  if i.lineage.detached then .done true
  else match i.lineage.parent with
    | none => .done true
    | some parent => do
      let sent : Except String Unit ←
        Process.ask (Request.emitCellLost ⟨parent, sri, i.genId, i.lineage.localName⟩ .crashed)
      return sent.toBool

/-- Releases a remnant before the node registers as available. -/
def releaseRemnant (remnant : Sri × Gen) : Orch Unit := do
  match ← Orch.getInstance remnant.1 with
  | .error _ => return ()
  | .ok none =>
    let _ ← Orch.removePlacement remnant.1 remnant.2
    return ()
  | .ok (some i) =>
    if ← notifyParent remnant.1 i then
      match ← Orch.removePlacement remnant.1 remnant.2 with
      | .error _ => return ()
      | .ok _ =>
        let _ ← removeInstance remnant.1 i.genId
        return ()
    else return ()

/-- The sweep at a node's boot. -/
def sweepPreviousIncarnation (node : RuntimeId) : Orch Unit := do
  match ← Orch.listPlacements with
  | .error _ => return ()
  | .ok cells => Process.each releaseRemnant (selectRemnants cells node [])

/-- Queues the rows of a remnant on an embedded node. -/
def bootSweepRemnant (node : RuntimeId) (remnant : Sri × Gen) : Orch Bool := do
  match ← Orch.getInstance remnant.1 with
  | .error _ => return false
  | .ok none =>
    owe node [.releaseRows remnant.1 remnant.2]
    return true
  | .ok (some i) =>
    if ← notifyParent remnant.1 i then
      owe node [.releaseRows remnant.1 remnant.2]
      return true
    else return false

/-- The boot sweep of an embedded node, which hosts one cell at most; it is repeated until it
succeeds. -/
def bootSweep (node : RuntimeId) (hosted : Option Sri) : Orch Bool := do
  match ← Orch.listPlacements with
  | .error _ => return false
  | .ok cells => sweepRemnants (bootSweepRemnant node) (selectRemnants cells node hosted.toList)

end Myrmic
