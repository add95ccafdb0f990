import Myrmic.Supervision

/-!
# Orchestration

Deploys, undeploys, the passes of leaders and the cleanups of nodes run at the same time, on the same
registries, and cells that have been loaded write rows of their own meanwhile.  `Orchestration.step` is
the machine of all of them: a task can be started at any time, every request of a task is one step, and
a request can fail before or after it has taken effect.  What a task read some steps ago may be out of
date by the time it acts on it; nothing but the registries' own checks guards against that.

What a request of a task may do to the registries is said once (`reg_cases`): nothing, or what one call
does, or what a cell does on its own.  The invariants of the later modules are derived from that.
-/
namespace Myrmic
open KeyedTables Processes Machine

/-! ## The machine -/

inductive OrchTask where
  | deploy (cells : List CellDeployment)
  | undeploy (sri : Sri)
  | hygiene (watch : NodeWatch)
  | restarts (budget : RestartBudget) (sweep : RestartSweep) (now : Nat)
  /-- The exit of a cell that a node watches. -/
  | exited (node : RuntimeId) (registered : Bool) (watched : Option WatchedCell) (sri : Sri)
      (genId : Gen)
  | verify (node : RuntimeId) (hosted : List Sri) (sweepDone : Bool)
  /-- The boot of a node, before it registers as available. -/
  | boot (node : RuntimeId)
  /-- The boot of an embedded node. -/
  | embeddedBoot (node : RuntimeId) (hosted : Option Sri)
  /-- An embedded node's attempt at what it owes. -/
  | embeddedDrain (node : RuntimeId)

inductive TaskResult where
  | deployed (outcome : Except DeploymentError (List (Sri × Option RuntimeId)))
  | undeployed (outcome : Except String Unit)
  | restarted (budget : RestartBudget) (sweep : RestartSweep)
  | reported (outcome : Except String Unit)
  | finished

/-- What cells do that have been loaded. -/
inductive CellEvent where
  /-- Writes its instance, in place of those of older generations. -/
  | init (i : CellInstance)
  | declareRoute (sri : Sri) (genId : Gen) (mount : String)
  | upload (sri : Sri) (genId : Gen) (path : String)

namespace Orchestration

def program : OrchTask → Orch TaskResult
  | .deploy cells => (handleDeployCellQuery cells).bind fun r => .done (.deployed r)
  | .undeploy sri => (undeployCell sri).bind fun r => .done (.undeployed r)
  | .hygiene watch => (hygienePass watch).bind fun _ => .done .finished
  | .restarts budget sweep now =>
    (processRootRestarts budget sweep now).bind fun r => .done (.restarted r.1 r.2)
  | .exited node registered watched sri genId =>
    (handleCellExited node registered watched sri genId).bind fun r => .done (.reported r)
  | .verify node hosted sweepDone =>
    (verifyPass node hosted sweepDone).bind fun _ => .done .finished
  | .boot node => (sweepPreviousIncarnation node).bind fun _ => .done .finished
  | .embeddedBoot node hosted => (bootSweep node hosted).bind fun _ => .done .finished
  | .embeddedDrain node => (drainCleanup node).bind fun _ => .done .finished

abbrev OrchWorld := World OrchTask Request Request.Ans TaskResult Swarm

abbrev OrchRunning := Running OrchTask Request Request.Ans TaskResult

abbrev OrchEvent := Event Request Request.Ans

abbrev OrchAction := WorldAction OrchTask Fate CellEvent

def outcomeOf (w : OrchWorld) (handler : Nat) : Option (Except DeploymentError Unit) :=
  match w.procs[handler]? with
  | some ⟨_, _, .done (.deployed r)⟩ => some (r.map fun _ => ())
  | _ => none

/-- Waits for a deploy, or gives up. -/
def await (w : OrchWorld) (handler : Nat) : Fate → Option (Except DeploymentError Unit)
  | .done => outcomeOf w handler
  | .unanswered e => some (.error e)
  | _ => none

/-- Serves a request; a deploy that is asked for is a task of its own. -/
def serve (w : OrchWorld) (fate : Fate) :
    (req : Request) → Option (req.Ans × Swarm × List OrchTask)
  | .sendDeploy cells => some (w.procs.length, w.state, [.deploy cells])
  | .awaitDeploy handler => (await w handler fate).map fun outcome => (outcome, w.state, [])
  | req => (w.state.answer fate req).map fun r => (r.1, r.2, [])

/-- Only a life that was claimed can be loaded. -/
def isLife (st : Registries) (sri : Sri) (genId : Gen) : Bool :=
  st.lives.any fun life => life.deployment.sri = sri && life.genId = genId

/-- The lives that were claimed write rows. -/
def event (st : Registries) : CellEvent → Option Registries
  | .init i =>
    if st.lives.any fun life => life.deployment.sri = i.sri && life.genId = i.genId &&
        life.deployment.lineage = i.lineage then
      let younger := st.instances.filter fun j => ¬(j.sri = i.sri ∧ j.genId < i.genId)
      some { st with instances := put DbCall.instanceKey i younger }
    else none
  | .declareRoute sri genId mount =>
    if isLife st sri genId then some { st with routes := put Route.mount ⟨mount, sri, genId⟩ st.routes }
    else none
  | .upload sri genId path =>
    if isLife st sri genId then
      some { st with assets := put (fun a => (a.owner, a.path)) ⟨sri, path, genId⟩ st.assets }
    else none

def outer (st : Swarm) (e : CellEvent) : Option Swarm :=
  (event st.reg e).map fun reg => { st with reg := reg }

def step : OrchWorld → OrchAction → Option OrchWorld := Processes.step program serve outer

/-! ## What a step does -/

abbrev OrchStepped := Stepped program serve outer

variable {w w' : OrchWorld} {act : OrchAction} {req : Request} {st : Swarm} {st' : Swarm}
  {fate : Fate} {c : DbCall} {tasks : List OrchTask} {a : Except String c.Value}

theorem stepped (h : step w act = some w') : OrchStepped w act w' := stepped_of_step h

/-- The request that an action serves: the process, its task and history, and how the request goes. -/
structure Served where
  index : Nat
  task : OrchTask
  history : List OrchEvent
  req : Request
  fate : Fate

def servedBy (w : OrchWorld) : OrchAction → Option Served
  | .advance i fate =>
    match w.procs[i]? with
    | some ⟨task, history, .send req _⟩ => some ⟨i, task, history, req, fate⟩
    | _ => none
  | _ => none

theorem servedBy_advance {i : Nat} (fate : Fate) {task : OrchTask} {hist : List OrchEvent}
    {next : req.Ans → Orch TaskResult} (h : w.procs[i]? = some ⟨task, hist, .send req next⟩) :
    servedBy w (.advance i fate) = some ⟨i, task, hist, req, fate⟩ := by
  simp only [servedBy, h]

theorem call_cases (h : st.call c fate = some (a, st')) :
    (fate = .done ∧ a = .ok (c.perform st.reg).1 ∧ st' = { st with reg := (c.perform st.reg).2 }) ∨
      (∃ e, fate = .refused e ∧ a = .error e ∧ st' = st) ∨
      ∃ e, fate = .lost e ∧ a = .error e ∧ st' = { st with
        reg := (c.perform st.reg).2
        lost := if c.takesHold st.reg then c :: st.lost else st.lost } := by
  cases fate with
  | done =>
    cases h
    exact .inl ⟨rfl, rfl, rfl⟩
  | refused e =>
    cases h
    exact .inr (.inl ⟨e, rfl, rfl, rfl⟩)
  | lost e =>
    cases h
    exact .inr (.inr ⟨e, rfl, rfl, rfl⟩)
  | _ => cases h

theorem serve_db (h : serve w fate (.db c) = some (a, st, tasks)) :
    w.state.call c fate = some (a, st) ∧ tasks = [] := by
  obtain ⟨⟨_, _⟩, ha, hr⟩ := Option.map_eq_some_iff.mp h
  cases hr
  exact ⟨ha, rfl⟩

theorem serve_mint {genId : Gen}
    (h : serve w fate .mint = some (genId, st, tasks)) : fate = .clock genId := by
  obtain ⟨⟨a, _⟩, ha, hr⟩ := Option.map_eq_some_iff.mp h
  cases hr
  exact (Swarm.mint_eq_some ha).1

variable {a : req.Ans} (h : serve w fate req = some (a, st, tasks))
include h

/-- **What serving a request does to the swarm**, other than a database call. -/
theorem serve_frame : (∃ c, req = .db c) ∨
    (∃ node actions, req = .owe node actions ∧ st = w.state.owe node actions) ∨
    (∃ node, req = .takeOwed node ∧ st = (w.state.takeOwed node).2) ∨
    st.reg = w.state.reg ∧ st.owed = w.state.owed := by
  cases req with
  | db c => exact .inl ⟨c, rfl⟩
  | owe node actions =>
    cases h
    exact .inr (.inl ⟨node, actions, rfl, rfl⟩)
  | takeOwed node =>
    cases h
    exact .inr (.inr (.inl ⟨node, rfl, rfl⟩))
  | sendDeploy cells =>
    cases h
    exact .inr (.inr (.inr ⟨rfl, rfl⟩))
  | awaitDeploy handler =>
    obtain ⟨_, -, hr⟩ := Option.map_eq_some_iff.mp h
    cases hr
    exact .inr (.inr (.inr ⟨rfl, rfl⟩))
  | mint | placeCells _ | deployCell _ _ _ _ | undeployWasmCell _ _ _ | emitCellLost _ _
  | deregisterExec _ | deleteLease _ =>
    obtain ⟨⟨_, _⟩, ha, hr⟩ := Option.map_eq_some_iff.mp h
    cases hr
    refine .inr (.inr (.inr ?_))
    first
      | rw [(Swarm.mint_eq_some ha).2.2]; exact ⟨rfl, rfl⟩
      | rw [(Swarm.placeCells_eq_some ha).1]; exact ⟨rfl, rfl⟩
      | rw [Swarm.deployCell_eq_some ha]; exact ⟨rfl, rfl⟩
      | rw [Swarm.message_eq_some ha]; exact ⟨rfl, rfl⟩

theorem serve_reg (hre : ∀ c, req ≠ .db c) : st.reg = w.state.reg := by
  rcases serve_frame h with ⟨c, rfl⟩ | ⟨_, _, -, rfl⟩ | ⟨_, -, rfl⟩ | ⟨hr, -⟩
  · exact absurd rfl (hre c)
  · rfl
  · rfl
  · exact hr

/-- A request starts a task only if it asks for a deploy. -/
theorem serve_tasks : tasks = [] ∨ ∃ cells, req = .sendDeploy cells ∧ tasks = [.deploy cells] := by
  cases req with
  | sendDeploy cells =>
    cases h
    exact .inr ⟨cells, rfl, rfl⟩
  | awaitDeploy handler =>
    obtain ⟨_, -, hr⟩ := Option.map_eq_some_iff.mp h
    cases hr
    exact .inl rfl
  | owe _ _ | takeOwed _ =>
    cases h
    exact .inl rfl
  | db _ | mint | placeCells _ | deployCell _ _ _ _ | undeployWasmCell _ _ _ | emitCellLost _ _
  | deregisterExec _ | deleteLease _ =>
    obtain ⟨⟨_, _⟩, -, hr⟩ := Option.map_eq_some_iff.mp h
    cases hr
    exact .inl rfl

omit h

/-- What cells write are instances, routes and assets. -/
theorem event_frame {st st' : Registries} {e : CellEvent} (h : event st e = some st') :
    st'.specs = st.specs ∧ st'.deaths = st.deaths ∧ st'.placements = st.placements ∧
      st'.lives = st.lives ∧ st'.recorded = st.recorded := by
  revert h
  fun_cases event st e <;> rintro ⟨⟩ <;> exact ⟨rfl, rfl, rfl, rfl, rfl⟩

/-- **What a step does to the registries**: nothing, or what a call does, or what a cell does. -/
theorem reg_cases (h : OrchStepped w act w') : w'.state.reg = w.state.reg ∨
      (∃ s c, servedBy w act = some s ∧ s.req = .db c ∧
        w'.state.reg = (c.perform w.state.reg).2) ∨
      ∃ e, act = .outer e ∧ event w.state.reg e = some w'.state.reg := by
  cases h with
  | start task => exact .inl rfl
  | @advance i fate task hist req next a state tasks hp hs =>
    by_cases hr : ∃ c, req = .db c
    · obtain ⟨c, rfl⟩ := hr
      rcases call_cases (serve_db hs).1 with ⟨-, -, rfl⟩ | ⟨e, -, -, rfl⟩ | ⟨e, -, -, rfl⟩
      · exact .inr (.inl ⟨_, c, servedBy_advance _ hp, rfl, rfl⟩)
      · exact .inl rfl
      · exact .inr (.inl ⟨_, c, servedBy_advance _ hp, rfl, rfl⟩)
    · exact .inl (serve_reg hs (fun c hc => hr ⟨c, hc⟩))
  | outer h =>
    obtain ⟨_, hre, rfl⟩ := Option.map_eq_some_iff.mp h
    exact .inr (.inr ⟨_, rfl, hre⟩)

/-! ## Samples -/

namespace Sample

def root : Sri := .fill 16 1

/-- The node that hosts the first life, and another one. -/
def node : RuntimeId := .fill 16 2

def otherNode : RuntimeId := .fill 16 3

def firstLife : Gen := ⟨1, 1⟩

def secondLife : Gen := ⟨2, 1⟩

/-- A root that is to be restarted whenever it ends, after no delay. -/
def rootDeployment : CellDeployment := ⟨root, none, none, .root, ⟨.always, 5, 1000, 0⟩⟩

/-- The steps of a deploy of the root that succeeds. -/
def deploySteps (index : Nat) (genId : Gen) (host : RuntimeId) : List OrchAction :=
  [.advance index (.clock genId), .advance index .done,
    .advance index (.placed (.ok [(rootDeployment, host)])),
    .advance index (.deployed (.ok (.wasm host))), .advance index .done, .advance index .done]

end Sample
end Orchestration

end Myrmic
