import Myrmic.HygieneRuns

/-!
# Undeploys and what comes after

An undeploy erases the spec and removes the placement of a root, and reports success.  A restart pass
that has read the spec before does not know: it redeploys the root from what it has read, and the
redeploy writes the spec again (`undeployed_root_placed_again`).  `undeploy_is_final` is about runs in
which **no pass that has read the spec and no deploy of the root is under way when the undeploy erases
the spec**: once such an undeploy has succeeded, and as long as no client asks for a deploy of the root,
nothing places it and nothing writes its spec.
-/
namespace Myrmic
open KeyedTables Processes Machine List
namespace Orchestration

/-! ## Finality -/

/-- A task under way that may yet place the cell: a deploy of it, or a restart pass that has read its
spec. -/
def mayPlace (sri : Sri) (p : OrchRunning) : Bool :=
  !p.rest.isDone &&
    match p.task with
    | .deploy cells => cells.any fun c => c.sri = sri
    | .restarts .. => (seen specsIn p.history).any fun c => c.sri = sri
    | _ => false

/-- A task has erased the spec of a cell. -/
def hasDropped (w : OrchWorld) (index : Nat) (sri : Sri) : Bool :=
  (w.procs[index]?).any fun p => sri ∈ seen droppedIn p.history

/-- **The condition on a step**: a task erases the spec only while nothing that may yet place the cell is
under way, and afterwards no client asks for a deploy of it. -/
def quietErasure (index : Nat) (sri : Sri) (w : OrchWorld) (action : OrchAction) : Bool :=
  match action with
  | .start (.deploy cells) => !(hasDropped w index sri && cells.any fun c => c.sri = sri)
  | _ =>
    match servedBy w action with
    | some ⟨i, _, _, .db (.eraseSpec s), _⟩ =>
      i ≠ index || s ≠ sri || w.procs.all fun p => !mayPlace sri p
    | _ => true

/-- Nothing is stored or under way from which the cell could be placed. -/
structure Gone (w : OrchWorld) (sri : Sri) : Prop where
  spec : ∀ s ∈ w.state.reg.specs, s.deployment.sri ≠ sri
  quiet : ∀ p ∈ w.procs, mayPlace sri p = false

section Finality
variable {w w' : OrchWorld} {action : OrchAction} {start : Swarm} {sri : Sri} {index : Nat}
  {hist : List OrchEvent} {req : Request} {cells : List CellDeployment}
  {next : req.Ans → Orch TaskResult} {task : OrchTask} {dep : CellDeployment} {fate : Fate}
  {st : Swarm} {tasks : List OrchTask} {a : req.Ans}

theorem mayPlace_deploy (h : mayPlace sri ⟨.deploy cells, hist, .send req next⟩ = false) :
    ∀ c ∈ cells, c.sri ≠ sri := by
  simpa [mayPlace, Process.isDone] using h

theorem mayPlace_restarts {budget : RestartBudget} {sweep : RestartSweep} {now : Nat}
    (h : mayPlace sri ⟨.restarts budget sweep now, hist, .send req next⟩ = false) :
    ∀ c ∈ seen specsIn hist, c.sri ≠ sri := by
  simpa [mayPlace, Process.isDone] using h

/-- Only deploys write specs, those of their cells. -/
theorem cells_of_writes {author : Gen} (h : sends task hist (.db (.writeSpec dep author))) :
    ∃ cells, task = .deploy cells ∧ dep ∈ cells := by
  cases task with
  | deploy cells => exact ⟨cells, rfl, h.1⟩
  | _ => exact h.elim

/-- A spec that is gone is not written. -/
theorem Gone.spec_step (hre : ∀ {s}, servedBy w action = some s → sends s.task s.history s.req)
    (hst : OrchStepped w action w') (h : Gone w sri) :
    ∀ s ∈ w'.state.reg.specs, s.deployment.sri ≠ sri := by
  rcases reg_cases hst with hreg | ⟨s, c, hs, hreq, hreg⟩ | ⟨e, -, hev⟩
  · rw [hreg]
    exact h.spec
  · rcases c.specs_cases w.state.reg with hsa | ⟨dep, author, rfl, hpu⟩ | ⟨sri', rfl, her⟩
    · rw [hreg, hsa]
      exact h.spec
    · obtain ⟨_, hp, -⟩ := mem_of_served hs
      have hju := hre hs
      rw [hreq] at hju
      obtain ⟨_, hta, hme⟩ := cells_of_writes hju
      have hqu := h.quiet _ hp
      rw [hta] at hqu
      intro spec hsp
      rw [hreg, hpu, mem_put] at hsp
      rcases hsp with ⟨hsp, -⟩ | rfl
      · exact h.spec spec hsp
      · exact mayPlace_deploy hqu dep hme
    · intro spec hsp
      rw [hreg, her, KeyedTables.mem_erase] at hsp
      exact h.spec spec hsp.1
  · rw [(event_frame hev).1]
    exact h.spec

theorem mayPlace_eq_false {rest : Orch TaskResult}
    (hd : ∀ cells, task = .deploy cells → ∀ c ∈ cells, c.sri ≠ sri)
    (hr : ∀ budget sweep now, task = .restarts budget sweep now →
      ∀ c ∈ seen specsIn hist, c.sri ≠ sri) : mayPlace sri ⟨task, hist, rest⟩ = false := by
  unfold mayPlace
  rw [Bool.and_eq_false_iff]
  right
  cases task with
  | deploy cells => simpa using hd cells rfl
  | restarts budget sweep now => simpa using hr budget sweep now rfl
  | _ => rfl

theorem specs_of_served (hs : serve w fate req = some (a, st, tasks)) :
    ∀ c ∈ specsIn ⟨req, a⟩, ∃ s ∈ w.state.reg.specs, s.deployment = c := by
  intro c hc
  cases req with
  | db call =>
    cases call with
    | listSpecs =>
      rcases call_cases (serve_db hs).1 with ⟨-, rfl, -⟩ | ⟨e, -, rfl, -⟩ | ⟨e, -, rfl, -⟩
      · exact mem_map.mp hc
      · exact (not_mem_nil hc).elim
      · exact (not_mem_nil hc).elim
    | _ => exact (not_mem_nil hc).elim
  | _ => exact (not_mem_nil hc).elim

variable (hk : ∀ p ∈ w.procs, p.Keeps possible sends ends)
include hk

variable (hcl : ∀ cells, action = .start (.deploy cells) → ∀ c ∈ cells, c.sri ≠ sri)
  {entry : PlacementEntry}
include hcl

theorem Gone.starts (h : Gone w sri) (hsta : Starts serve w action task) :
    ∀ cells, task = .deploy cells → ∀ c ∈ cells, c.sri ≠ sri := by
  rintro cells rfl
  rcases hsta with hst | ⟨i, fate, task', hist, req, next, a, st, tasks, -, hp, hs, ht⟩
  · exact hcl cells hst
  · have hj := sends_of_keeps hk hp
    rcases serve_tasks hs with rfl | ⟨sent, rfl, rfl⟩
    · exact (not_mem_nil ht).elim
    · cases mem_singleton.mp ht
      -- only restart passes send deploys, of a spec they have read
      cases task' with
      | restarts budget sweep now =>
        obtain ⟨spec, hsp, rfl⟩ := hj
        intro c hc
        rw [mem_singleton.mp hc]
        exact mayPlace_restarts (h.quiet _ (mem_of_getElem? hp)) spec hsp
      | _ => exact hj.elim

theorem Gone.quiet_step (hste : OrchStepped w action w') (h : Gone w sri) :
    ∀ p ∈ w'.procs, mayPlace sri p = false := by
  intro p hp
  obtain ⟨j, hj⟩ := mem_iff_getElem?.mp hp
  rcases hste.proc_cases hj with hold | ⟨fate, task, hist, req, next, a, tasks, rfl, hpr, hs,
      rfl⟩ | ⟨-, task, rfl, hst⟩
  · exact h.quiet p (mem_of_getElem? hold)
  · have hq := h.quiet _ (mem_of_getElem? hpr)
    refine mayPlace_eq_false ?_ ?_
    · rintro cells rfl
      exact mayPlace_deploy hq
    · rintro budget sweep now rfl
      intro c hc
      rw [seen_snoc] at hc
      rcases mem_append.mp hc with hc | hc
      · exact (mayPlace_restarts hq) c hc
      · obtain ⟨s, hs, rfl⟩ := specs_of_served hs c hc
        exact h.spec s hs
  · exact mayPlace_eq_false (h.starts hk hcl hst) fun _ _ _ _ _ hc => (not_mem_nil hc).elim

omit hcl

omit hk

/-! ### Runs -/

/-- When a task erases the spec, nothing is under way. -/
theorem quiet_of_erases {s : Served} (h : quietErasure index sri w action = true)
    (hs : servedBy w action = some s) (hi : s.index = index) (hr : s.req = .db (.eraseSpec sri)) :
    ∀ p ∈ w.procs, mayPlace sri p = false := by
  obtain ⟨i, task, _, _, _⟩ := s
  subst hi
  subst hr
  cases action with
  | advance j fate' =>
    simp only [quietErasure, hs] at h
    simpa using h
  | _ => cases hs

theorem erases_of_dropped (h : sri ∈ droppedIn ⟨req, a⟩) : req = .db (.eraseSpec sri) := by
  cases req with
  | db c =>
    cases c with
    | eraseSpec sri' =>
      cases a with
      | error e => exact (not_mem_nil h).elim
      | ok v => rw [mem_singleton.mp h]
    | _ => exact (not_mem_nil h).elim
  | _ => exact (not_mem_nil h).elim

/-- The spec is erased while nothing is under way. -/
theorem Gone.of_erased {i : Nat}
    {next : (Request.db (.eraseSpec sri)).Ans → Orch TaskResult} {erased : Except String Bool}
    (hpr : w.procs[i]? = some ⟨task, hist, .send (.db (.eraseSpec sri)) next⟩)
    (hse : serve w fate (.db (.eraseSpec sri)) = some (erased, st, tasks))
    (hok : sri ∈ droppedIn ⟨.db (.eraseSpec sri), erased⟩)
    (hqu : ∀ p ∈ w.procs, mayPlace sri p = false) :
    Gone ⟨st, w.procs.set i ⟨task, hist ++ [⟨.db (.eraseSpec sri), erased⟩], next erased⟩ ++
      tasks.map (begin program)⟩ sri := by
  obtain ⟨hca, rfl⟩ := serve_db hse
  refine ⟨?_, fun p hp => ?_⟩
  · rcases call_cases hca with ⟨-, rfl, rfl⟩ | ⟨e, -, rfl, -⟩ | ⟨e, -, rfl, -⟩
    · intro s hs
      exact (KeyedTables.mem_erase.mp hs).2
    · exact (not_mem_nil hok).elim
    · exact (not_mem_nil hok).elim
  · rw [map_nil, append_nil] at hp
    rcases mem_or_eq_of_mem_set hp with hp | rfl
    · exact hqu p hp
    · have hbe := hqu _ (mem_of_getElem? hpr)
      refine mayPlace_eq_false ?_ ?_
      · rintro cells rfl
        exact mayPlace_deploy hbe
      · rintro budget sweep now rfl c hc
        rw [seen_snoc] at hc
        exact mayPlace_restarts hbe c ((mem_append.mp hc).resolve_right not_mem_nil)

/-- Once a task has erased the spec, the cell is gone. -/
theorem gone_of_reached (h : Reached step (fun w action => quietErasure index sri w action = true)
      ⟨start, []⟩ w) (hdr : hasDropped w index sri = true) : Gone w sri := by
  induction h with
  | refl => cases hdr
  | @tail w w' action hre hal hst ih =>
    have hste := stepped hst
    have hke := keeps_of_reached hre
    by_cases hbe : hasDropped w index sri = true
    · have hgo := ih hbe
      refine ⟨hgo.spec_step (fun hs => sends_of_served hre hs) hste,
        hgo.quiet_step hke (fun cells hsta => ?_) hste⟩
      subst hsta
      simpa [quietErasure, hbe] using hal
    · obtain ⟨q', hq', hse⟩ := (Option.any_eq_true _ _).mp hdr
      have hse : sri ∈ seen droppedIn q'.history := of_decide_eq_true hse
      rcases hste.proc_cases hq' with hold | ⟨fate, task, hist, req, next, a, tasks, rfl, hpr,
          hser, rfl⟩ | ⟨-, task, rfl, -⟩
      · exact absurd ((Option.any_eq_true _ _).mpr ⟨q', hold, decide_eq_true hse⟩) hbe
      · rw [seen_snoc] at hse
        rcases mem_append.mp hse with hse | hse
        · exact absurd ((Option.any_eq_true _ _).mpr ⟨_, hpr, decide_eq_true hse⟩) hbe
        · cases erases_of_dropped hse
          have hqu := quiet_of_erases hal (servedBy_advance fate hpr) rfl rfl
          rw [hste.eq_advance hpr hser]
          exact Gone.of_erased hpr hser hse hqu
      · exact (not_mem_nil hse).elim

theorem cells_of_claims (h : sends task hist (.db (.claimPlacement entry dep))) :
    ∃ cells, task = .deploy cells ∧ ∃ c ∈ cells, c.sri = entry.sri := by
  cases task with
  | deploy cells => exact ⟨cells, rfl, dep, h.1, h.2.1.symm⟩
  | _ => exact h.elim

theorem cells_of_commits (h : sends task hist (.db (.commitPlacement entry))) :
    ∃ cells, task = .deploy cells ∧ ∃ c ∈ cells, c.sri = entry.sri := by
  cases task with
  | deploy cells => exact ⟨cells, rfl, mem_map.mp h⟩
  | _ => exact h.elim

/-- Where a cell is gone, no placement of it comes to be stored. -/
theorem Gone.placements_step (hre : ∀ {s}, servedBy w action = some s → sends s.task s.history s.req)
    (hst : OrchStepped w action w') (h : Gone w sri) :
    ∀ e ∈ w'.state.reg.placements, e.sri = sri → e ∈ w.state.reg.placements := by
  have hpu : ∀ {s : Served} {entry : PlacementEntry}, servedBy w action = some s →
      (∃ cells, s.task = .deploy cells ∧ ∃ c ∈ cells, c.sri = entry.sri) →
      ∀ e ∈ put DbCall.placementKey entry w.state.reg.placements, e.sri = sri →
        e ∈ w.state.reg.placements := by
    rintro s entry hs ⟨cells, hta, c, hc, hen⟩ e he hsr
    obtain ⟨_, hp, -⟩ := mem_of_served hs
    have hqu := h.quiet _ hp
    rw [hta] at hqu
    rcases mem_put.mp he with ⟨he, -⟩ | rfl
    · exact he
    · exact absurd (hen.trans hsr) (mayPlace_deploy hqu c hc)
  intro e he hsr
  rcases reg_cases hst with hreg | ⟨s, c, hs, hreq, hreg⟩ | ⟨event, -, hev⟩
  · exact hreg ▸ he
  · have hju := hre hs
    rw [hreq] at hju
    rw [hreg] at he
    rcases c.placements_cases w.state.reg with hsa | ⟨entry, dep, rfl, -, hpl, -⟩ |
        ⟨entry, rfl, -, hpl⟩ | ⟨sri', genId, rfl, her⟩
    · exact hsa ▸ he
    · exact hpu hs (cells_of_claims hju) e (hpl ▸ he) hsr
    · exact hpu hs (cells_of_commits hju) e (hpl ▸ he) hsr
    · exact (KeyedTables.mem_erase.mp (her ▸ he)).1
  · exact (event_frame hev).2.2.1 ▸ he

/-- **A successful undeploy is final.** -/
theorem undeploy_is_final {history : List OrchEvent}
    (h : Reached step (fun w action => quietErasure index sri w action = true) ⟨start, []⟩ w)
    (hdone : w.procs[index]? = some ⟨.undeploy sri, history, .done (.undeployed (.ok ()))⟩)
    (hst : step w action = some w') :
    (∀ e ∈ w'.state.reg.placements, e.sri = sri → e ∈ w.state.reg.placements) ∧
      (∀ s ∈ w.state.reg.specs, s.deployment.sri ≠ sri) ∧
      ∀ s ∈ w'.state.reg.specs, s.deployment.sri ≠ sri := by
  have he : UndeployEnds sri history (.ok ()) := ends_of_ended h (mem_of_getElem? hdone) rfl
  have hd : hasDropped w index sri = true :=
    (Option.any_eq_true _ _).mpr ⟨_, hdone, decide_eq_true he.1⟩
  have hg := gone_of_reached h hd
  have hr : ∀ {s}, servedBy w action = some s → sends s.task s.history s.req :=
    fun hs => sends_of_served h hs
  exact ⟨hg.placements_step hr (stepped hst), hg.spec, hg.spec_step hr (stepped hst)⟩

end Finality
namespace Sample

/-- The first life of the root has crashed; its rows are still there. -/
def crashedInPlace : Swarm :=
  { running with reg := { running.reg with deaths := [⟨root, firstLife, .crashed⟩] } }

def noClientDeploy : OrchAction → Bool
  | .start (.deploy _) => false
  | _ => true

/-- A pass reads the specs and the deaths. -/
def specsRead : List OrchAction := [.start (.restarts .new [] 0), .advance 0 .done, .advance 0 .done]

/-- An undeploy of the root that succeeds. -/
def undeployed (index : Nat) : List OrchAction :=
  [.start (.undeploy root)] ++ List.replicate 8 (.advance index .done)

/-- The pass reads the placements and the instances, sends the redeploy, and a generation is minted. -/
def redeployBegun : List OrchAction :=
  [.advance 0 .done, .advance 0 .done, .advance 0 .done, .advance 2 (.clock secondLife)]

/-- The undeploy of the root has succeeded. -/
def hasUndeployed (index : Nat) (w : OrchWorld) : Bool :=
  match w.procs[index]? with
  | some ⟨.undeploy sri, _, .done (.undeployed (.ok ()))⟩ => sri = root
  | _ => false

theorem undeployed_of_has {index : Nat} {w : OrchWorld} (h : hasUndeployed index w = true) :
    ∃ hist, w.procs[index]? = some ⟨.undeploy root, hist, .done (.undeployed (.ok ()))⟩ := by
  unfold hasUndeployed at h
  split at h
  · next sri hist hp =>
    rw [of_decide_eq_true h] at hp
    exact ⟨hist, hp⟩
  · cases h

end Sample
open Orchestration.Sample

/-- **A root is placed again after its undeploy has succeeded**, with no client asking for it: a restart
pass has read the spec before the undeploy erased it. -/
theorem undeployed_root_placed_again :
    ∃ w w' history, Reached step (fun _ action => noClientDeploy action = true)
        ⟨crashedInPlace, []⟩ w ∧
      w.procs[1]? = some ⟨.undeploy root, history, .done (.undeployed (.ok ()))⟩ ∧
      step w (.advance 2 .done) = some w' ∧
      ∃ e ∈ w'.state.reg.placements, e.sri = root ∧ e ∉ w.state.reg.placements := by
  obtain ⟨w, w', hr, hst, hd, hn⟩ : ∃ w w', Reached step
      (fun _ action => noClientDeploy action = true) ⟨crashedInPlace, []⟩ w ∧
      step w (.advance 2 .done) = some w' ∧ hasUndeployed 1 w = true ∧
      ∃ e ∈ w'.state.reg.placements, e.sri = root ∧ e ∉ w.state.reg.placements :=
    exists_reached_some (specsRead ++ undeployed 1 ++ redeployBegun) (by decide +kernel)
  obtain ⟨history, hd⟩ := undeployed_of_has hd
  exact ⟨w, w', history, hr, hd, hst, hn⟩

/-- A restart pass has ended. -/
def Sample.hasPassed (index : Nat) (w : OrchWorld) : Bool :=
  match w.procs[index]? with
  | some ⟨.restarts .., _, .done _⟩ => true
  | _ => false

/-- With no pass under way the undeploy is final.  A pass that starts after it runs to its end: it reads
that the first life has crashed, finds no spec, and its last step only forgets the death. -/
theorem quiet_undeploy_is_final : ∃ w w' : OrchWorld, hasUndeployed 0 w = true ∧
      step w (.advance 1 .done) = some w' ∧ hasPassed 1 w' = true ∧
      w.state.reg.deaths ≠ [] ∧ w'.state.reg.deaths = [] ∧
      (∀ e ∈ w'.state.reg.placements, e.sri = root → e ∈ w.state.reg.placements) ∧
      (∀ s ∈ w.state.reg.specs, s.deployment.sri ≠ root) ∧
      ∀ s ∈ w'.state.reg.specs, s.deployment.sri ≠ root := by
  obtain ⟨w, w', hr, hst, hf, hp, hb, ha⟩ : ∃ w w', Reached step
      (fun w action => quietErasure 0 root w action = true) ⟨crashedInPlace, []⟩ w ∧
      step w (.advance 1 .done) = some w' ∧ hasUndeployed 0 w = true ∧ hasPassed 1 w' = true ∧
      w.state.reg.deaths ≠ [] ∧ w'.state.reg.deaths = [] :=
    exists_reached_some (undeployed 0 ++ [.start (.restarts .new [] 0)] ++
      replicate 4 (.advance 1 .done)) (by decide +kernel)
  obtain ⟨_, hd⟩ := undeployed_of_has hf
  exact ⟨w, w', hf, hst, hp, hb, ha, undeploy_is_final hr hd hst⟩

end Orchestration

end Myrmic
