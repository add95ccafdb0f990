import Myrmic.OwnGeneration

/-!
# Rows of roots and their deaths

Reconciliation takes a root without rows and without a death for one that was removed deliberately.  So
whoever cleans up after a root that is to be restarted has to record its death before its rows go.  Not
everyone does: the sweep at a node's boot removes the rows of what the last run has left without any
record (`boot_removes_unrecorded_root`), and so does that of an embedded node; a node whose report of a
crash has failed removes the rows all the same; a sweep and hygiene go by the newest instance, whose
generation need not be that of the placement they remove.

`root_rows_outlive_unrecorded_death` is about runs in which **boots find no remnants of such roots, a node
drains its queue only when its reports have gone through, hygiene's records take effect, and the instance
that is found for a root is of its placement's generation**.  The invariant `Informed` follows the reason
of every removal from the row that was read through the queues of the nodes to the removal.
-/
namespace Myrmic
open KeyedTables Processes Machine List
namespace Orchestration

/-! ## Roots and their lives -/

/-- A root that is not detached. -/
def isRootLineage (lineage : SpawnLineage) : Bool := lineage.parent = none && !lineage.detached

/-- A life of a root that is to be restarted. -/
def Life.isRoot (life : Life) : Bool :=
  isRootLineage life.deployment.lineage && life.deployment.restart.isEnabled

/-- A generation of a cell was claimed, as a root that is to be restarted and as nothing else. -/
def rootLife (reg : Registries) (sri : Sri) (genId : Gen) : Bool :=
  isLife reg sri genId && reg.lives.all fun life =>
    !(life.deployment.sri = sri && life.genId = genId) || Life.isRoot life

/-- A generation of a cell was claimed as something else. -/
def NotRoot (reg : Registries) (sri : Sri) (genId : Gen) : Prop :=
  ∃ life ∈ reg.lives, life.deployment.sri = sri ∧ life.genId = genId ∧ Life.isRoot life = false

def Recorded (reg : Registries) (sri : Sri) (genId : Gen) : Prop :=
  ∃ d ∈ reg.recorded, d.sri = sri ∧ d.genId = genId

/-- The rows of a generation may go. -/
def Excused (reg : Registries) (sri : Sri) (genId : Gen) : Prop :=
  Recorded reg sri genId ∨ NotRoot reg sri genId

/-- The life that a row is of was claimed, with the lineage that the row has. -/
def HasLineage (reg : Registries) (sri : Sri) (genId : Gen) (lineage : SpawnLineage) : Prop :=
  ∃ life ∈ reg.lives, life.deployment.sri = sri ∧ life.genId = genId ∧
    life.deployment.lineage = lineage

/-- The rows of lives that were claimed. -/
structure RowsLive (reg : Registries) : Prop where
  placements : ∀ e ∈ reg.placements, isLife reg e.sri e.genId = true
  instances : ∀ i ∈ reg.instances, HasLineage reg i.sri i.genId i.lineage

/-! ## The conditions -/

/-- The life whose rows a cleanup removes. -/
def target : CleanupAction → Sri × Gen
  | .releaseCell sri genId => (sri, genId)
  | .removeInstance sri genId => (sri, genId)
  | .releaseRows sri genId => (sri, genId)

/-- An exit of a node that has queued rows has been reported with success. -/
def exitReported (node : RuntimeId) (p : OrchRunning) : Bool :=
  match p.task with
  | .exited n _ _ _ _ => n ≠ node || (seen owedIn p.history).isEmpty ||
    match p.rest with
    | .done (.reported (.ok _)) => true
    | _ => false
  | _ => true

/-- What a sweep is about to owe for a root rests on an instance of the placement's generation. -/
def sweptByInstance (reg : Registries) (history : List OrchEvent) (action : CleanupAction) : Bool :=
  decide (action ∈ seen takenIn history) || !rootLife reg (target action).1 (target action).2 ||
    (seen lookedUpIn history).all fun found =>
      found.1 ≠ (target action).1 || found.2.any fun i => i.genId = (target action).2

/-- What hygiene is about to release of a root is of the generation of the instance it has read. -/
def lossByInstance (reg : Registries) (history : List OrchEvent) (sri : Sri) (genId : Gen) : Bool :=
  !rootLife reg sri genId ||
    (NodeWatch.instanceOf (seen instancesIn history) sri).any fun i => i.genId = genId

def takesEffect : Fate → Bool
  | .refused _ => false
  | _ => true

/-- **The condition on a step.** -/
def reportsFirst (w : OrchWorld) (action : OrchAction) : Bool :=
  match servedBy w action with
  | some ⟨_, .boot _, _, .db (.removePlacement sri genId), _⟩ => !rootLife w.state.reg sri genId
  | some ⟨_, .boot _, _, .db (.removeInstanceRow sri genId), _⟩ => !rootLife w.state.reg sri genId
  | some ⟨_, .embeddedBoot _ _, _, .owe _ actions, _⟩ =>
    actions.all fun a => !rootLife w.state.reg (target a).1 (target a).2
  | some ⟨_, .verify _ _ _, history, .owe _ actions, _⟩ =>
    actions.all (sweptByInstance w.state.reg history)
  | some ⟨_, .embeddedDrain _, history, .owe _ actions, _⟩ =>
    actions.all (sweptByInstance w.state.reg history)
  | some ⟨_, .hygiene _, _, .db (.recordDeath _), fate⟩ => takesEffect fate
  | some ⟨_, .hygiene _, history, .db (.removePlacement sri genId), _⟩ =>
    lossByInstance w.state.reg history sri genId
  | some ⟨_, _, _, .takeOwed node, _⟩ => w.procs.all (exitReported node)
  | _ => true

/-- What exits on a node was claimed, with the lineage that the node knows. -/
def exitsLive (w : OrchWorld) : OrchAction → Bool
  | .start (.exited _ _ (some cell) sri _) =>
    w.state.reg.lives.any fun life => life.deployment.sri = sri && life.genId = cell.genId &&
      life.deployment.lineage = cell.lineage
  | _ => true

/-! ## Rows -/

section Rows
variable {reg reg' : Registries} {w w' : OrchWorld} {action : OrchAction} {start : Swarm} {sri : Sri}
  {genId : Gen} {lineage : SpawnLineage} {allowed : OrchWorld → OrchAction → Prop}

/-- Lives and records only grow. -/
structure Grows (reg reg' : Registries) : Prop where
  lives : ∀ life ∈ reg.lives, life ∈ reg'.lives
  recorded : ∀ d ∈ reg.recorded, d ∈ reg'.recorded

theorem perform_recorded (c : DbCall) : ∀ d ∈ reg.recorded, d ∈ (c.perform reg).2.recorded := by
  intro d hd
  cases c with
  | recordDeath death => exact mem_cons_of_mem _ hd
  | claimPlacement e dep | commitPlacement e =>
    simp only [DbCall.perform]
    split <;> exact hd
  | _ => exact hd

theorem grows_step (hs : OrchStepped w action w') : Grows w.state.reg w'.state.reg := by
  refine ⟨lives_step hs, ?_⟩
  rcases reg_cases hs with h | ⟨s, c, -, -, h⟩ | ⟨e, -, h⟩
  · rw [h]
    exact fun _ hd => hd
  · rw [h]
    exact perform_recorded c
  · rw [(event_frame h).2.2.2.2]
    exact fun _ hd => hd

theorem HasLineage.mono (h : HasLineage reg sri genId lineage) (hg : Grows reg reg') :
    HasLineage reg' sri genId lineage := by
  obtain ⟨life, hl, hr⟩ := h
  exact ⟨life, hg.lives life hl, hr⟩

theorem Excused.mono (h : Excused reg sri genId) (hg : Grows reg reg') :
    Excused reg' sri genId := by
  rcases h with ⟨d, hd, hr⟩ | ⟨life, hl, hr⟩
  · exact .inl ⟨d, hg.recorded d hd, hr⟩
  · exact .inr ⟨life, hg.lives life hl, hr⟩

/-- A life that is not a root's was claimed as something else. -/
theorem notRoot_of_not_rootLife (hl : isLife reg sri genId = true)
    (h : rootLife reg sri genId = false) : NotRoot reg sri genId := by
  unfold rootLife at h
  rw [hl, Bool.true_and, all_eq_false] at h
  obtain ⟨life, hm, hn⟩ := h
  simp only [Bool.or_eq_true, Bool.not_eq_true', not_or, Bool.not_eq_false, Bool.and_eq_true,
    decide_eq_true_eq, Bool.not_eq_true] at hn
  exact ⟨life, hm, hn.1.1, hn.1.2, hn.2⟩

theorem not_notRoot_of_rootLife (h : rootLife reg sri genId = true) : ¬NotRoot reg sri genId := by
  rintro ⟨life, hm, rfl, rfl, hn⟩
  have ha := all_eq_true.mp (Bool.and_eq_true_iff.mp h).2 life hm
  simp [hn] at ha

/-- A row with the lineage of a root is excused if the death was recorded; any other is excused. -/
theorem excused_of_lineage (h : HasLineage reg sri genId lineage)
    (hre : lineage.detached = false → lineage.parent = none → Recorded reg sri genId) :
    Excused reg sri genId := by
  obtain ⟨life, hl, hs, hg, rfl⟩ := h
  by_cases hr : isRootLineage life.deployment.lineage = true
  · simp only [isRootLineage, Bool.and_eq_true, decide_eq_true_eq, Bool.not_eq_true'] at hr
    exact .inl (hre hr.2 hr.1)
  · refine .inr ⟨life, hl, hs, hg, ?_⟩
    rw [Life.isRoot, Bool.eq_false_iff.mpr hr, Bool.false_and]

theorem rowsLive_event {e : CellEvent} (h : RowsLive reg) (hev : event reg e = some reg') :
    RowsLive reg' := by
  revert hev
  fun_cases event reg e <;> rintro ⟨⟩
  · next hli _ =>
    refine ⟨h.placements, fun j hj => ?_⟩
    rcases mem_put.mp hj with ⟨hj, -⟩ | rfl
    · exact h.instances j (mem_filter.mp hj).1
    · obtain ⟨life, hme, hli⟩ := any_eq_true.mp hli
      simp only [Bool.and_eq_true, decide_eq_true_eq] at hli
      exact ⟨life, hme, hli.1.1, hli.1.2, hli.2⟩
  · exact { h with }
  · exact { h with }

/-- The placement that a commit replaces is of the same life. -/
theorem isLife_of_commit {entry : PlacementEntry} (h : RowsLive reg)
    (hf : fenceAdmission (reg.placementGens entry.sri).max? entry.genId = .ok ()) :
    isLife reg entry.sri entry.genId = true := by
  unfold fenceAdmission at hf
  split at hf
  · cases hf
  · next cur hm =>
    by_cases heq : cur = entry.genId
    · have hme : entry.genId ∈ reg.placementGens entry.sri := heq ▸ List.max?_mem hm
      obtain ⟨e, he, hg⟩ := mem_map.mp hme
      obtain ⟨he, hs⟩ := mem_filter.mp he
      have hl := h.placements e he
      rw [hg, of_decide_eq_true hs] at hl
      exact hl
    · rw [if_pos heq] at hf
      cases hf

theorem rowsLive_perform {c : DbCall} (h : RowsLive reg)
    (hcl : ∀ entry dep, c = .claimPlacement entry dep →
      entry.sri = dep.sri) : RowsLive (c.perform reg).2 := by
  have hli : ∀ life ∈ reg.lives, life ∈ (c.perform reg).2.lives := perform_lives c
  refine ⟨fun e he => ?_, fun i hi => ?_⟩
  · rcases c.placements_cases reg with hsa | ⟨entry, dep, hc, -, hpu, hne⟩ |
        ⟨entry, -, hfe, hpu⟩ | ⟨sri, genId, -, her⟩
    · rw [hsa] at he
      exact isLife_mono hli (h.placements e he)
    · rw [hpu, mem_put] at he
      rcases he with ⟨he, -⟩ | rfl
      · exact isLife_mono hli (h.placements e he)
      · refine any_eq_true.mpr ⟨⟨dep, e.genId⟩, ?_, ?_⟩
        · rw [hne]
          exact mem_cons_self
        · simp [hcl e dep hc]
    · rw [hpu, mem_put] at he
      rcases he with ⟨he, -⟩ | rfl
      · exact isLife_mono hli (h.placements e he)
      · exact isLife_mono hli (isLife_of_commit h hfe)
    · rw [her, KeyedTables.mem_erase] at he
      exact isLife_mono hli (h.placements e he.1)
  · have hold : i ∈ reg.instances := by
      rcases c.instances_cases reg with hsa | ⟨sri, genId, -, her⟩
      · exact hsa ▸ hi
      · exact (KeyedTables.mem_erase.mp (her ▸ hi)).1
    obtain ⟨life, hlif, hre⟩ := h.instances i hold
    exact ⟨life, hli life hlif, hre⟩

theorem rowsLive_step (hr : Reached step allowed ⟨start, []⟩ w) (h : RowsLive w.state.reg)
    (hst : OrchStepped w action w') : RowsLive w'.state.reg := by
  rcases reg_cases hst with hre | ⟨s, c, hs, hreq, hre⟩ | ⟨e, -, he⟩
  · rw [hre]
    exact h
  · rw [hre]
    refine rowsLive_perform h fun entry dep hc => ?_
    have hj := sends_of_served hr hs
    rw [hreq, hc] at hj
    exact entry_of_claims hj
  · exact rowsLive_event h he

end Rows

/-! ## What is known in a run -/

/-- The rows that a cleanup is about may go. -/
def MayGo (reg : Registries) (action : CleanupAction) : Prop :=
  Excused reg (target action).1 (target action).2

/-- What is known of an event of a task: rows that were read are of lives, what was recorded is on
record, and what was taken up may go. -/
structure EventKnown (reg : Registries) (task : OrchTask) (e : OrchEvent) : Prop where
  placements : ∀ entry ∈ placementsIn e, isLife reg entry.sri entry.genId = true
  instances : ∀ i ∈ instancesIn e, HasLineage reg i.sri i.genId i.lineage
  lookedUp : ∀ found ∈ lookedUpIn e, ∀ i, found.2 = some i →
    HasLineage reg found.1 i.genId i.lineage
  recorded : ∀ d ∈ recordedIn e, d ∈ reg.recorded
  reported : ∀ watch, task = .hygiene watch → ∀ d ∈ reportedIn e, d ∈ reg.recorded
  taken : ∀ action ∈ takenIn e, MayGo reg action

/-- What is known of a task: its events, and that what has exited was claimed. -/
structure TaskKnown (reg : Registries) (task : OrchTask) (history : List OrchEvent) : Prop where
  events : ∀ e ∈ history, EventKnown reg task e
  exits : ∀ node registered cell sri genId, task = .exited node registered (some cell) sri genId →
    HasLineage reg sri cell.genId cell.lineage

/-- A cleanup was queued by the exit of a cell. -/
def QueuedByExit (w : OrchWorld) (node : RuntimeId) (action : CleanupAction) : Prop :=
  ∃ p ∈ w.procs, ∃ registered cell sri genId,
    p.task = .exited node registered (some cell) sri genId ∧ seen owedIn p.history ≠ [] ∧
      target action = (sri, cell.genId)

/-- **What is known in a run.** -/
structure Informed (w : OrchWorld) : Prop where
  rows : RowsLive w.state.reg
  owed : ∀ o ∈ w.state.owed, MayGo w.state.reg o.2 ∨ QueuedByExit w o.1 o.2
  tasks : ∀ p ∈ w.procs, TaskKnown w.state.reg p.task p.history

variable {a : CleanupAction} {req : Request} {watch : NodeWatch}
section Knowledge
variable {reg reg' : Registries} {w w' : OrchWorld} {action : OrchAction} {start : Swarm}
  {task : OrchTask} {hist : List OrchEvent} {e : OrchEvent}
  {allowed : OrchWorld → OrchAction → Prop} {fate : Fate} {st : Swarm} {i : Nat}
  {tasks : List OrchTask} {actions : List CleanupAction} {node : RuntimeId}

theorem EventKnown.mono (h : EventKnown reg task e) (hg : Grows reg reg') :
    EventKnown reg' task e where
  placements entry he := isLife_mono hg.lives (h.placements entry he)
  instances i hi := (h.instances i hi).mono hg
  lookedUp found hf i hi := (h.lookedUp found hf i hi).mono hg
  recorded d hd := hg.recorded d (h.recorded d hd)
  reported watch ht d hd := hg.recorded d (h.reported watch ht d hd)
  taken a ha := (h.taken a ha).mono hg

theorem TaskKnown.mono (h : TaskKnown reg task hist) (hg : Grows reg reg') :
    TaskKnown reg' task hist :=
  ⟨fun e he => (h.events e he).mono hg, fun node regs cell sri genId ht =>
    (h.exits node regs cell sri genId ht).mono hg⟩

theorem EventKnown.of_silent (hp : placementsIn e = []) (hi : instancesIn e = [])
    (hl : lookedUpIn e = []) (hre : reportedIn e = []) (hr : recordedIn e = [])
    (ht : takenIn e = []) : EventKnown reg task e where
  placements entry h := by simp [hp] at h
  instances i h := by simp [hi] at h
  lookedUp found h := by simp [hl] at h
  recorded d h := by simp [hr] at h
  reported watch _ d h := by simp [hre] at h
  taken a h := by simp [ht] at h

/-- A death that was recorded is on record; if recording it takes effect, then also where the answer
was lost. -/
theorem known_recordDeath {d : RootDeath} {a : Except String Unit}
    (hok : ∀ v, a = .ok v → d ∈ reg.recorded)
    (hh : ∀ watch, task = .hygiene watch → d ∈ reg.recorded) :
    EventKnown reg task ⟨.db (.recordDeath d), a⟩ := by
  refine ⟨nofun, nofun, nofun, fun d' hd' => ?_, fun watch ht d' hd' => ?_, nofun⟩
  · cases a with
    | ok v =>
      rw [mem_singleton.mp hd']
      exact hok v rfl
    | error error => exact (not_mem_nil hd').elim
  · rw [mem_singleton.mp hd']
    exact hh watch ht

def ReportingSteps (w : OrchWorld) (action : OrchAction) : Prop :=
  reportsFirst w action = true ∧ exitsLive w action = true

instance instDecidableReportingSteps (w : OrchWorld) (action : OrchAction) :
    Decidable (ReportingSteps w action) :=
  inferInstanceAs (Decidable (reportsFirst w action = true ∧ exitsLive w action = true))

/-- A call answers with what it has done, or fails. -/
theorem answer_of_call {st' : Swarm} {c : DbCall} {a : Except String c.Value}
    (h : st.call c fate = some (a, st')) :
    a = .ok (c.perform st.reg).1 ∨ ∃ error, a = .error error := by
  rcases call_cases h with ⟨-, ha, -⟩ | ⟨error, -, ha, -⟩ | ⟨error, -, ha, -⟩
  · exact .inl ha
  · exact .inr ⟨error, ha⟩
  · exact .inr ⟨error, ha⟩

/-! ### Queues -/

theorem serve_owed {a : req.Ans}
    (hse : serve w fate req = some (a, st, tasks)) : (∃ node actions, req = .owe node actions ∧
        st.owed = w.state.owed ++ actions.map fun action => (node, action)) ∨
      ∀ o ∈ st.owed, o ∈ w.state.owed := by
  rcases serve_frame hse with ⟨c, rfl⟩ | ⟨node, actions, rfl, rfl⟩ | ⟨node, rfl, rfl⟩ | ⟨-, how⟩
  · rcases call_cases (serve_db hse).1 with ⟨-, -, rfl⟩ | ⟨_, -, -, rfl⟩ | ⟨_, -, -, rfl⟩
    all_goals exact .inr fun _ ho => ho
  · exact .inl ⟨node, actions, rfl, rfl⟩
  · exact .inr fun o ho => (mem_filter.mp ho).1
  · exact .inr fun o ho => how ▸ ho

/-- What a sweep owes may go: the instance it has looked up is of the placement's generation and its
death was recorded, or no death had to be recorded. -/
theorem mayGo_of_swept (h : TaskKnown w.state.reg task hist)
    (hsw : Swept hist a) (hby : sweptByInstance w.state.reg hist a = true) :
    MayGo w.state.reg a := by
  have hfo : ∀ sri i, (sri, some i) ∈ seen lookedUpIn hist → Reported hist sri i →
      Excused w.state.reg sri i.genId := by
    intro sri i hlo hre
    obtain ⟨e, he, hin⟩ := mem_seen.mp hlo
    refine excused_of_lineage ((h.events e he).lookedUp _ hin i rfl) fun hde hpa => ?_
    obtain ⟨e', he', hd⟩ := mem_seen.mp (hre hde hpa)
    exact ⟨_, (h.events e' he').recorded _ hd, rfl, rfl⟩
  cases a with
  | releaseRows sri genId => exact hsw.elim
  | removeInstance sri genId =>
    obtain ⟨i, hlo, rfl, hre⟩ := hsw
    exact hfo sri i hlo hre
  | releaseCell sri genId =>
    obtain ⟨⟨entry, hen, rfl, rfl⟩, _, hlo, hre⟩ := hsw
    simp only [sweptByInstance, target, Bool.or_eq_true, Bool.not_eq_true', decide_eq_true_eq,
      all_eq_true] at hby
    rcases hby with (hta | hno) | hal
    · obtain ⟨e, he, hin⟩ := mem_seen.mp hta
      exact (h.events e he).taken _ hin
    · obtain ⟨e, he, hin⟩ := mem_seen.mp hen
      exact .inr (notRoot_of_not_rootLife ((h.events e he).placements _ hin) hno)
    · have han := (hal _ hlo).resolve_left (fun hne => of_decide_eq_true hne rfl)
      obtain ⟨i, rfl, hge⟩ := (Option.any_eq_true _ _).mp han
      have hex := hfo entry.sri i hlo (hre i rfl)
      rw [of_decide_eq_true hge] at hex
      exact hex

theorem QueuedByExit.mono (h : QueuedByExit w node a) (hs : OrchStepped w action w') :
    QueuedByExit w' node a := by
  obtain ⟨p, hp, regs, cell, sri, genId, hta, ho, ht⟩ := h
  obtain ⟨j, hj⟩ := mem_iff_getElem?.mp hp
  obtain ⟨p', hp', hc⟩ := hs.continues hj
  refine ⟨p', mem_of_getElem? hp', regs, cell, sri, genId, hc.task.trans hta, ?_, ht⟩
  obtain ⟨b, hb⟩ := exists_mem_of_ne_nil _ ho
  exact ne_nil_of_mem (seen_mono hc.history hb)

theorem taskKnown_begin (ha : ReportingSteps w action) (hg : Grows w.state.reg reg')
    (hst : Starts serve w action task) : TaskKnown reg' task [] := by
  refine ⟨fun e he => (not_mem_nil he).elim, ?_⟩
  rintro node regs cell sri genId rfl
  rcases hst with rfl | ⟨i, fate, task', hist, req, next, a, st, tasks, -, -, hs, ht⟩
  · obtain ⟨life, hl, hof⟩ := any_eq_true.mp ha.2
    simp only [Bool.and_eq_true, decide_eq_true_eq] at hof
    exact ⟨life, hg.lives life hl, hof.1.1, hof.1.2, hof.2⟩
  · -- requests start deploys only
    rcases serve_tasks hs with rfl | ⟨cells, -, rfl⟩
    · exact (not_mem_nil ht).elim
    · exact nomatch mem_singleton.mp ht

variable (hr : Reached step allowed ⟨start, []⟩ w) (h : Informed w)
include hr h

/-- What an exit has queued may go once the exit was reported with success. -/
theorem mayGo_of_exitReported
    (hqu : QueuedByExit w node a) (hrep : w.procs.all (exitReported node) = true) :
    MayGo w.state.reg a := by
  obtain ⟨p, hp, regs, cell, sri, genId, htas, how, hta⟩ := hqu
  have hp' := all_eq_true.mp hrep p hp
  have hkn := h.tasks p hp
  obtain ⟨_, hist, _⟩ := p
  subst htas
  have hem : (seen owedIn hist).isEmpty = false := by
    simpa [isEmpty_eq_false_iff] using how
  simp only [exitReported, ne_eq, not_true_eq_false, decide_false, hem, Bool.false_or] at hp'
  split at hp'
  · next v =>
    unfold MayGo
    rw [hta]
    refine excused_of_lineage (hkn.exits node regs cell sri genId rfl) fun hde hpa => ?_
    have hen : ExitedEnds (some cell) sri hist (.ok v) := ends_of_ended hr hp rfl
    obtain ⟨e, he, hd⟩ := mem_seen.mp (hen cell rfl how hde hpa)
    exact ⟨_, (hkn.events e he).recorded _ hd, rfl, rfl⟩
  · cases hp'

/-- What is learnt from a request when it is served. -/
theorem eventKnown_of_served {next : req.Ans → Orch TaskResult} {a : req.Ans}
    (hal : ReportingSteps w (.advance i fate))
    (hpr : w.procs[i]? = some ⟨task, hist, .send req next⟩)
    (hse : serve w fate req = some (a, st, tasks)) : EventKnown st.reg task ⟨req, a⟩ := by
  cases req with
  | db c =>
    have hca := (serve_db hse).1
    have han := answer_of_call hca
    have hreg : (c.perform w.state.reg).2 = w.state.reg → st.reg = w.state.reg := by
      intro hp
      rcases call_cases hca with ⟨-, -, rfl⟩ | ⟨_, -, -, rfl⟩ | ⟨_, -, -, rfl⟩
      exacts [hp, rfl, hp]
    cases c with
    | listPlacements =>
      rw [hreg rfl]
      rcases han with rfl | ⟨error, rfl⟩
      · refine ⟨fun e he => ?_, nofun, nofun, nofun, nofun, nofun⟩
        exact h.rows.placements e (mem_latest.mp he).1
      · exact .of_silent rfl rfl rfl rfl rfl rfl
    | listInstances =>
      rw [hreg rfl]
      rcases han with rfl | ⟨error, rfl⟩
      · refine ⟨nofun, fun i hi => ?_, nofun, nofun, nofun, nofun⟩
        exact h.rows.instances i (mem_latest.mp hi).1
      · exact .of_silent rfl rfl rfl rfl rfl rfl
    | getInstance sri =>
      rw [hreg rfl]
      rcases han with rfl | ⟨error, rfl⟩
      · refine ⟨nofun, nofun, fun found hf i hi => ?_, nofun, nofun, nofun⟩
        rw [mem_singleton.mp hf] at hi ⊢
        obtain ⟨hm, hs⟩ := mem_of_lookup hi
        have hl := h.rows.instances i (mem_latest.mp hm).1
        exact hs ▸ hl
      · exact .of_silent rfl rfl rfl rfl rfl rfl
    | recordDeath d =>
      rcases call_cases hca with ⟨-, -, rfl⟩ | ⟨error, rfl, rfl, rfl⟩ | ⟨error, -, -, rfl⟩
      · exact known_recordDeath (fun _ _ => mem_cons_self) fun _ _ => mem_cons_self
      · refine known_recordDeath (nofun) fun watch hta => ?_
        subst hta
        have hre := hal.1
        simp only [reportsFirst, servedBy_advance _ hpr] at hre
        cases hre
      · exact known_recordDeath (fun _ _ => mem_cons_self) fun _ _ => mem_cons_self
    | _ => exact .of_silent rfl rfl rfl rfl rfl rfl
  | takeOwed node =>
    have hex : w.procs.all (exitReported node) = true := by
      have hre := hal.1
      simp only [reportsFirst, servedBy_advance _ hpr] at hre
      cases task <;> exact hre
    cases hse
    refine ⟨nofun, nofun, nofun, nofun, nofun, fun action hac => ?_⟩
    obtain ⟨o, ho, rfl⟩ := mem_map.mp hac
    obtain ⟨hme, hno⟩ := mem_filter.mp ho
    rcases h.owed o hme with hgo | hqu
    · exact hgo
    · rw [of_decide_eq_true hno] at hqu
      exact mayGo_of_exitReported hr h hqu hex
  | _ => exact .of_silent rfl rfl rfl rfl rfl rfl

/-- **Why something is owed**: it may go, or a cell has exited. -/
theorem owed_why {n : RuntimeId} {next : Unit → Orch TaskResult}
    (hal : ReportingSteps w (.advance i fate))
    (hpr : w.procs[i]? = some ⟨task, hist, .send (.owe n actions) next⟩) :
    ∀ a ∈ actions, MayGo w.state.reg a ∨ ∃ regs cell sri genId,
      task = .exited n regs (some cell) sri genId ∧ target a = (sri, cell.genId) := by
  have hju : sends task hist (.owe n actions) := sends_of_keeps (keeps_of_reached hr) hpr
  have hkn := h.tasks _ (mem_of_getElem? hpr)
  have hre := hal.1
  simp only [reportsFirst, servedBy_advance fate hpr] at hre
  intro a ha
  cases task with
  | deploy _ | undeploy _ | hygiene _ | restarts _ _ _ | boot _ => exact hju.elim
  | exited node regs watched sri genId =>
    obtain ⟨rfl, cell, rfl, rfl⟩ := hju
    refine .inr ⟨regs, cell, sri, genId, rfl, ?_⟩
    rcases mem_cons.mp ha with rfl | ha
    · rfl
    · rw [mem_singleton.mp ha]
      rfl
  | verify node hosted sweepDone | embeddedDrain node =>
    rcases hju.2 a ha with ht | hs
    · obtain ⟨e, he, hin⟩ := mem_seen.mp ht
      exact .inl ((hkn.events e he).taken a hin)
    · exact .inl (mayGo_of_swept hkn hs (all_eq_true.mp hre a ha))
  | embeddedBoot node hosted =>
    obtain ⟨-, _, hen, -, -, rfl⟩ := hju
    obtain ⟨e, he, hin⟩ := mem_seen.mp hen
    have hno := all_eq_true.mp hre a ha
    rw [Bool.not_eq_true'] at hno
    rw [mem_singleton.mp ha] at hno ⊢
    exact .inl (.inr (notRoot_of_not_rootLife ((hkn.events e he).placements _ hin) hno))

theorem owed_step (hal : ReportingSteps w action) (hst : OrchStepped w action w') :
    ∀ o ∈ w'.state.owed, MayGo w'.state.reg o.2 ∨ QueuedByExit w' o.1 o.2 := by
  have hgr := grows_step hst
  have hold : ∀ o ∈ w.state.owed, MayGo w'.state.reg o.2 ∨ QueuedByExit w' o.1 o.2 := by
    intro o ho
    rcases h.owed o ho with hgo | hqu
    · exact .inl (hgo.mono hgr)
    · exact .inr (hqu.mono hst)
  cases hst with
  | start task => exact hold
  | outer hou =>
    obtain ⟨_, -, rfl⟩ := Option.map_eq_some_iff.mp hou
    exact hold
  | @advance i fate task hist req next a st tasks hpr hse =>
    rcases serve_owed hse with ⟨_, _, rfl, how⟩ | hsu
    · intro o ho
      rw [how] at ho
      rcases mem_append.mp ho with ho | ho
      · exact hold o ho
      · obtain ⟨b, hb, rfl⟩ := mem_map.mp ho
        rcases owed_why hr h hal hpr b hb with hgo | ⟨regs, cell, sri, genId, rfl, hta⟩
        · exact .inl (hgo.mono hgr)
        · refine .inr ⟨_, mem_append_left _ (mem_set (List.getElem?_eq_some_iff.mp hpr).1 _),
            regs, cell, sri, genId, rfl, ?_, hta⟩
          rw [seen_snoc]
          exact ne_nil_of_mem (mem_append_right _ hb)
    · exact fun o ho => hold o (hsu o ho)

theorem informed_step (ha : ReportingSteps w action) (hs : OrchStepped w action w') : Informed w' := by
  have hg := grows_step hs
  refine ⟨rowsLive_step hr h.rows hs, owed_step hr h ha hs, ?_⟩
  refine hs.histories (P := TaskKnown w.state.reg) h.tasks (fun hk => hk.mono hg)
    (fun hst => taskKnown_begin ha hg hst) ?_
  rintro i fate task hist req next a tasks rfl hp hse hk
  refine ⟨forall_mem_append.mpr ⟨(hk.mono hg).events, forall_mem_singleton.mpr ?_⟩, (hk.mono hg).exits⟩
  exact eventKnown_of_served hr h ha hp hse

omit hr h

theorem informed_of_reached (hro : RowsLive start.reg) (how : start.owed = [])
    (h : Reached step ReportingSteps ⟨start, []⟩ w) : Informed w := by
  induction h with
  | refl =>
    refine ⟨hro, fun o ho => ?_, nofun⟩
    rw [how] at ho
    exact (not_mem_nil ho).elim
  | tail action hr ha hst ih => exact informed_step hr ih ha (stepped hst)

end Knowledge

/-! ## Removals -/

/-- The life of which a request removes a row. -/
def removesRow : Request → Option (Sri × Gen)
  | .db (.removePlacement sri genId) => some (sri, genId)
  | .db (.removeInstanceRow sri genId) => some (sri, genId)
  | _ => none

/-- The sites that clean up after cells that have ended. -/
def cleansUp : OrchTask → Bool
  | .hygiene _ => true
  | .exited _ _ _ _ _ => true
  | .verify _ _ _ => true
  | .boot _ => true
  | .embeddedBoot _ _ => true
  | .embeddedDrain _ => true
  | .deploy _ => false
  | .undeploy _ => false
  | .restarts _ _ _ => false

section Removals
variable {w : OrchWorld} {action : OrchAction} {start : Swarm} {sri : Sri} {genId : Gen}
  {task : OrchTask} {hist : List OrchEvent} {i : CellInstance}

theorem removesRow_eq_some (h : removesRow req = some (sri, genId)) :
    req = .db (.removePlacement sri genId) ∨ req = .db (.removeInstanceRow sri genId) := by
  unfold removesRow at h
  split at h
  · cases h
    exact .inl rfl
  · cases h
    exact .inr rfl
  · cases h

theorem mem_of_instanceOf {insts : List CellInstance}
    (h : NodeWatch.instanceOf insts sri = some i) : i ∈ insts ∧ i.sri = sri := by
  refine ⟨mem_reverse.mp (mem_of_find?_eq_some h), ?_⟩
  simpa using List.find?_some h

/-- Hygiene has recorded the death of a root whose instance it has read. -/
theorem excused_of_loss (h : TaskKnown w.state.reg (.hygiene watch) hist)
    (hi : NodeWatch.instanceOf (seen instancesIn hist) sri = some i)
    (hr : NodeLossReported hist sri) : Excused w.state.reg sri i.genId := by
  obtain ⟨hm, rfl⟩ := mem_of_instanceOf hi
  obtain ⟨e, he, hin⟩ := mem_seen.mp hm
  refine excused_of_lineage ((h.events e he).instances i hin) fun _ hp => ?_
  obtain ⟨e', he', hd⟩ := mem_seen.mp (hr i hi hp)
  exact ⟨_, (h.events e' he').reported watch rfl _ hd, rfl, rfl⟩

theorem excused_of_taken (h : TaskKnown w.state.reg task hist)
    (ha : a ∈ seen takenIn hist) : MayGo w.state.reg a := by
  obtain ⟨e, he, hin⟩ := mem_seen.mp ha
  exact (h.events e he).taken a hin

/-- **The rows of a root outlive its unrecorded death**: whoever cleans up after a root that is to be
restarted removes a row of it only once the death of that generation was recorded. -/
theorem root_rows_outlive_unrecorded_death {s : Served} (hrows : RowsLive start.reg)
    (howed : start.owed = []) (h : Reached step ReportingSteps ⟨start, []⟩ w)
    (hallowed : ReportingSteps w action) (hs : servedBy w action = some s)
    (hsite : cleansUp s.task = true) (hreq : removesRow s.req = some (sri, genId))
    (hroot : rootLife w.state.reg sri genId = true) :
    ∃ d ∈ w.state.reg.recorded, d.sri = sri ∧ d.genId = genId := by
  have hin := informed_of_reached hrows howed h
  have hju := sends_of_served h hs
  obtain ⟨_, hp, -⟩ := mem_of_served hs
  have hkn := hin.tasks _ hp
  obtain ⟨_, task, _, _, _⟩ := s
  refine Or.resolve_right ?_ (not_notRoot_of_rootLife hroot)
  have hre := hallowed.1
  simp only [reportsFirst, hs] at hre
  cases task with
  | deploy _ | undeploy _ | restarts _ _ _ => cases hsite
  | exited _ _ _ _ _ | embeddedBoot _ _ =>
    rcases removesRow_eq_some hreq with rfl | rfl <;> exact hju.elim
  | verify node hosted sweepDone | embeddedDrain node =>
    rcases removesRow_eq_some hreq with rfl | rfl
    · rcases hju with ht | ht <;> exact excused_of_taken hkn ht
    · rcases hju with ht | ht <;> exact excused_of_taken hkn ht
  | boot node =>
    rcases removesRow_eq_some hreq with rfl | rfl
    · simp [hroot] at hre
    · simp [hroot] at hre
  | hygiene watch =>
    rcases removesRow_eq_some hreq with rfl | rfl
    · obtain ⟨-, hrep⟩ := hju
      simp only [lossByInstance, hroot, Bool.not_true, Bool.false_or] at hre
      obtain ⟨i, hi, hge⟩ := (Option.any_eq_true _ _).mp hre
      rw [← of_decide_eq_true hge]
      exact excused_of_loss hkn hi hrep
    · obtain ⟨⟨⟨i, hi, rfl⟩, -⟩, hrep⟩ := hju
      exact excused_of_loss hkn hi hrep

end Removals
namespace Sample

/-- A process is about to remove the placement of the root's first life. -/
def removesRoot (index : Nat) (w : OrchWorld) : Bool :=
  match servedBy w (.advance index .done) with
  | some ⟨_, task, _, .db (.removePlacement sri genId), _⟩ =>
    cleansUp task && decide (sri = root) && decide (genId = firstLife) &&
      rootLife w.state.reg root firstLife
  | _ => false

theorem running_rowsLive : RowsLive running.reg := by
  refine ⟨fun e he => ?_, fun i hi => ?_⟩
  · rw [mem_singleton.mp he]
    decide +kernel
  · rw [mem_singleton.mp hi]
    exact ⟨⟨rootDeployment, firstLife⟩, mem_singleton_self _, rfl, rfl, rfl⟩

/-- The node boots again and reads what the last run has left. -/
def bootsAgain : List OrchAction := [.start (.boot node), .advance 0 .done, .advance 0 .done]

/-- The root crashes, which is reported, and the node takes up what it owes. -/
def crashReported : List OrchAction :=
  [.start (.exited node true (some ⟨firstLife, .root⟩) root firstLife), .advance 0 .done,
    .advance 0 .done, .start (.verify node [] true), .advance 1 .done]

end Sample
open Orchestration.Sample

/-- **The sweep at a node's boot removes the rows of a root whose death no one has recorded.** -/
theorem boot_removes_unrecorded_root : ∃ w s, Reached step (fun _ _ => True) ⟨running, []⟩ w ∧
      servedBy w (.advance 0 .done) = some s ∧ cleansUp s.task = true ∧
      removesRow s.req = some (root, firstLife) ∧
      rootLife w.state.reg root firstLife = true ∧ w.state.reg.recorded = [] :=
  exists_reached_some bootsAgain (by decide +kernel)

/-- A crash that was reported is on record when the rows go. -/
theorem reported_crash_recorded : ∃ w, Reached step ReportingSteps ⟨running, []⟩ w ∧
      removesRoot 1 w = true ∧ ∃ d ∈ w.state.reg.recorded, d.sri = root ∧ d.genId = firstLife := by
  obtain ⟨w, s, hr, hs, hre, ha, hsi, hreq, hro⟩ : ∃ w s, Reached step
      ReportingSteps ⟨running, []⟩ w ∧ servedBy w (.advance 1 .done) = some s ∧
      removesRoot 1 w = true ∧ ReportingSteps w (.advance 1 .done) ∧
      cleansUp s.task = true ∧ removesRow s.req = some (root, firstLife) ∧
      rootLife w.state.reg root firstLife = true :=
    exists_reached_some crashReported (by decide +kernel)
  exact ⟨w, hr, hre, root_rows_outlive_unrecorded_death running_rowsLive rfl hr ha hs hsi hreq hro⟩

end Orchestration

end Myrmic
