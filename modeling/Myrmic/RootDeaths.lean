import Myrmic.CleanupContracts

/-!
# Deaths of roots

The death of a root is one row per cell: the last one that is recorded counts, and a pass that has acted
on a death clears whatever row it finds.  A root that is redeployed and dies again before the pass has
come to clear the first death loses the second one (`second_death_lost`), and so does one whose older
life is reported late.

`root_deaths_not_lost` is about runs in which that does not happen: **no death is recorded over a newer
one, a pass clears no death that is newer than the one it has read, and a redeploy mints a generation
above the death it answers**.  In such a run a death of a root that has a restart spec throughout goes
only once a pass has acted on it.
-/
namespace Myrmic
open KeyedTables Processes Machine List
namespace Orchestration

/-! ## Acting on a death -/

/-- A deploy has won a claim above a generation. -/
def deployedAbove (w : OrchWorld) (handler : Nat) (sri : Sri) (genId : Gen) : Bool :=
  (w.procs[handler]?).any fun q =>
    (seen claimedIn q.history).any fun claim => claim.1 = sri && genId < claim.2

/-- A pass has acted on a death of the generation or a newer one: it has redeployed the root above it,
dropped its spec, or seen a placement above it. -/
def ActedOn (w : OrchWorld) (p : OrchRunning) (sri : Sri) (genId : Gen) : Prop :=
  (∃ d ∈ seen deathsIn p.history, d.sri = sri ∧ genId ≤ d.genId) ∧
    ((∃ sent ∈ seen sentIn p.history, sent.2 ∈ seen deployedIn p.history ∧
        deployedAbove w sent.2 sri genId = true) ∨
      sri ∈ seen droppedIn p.history ∨
      ∃ e ∈ seen placementsIn p.history, e.sri = sri ∧ genId < e.genId)

def Acted (w : OrchWorld) (sri : Sri) (genId : Gen) : Prop := ∃ p ∈ w.procs, ActedOn w p sri genId

def HasSpec (w : OrchWorld) (sri : Sri) : Prop := ∃ s ∈ w.state.reg.specs, s.deployment.sri = sri

/-- A stored death is removed or replaced by an older one. -/
def LosesDeath (w w' : OrchWorld) (sri : Sri) (genId : Gen) : Prop :=
  (∃ d ∈ w.state.reg.deaths, d.sri = sri ∧ d.genId = genId) ∧
    ∀ d ∈ w'.state.reg.deaths, d.sri = sri → d.genId < genId

instance instDecidableActedOn (w : OrchWorld) (p : OrchRunning) (sri : Sri) (genId : Gen) :
    Decidable (ActedOn w p sri genId) :=
  inferInstanceAs (Decidable ((∃ d ∈ seen deathsIn p.history, d.sri = sri ∧ genId ≤ d.genId) ∧
    ((∃ sent ∈ seen sentIn p.history, sent.2 ∈ seen deployedIn p.history ∧
        deployedAbove w sent.2 sri genId = true) ∨
      sri ∈ seen droppedIn p.history ∨
      ∃ e ∈ seen placementsIn p.history, e.sri = sri ∧ genId < e.genId)))

instance instDecidableActed (w : OrchWorld) (sri : Sri) (genId : Gen) :
    Decidable (Acted w sri genId) :=
  inferInstanceAs (Decidable (∃ p ∈ w.procs, ActedOn w p sri genId))

instance instDecidableHasSpec (w : OrchWorld) (sri : Sri) : Decidable (HasSpec w sri) :=
  inferInstanceAs (Decidable (∃ s ∈ w.state.reg.specs, s.deployment.sri = sri))

instance instDecidableLosesDeath (w w' : OrchWorld) (sri : Sri) (genId : Gen) :
    Decidable (LosesDeath w w' sri genId) :=
  inferInstanceAs (Decidable ((∃ d ∈ w.state.reg.deaths, d.sri = sri ∧ d.genId = genId) ∧
    ∀ d ∈ w'.state.reg.deaths, d.sri = sri → d.genId < genId))

/-! ## The conditions -/

/-- No call of a registry fails in this step. -/
def callsSucceed (w : OrchWorld) (action : OrchAction) : Bool :=
  match servedBy w action with
  | some ⟨_, _, _, .db _, fate⟩ =>
    match fate with
    | .done => true
    | _ => false
  | _ => true

/-- A death is not recorded over a newer one. -/
def RecordsInOrder (w : OrchWorld) (death : RootDeath) : Prop :=
  ∀ stored ∈ w.state.reg.deaths, stored.sri = death.sri → stored.genId ≤ death.genId

/-- What is cleared is not newer than what was read. -/
def ClearsWhatWasRead (w : OrchWorld) (history : List OrchEvent) (sri : Sri) : Prop :=
  ∀ stored ∈ w.state.reg.deaths, stored.sri = sri →
    ∀ d ∈ seen deathsIn history, d.sri = sri → stored.genId ≤ d.genId

/-- A generation that is minted for a redeploy is above the death that was read. -/
def MintsAbove (w : OrchWorld) (handler : Nat) (genId : Gen) : Prop :=
  ∀ p ∈ w.procs, ∀ sent ∈ seen sentIn p.history, sent.2 = handler →
    ∀ d ∈ seen deathsIn p.history, d.sri ∈ sent.1.map CellDeployment.sri → d.genId < genId

instance instDecidableRecordsInOrder (w : OrchWorld) (death : RootDeath) :
    Decidable (RecordsInOrder w death) :=
  inferInstanceAs (Decidable (∀ stored ∈ w.state.reg.deaths, stored.sri = death.sri →
    stored.genId ≤ death.genId))

instance instDecidableClears (w : OrchWorld) (history : List OrchEvent) (sri : Sri) :
    Decidable (ClearsWhatWasRead w history sri) :=
  inferInstanceAs (Decidable (∀ stored ∈ w.state.reg.deaths, stored.sri = sri →
    ∀ d ∈ seen deathsIn history, d.sri = sri → stored.genId ≤ d.genId))

instance instDecidableMintsAbove (w : OrchWorld) (handler : Nat) (genId : Gen) :
    Decidable (MintsAbove w handler genId) :=
  inferInstanceAs (Decidable (∀ p ∈ w.procs, ∀ sent ∈ seen sentIn p.history, sent.2 = handler →
    ∀ d ∈ seen deathsIn p.history, d.sri ∈ sent.1.map CellDeployment.sri → d.genId < genId))

/-- **The condition on a step.** -/
def orderly (w : OrchWorld) (action : OrchAction) : Bool :=
  match servedBy w action with
  | some ⟨_, _, _, .db (.recordDeath death), _⟩ => decide (RecordsInOrder w death)
  | some ⟨_, _, history, .db (.clearDeath sri), _⟩ => decide (ClearsWhatWasRead w history sri)
  | some ⟨index, _, _, .mint, .clock genId⟩ => decide (MintsAbove w index genId)
  | _ => true

/-- The root has its spec, unless a pass that has acted on the death has dropped it. -/
def SpecKept (sri : Sri) (genId : Gen) (w : OrchWorld) : Prop := HasSpec w sri ∨ Acted w sri genId

/-- The steps of a run in which calls succeed, the conditions hold and the root keeps its spec. -/
def OrderlySteps (sri : Sri) (genId : Gen) (w : OrchWorld) (action : OrchAction) : Prop :=
  callsSucceed w action = true ∧ orderly w action = true ∧ SpecKept sri genId w

instance instDecidableOrderlySteps (sri : Sri) (genId : Gen) (w : OrchWorld) (action : OrchAction) :
    Decidable (OrderlySteps sri genId w action) :=
  inferInstanceAs (Decidable (callsSucceed w action = true ∧ orderly w action = true ∧
    (HasSpec w sri ∨ Acted w sri genId)))

/-! ## Runs -/

section Runs
variable {sri : Sri} {genId : Gen} {w w' : OrchWorld} {action : OrchAction} {s : Served}
  (hs : servedBy w action = some s) {d : RootDeath} {handler : Nat} {hist : List OrchEvent}
  {task : OrchTask}
include hs

theorem fate_of_succeeds {c : DbCall} (h : callsSucceed w action = true) (hr : s.req = .db c) :
    s.fate = .done := by
  obtain ⟨_, _, _, _, _⟩ := s
  subst hr
  simp only [callsSucceed, hs] at h
  split at h
  · rfl
  · cases h

theorem recordsInOrder_of_orderly (h : orderly w action = true) (hr : s.req = .db (.recordDeath d)) :
    RecordsInOrder w d := by
  obtain ⟨_, _, _, _, _⟩ := s
  subst hr
  simp only [orderly, hs, decide_eq_true_eq] at h
  exact h

theorem clears_of_orderly (h : orderly w action = true) (hr : s.req = .db (.clearDeath sri)) :
    ClearsWhatWasRead w s.history sri := by
  obtain ⟨_, _, _, _, _⟩ := s
  subst hr
  simp only [orderly, hs, decide_eq_true_eq] at h
  exact h

omit hs

/-! ### What has been done stays done -/

theorem deployedAbove_mono (hs : OrchStepped w action w')
    (h : deployedAbove w handler sri genId = true) : deployedAbove w' handler sri genId = true := by
  obtain ⟨q, hq, hc⟩ := (Option.any_eq_true _ _).mp h
  obtain ⟨q', hq', hco⟩ := hs.continues hq
  obtain ⟨claim, hm, ha⟩ := any_eq_true.mp hc
  refine (Option.any_eq_true _ _).mpr ⟨q', hq', ?_⟩
  exact any_eq_true.mpr ⟨claim, seen_mono hco.history hm, ha⟩

theorem Acted.mono (hs : OrchStepped w action w') (h : Acted w sri genId) : Acted w' sri genId := by
  obtain ⟨p, hp, ⟨d, hd, hde⟩, hac⟩ := h
  obtain ⟨j, hj⟩ := mem_iff_getElem?.mp hp
  obtain ⟨p', hp', hc⟩ := hs.continues hj
  refine ⟨p', mem_of_getElem? hp', ⟨d, seen_mono hc.history hd, hde⟩, ?_⟩
  rcases hac with ⟨sent, hse, hdo, ha⟩ | hdr | ⟨e, he, ha⟩
  · exact .inl ⟨sent, seen_mono hc.history hse, seen_mono hc.history hdo, deployedAbove_mono hs ha⟩
  · exact .inr (.inl (seen_mono hc.history hdr))
  · exact .inr (.inr ⟨e, seen_mono hc.history he, ha⟩)

/-! ### What is known of the events of a run -/

/-- A deploy that was sent is handled. -/
def Handles (w : OrchWorld) (cells : List CellDeployment) (handler : Nat) : Prop :=
  ∃ q, w.procs[handler]? = some q ∧ q.task = .deploy cells

def HasDeployed (w : OrchWorld) (handler : Nat) : Prop :=
  ∃ task history deployed, w.procs[handler]? = some ⟨task, history, .done (.deployed (.ok deployed))⟩

/-- What is known of an event: calls have succeeded, the specs that were listed have the root's, and
the deploys that were sent and answered are there. -/
def Known (sri : Sri) (genId : Gen) (w : OrchWorld) : OrchEvent → Prop
  | ⟨.db .listSpecs, answer⟩ => ∃ specs : List CellDeployment, answer = .ok specs ∧
    ((∃ spec ∈ specs, spec.sri = sri) ∨ Acted w sri genId)
  | ⟨.db _, answer⟩ => ∃ value, answer = .ok value
  | ⟨.sendDeploy cells, handler⟩ => Handles w cells handler
  | ⟨.awaitDeploy handler, .ok _⟩ => HasDeployed w handler
  | _ => True

theorem Known.mono {e : OrchEvent} (hst : OrchStepped w action w') (h : Known sri genId w e) :
    Known sri genId w' e := by
  obtain ⟨req, ans⟩ := e
  cases req with
  | db c =>
    cases c with
    | listSpecs =>
      obtain ⟨specs, han, hsp⟩ := h
      exact ⟨specs, han, hsp.imp_right (Acted.mono hst)⟩
    | _ => exact h
  | sendDeploy cells =>
    obtain ⟨q, hq, hta⟩ := h
    obtain ⟨q', hq', hco⟩ := hst.continues hq
    exact ⟨q', hq', hco.task.trans hta⟩
  | awaitDeploy handler =>
    cases ans with
    | error e => exact trivial
    | ok v =>
      obtain ⟨task, hist, dep, hdo⟩ := h
      exact ⟨task, hist, dep, hst.ended hdo⟩
  | _ => exact trivial

theorem hasDeployed_of_outcome {v : Unit}
    (h : outcomeOf w handler = some (.ok v)) : HasDeployed w handler := by
  unfold outcomeOf at h
  split at h
  · next task hist r hp =>
    cases r with
    | error e => cases h
    | ok dep => exact ⟨task, hist, dep, hp⟩
  · cases h

theorem HasDeployed.mono (hs : OrchStepped w action w')
    (h : HasDeployed w handler) : HasDeployed w' handler := by
  obtain ⟨task, hist, dep, hd⟩ := h
  exact ⟨task, hist, dep, hs.ended hd⟩

theorem known_of_reached {start : Swarm} (h : Reached step (OrderlySteps sri genId) ⟨start, []⟩ w) :
    ∀ p ∈ w.procs, ∀ e ∈ p.history, Known sri genId w e := by
  refine reached_events h (Q := Known sri genId) (fun _ hp => (not_mem_nil hp).elim) ?_
    (fun _ hst hkn => hkn.mono hst)
  intro w i fate task hist req next a st tasks _ hal hpr hse
  have hst : OrchStepped w (.advance i fate) _ := .advance hpr hse
  have hser := servedBy_advance fate hpr
  cases req with
  | db c =>
    have hdo := fate_of_succeeds hser hal.1 rfl
    simp only at hdo
    subst hdo
    obtain ⟨hca, -⟩ := serve_db hse
    cases hca
    cases c with
    | listSpecs =>
      refine ⟨w.state.reg.listSpecs, rfl, ?_⟩
      rcases hal.2.2 with ⟨s, hs, hsr⟩ | hac
      · exact .inl ⟨s.deployment, mem_map_of_mem hs, hsr⟩
      · exact .inr (hac.mono hst)
    | _ => exact ⟨_, rfl⟩
  | sendDeploy cells =>
    cases hse
    refine ⟨begin program (.deploy cells), ?_, rfl⟩
    rw [List.getElem?_append_right (by simp)]
    simp
  | awaitDeploy handler =>
    cases a with
    | error e => exact trivial
    | ok v =>
      obtain ⟨_, ho, hr⟩ := Option.map_eq_some_iff.mp hse
      cases hr
      cases fate with
      | done => exact (hasDeployed_of_outcome ho).mono hst
      | _ => cases ho
  | _ => exact trivial

/-! ### Generations of redeploys -/

/-- Every generation that was minted for a redeploy is above the death the pass has read. -/
def RedeploysAbove (w : OrchWorld) : Prop :=
  ∀ j q, w.procs[j]? = some q → ∀ g ∈ seen mintedIn q.history, MintsAbove w j g

theorem minted_cases (hst : OrchStepped w action w') (ho : orderly w action = true)
    {j : Nat} {q' : OrchRunning} {g : Gen} (hq' : w'.procs[j]? = some q')
    (hg : g ∈ seen mintedIn q'.history) : j < w.procs.length ∧
      ((∃ q, w.procs[j]? = some q ∧ g ∈ seen mintedIn q.history) ∨ MintsAbove w j g) := by
  rcases hst.proc_cases hq' with hold | ⟨fate, task, hist, req, next, a, tasks, rfl, hp,
      hs, rfl⟩ | ⟨-, task, rfl, -⟩
  · exact ⟨(List.getElem?_eq_some_iff.mp hold).1, .inl ⟨q', hold, hg⟩⟩
  · refine ⟨(List.getElem?_eq_some_iff.mp hp).1, ?_⟩
    rw [seen_snoc] at hg
    rcases mem_append.mp hg with hg | hg
    · exact .inl ⟨_, hp, hg⟩
    · cases req with
      | mint =>
        rw [mem_singleton.mp hg]
        cases serve_mint hs
        simp only [orderly, servedBy_advance _ hp, decide_eq_true_eq] at ho
        exact .inr ho
      | _ => exact (not_mem_nil hg).elim
  · exact (not_mem_nil hg).elim

theorem sent_of_listDeaths (h : sends task hist (.db .listDeaths)) : seen sentIn hist = [] := by
  cases task with
  | restarts budget sweep now => exact h
  | _ => exact h.elim

/-- A pass reads the deaths before it asks for redeploys. -/
theorem sent_after_read (hke : ∀ p ∈ w.procs, p.Keeps possible sends ends)
    (hst : OrchStepped w action w') {p' : OrchRunning} {sent : List CellDeployment × Nat}
    (hp' : p' ∈ w'.procs) (hse : sent ∈ seen sentIn p'.history)
    (hd : d ∈ seen deathsIn p'.history) (hold : sent.2 < w.procs.length) :
    ∃ p ∈ w.procs, sent ∈ seen sentIn p.history ∧ d ∈ seen deathsIn p.history := by
  obtain ⟨j, hj⟩ := mem_iff_getElem?.mp hp'
  rcases hst.proc_cases hj with hsa | ⟨fate, task, hist, req, next, a, tasks, rfl, hpr,
      hser, rfl⟩ | ⟨-, task, rfl, -⟩
  · exact ⟨p', mem_of_getElem? hsa, hse, hd⟩
  · have hme := mem_of_getElem? hpr
    have hju := (hke _ hme).1
    rw [seen_snoc] at hse hd
    have hse' : sent ∈ seen sentIn hist := by
      rcases mem_append.mp hse with hse | hse
      · exact hse
      · cases req with
        | sendDeploy cells =>
          obtain ⟨rfl, -⟩ := Prod.mk.inj (Option.some.inj hser)
          rw [mem_singleton.mp hse] at hold
          exact absurd hold (Nat.lt_irrefl _)
        | _ => exact (not_mem_nil hse).elim
    refine ⟨_, hme, hse', ?_⟩
    rcases mem_append.mp hd with hd | hd
    · exact hd
    · cases req with
      | db c =>
        cases c with
        | listDeaths =>
          rw [sent_of_listDeaths hju] at hse'
          exact (not_mem_nil hse').elim
        | _ => exact (not_mem_nil hd).elim
      | _ => exact (not_mem_nil hd).elim
  · exact (not_mem_nil hse).elim

theorem redeploysAbove_of_reached {start : Swarm}
    (h : Reached step (OrderlySteps sri genId) ⟨start, []⟩ w) : RedeploysAbove w := by
  induction h with
  | refl => exact fun j q hq => nomatch hq
  | tail action hr hal hst ih =>
    have hste := stepped hst
    intro j q' hq' g hg p' hp' sent hs hj d hd hc
    obtain ⟨hlt, hm⟩ := minted_cases hste hal.2.1 hq' hg
    obtain ⟨p, hp, hs, hd⟩ := sent_after_read (keeps_of_reached hr) hste hp' hs hd (hj ▸ hlt)
    rcases hm with ⟨q, hq, hg⟩ | ha
    · exact ih j q hq g hg p hp sent hs hj d hd hc
    · exact ha p hp sent hs hj d hd hc

/-! ### Clearing -/

theorem event_of_sent {cells : List CellDeployment} (h : (cells, handler) ∈ seen sentIn hist) :
    (⟨.sendDeploy cells, handler⟩ : OrchEvent) ∈ hist := by
  obtain ⟨⟨req, _⟩, he, hin⟩ := mem_seen.mp h
  cases req with
  | sendDeploy cells' =>
    cases mem_singleton.mp hin
    exact he
  | _ => exact (not_mem_nil hin).elim

theorem event_of_deployed (h : handler ∈ seen deployedIn hist) :
    ∃ v, (⟨.awaitDeploy handler, .ok v⟩ : OrchEvent) ∈ hist := by
  obtain ⟨⟨req, ans⟩, he, hin⟩ := mem_seen.mp h
  cases req with
  | awaitDeploy handler' =>
    cases ans with
    | error e => exact (not_mem_nil hin).elim
    | ok v =>
      cases mem_singleton.mp hin
      exact ⟨v, he⟩
  | _ => exact (not_mem_nil hin).elim

theorem event_of_erased (h : sri ∈ seen erasedIn hist) :
    ∃ ans, (⟨.db (.eraseSpec sri), ans⟩ : OrchEvent) ∈ hist := by
  obtain ⟨⟨req, ans⟩, he, hin⟩ := mem_seen.mp h
  cases req with
  | db c =>
    cases c with
    | eraseSpec sri' =>
      cases mem_singleton.mp hin
      exact ⟨ans, he⟩
    | _ => exact (not_mem_nil hin).elim
  | _ => exact (not_mem_nil hin).elim

theorem read_of_clears (h : sends task hist (.db (.clearDeath sri))) :
    ∃ d ∈ seen deathsIn hist, d.sri = sri ∧ Cleared hist d := by
  cases task with
  | restarts budget sweep now => exact h
  | _ => exact h.elim

section Clearing
variable {start : Swarm} {p : OrchRunning} (h : Reached step (OrderlySteps sri genId) ⟨start, []⟩ w)
include h

/-- A root that was redeployed was redeployed above the death the pass has read. -/
theorem deployedAbove_of_redeployed (hp : p ∈ w.procs) {spec : CellDeployment}
    (hs : ([spec], handler) ∈ seen sentIn p.history) (hde : handler ∈ seen deployedIn p.history)
    (hsp : spec.sri = d.sri) (hd : d ∈ seen deathsIn p.history) :
    deployedAbove w handler d.sri d.genId = true := by
  obtain ⟨_, he⟩ := event_of_deployed hde
  obtain ⟨q, hq, ht⟩ : Handles w [spec] handler := known_of_reached h p hp _ (event_of_sent hs)
  obtain ⟨_, _, _, hdo⟩ : HasDeployed w handler := known_of_reached h p hp _ he
  rw [hdo] at hq
  cases hq
  cases ht
  obtain ⟨g, hm, hc⟩ := ends_of_ended h (mem_of_getElem? hdo) rfl spec mem_cons_self
  have ha : d.genId < g := by
    refine redeploysAbove_of_reached h handler _ hdo g hm p hp _ hs rfl d hd ?_
    exact hsp ▸ mem_cons_self
  refine (Option.any_eq_true _ _).mpr ⟨_, hdo, any_eq_true.mpr ⟨_, hc, ?_⟩⟩
  simp [hsp, ha]

omit h in
theorem deployedAbove_anti {older : Gen} (hle : older ≤ genId)
    (h : deployedAbove w handler sri genId = true) : deployedAbove w handler sri older = true := by
  obtain ⟨q, hq, hc⟩ := (Option.any_eq_true _ _).mp h
  obtain ⟨claim, hm, ha⟩ := any_eq_true.mp hc
  refine (Option.any_eq_true _ _).mpr ⟨q, hq, any_eq_true.mpr ⟨claim, hm, ?_⟩⟩
  simp only [Bool.and_eq_true, decide_eq_true_eq] at ha ⊢
  exact ⟨ha.1, lt_of_le_of_lt hle ha.2⟩

/-- Where a pass has reason to clear a death, it has acted on it. -/
theorem acted_of_cleared (hp : p ∈ w.procs) (hd : d ∈ seen deathsIn p.history) (hsr : d.sri = sri)
    (hle : genId ≤ d.genId) (hc : Cleared p.history d) : Acted w sri genId := by
  have hr : ∃ d ∈ seen deathsIn p.history, d.sri = sri ∧ genId ≤ d.genId := ⟨d, hd, hsr, hle⟩
  rcases hc with ⟨_, hl, hn⟩ | ⟨e, he, hes, ha⟩ | ⟨spec, handler, hse, hde, hs⟩ | her
  · obtain ⟨_, han, hsp⟩ := known_of_reached h p hp _ hl
    cases han
    rcases hsp with ⟨spec, hm, hs⟩ | hac
    · exact absurd (hs.trans hsr.symm) (hn spec hm)
    · exact hac
  · exact ⟨p, hp, hr, .inr (.inr ⟨e, he, hes.trans hsr, lt_of_le_of_lt hle ha⟩)⟩
  · have ha := deployedAbove_of_redeployed h hp hse hde hs hd
    rw [hsr] at ha
    exact ⟨p, hp, hr, .inl ⟨_, hse, hde, deployedAbove_anti hle ha⟩⟩
  · obtain ⟨_, hev⟩ := event_of_erased her
    obtain ⟨_, rfl⟩ := known_of_reached h p hp _ hev
    refine ⟨p, hp, hr, .inr (.inl (mem_seen.mpr ⟨_, hev, ?_⟩))⟩
    exact hsr ▸ mem_singleton_self _

omit h

/-- **Deaths of roots are not lost.** -/
theorem root_deaths_not_lost (h : Reached step (OrderlySteps sri genId) ⟨start, []⟩ w)
    (hallowed : OrderlySteps sri genId w action) (hst : step w action = some w')
    (hloses : LosesDeath w w' sri genId) : Acted w sri genId := by
  obtain ⟨⟨d, hd, hsr, rfl⟩, hgo⟩ := hloses
  have hke : d ∉ w'.state.reg.deaths := fun hme => lt_irrefl _ (hgo d hme hsr)
  rcases reg_cases (stepped hst) with hreg | ⟨s, c, hs, hreq, hreg⟩ | ⟨e, -, hev⟩
  · exact absurd (hreg ▸ hd) hke
  · rcases c.deaths_cases w.state.reg with hsa | ⟨death, rfl, hpu⟩ | ⟨sri', rfl, her⟩
    · rw [hreg, hsa] at hke
      exact absurd hd hke
    · -- what takes the death's place would be newer
      have hor := recordsInOrder_of_orderly hs hallowed.2.1 hreq
      rw [hreg, hpu, mem_put] at hke
      by_cases hsa : d.sri = death.sri
      · have hnew := hor d hd hsa
        have holder := hgo death (by rw [hreg, hpu, mem_put]; exact .inr rfl) (hsa.symm.trans hsr)
        exact absurd (lt_of_lt_of_le holder hnew) (lt_irrefl _)
      · exact absurd (.inl ⟨hd, hsa⟩) hke
    · rw [hreg, her, KeyedTables.mem_erase] at hke
      have hsa : d.sri = sri' := by
        by_contra hne
        exact hke ⟨hd, hne⟩
      have hre := clears_of_orderly hs hallowed.2.1 hreq
      obtain ⟨_, hp, -⟩ := mem_of_served hs
      have hju := sends_of_served h hs
      rw [hreq] at hju
      obtain ⟨d', hd', hsr', hcl⟩ := read_of_clears hju
      have hle := hre d hd hsa d' hd' hsr'
      exact acted_of_cleared h hp hd' (hsr'.trans (hsa.symm.trans hsr)) hle hcl
  · exact absurd ((event_frame hev).2.1 ▸ hd) hke

end Clearing
end Runs

/-! ## Samples -/

namespace Sample

/-- The first life of the root has crashed. -/
def crashed : Swarm where
  reg := ⟨[⟨rootDeployment, firstLife⟩], [⟨root, firstLife, .crashed⟩], [], [], [], [],
    [⟨rootDeployment, firstLife⟩], []⟩
  owed := []
  minted := [firstLife]
  lost := []

/-- A pass reads what it needs and sends the redeploy. -/
def redeploySent : List OrchAction :=
  [.start (.restarts .new [] 0), .advance 0 .done, .advance 0 .done, .advance 0 .done,
    .advance 0 .done, .advance 0 .done]

def redeployed : List OrchAction := deploySteps 1 secondLife node

/-- The second life crashes and its node reports that. -/
def crashedAgain : List OrchAction :=
  [.start (.exited node true (some ⟨secondLife, .root⟩) root secondLife), .advance 2 .done,
    .advance 2 .done]

/-- Calls succeed and the root has a spec. -/
def Faultless (w : OrchWorld) (action : OrchAction) : Prop :=
  callsSucceed w action = true ∧ HasSpec w root

instance instDecidableFaultless (w : OrchWorld) (action : OrchAction) :
    Decidable (Faultless w action) :=
  inferInstanceAs (Decidable (callsSucceed w action = true ∧ HasSpec w root))

end Sample
open Orchestration.Sample

/-- **The second death of a root is lost**: it is recorded while the pass is still waiting for the
redeploy that answers the first one, and the pass then clears it. -/
theorem second_death_lost : ∃ w w', Reached step Sample.Faultless ⟨crashed, []⟩ w ∧
      Sample.Faultless w (.advance 0 .done) ∧ step w (.advance 0 .done) = some w' ∧
      HasSpec w' root ∧ LosesDeath w w' root secondLife ∧ ¬Acted w root secondLife := by
  obtain ⟨w, hr, ha, w', hst, hs, hl⟩ : ∃ w, Reached step Sample.Faultless
      ⟨crashed, []⟩ w ∧ Sample.Faultless w (.advance 0 .done) ∧
      ∃ w' ∈ step w (.advance 0 .done), HasSpec w' root ∧
        LosesDeath w w' root secondLife ∧ ¬Acted w root secondLife :=
    exists_reached (redeploySent ++ redeployed ++ crashedAgain ++
      [.advance 0 .done]) (by decide +kernel)
  exact ⟨w, w', hr, ha, hst, hs, hl⟩

/-- Without the second crash the pass clears a death that it has acted on. -/
theorem first_death_acted_on : ∃ w w', Reached step (OrderlySteps root firstLife) ⟨crashed, []⟩ w ∧
      LosesDeath w w' root firstLife ∧ Acted w root firstLife := by
  obtain ⟨w, w', hr, hst, ha, hl⟩ : ∃ w w', Reached step
      (OrderlySteps root firstLife) ⟨crashed, []⟩ w ∧
      step w (.advance 0 .done) = some w' ∧
      OrderlySteps root firstLife w (.advance 0 .done) ∧
      LosesDeath w w' root firstLife :=
    exists_reached_some (redeploySent ++ redeployed ++ [.advance 0 .done]) (by decide +kernel)
  exact ⟨w, w', hr, hl, root_deaths_not_lost hr ha hst hl⟩

end Orchestration

end Myrmic
