import Myrmic.CleanupContracts

/-!
# Hygiene and what it may touch

Hygiene reads the placements, then the instances, and takes what it finds under the same cell for one
incarnation.  A cell that is undeployed and deployed again between the two reads is due by the old
placement and is reported dead by the new instance (`redeployed_root_reported`).
`hygiene_harms_only_dead` is about runs in which **no due cell has an instance newer than its placement
when the instances are read**.

A node is torn down once hygiene has asked for the placements on it to be removed, whether they were
removed or not (`lease_deleted_with_placement`): for a pass on its own, the lease goes with no
placement left behind **exactly when no removal of a placement on the node has failed**
(`lease_last_iff_removed`).
-/
namespace Myrmic
open KeyedTables Processes Machine List
namespace Orchestration
open DbCall

/-! ## The dead incarnation -/

/-- An incarnation that is not newer than a due placement that was read. -/
def DeadAt (watch : NodeWatch) (history : List OrchEvent) (sri : Sri) (genId : Gen) : Prop :=
  ∃ e ∈ seen placementsIn history, watch.isDue (seen instancesIn history) e = true ∧ e.sri = sri ∧
    genId ≤ e.genId

/-- Deaths, instances and notifications are those of dead incarnations. -/
def HarmsOnlyDead (watch : NodeWatch) (history : List OrchEvent) : Request → Prop
  | .db (.recordDeath d) => DeadAt watch history d.sri d.genId
  | .db (.removeInstanceRow sri genId) => DeadAt watch history sri genId
  | .emitCellLost note _ => DeadAt watch history note.cell note.cellGen
  | _ => True

/-- No due cell has an instance newer than the placement that was read. -/
def NoneRedeployed (watch : NodeWatch) (placements : List PlacementEntry)
    (instances : List CellInstance) : Prop :=
  ∀ e ∈ placements, watch.isDue instances e = true → ∀ i ∈ instances, i.sri = e.sri →
    i.genId ≤ e.genId

instance instDecidableNoneRedeployed (watch : NodeWatch) (placements : List PlacementEntry)
    (instances : List CellInstance) : Decidable (NoneRedeployed watch placements instances) :=
  inferInstanceAs (Decidable (∀ e ∈ placements, watch.isDue instances e = true →
    ∀ i ∈ instances, i.sri = e.sri → i.genId ≤ e.genId))

/-- **The condition on a step**: it is about the moment when hygiene reads the instances. -/
def scansInOrder (w : OrchWorld) (action : OrchAction) : Bool :=
  match servedBy w action with
  | some ⟨_, .hygiene watch, history, .db .listInstances, _⟩ =>
    decide (NoneRedeployed watch (seen placementsIn history) w.state.reg.listInstances)
  | _ => true

variable {fate : Fate} {sri : Sri} {genId : Gen} {tasks : List OrchTask} {req : Request}
  {w : OrchWorld} {task : OrchTask}
section Incarnations
variable {w w' : OrchWorld} {action : OrchAction} {start : Swarm} {watch : NodeWatch}
  {history : List OrchEvent}

/-- What a hygiene pass has read is in order. -/
def ReadInOrder (task : OrchTask) (history : List OrchEvent) : Prop :=
  ∀ watch, task = .hygiene watch →
    NoneRedeployed watch (seen placementsIn history) (seen instancesIn history)

theorem noneRedeployed_nil {pls : List PlacementEntry} : NoneRedeployed watch pls [] := nofun

theorem readInOrder_listInstances {i : Nat}
    {next : (Request.db .listInstances).Ans → Orch TaskResult} {insts : List CellInstance}
    {st : Swarm} (hal : scansInOrder w (.advance i fate) = true)
    (hp : w.procs[i]? = some ⟨task, history, .send (.db .listInstances) next⟩)
    (hs : serve w fate (.db .listInstances) = some (.ok insts, st, tasks))
    (hj : sends task history (.db .listInstances)) :
    ReadInOrder task (history ++ [⟨.db .listInstances, .ok insts⟩]) := by
  rintro watch rfl
  have hi : insts = w.state.reg.listInstances := by
    rcases call_cases (serve_db hs).1 with ⟨-, ha, -⟩ | ⟨e, -, ha, -⟩ | ⟨e, -, ha, -⟩
    · exact Except.ok.inj ha
    · cases ha
    · cases ha
  have hb : seen instancesIn history = [] := hj
  simp only [scansInOrder, servedBy_advance fate hp, decide_eq_true_eq] at hal
  rw [seen_snoc, seen_snoc, hb]
  change NoneRedeployed watch (seen placementsIn history ++ []) ([] ++ insts)
  rw [append_nil, nil_append, hi]
  exact hal

theorem readInOrder_of_reached
    (h : Reached step (fun w action => scansInOrder w action = true) ⟨start, []⟩ w) :
    ∀ p ∈ w.procs, ReadInOrder p.task p.history := by
  refine reached_histories h (I := ReadInOrder) (fun _ _ _ => noneRedeployed_nil)
    (fun _ hp => (not_mem_nil hp).elim) ?_
  intro w i fate task history req next a st tasks hre hal hpr hse hrea
  have hju := sends_of_keeps (keeps_of_reached hre) hpr
  have hfr : ∀ e : OrchEvent, placementsIn e = [] → instancesIn e = [] →
      ReadInOrder task (history ++ [e]) := by
    intro e hpl hin watch hta
    rw [seen_snoc, seen_snoc, hpl, hin, append_nil, append_nil]
    exact hrea watch hta
  cases req with
  | db c =>
    cases c with
    | listInstances =>
      cases a with
      | error e => exact hfr _ rfl rfl
      | ok insts => exact readInOrder_listInstances hal hpr hse hju
    | listPlacements =>
      -- the placements are read first
      rintro watch rfl
      have hfi : history = [] := hju
      rw [hfi]
      exact noneRedeployed_nil
    | _ => exact hfr _ rfl rfl
  | _ => exact hfr _ rfl rfl

variable (hr : NoneRedeployed watch (seen placementsIn history) (seen instancesIn history))
include hr

theorem deadAt_of_targets (h : Targets watch history sri genId) :
    DeadAt watch history sri genId := by
  obtain ⟨⟨i, hi, rfl⟩, hd⟩ := h
  obtain ⟨e, he, rfl⟩ := mem_map.mp hd
  obtain ⟨hm, his⟩ := mem_filter.mp he
  have hin := mem_reverse.mp (mem_of_find?_eq_some hi)
  have hs : i.sri = e.sri := by simpa using List.find?_some hi
  exact ⟨e, hm, his, rfl, hr e hm his i hin hs⟩

/-- Hygiene asks for nothing that harms an incarnation other than a dead one. -/
theorem harmsOnlyDead_of_sends (h : HygieneSends watch history req) :
    HarmsOnlyDead watch history req := by
  cases req with
  | db c =>
    cases c with
    | recordDeath d => exact deadAt_of_targets hr h
    | removeInstanceRow sri genId => exact deadAt_of_targets hr h.1
    | _ => exact trivial
  | emitCellLost note reason => exact deadAt_of_targets hr h
  | _ => exact trivial

omit hr

/-- **Hygiene harms only the dead incarnation**, and what is newer than the placement it has read keeps
its instance. -/
theorem hygiene_harms_only_dead {s : Served}
    (h : Reached step (fun w action => scansInOrder w action = true) ⟨start, []⟩ w)
    (hs : servedBy w action = some s) (htask : s.task = .hygiene watch)
    (hst : step w action = some w') : HarmsOnlyDead watch s.history s.req ∧
      ∀ i ∈ w.state.reg.instances,
        (∀ e ∈ seen placementsIn s.history, e.sri = i.sri → e.genId < i.genId) →
        i ∈ w'.state.reg.instances := by
  obtain ⟨_, hp, -⟩ := mem_of_served hs
  have hre := readInOrder_of_reached h _ hp watch htask
  have hju := sends_of_served h hs
  rw [htask] at hju
  have hha : HarmsOnlyDead watch s.history s.req := harmsOnlyDead_of_sends hre hju
  refine ⟨hha, fun i hi hne => ?_⟩
  rcases reg_cases (stepped hst) with hreg | ⟨s', c, hs', hreq, hreg⟩ | ⟨e, rfl, -⟩
  · rw [hreg]
    exact hi
  · rw [hs] at hs'
    cases hs'
    rcases c.instances_cases w.state.reg with hsa | ⟨sri, genId, rfl, her⟩
    · rw [hreg, hsa]
      exact hi
    · rw [hreg, her, KeyedTables.mem_erase]
      refine ⟨hi, fun hke => ?_⟩
      cases hke
      rw [hreq] at hha
      obtain ⟨e, he, -, hsr, hle⟩ := hha
      exact absurd (lt_of_lt_of_le (hne e he hsr) hle) (lt_irrefl _)
  · cases hs

end Incarnations

/-! ## The lease goes last -/

/-- A removal of the placement has taken effect, whether it was answered or not. -/
def TookEffect (st : Swarm) (history : List OrchEvent) (sri : Sri) (genId : Gen) : Prop :=
  (∃ r ∈ seen removedIn history, r.1 = sri ∧ r.2.1 = genId) ∨ .removePlacement sri genId ∈ st.lost

/-- The removal of a placement was asked for and has failed. -/
def RemovalFailed (st : Swarm) (history : List OrchEvent) (e : PlacementEntry) : Prop :=
  (e.sri, e.genId) ∈ seen releasedIn history ∧ ¬TookEffect st history e.sri e.genId

section Leases
variable {st st' : Swarm} {history : List OrchEvent} {watch : NodeWatch} {p : PlacementEntry}
  {removed : List (Sri × Gen × FenceOutcome)} {lost : List DbCall}

/-- What a pass on its own has read is one generation of each cell, and is stored until its removal
takes effect. -/
structure Passed (st : Swarm) (history : List OrchEvent) : Prop where
  fresh : history = [] → st.lost = []
  single : ∀ e ∈ seen placementsIn history, ∀ e' ∈ seen placementsIn history, e.sri = e'.sri →
    e.genId = e'.genId
  stored : ∀ e ∈ seen placementsIn history,
    e ∈ st.reg.placements ↔ ¬TookEffect st history e.sri e.genId

theorem Passed.frame {e : OrchEvent} (h : Passed st history)
    (hpl : st'.reg.placements = st.reg.placements)
    (hl : ∀ sri genId, .removePlacement sri genId ∈ st'.lost ↔ .removePlacement sri genId ∈ st.lost)
    (hr : placementsIn e = []) (hre : removedIn e = []) : Passed st' (history ++ [e]) := by
  have hs : seen placementsIn (history ++ [e]) = seen placementsIn history := by
    rw [seen_snoc, hr, append_nil]
  refine ⟨fun hn => ?_, hs ▸ h.single, fun p hp => ?_⟩
  · simp at hn
  · rw [hs] at hp
    unfold TookEffect
    rw [hpl, seen_snoc, hre, append_nil, hl]
    exact h.stored p hp

theorem Passed.listPlacements {a : Except String (List PlacementEntry)}
    (h : Passed st history) (hfi : history = []) (hca : st.call .listPlacements fate = some (a, st')) :
    Passed st' (history ++ [⟨.db .listPlacements, a⟩]) := by
  subst hfi
  rcases call_cases hca with ⟨-, rfl, rfl⟩ | ⟨e, -, rfl, -⟩ | ⟨e, -, rfl, -⟩
  · have hse : seen placementsIn ([] ++ [⟨.db .listPlacements,
        .ok (listPlacements.perform st.reg).1⟩]) = st.reg.listPlacements := by
      rw [seen_snoc]
      rfl
    refine ⟨fun hni => ?_, fun e he e' he' hsr => ?_, fun p hp => ?_⟩
    · simp at hni
    · rw [hse] at he he'
      have hne := (mem_latest.mp he).2 e' (mem_latest.mp he').1 hsr.symm
      have hne' := (mem_latest.mp he').2 e (mem_latest.mp he).1 hsr
      exact le_antisymm hne' hne
    · rw [hse] at hp
      refine iff_of_true (mem_latest.mp hp).1 ?_
      rintro (⟨r, hr, -⟩ | hlo)
      · exact not_mem_nil hr
      · rw [h.fresh rfl] at hlo
        exact not_mem_nil hlo
  · exact ⟨fun hni => by simp at hni, nofun, nofun⟩
  · exact ⟨fun hni => by simp at hni, nofun, nofun⟩

theorem tookEffect_answered {oc : FenceOutcome} :
    ((∃ r ∈ removed ++ [(sri, genId, oc)], r.1 = p.sri ∧ r.2.1 = p.genId) ∨
        .removePlacement p.sri p.genId ∈ lost) ↔
      ((∃ r ∈ removed, r.1 = p.sri ∧ r.2.1 = p.genId) ∨ .removePlacement p.sri p.genId ∈ lost) ∨
        placementKey p = (sri, genId) := by
  simp only [mem_append, mem_singleton, or_and_right, exists_or, exists_eq_left,
    placementKey, Prod.mk.injEq, or_assoc, eq_comm]
  refine or_congr_right ?_
  rw [or_comm]

theorem tookEffect_lost : ((∃ r ∈ removed ++ [], r.1 = p.sri ∧ r.2.1 = p.genId) ∨
        .removePlacement p.sri p.genId ∈ .removePlacement sri genId :: lost) ↔
      ((∃ r ∈ removed, r.1 = p.sri ∧ r.2.1 = p.genId) ∨ .removePlacement p.sri p.genId ∈ lost) ∨
        placementKey p = (sri, genId) := by
  rw [append_nil, mem_cons, removePlacement.injEq, or_assoc]
  refine or_congr_right ?_
  rw [or_comm, placementKey, Prod.mk.injEq]

theorem Passed.removePlacement {a : Except String FenceOutcome}
    (h : Passed st history) (hca : st.call (.removePlacement sri genId) fate = some (a, st')) :
    Passed st' (history ++ [⟨.db (.removePlacement sri genId), a⟩]) := by
  have hse : seen placementsIn (history ++ [⟨.db (.removePlacement sri genId), a⟩]) =
      seen placementsIn history := by
    rw [seen_snoc]
    exact append_nil _
  refine ⟨fun hni => ?_, hse ▸ h.single, fun p hp => ?_⟩
  · simp at hni
  · rw [hse] at hp
    have hst := h.stored p hp
    have her : ∀ {st' : Swarm} {e : OrchEvent},
        st'.reg.placements = erase placementKey (sri, genId) st.reg.placements →
        (TookEffect st' (history ++ [e]) p.sri p.genId ↔
          TookEffect st history p.sri p.genId ∨ placementKey p = (sri, genId)) →
        (p ∈ st'.reg.placements ↔ ¬TookEffect st' (history ++ [e]) p.sri p.genId) := by
      intro st' e hpl hto
      rw [hpl, KeyedTables.mem_erase, hto, not_or, hst]
    rcases call_cases hca with ⟨-, rfl, rfl⟩ | ⟨e, -, rfl, rfl⟩ | ⟨e, -, rfl, rfl⟩
    · refine her rfl ?_
      unfold TookEffect
      rw [seen_snoc]
      exact tookEffect_answered
    · have hsa : seen removedIn (history ++ [⟨.db (.removePlacement sri genId), .error e⟩]) =
          seen removedIn history := by
        rw [seen_snoc]
        exact append_nil _
      unfold TookEffect
      rw [hsa]
      exact hst
    · refine her rfl ?_
      unfold TookEffect
      rw [seen_snoc]
      exact tookEffect_lost

/-- A request of hygiene, on its own, keeps what is known of the placements. -/
theorem Passed.serve {a : req.Ans}
    (h : Passed w.state history) (hju : HygieneSends watch history req)
    (hse : serve w fate req = some (a, st', tasks)) : Passed st' (history ++ [⟨req, a⟩]) := by
  cases req with
  | db c =>
    have hca := (serve_db hse).1
    have hot : (∀ sri genId, c ≠ .removePlacement sri genId) →
        (c.perform w.state.reg).2.placements = w.state.reg.placements →
        st'.reg.placements = w.state.reg.placements ∧
          ∀ sri genId, .removePlacement sri genId ∈ st'.lost ↔
            .removePlacement sri genId ∈ w.state.lost := by
      intro hne hsa
      rcases call_cases hca with ⟨-, -, rfl⟩ | ⟨e, -, -, rfl⟩ | ⟨e, -, -, rfl⟩
      · exact ⟨hsa, fun _ _ => Iff.rfl⟩
      · exact ⟨rfl, fun _ _ => Iff.rfl⟩
      · refine ⟨hsa, fun sri genId => ?_⟩
        dsimp only
        split
        · rw [mem_cons]
          exact or_iff_right fun heq => hne sri genId heq.symm
        · exact Iff.rfl
    cases c with
    | listPlacements => exact h.listPlacements hju hca
    | removePlacement sri genId => exact h.removePlacement hca
    | listInstances | getPlacement _ | recordDeath _ | removeInstanceRow _ _ =>
      obtain ⟨hpl, hlo⟩ := hot (nofun) rfl
      exact h.frame hpl hlo rfl rfl
    | _ => exact hju.elim
  | emitCellLost note reason | deregisterExec id | deleteLease id =>
    obtain ⟨⟨_, _⟩, han, hr⟩ := Option.map_eq_some_iff.mp hse
    cases hr
    rw [Swarm.message_eq_some han]
    exact h.frame rfl (fun _ _ => Iff.rfl) rfl rfl
  | _ => exact hju.elim

/-- A placement that was read is the one whose removal is asked for. -/
theorem Passed.placementGen (h : Passed st history) {e : PlacementEntry}
    (he : e ∈ seen placementsIn history) :
    placementGen (seen placementsIn history) e.sri = some e.genId := by
  unfold Myrmic.placementGen
  cases hf : (seen placementsIn history).reverse.find? fun c => c.sri = e.sri with
  | none => simpa using List.find?_eq_none.mp hf e (mem_reverse.mpr he)
  | some e' =>
    have hm := mem_reverse.mp (mem_of_find?_eq_some hf)
    have hs : e'.sri = e.sri := by simpa using List.find?_some hf
    exact congrArg some (h.single e' hm e he hs)

/-- **The lease of a node goes last exactly if no removal has failed**: when a pass on its own is about
to delete the registration or the lease of a node, nothing that it has read on the node is still stored,
if and only if no removal of a placement on the node has failed. -/
theorem lease_last_iff_removed {reg : Registries} {owed : List (RuntimeId × CleanupAction)}
    {minted : List Gen} {w : OrchWorld} {fate : Fate} {s : Served} {id : RuntimeId}
    (h : Reached step (fun _ action => alone action = true)
      ⟨⟨reg, owed, minted, []⟩, [begin program (.hygiene watch)]⟩ w)
    (hs : servedBy w (.advance 0 fate) = some s)
    (hreq : s.req = .deregisterExec id ∨ s.req = .deleteLease id) :
    (∀ e ∈ seen placementsIn s.history, e.kind.host = some id → e ∉ w.state.reg.placements) ↔
      ∀ e ∈ seen placementsIn s.history, e.kind.host = some id →
        ¬RemovalFailed w.state s.history e := by
  obtain ⟨history, rest, hpr, hpa⟩ :
      ∃ history rest, w.procs[0]? = some ⟨.hygiene watch, history, rest⟩ ∧ Passed w.state history := by
    refine reached_alone (I := Passed) ⟨fun _ => rfl, ?_, ?_⟩ ?_ h
    · exact nofun
    · exact nofun
    · intro w fate history req a st tasks hpa hju hser
      exact hpa.serve hju hser
  simp only [servedBy, hpr] at hs
  split at hs
  · next task history' req next heq =>
    cases hs
    cases heq
    have hju : ReleasedFrom id history := by
      have hse := sends_of_keeps (keeps_of_alone h) hpr
      rcases hreq with hreq | hreq
      · cases hreq
        exact hse
      · cases hreq
        exact hse
    refine forall₂_congr fun e he => imp_congr_right fun hho => ?_
    have has := hju e he hho e.sri mem_cons_self e.genId (hpa.placementGen he)
    have hst := hpa.stored e he
    unfold RemovalFailed
    simp only [has, true_and, hst]
  · cases hs

end Leases
namespace Sample

def rootInstance (genId : Gen) : CellInstance := ⟨root, .fill 32 0, genId, .root⟩

/-- The first life of the root runs on a node. -/
def running : Swarm where
  reg := ⟨[⟨rootDeployment, firstLife⟩], [], [⟨root, .wasm node, none, firstLife⟩],
    [rootInstance firstLife], [], [], [⟨rootDeployment, firstLife⟩], []⟩
  owed := []
  minted := [firstLife]
  lost := []

/-- The node has been silent for too long. -/
def silentNode (teardownReady : List RuntimeId) : NodeWatch where
  silence id := if id = node then some 100 else none
  teardownReady := teardownReady
  nodeTtls _ := none
  timing := ⟨10, 1, 1⟩

def placementsRead : List OrchAction := [.start (.hygiene (silentNode [])), .advance 0 .done]

/-- The root is undeployed and deployed again on another node, where it starts to run. -/
def redeployedElsewhere : List OrchAction :=
  [.start (.undeploy root)] ++ List.replicate 8 (.advance 1 .done) ++
    [.start (.deploy [rootDeployment])] ++ deploySteps 2 secondLife otherNode ++
    [.outer (.init (rootInstance secondLife))]

def watchOf : OrchTask → Option NodeWatch
  | .hygiene watch => some watch
  | _ => none

theorem eq_of_watchOf {watch : NodeWatch} (h : watchOf task = some watch) :
    task = .hygiene watch := by
  cases task <;> cases h
  rfl

def deathOf : Request → Option RootDeath
  | .db (.recordDeath d) => some d
  | _ => none

theorem eq_of_deathOf {req : Request} {d : RootDeath} (h : deathOf req = some d) :
    req = .db (.recordDeath d) := by
  unfold deathOf at h
  split at h <;> cases h
  rfl

end Sample
open Orchestration.Sample

/-- **A root that was redeployed is reported dead**: hygiene has read the placement of the first life and
then finds the instance of the second one, which runs on a live node. -/
theorem redeployed_root_reported : ∃ w s watch w', Reached step (fun _ _ => True) ⟨running, []⟩ w ∧
      servedBy w (.advance 0 .done) = some s ∧ s.task = .hygiene watch ∧
      step w (.advance 0 .done) = some w' ∧ ¬HarmsOnlyDead watch s.history s.req := by
  obtain ⟨w, s, hr, hs, watch, ht, d, hre, hp, w', hst, -⟩ : ∃ w s,
      Reached step (fun _ _ => True) ⟨running, []⟩ w ∧
      servedBy w (.advance 0 .done) = some s ∧ ∃ watch ∈ watchOf s.task,
      ∃ d ∈ deathOf s.req, (∀ e ∈ seen placementsIn s.history, e.genId < d.genId) ∧
      ∃ w' ∈ step w (.advance 0 .done), True :=
    exists_reached_some (placementsRead ++ redeployedElsewhere ++ [.advance 0 .done])
      (by decide +kernel)
  refine ⟨w, s, watch, w', hr, hs, eq_of_watchOf ht, hst, fun hh => ?_⟩
  rw [eq_of_deathOf hre] at hh
  obtain ⟨e, he, -, -, hle⟩ := hh
  exact absurd (hp e he) (not_lt_of_ge hle)

/-- Where nothing is redeployed in between, the life that is reported is the one that was placed. -/
theorem silent_root_reported :
    ∃ w s watch, Reached step (fun w action => scansInOrder w action = true) ⟨running, []⟩ w ∧
      servedBy w (.advance 0 .done) = some s ∧ HarmsOnlyDead watch s.history s.req := by
  obtain ⟨w, s, hr, hs, watch, ht, w', hst, -⟩ : ∃ w s,
      Reached step (fun w action => scansInOrder w action = true) ⟨running, []⟩ w ∧
      servedBy w (.advance 0 .done) = some s ∧ ∃ watch ∈ watchOf s.task,
      ∃ w' ∈ step w (.advance 0 .done), (deathOf s.req).isSome :=
    exists_reached_some (placementsRead ++ [.advance 0 .done]) (by decide +kernel)
  exact ⟨w, s, watch, hr, hs, (hygiene_harms_only_dead hr hs (eq_of_watchOf ht) hst).1⟩

namespace Sample

/-- A pass over the root's node, which is ready for teardown; the fate of the removal of the placement
is open. -/
def teardownRun (removal : Fate) : List OrchAction :=
  [.done, .done, .done, removal, .done].map (.advance 0)

def leaseOf : Request → Option RuntimeId
  | .deleteLease id => some id
  | _ => none

theorem eq_of_leaseOf {req : Request} {id : RuntimeId} (h : leaseOf req = some id) :
    req = .deleteLease id := by
  cases req <;> cases h
  rfl

end Sample

/-- **The lease of a node is deleted with a placement left on it**: the removal of the placement has
failed, and the pass goes on. -/
theorem lease_deleted_with_placement :
    ∃ w s id e, Reached step (fun _ action => alone action = true)
        ⟨running, [begin program (.hygiene (silentNode [node]))]⟩ w ∧
      servedBy w (.advance 0 .done) = some s ∧ s.req = .deleteLease id ∧
      e ∈ seen placementsIn s.history ∧ e.kind.host = some id ∧ e ∈ w.state.reg.placements := by
  obtain ⟨w, s, hr, hs, hre, e, he, hh, hp⟩ : ∃ w s,
      Reached step (fun _ action => alone action = true)
        ⟨running, [begin program (.hygiene (silentNode [node]))]⟩ w ∧
      servedBy w (.advance 0 .done) = some s ∧ leaseOf s.req = some node ∧
      ∃ e ∈ seen placementsIn s.history, e.kind.host = some node ∧ e ∈ w.state.reg.placements :=
    exists_reached_some (teardownRun (.refused "timeout") ++ [.advance 0 .done]) (by decide +kernel)
  exact ⟨w, s, node, e, hr, hs, eq_of_leaseOf hre, he, hh, hp⟩

/-- Where the removal succeeds, nothing is left when the lease goes, and no removal has failed. -/
theorem lease_last_after_removal :
    ∃ w s id e, servedBy w (.advance 0 .done) = some s ∧ s.req = .deleteLease id ∧
      e ∈ seen placementsIn s.history ∧ e.kind.host = some id ∧
      ((∀ e ∈ seen placementsIn s.history, e.kind.host = some id → e ∉ w.state.reg.placements) ↔
        ∀ e ∈ seen placementsIn s.history, e.kind.host = some id →
          ¬RemovalFailed w.state s.history e) := by
  obtain ⟨w, s, hr, hs, hre, e, he, hh⟩ : ∃ w s, Reached step (fun _ action => alone action = true)
        ⟨running, [begin program (.hygiene (silentNode [node]))]⟩ w ∧
      servedBy w (.advance 0 .done) = some s ∧ leaseOf s.req = some node ∧
      ∃ e ∈ seen placementsIn s.history, e.kind.host = some node :=
    exists_reached_some (teardownRun .done ++ [.advance 0 .done, .advance 0 .done])
      (by decide +kernel)
  have hl := eq_of_leaseOf hre
  exact ⟨w, s, node, e, hs, hl, he, hh, lease_last_iff_removed hr hs (.inr hl)⟩

end Orchestration

end Myrmic
