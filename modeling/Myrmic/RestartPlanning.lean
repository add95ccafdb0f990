import Myrmic.Supervision
import Myrmic.SlidingWindow

/-!
# Restart planning over passes

A leader plans restarts pass after pass.  Between two passes it keeps a budget (the moments of the
restarts it has charged to each root) and the specs that looked orphaned.  `Planner` is this memory
together with what the passes so far have done: the attempts of each root that were not refunded
(`tried`), those of them since the budget of the root was last forgotten (`charged`), and the pass
before.

The budget drops attempts that have left a root's window, takes attempts back and forgets roots.  A
pass keeps it **worth the charged attempts** (`Planner.Accounts`, an instance of
`SlidingWindow.Tracks`), as long as passes come at non-decreasing times and policies stay what they
are; so every decision of a pass is a decision about the charged attempts.
-/
namespace Myrmic
open List
open SlidingWindow (Tracks within prune waited)
open RestartBudget

/-! ## Verdicts -/

namespace RestartBudget

theorem allow_eq (b : RestartBudget) (sri : Sri) (maxRestarts window now : Nat) :
    b.allow sri maxRestarts window now =
      (decide ((prune window now (b.attempts sri)).length < maxRestarts),
        ⟨Function.update b.attempts sri (prune window now (b.attempts sri) ++
          if (prune window now (b.attempts sri)).length < maxRestarts then [now] else [])⟩) := by
  unfold allow
  change (if maxRestarts ≤ (prune window now (b.attempts sri)).length then _ else _) = _
  by_cases h : (prune window now (b.attempts sri)).length < maxRestarts
  · rw [if_neg (by omega), decide_eq_true h, if_pos h]
    rfl
  · rw [if_pos (by omega), decide_eq_false h, if_neg h, append_nil]
    rfl

end RestartBudget
variable {sri : Sri}
section Verdicts
variable {specs : List CellDeployment} {pls : List PlacementEntry} {now : Nat}
  {budget budget' : RestartBudget} {death : RootDeath} {policy : Sri → RestartPolicy}

theorem placementGen_eq_none {cells : List PlacementEntry}
    (h : placementGen cells sri = none) : ∀ p ∈ cells, p.sri ≠ sri := by
  intro p hp
  have hn := Option.map_eq_none_iff.mp h
  simpa using List.find?_eq_none.mp hn p (mem_reverse.mpr hp)

/-- A death is acted on if its root has a spec and no placement. -/
structure Actionable (specs : List CellDeployment) (placements : List PlacementEntry)
    (death : RootDeath) : Prop where
  spec : ∃ spec ∈ specs, spec.sri = death.sri
  unplaced : ∀ p ∈ placements, p.sri ≠ death.sri

/-- What a verdict rests on, and what becomes of the root's queue of attempts. -/
inductive Resolved (specs : List CellDeployment) (placements : List PlacementEntry) (now : Nat)
    (policy : RestartPolicy) (death : RootDeath) (queue : List Nat) :
    DeathVerdict → List Nat → Prop
  | wait : Resolved specs placements now policy death queue .wait queue
  | clear : Resolved specs placements now policy death queue .clear queue
  | restart : Actionable specs placements death →
      shouldRestart policy.restartType death.reason = true → waited policy.delayMs now queue = true →
      (prune policy.windowMs now queue).length < policy.maxRestarts →
      Resolved specs placements now policy death queue .restart
        (prune policy.windowMs now queue ++ [now])
  | terminal : Actionable specs placements death →
      shouldRestart policy.restartType death.reason = false →
      Resolved specs placements now policy death queue .giveUp []
  | exhausted : Actionable specs placements death →
      policy.maxRestarts ≤ (prune policy.windowMs now queue).length →
      Resolved specs placements now policy death queue .giveUp []

theorem resolveDeath_cases (hpo : ∀ spec ∈ specs, spec.restart = policy spec.sri) :
    Resolved specs pls now (policy death.sri) death (budget.attempts death.sri)
      (resolveDeath specs pls now budget death).1
      ((resolveDeath specs pls now budget death).2.attempts death.sri) := by
  unfold resolveDeath
  split
  · exact .clear
  · next spec hsp =>
    obtain ⟨hme, hsr⟩ := mem_of_specOf hsp
    have hre : spec.restart = policy death.sri := hsr ▸ hpo spec hme
    split
    · split
      · exact .clear
      · exact .wait
    · next hpl =>
      have hac : Actionable specs pls death := ⟨⟨spec, hme, hsr⟩, placementGen_eq_none hpl⟩
      rw [hre, allow_eq, ready]
      split
      · next hsh =>
        split
        · next hwa =>
          by_cases hbu : (prune (policy death.sri).windowMs now
              (budget.attempts death.sri)).length < (policy death.sri).maxRestarts
          · simpa [hbu] using Resolved.restart hac hsh hwa hbu
          · simpa [hbu, forget] using Resolved.exhausted hac (Nat.le_of_not_lt hbu)
        · exact .wait
      · next hsh =>
        simpa [forget] using Resolved.terminal hac (Bool.eq_false_iff.mpr hsh)

theorem resolveDeath_frame (h : sri ≠ death.sri) :
    (resolveDeath specs pls now budget death).2.attempts sri = budget.attempts sri := by
  unfold resolveDeath
  split
  · rfl
  · split
    · split <;> rfl
    · split
      · split
        · rw [allow_eq]
          simp only
          split <;> simp [forget, Function.update_of_ne h]
        · rfl
      · exact Function.update_of_ne h _ _

/-- Only the queue of the root that died is looked at. -/
theorem resolveDeath_local (h : budget.attempts death.sri = budget'.attempts death.sri) :
    (resolveDeath specs pls now budget death).1 = (resolveDeath specs pls now budget' death).1 ∧
      (resolveDeath specs pls now budget death).2.attempts death.sri =
        (resolveDeath specs pls now budget' death).2.attempts death.sri := by
  unfold resolveDeath
  split
  · exact ⟨rfl, h⟩
  · split
    · split <;> exact ⟨rfl, h⟩
    · simp only [allow_eq, ready, h]
      split
      · split
        · split <;> exact ⟨rfl, by simp [forget]⟩
        · exact ⟨rfl, h⟩
      · exact ⟨rfl, by simp [forget]⟩

abbrev verdictOn (specs : List CellDeployment) (placements : List PlacementEntry) (now : Nat)
    (budget : RestartBudget) (death : RootDeath) : DeathVerdict :=
  (resolveDeath specs placements now budget death).1

/-- What going through the deaths has planned, in terms of the budget before. -/
structure Planned (specs : List CellDeployment) (placements : List PlacementEntry) (now : Nat)
    (budget : RestartBudget) (deaths : List RootDeath) (plan : RestartPlan)
    (result : RestartPlan × RestartBudget) : Prop where
  restart : result.1.restart = plan.restart ++
    (deaths.filter fun d => verdictOn specs placements now budget d = .restart).map RootDeath.sri
  dropSpecs : result.1.dropSpecs = plan.dropSpecs ++
    (deaths.filter fun d => verdictOn specs placements now budget d = .giveUp).map RootDeath.sri
  queue : ∀ d ∈ deaths, result.2.attempts d.sri =
    (resolveDeath specs placements now budget d).2.attempts d.sri
  others : ∀ sri, (∀ d ∈ deaths, d.sri ≠ sri) → result.2.attempts sri = budget.attempts sri

/-- **Deaths of different roots are resolved independently**: each as if it were the only one. -/
theorem planDeaths_planned {ds : List RootDeath} (plan : RestartPlan)
    (hno : (ds.map RootDeath.sri).Nodup) : Planned specs pls now budget ds plan
      (planDeaths specs pls now plan budget ds) := by
  induction ds generalizing plan budget with
  | nil =>
    exact ⟨(append_nil _).symm, (append_nil _).symm, nofun, fun _ _ => rfl⟩
  | cons death ds ih =>
    rw [map_cons, nodup_cons] at hno
    obtain ⟨hfr, hno⟩ := hno
    have hne : ∀ d ∈ ds, d.sri ≠ death.sri := fun d hd heq => hfr (heq ▸ mem_map_of_mem hd)
    let next := (resolveDeath specs pls now budget death).2
    have hsa : ∀ d ∈ ds, next.attempts d.sri = budget.attempts d.sri := fun d hd =>
      resolveDeath_frame (hne d hd)
    have hve : ∀ d ∈ ds, verdictOn specs pls now next d =
        verdictOn specs pls now budget d := fun d hd =>
      (resolveDeath_local (hsa d hd)).1
    have hfi : ∀ v : DeathVerdict, (ds.filter fun d => verdictOn specs pls now next d = v) =
          ds.filter fun d => verdictOn specs pls now budget d = v := fun v =>
      filter_congr fun d hd => by rw [hve d hd]
    have hre : Planned specs pls now next ds
        (plan.add death.sri (verdictOn specs pls now budget death))
        (planDeaths specs pls now
          (plan.add death.sri (verdictOn specs pls now budget death)) next ds) :=
      ih _ hno
    change Planned specs pls now budget (death :: ds) plan (planDeaths specs pls now
        (plan.add death.sri (verdictOn specs pls now budget death)) next ds)
    refine ⟨?_, ?_, fun d hd => ?_, fun sri hsr => ?_⟩
    · rw [hre.restart, hfi]
      cases hv : verdictOn specs pls now budget death <;>
        simp [RestartPlan.add, hv]
    · rw [hre.dropSpecs, hfi]
      cases hv : verdictOn specs pls now budget death <;>
        simp [RestartPlan.add, hv]
    · rcases mem_cons.mp hd with rfl | hd
      · exact hre.others d.sri hne
      · rw [hre.queue d hd]
        exact (resolveDeath_local (hsa d hd)).2
    · rw [hre.others sri fun d hd => hsr d (mem_cons_of_mem _ hd)]
      exact resolveDeath_frame (hsr death mem_cons_self).symm

end Verdicts

/-! ## Passes -/

/-- A pass: what it has read, when, and which of its restarts find no runtime. -/
structure RestartPass where
  specs : List CellDeployment
  deaths : List RootDeath
  placements : List PlacementEntry
  instances : List CellInstance
  now : Nat
  unplaced : Sri → Bool

/-- Neither a placement nor an instance nor a death of the root was read. -/
structure RestartPass.Gone (pass : RestartPass) (sri : Sri) : Prop where
  placement : ∀ p ∈ pass.placements, p.sri ≠ sri
  instanceRow : ∀ i ∈ pass.instances, i.sri ≠ sri
  death : ∀ d ∈ pass.deaths, d.sri ≠ sri

theorem mem_orphans {pass : RestartPass} :
    sri ∈ orphans pass.specs pass.deaths pass.placements pass.instances ↔
      (∃ spec ∈ pass.specs, spec.sri = sri) ∧ pass.Gone sri := by
  unfold orphans
  simp only [mem_filter, mem_map, Bool.and_eq_true, Bool.not_eq_true', any_eq_false,
    decide_eq_true_eq]
  constructor
  · rintro ⟨hs, ⟨hp, hi⟩, hd⟩
    exact ⟨hs, hp, hi, hd⟩
  · rintro ⟨hs, hg⟩
    exact ⟨hs, ⟨hg.placement, hg.instanceRow⟩, hg.death⟩

/-- Takes back the attempts that found no runtime. -/
def refunds (unplaced : Sri → Bool) (budget : RestartBudget) (restart : List Sri) : RestartBudget :=
  restart.foldl (fun b sri => if unplaced sri then b.refund sri else b) budget

/-- The memory of a leader, and what its passes have done. -/
structure Planner where
  budget : RestartBudget
  sweep : RestartSweep
  last : Option RestartPass
  /-- The attempts that were not refunded. -/
  tried : Sri → List Nat
  /-- Those since the budget of the root was last forgotten. -/
  charged : Sri → List Nat

namespace Planner

def start : Planner := ⟨.new, [], none, fun _ => [], fun _ => []⟩

def clock (st : Planner) : Nat := st.last.elim 0 RestartPass.now

/-- What a pass plans, and the memory it leaves before the plan is carried out. -/
def plans (st : Planner) (pass : RestartPass) : RestartPlan × RestartBudget × RestartSweep :=
  planRootRestarts pass.specs pass.deaths pass.placements pass.instances st.budget st.sweep pass.now

/-- A pass plans, and carries the plan out.  A budget is forgotten together with the spec. -/
def step (st : Planner) (pass : RestartPass) : Option Planner :=
  let (plan, budget, sweep) := st.plans pass
  let attempted := fun sri => sri ∈ plan.restart ∧ pass.unplaced sri = false
  some
    { budget := refunds pass.unplaced budget plan.restart
      sweep := sweep
      last := some pass
      tried := fun sri =>
        if attempted sri then st.tried sri ++ [pass.now] else st.tried sri
      charged := fun sri =>
        if sri ∈ plan.dropSpecs then []
        else if attempted sri then st.charged sri ++ [pass.now] else st.charged sri }

/-- A pass comes no earlier than the one before, reads at most one death of each root, and finds the
policies as they were. -/
structure Orderly (policy : Sri → RestartPolicy) (st : Planner) (pass : RestartPass) : Prop where
  clock : st.clock ≤ pass.now
  deaths : (pass.deaths.map RootDeath.sri).Nodup
  policies : ∀ spec ∈ pass.specs, spec.restart = policy spec.sri

namespace Sample

def root : Sri := .fill 16 1

/-- Restarts after errors, ten seconds apart. -/
def policy : RestartPolicy := ⟨.onError, 5, 60000, 10000⟩

/-- The pass at a moment that finds the root dead for a reason. -/
def deathAt (now : Nat) (reason : LostReason) : RestartPass :=
  ⟨[⟨root, none, none, .root, policy⟩], [⟨root, ⟨1, 1⟩, reason⟩], [], [], now, fun _ => false⟩

end Sample

instance decidableOrderly (policy : Sri → RestartPolicy) (st : Planner) (pass : RestartPass) :
    Decidable (Orderly policy st pass) :=
  decidable_of_iff (st.clock ≤ pass.now ∧ (pass.deaths.map RootDeath.sri).Nodup ∧
      ∀ spec ∈ pass.specs, spec.restart = policy spec.sri)
    ⟨fun h => ⟨h.1, h.2.1, h.2.2⟩, fun h => ⟨h.clock, h.deaths, h.policies⟩⟩

/-- What a plan does to a root, on what grounds, and what becomes of the root's queue. -/
inductive Outcome (policy : RestartPolicy) (st : Planner) (pass : RestartPass) (sri : Sri)
    (plan : RestartPlan) (queue : List Nat) : Prop
  | restarted (death : RootDeath) : sri ∈ plan.restart → sri ∉ plan.dropSpecs →
      death ∈ pass.deaths → death.sri = sri → Actionable pass.specs pass.placements death →
      shouldRestart policy.restartType death.reason = true →
      waited policy.delayMs pass.now (st.budget.attempts sri) = true →
      (prune policy.windowMs pass.now (st.budget.attempts sri)).length < policy.maxRestarts →
      queue = prune policy.windowMs pass.now (st.budget.attempts sri) ++ [pass.now] →
      Outcome policy st pass sri plan queue
  | givenUp (death : RootDeath) : sri ∉ plan.restart → sri ∈ plan.dropSpecs →
      death ∈ pass.deaths → death.sri = sri → Actionable pass.specs pass.placements death →
      (shouldRestart policy.restartType death.reason = false ∨
        policy.maxRestarts ≤
          (prune policy.windowMs pass.now (st.budget.attempts sri)).length) →
      queue = [] → Outcome policy st pass sri plan queue
  | removed : sri ∉ plan.restart → sri ∈ plan.dropSpecs → pass.Gone sri → sri ∈ st.sweep →
      queue = [] → Outcome policy st pass sri plan queue
  | left : sri ∉ plan.restart → sri ∉ plan.dropSpecs → queue = st.budget.attempts sri →
      Outcome policy st pass sri plan queue

theorem forgets_attempts (budget : RestartBudget) (confirmed : List Sri) (sri : Sri) :
    (confirmed.foldl forget budget).attempts sri =
      if sri ∈ confirmed then [] else budget.attempts sri := by
  induction confirmed generalizing budget with
  | nil => rfl
  | cons other confirmed ih =>
    rw [foldl_cons, ih]
    by_cases h : sri = other
    · subst h
      simp [forget]
    · simp [forget, h]

theorem refunds_attempts {unplaced : Sri → Bool} {restart : List Sri} (budget : RestartBudget)
    (hn : restart.Nodup) : (refunds unplaced budget restart).attempts sri =
      if sri ∈ restart ∧ unplaced sri = true then (budget.attempts sri).dropLast
      else budget.attempts sri := by
  unfold refunds
  induction restart generalizing budget with
  | nil => simp
  | cons other restart ih =>
    rw [nodup_cons] at hn
    rw [foldl_cons, ih _ hn.2]
    by_cases h : sri = other
    · subst h
      by_cases hu : unplaced sri = true
      · simp [hu, hn.1, refund]
      · simp [hu]
    · by_cases hu : unplaced other = true
      · simp [hu, h, refund]
      · simp [hu, h]

section Outcomes
variable {policy : Sri → RestartPolicy} {st : Planner} {pass : RestartPass}

def confirmed (st : Planner) (pass : RestartPass) : List Sri :=
  (orphans pass.specs pass.deaths pass.placements pass.instances).filter fun sri => sri ∈ st.sweep

theorem gone_of_confirmed (h : sri ∈ st.confirmed pass) : pass.Gone sri ∧ sri ∈ st.sweep := by
  obtain ⟨ho, hs⟩ := mem_filter.mp h
  exact ⟨(mem_orphans.mp ho).2, by simpa using hs⟩

variable (hd : (pass.deaths.map RootDeath.sri).Nodup)
include hd

/-- A plan, in terms of the verdicts under the budget before the pass. -/
theorem plans_planned : ∃ between : RestartPlan × RestartBudget,
      Planned pass.specs pass.placements pass.now st.budget pass.deaths ⟨[], [], []⟩ between ∧
        (st.plans pass).1.restart = between.1.restart ∧
        (st.plans pass).1.dropSpecs = between.1.dropSpecs ++ st.confirmed pass ∧
        (st.plans pass).2.1 = (st.confirmed pass).foldl forget between.2 :=
  ⟨_, planDeaths_planned ⟨[], [], []⟩ hd, rfl, rfl, rfl⟩

theorem restart_nodup : (st.plans pass).1.restart.Nodup := by
  obtain ⟨_, hp, hr, -, -⟩ := plans_planned hd
  rw [hr, hp.restart, nil_append]
  exact hd.sublist (filter_sublist.map _)

omit hd

theorem plans_outcome (h : Orderly policy st pass) (sri : Sri) :
    Outcome (policy sri) st pass sri (st.plans pass).1 ((st.plans pass).2.1.attempts sri) := by
  obtain ⟨_, hpl, hre, hdro, hbu⟩ := plans_planned h.deaths
  have hme : ∀ verdict d, d ∈ pass.deaths → (d.sri ∈ (pass.deaths.filter fun d =>
      verdictOn pass.specs pass.placements pass.now st.budget d = verdict).map RootDeath.sri ↔
        verdictOn pass.specs pass.placements pass.now st.budget d = verdict) := by
    intro verdict d hd
    constructor
    · intro hme
      obtain ⟨_, hd', hsr⟩ := mem_map.mp hme
      obtain ⟨hd', hve⟩ := mem_filter.mp hd'
      rw [← inj_on_of_nodup_map h.deaths hd' hd hsr]
      simpa using hve
    · intro hve
      exact mem_map_of_mem (mem_filter.mpr ⟨hd, by simpa using hve⟩)
  rw [hbu, forgets_attempts]
  by_cases hde : ∃ d ∈ pass.deaths, d.sri = sri
  · obtain ⟨d, hd, rfl⟩ := hde
    have hco : d.sri ∉ st.confirmed pass := fun hc => (gone_of_confirmed hc).1.death d hd rfl
    have hin : d.sri ∈ (st.plans pass).1.restart ↔
        verdictOn pass.specs pass.placements pass.now st.budget d = .restart := by
      rw [hre, hpl.restart, nil_append]
      exact hme .restart d hd
    have hdr : d.sri ∈ (st.plans pass).1.dropSpecs ↔
        verdictOn pass.specs pass.placements pass.now st.budget d = .giveUp := by
      rw [hdro, hpl.dropSpecs, nil_append, mem_append, or_iff_left hco]
      exact hme .giveUp d hd
    rw [if_neg hco, hpl.queue d hd]
    have hca : Resolved pass.specs pass.placements pass.now (policy d.sri) d
        (st.budget.attempts d.sri) (verdictOn pass.specs pass.placements pass.now st.budget d)
        ((resolveDeath pass.specs pass.placements pass.now st.budget d).2.attempts d.sri) :=
      resolveDeath_cases h.policies
    generalize (resolveDeath pass.specs pass.placements pass.now st.budget d).2.attempts d.sri =
      queue at hca ⊢
    generalize verdictOn pass.specs pass.placements pass.now st.budget d = verdict at hin hdr hca
    cases hca with
    | restart hac hsh hwa hlt =>
      exact .restarted d (hin.mpr rfl) (by simp [hdr]) hd rfl hac hsh hwa hlt rfl
    | terminal hac hsh =>
      exact .givenUp d (by simp [hin]) (hdr.mpr rfl) hd rfl hac (.inl hsh) rfl
    | exhausted hac hle =>
      exact .givenUp d (by simp [hin]) (hdr.mpr rfl) hd rfl hac (.inr hle) rfl
    | _ => exact .left (by simp [hin]) (by simp [hdr]) rfl
  · have hno : ∀ d ∈ pass.deaths, d.sri ≠ sri := fun d hd heq => hde ⟨d, hd, heq⟩
    have hnot : ∀ deaths', deaths' ⊆ pass.deaths → sri ∉ deaths'.map RootDeath.sri := by
      intro deaths' hsu hme
      obtain ⟨d, hd, hsr⟩ := mem_map.mp hme
      exact hno d (hsu hd) hsr
    have hin : sri ∉ (st.plans pass).1.restart := by
      rw [hre, hpl.restart, nil_append]
      exact hnot _ (filter_subset_self _)
    by_cases hco : sri ∈ st.confirmed pass
    · obtain ⟨hgo, hsw⟩ := gone_of_confirmed hco
      refine .removed hin ?_ hgo hsw (if_pos hco)
      rw [hdro]
      exact mem_append_right _ hco
    · refine .left hin ?_ ?_
      · rw [hdro, hpl.dropSpecs, nil_append, mem_append, or_iff_left hco]
        exact hnot _ (filter_subset_self _)
      · rw [if_neg hco, hpl.others sri hno]

/-! ## Accounts -/

/-- **The budget is worth the charged attempts, and the sweep remembers the pass before.** -/
structure Accounts (policy : Sri → RestartPolicy) (st : Planner) : Prop where
  queue : ∀ sri, Tracks (policy sri).windowMs (policy sri).delayMs (st.charged sri)
    (st.budget.attempts sri) st.clock
  sweep : ∀ sri ∈ st.sweep, ∃ before, st.last = some before ∧ before.Gone sri

theorem start_accounts : Accounts policy start := ⟨fun _ => .nil, nofun⟩

/-- A pass keeps the accounts. -/
theorem step_accounts {st' : Planner} (hst : Accounts policy st) (h : Orderly policy st pass)
    (hste : st.step pass = some st') : Accounts policy st' := by
  obtain rfl := Option.some.inj hste
  refine ⟨fun sri => ?_, fun sri hsr => ⟨pass, rfl, (mem_orphans.mp hsr).2⟩⟩
  have hqu := (hst.queue sri).later h.clock
  change Tracks _ _ (if sri ∈ (st.plans pass).1.dropSpecs then [] else
      if sri ∈ (st.plans pass).1.restart ∧ pass.unplaced sri = false then
        st.charged sri ++ [pass.now] else st.charged sri)
    ((refunds pass.unplaced (st.plans pass).2.1 (st.plans pass).1.restart).attempts sri) pass.now
  rw [refunds_attempts _ (restart_nodup h.deaths)]
  rcases plans_outcome h sri with
    ⟨d, hin, hdr, -, -, -, -, hwa, -, heq⟩ | ⟨d, hin, hdr, -, -, -, -, heq⟩ |
    ⟨hin, hdr, -, -, heq⟩ | ⟨hin, hdr, heq⟩
  · rw [if_neg hdr, heq]
    have hpr := hqu.prune hwa
    by_cases hun : pass.unplaced sri = true
    · -- the attempt is refunded at once: what remains is the pruned queue
      rw [if_neg (by simp [hun]), if_pos ⟨hin, hun⟩, dropLast_concat]
      exact hpr
    · rw [if_pos ⟨hin, by simpa using hun⟩, if_neg (fun h => hun h.2)]
      exact hpr.push
  · rw [if_pos hdr, if_neg (fun h => hin h.1), heq]
    exact .nil
  · rw [if_pos hdr, if_neg (fun h => hin h.1), heq]
    exact .nil
  · rw [if_neg hdr, if_neg (fun h => hin h.1), if_neg (fun h => hin h.1), heq]
    exact hqu

/-! ## Promises -/

/-- **What restart planning promises** of a pass. -/
structure KeepsPromises (policy : Sri → RestartPolicy) (st : Planner) (pass : RestartPass) :
    Prop where
  restart : ∀ sri ∈ (st.plans pass).1.restart,
    (∃ spec ∈ pass.specs, spec.sri = sri) ∧
    (∃ d ∈ pass.deaths, d.sri = sri ∧ shouldRestart (policy sri).restartType d.reason = true) ∧
    (∀ p ∈ pass.placements, p.sri ≠ sri) ∧
    waited (policy sri).delayMs pass.now (st.charged sri) = true ∧
    (within (policy sri).windowMs pass.now (st.charged sri)).length < (policy sri).maxRestarts
  placed : ∀ p ∈ pass.placements,
    p.sri ∉ (st.plans pass).1.restart ∧ p.sri ∉ (st.plans pass).1.dropSpecs
  dropped : ∀ sri ∈ (st.plans pass).1.dropSpecs,
    (∃ d ∈ pass.deaths, d.sri = sri ∧ shouldRestart (policy sri).restartType d.reason = false) ∨
    (policy sri).maxRestarts ≤
      (within (policy sri).windowMs pass.now (st.charged sri)).length ∨
    (pass.Gone sri ∧ ∃ before, st.last = some before ∧ before.Gone sri)

end Outcomes

end Planner

end Myrmic
