import Myrmic.SoloRuns
import Myrmic.Contracts

/-!
# What a failed deploy leaves behind

A deploy records what it has done, and a deploy that fails is rolled back from that record.  A call that
takes effect while its answer is lost is not recorded: the placeholder that such a claim has written, or
the spec, stays (`lost_claim_left_behind`).  For a deploy on its own, with a rollback whose calls all
succeed, this is the only way: **nothing is left behind exactly when no claim that was won and no spec
that was written has lost its answer** (`nothing_left_iff_none_lost`).

The proof follows the deploy step by step.  As long as nothing was lost, every row that was not there at
the start is on record (`Clean`), and the rollback goes through the record; what was lost is on no record
(`Stuck`), and the rollback passes it by.
-/
namespace Myrmic
open KeyedTables Processes List
namespace Orchestration
open DbCall Deploying KeyedTables

/-- The calls that write what a rollback has to remove. -/
def vital : DbCall → Bool
  | .claimPlacement .. => true
  | .writeSpec .. => true
  | _ => false

/-- Answers a request where all calls of registries succeed. -/
def answerDone (st : Swarm) (fate : Fate) : (req : Request) → Option (req.Ans × Swarm)
  | .db c => st.call c .done
  | req => st.answer fate req

/-- A swarm in which all rows are of generations that were given out, and nothing was lost. -/
structure Settled (st : Swarm) : Prop where
  placements : ∀ e ∈ st.reg.placements, e.genId ∈ st.minted
  specs : ∀ s ∈ st.reg.specs, s.author ∈ st.minted
  lost : st.lost = []

/-- **No row is of a generation that was given out since.** -/
def LeavesNothing (st₀ st : Swarm) : Prop :=
  (∀ e ∈ st.reg.placements, e.genId ∈ st.minted → e.genId ∈ st₀.minted) ∧
    ∀ s ∈ st.reg.specs, s.author ∈ st.minted → s.author ∈ st₀.minted

/-- **No claim and no spec has lost its answer.** -/
def NoneLost (st : Swarm) : Prop := ∀ c ∈ st.lost, vital c = false

/-- What has been written since is on record. -/
structure Clean (st₀ st : Swarm) (txn : DeployTransaction) : Prop where
  lost : NoneLost st
  minted : ∀ g ∈ st₀.minted, g ∈ st.minted
  kept : ∀ e ∈ st₀.reg.placements, e ∈ st.reg.placements
  placements : ∀ e ∈ st.reg.placements, e ∈ st₀.reg.placements ∨ (e.sri, e.genId) ∈ txn.claimed
  held : ∀ claim ∈ txn.claimed, ∃ e ∈ st.reg.placements, e.sri = claim.1
  free : ∀ claim ∈ txn.claimed, ∀ e ∈ st₀.reg.placements, e.sri ≠ claim.1
  once : (txn.claimed.map Prod.fst).Nodup
  specs : ∀ s ∈ st.reg.specs, s ∈ st₀.reg.specs ∨ s.deployment.sri ∈ txn.wroteSpecs
  wrote : ∀ sri ∈ txn.wroteSpecs, sri ∈ txn.claimed.map Prod.fst

def NewGen (st₀ st : Swarm) (genId : Gen) : Prop := genId ∈ st.minted ∧ genId ∉ st₀.minted

/-- Something was written that is on no record. -/
structure Stuck (st₀ st : Swarm) (txn : DeployTransaction) : Prop where
  lost : ¬NoneLost st
  row : (∃ e ∈ st.reg.placements, NewGen st₀ st e.genId ∧ ∀ claim ∈ txn.claimed, e.sri ≠ claim.1) ∨
    ∃ s ∈ st.reg.specs, NewGen st₀ st s.author ∧ s.deployment.sri ∉ txn.wroteSpecs

/-- How a deploy fails. -/
def Failed (st₀ st : Swarm) (txn : DeployTransaction) : Prop :=
  Clean st₀ st txn ∨ Stuck st₀ st txn

variable {sri : Sri} {genId : Gen}

/-! ## Parts of a deploy -/

section Parts
variable {α β : Type} {st₀ st st' : Swarm} {txn : DeployTransaction}
  {Q : Swarm → DeployTransaction → α → Prop} {R : Swarm → DeployTransaction → β → Prop}
  {f : α → Deploying β} {c : DbCall} {roots : List CellDeployment} {cells : List CellDeployment}
  {cell : CellDeployment} {done : List CellDeployment} {gens : List (Sri × Gen)}
  {entry : PlacementEntry} {dep : CellDeployment}

/-- Wherever a part of a deploy ends, it has failed as deploys fail, or has given what it should. -/
def DeployAlways (st₀ : Swarm) (Q : Swarm → DeployTransaction → α → Prop) (p : Deploying α)
    (st : Swarm) (txn : DeployTransaction) : Prop :=
  (p txn).Always Swarm.answer (fun st r =>
    match r.1 with
    | .ok a => Q st r.2 a
    | .error _ => Failed st₀ st r.2) st

theorem DeployAlways.bind {p : Deploying α} (hp : DeployAlways st₀ Q p st txn)
    (hf : ∀ st txn a, Q st txn a → DeployAlways st₀ R (f a) st txn) :
    DeployAlways st₀ R (p >>= f) st txn := by
  refine Process.Always.bind hp fun st r hr => ?_
  obtain ⟨res, txn'⟩ := r
  cases res with
  | error e => exact hr
  | ok a => exact hf st txn' a hr

theorem deployAlways_pure {a : α} (h : Q st txn a) : DeployAlways st₀ Q (pure a) st txn := h

theorem deployAlways_fail {e : DeploymentError} (h : Failed st₀ st txn) :
    DeployAlways st₀ Q (fail e) st txn := h

theorem deployAlways_note {f : DeployTransaction → DeployTransaction}
    {Q : Swarm → DeployTransaction → Unit → Prop} (h : Q st (f txn) ()) :
    DeployAlways st₀ Q (note f) st txn := h

theorem deployAlways_lift {p : Orch α} (h : p.Always Swarm.answer (fun st a => Q st txn a) st) :
    DeployAlways st₀ Q (lift p) st txn :=
  Process.Always.bind h fun _ _ h => h

theorem deployAlways_call {Q : Swarm → DeployTransaction → c.Value → Prop}
    (hd : Q { st with reg := (c.perform st.reg).2 } txn (c.perform st.reg).1)
    (hr : Failed st₀ st txn) (hl : Failed st₀ { st with
      reg := (c.perform st.reg).2
      lost := if c.takesHold st.reg then c :: st.lost else st.lost } txn) :
    DeployAlways st₀ Q (orFail (Orch.call c)) st txn := by
  intro fate a st' hc
  cases fate with
  | done =>
    cases hc
    exact hd
  | refused e =>
    cases hc
    exact hr
  | lost e =>
    cases hc
    exact hl
  | _ => cases hc

/-- A loop, by an invariant of the elements that are done and what they gave. -/
theorem deployAlways_each {as : List α}
    {I : List α → List β → Swarm → DeployTransaction → Prop} (done : List α) (given : List β)
    (hI : I done given st txn) (hf : ∀ done given, ∀ a ∈ as, ∀ st txn, I done given st txn →
      DeployAlways st₀ (fun st txn b => I (done ++ [a]) (given ++ [b]) st txn) (f a) st txn) :
    DeployAlways st₀ (fun st txn bs => I (done ++ as) (given ++ bs) st txn) (each f as) st txn := by
  induction as generalizing done given st txn with
  | nil =>
    refine deployAlways_pure ?_
    rw [append_nil, append_nil]
    exact hI
  | cons a as ih =>
    refine (hf done given a mem_cons_self st txn hI).bind fun st' txn' b hI' => ?_
    refine (ih (done ++ [a]) (given ++ [b]) hI' fun done given c hc =>
      hf done given c (mem_cons_of_mem a hc)).bind fun st₂ txn₂ bs hI₂ => ?_
    refine deployAlways_pure ?_
    rw [append_assoc, append_assoc] at hI₂
    exact hI₂

/-- What changes neither the placements nor the specs nor what was lost of them. -/
theorem Clean.frame (h : Clean st₀ st txn) (hp : st'.reg.placements = st.reg.placements)
    (hs : st'.reg.specs = st.reg.specs) (hm : ∀ g ∈ st.minted, g ∈ st'.minted)
    (hl : NoneLost st') : Clean st₀ st' txn where
  __ := h
  lost := hl
  minted g hg := hm g (h.minted g hg)
  kept := hp ▸ h.kept
  placements := hp ▸ h.placements
  held := hp ▸ h.held
  specs := hs ▸ h.specs

theorem NoneLost.note (reg : Registries) (h : NoneLost st) (hv : vital c = false) :
    NoneLost { st with
      reg := reg
      lost := if c.takesHold st.reg then c :: st.lost else st.lost } := by
  intro c' hc'
  split at hc'
  · rcases mem_cons.mp hc' with rfl | hc'
    · exact hv
    · exact h c' hc'
  · exact h c' hc'

theorem deployAlways_read (hr : (c.perform st.reg).2 = st.reg) (hv : vital c = false)
    (h : Clean st₀ st txn) :
    DeployAlways st₀ (fun st' txn' _ => st' = st ∧ txn' = txn) (orFail (Orch.call c)) st txn := by
  refine deployAlways_call ⟨?_, rfl⟩ (.inl h) (.inl ?_)
  · rw [hr]
  · rw [hr]
    exact h.frame rfl rfl (fun _ hg => hg) (h.lost.note _ hv)

theorem LooksUp.always {p : Deploying α} (hp : LooksUp p) (h : Clean st₀ st txn) :
    DeployAlways st₀ (fun st' txn' _ => st' = st ∧ txn' = txn) p st txn := by
  induction hp with
  | pure a => exact deployAlways_pure ⟨rfl, rfl⟩
  | fail e => exact deployAlways_fail (.inl h)
  | bind _ _ ihp ihf =>
    refine ihp.bind fun st' txn' a hs => ?_
    obtain ⟨rfl, rfl⟩ := hs
    exact ihf a
  | _ => exact deployAlways_read rfl rfl h

/-! ### Generations -/

theorem NewGen.mono (h : NewGen st₀ st genId) (hm : ∀ g ∈ st.minted, g ∈ st'.minted) :
    NewGen st₀ st' genId := ⟨hm genId h.1, h.2⟩

/-- The generations that were minted for a batch are new. -/
structure Minting (st₀ : Swarm) (gens : List (Sri × Gen)) (done : List CellDeployment) (st : Swarm)
    (txn : DeployTransaction) : Prop where
  clean : Clean st₀ st txn
  fresh : txn = .new
  cells : gens.map Prod.fst = done.map CellDeployment.sri
  gens : ∀ g ∈ gens, NewGen st₀ st g.2

theorem mint_always (h : Minting st₀ gens done st txn) :
    DeployAlways st₀ (fun st txn g => Minting st₀ (gens ++ [g]) (done ++ [cell]) st txn) (do
        let genId ← lift Orch.mint
        return (cell.sri, genId)) st txn := by
  intro fate genId st' hmi
  obtain ⟨-, hne, rfl⟩ := Swarm.mint_eq_some hmi
  have hgr : ∀ g ∈ st.minted, g ∈ genId :: st.minted := fun g hg => mem_cons_of_mem genId hg
  refine ⟨h.clean.frame rfl rfl hgr h.clean.lost, h.fresh, ?_,
    forall_mem_append.mpr ⟨fun g hg => (h.gens g hg).mono hgr, forall_mem_singleton.mpr ?_⟩⟩
  · rw [map_append, map_append, h.cells]
    rfl
  · exact ⟨mem_cons_self, fun hold => hne (h.clean.minted _ hold)⟩

theorem mintAll_always (h : Clean st₀ st .new) :
    DeployAlways st₀ (fun st txn gens => Minting st₀ gens cells st txn) (mintAll cells) st .new :=
  deployAlways_each (I := fun done gens st txn => Minting st₀ gens done st txn) [] []
    ⟨h, rfl, rfl, nofun⟩ fun _ _ _ _ _ _ hI => mint_always hI

/-! ### Claims -/

/-- A placement is written in place of one that is on record. -/
theorem Clean.put (h : Clean st₀ st txn) (hen : (entry.sri, entry.genId) ∈ txn.claimed)
    (hpl : st'.reg.placements = put placementKey entry st.reg.placements)
    (hsp : st'.reg.specs = st.reg.specs) (hmi : st'.minted = st.minted)
    (hlo : NoneLost st') : Clean st₀ st' txn where
  __ := h
  lost := hlo
  minted g hg := hmi ▸ h.minted g hg
  kept e he := by
    rw [hpl, mem_put]
    refine .inl ⟨h.kept e he, fun hke => h.free _ hen e he ?_⟩
    exact (Prod.mk.inj hke).1
  placements e he := by
    rw [hpl, mem_put] at he
    rcases he with ⟨he, -⟩ | rfl
    · exact h.placements e he
    · exact .inr hen
  held claim hcl := by
    obtain ⟨e, he, hsr⟩ := h.held claim hcl
    rw [hpl]
    by_cases hke : placementKey e = placementKey entry
    · exact ⟨entry, mem_put.mpr (.inr rfl), (Prod.mk.inj hke).1.symm.trans hsr⟩
    · exact ⟨e, mem_put.mpr (.inl ⟨he, hke⟩), hsr⟩
  specs := hsp ▸ h.specs

theorem Clean.claim (h : Clean st₀ st txn) (hfr : ∀ e ∈ st.reg.placements, e.sri ≠ entry.sri)
    (hpl : st'.reg.placements = KeyedTables.put placementKey entry st.reg.placements)
    (hsp : st'.reg.specs = st.reg.specs) (hmi : st'.minted = st.minted)
    (hlo : st'.lost = st.lost) :
    Clean st₀ st' { txn with claimed := txn.claimed ++ [(entry.sri, entry.genId)] } where
  lost := by
    unfold NoneLost
    rw [hlo]
    exact h.lost
  minted g hg := hmi ▸ h.minted g hg
  kept e he := by
    rw [hpl, mem_put]
    refine .inl ⟨h.kept e he, fun hke => hfr e (h.kept e he) ?_⟩
    exact (Prod.mk.inj hke).1
  placements e he := by
    rw [hpl, mem_put] at he
    rcases he with ⟨he, -⟩ | rfl
    · exact (h.placements e he).imp_right (mem_append_left _)
    · exact .inr (mem_append_right _ (mem_singleton_self _))
  held := by
    rw [hpl]
    refine forall_mem_append.mpr ⟨fun claim hcl => ?_, forall_mem_singleton.mpr ?_⟩
    · obtain ⟨e, he, hsr⟩ := h.held claim hcl
      refine ⟨e, mem_put.mpr (.inl ⟨he, fun hke => hfr e he ?_⟩), hsr⟩
      exact (Prod.mk.inj hke).1
    · exact ⟨entry, mem_put.mpr (.inr rfl), rfl⟩
  free := forall_mem_append.mpr ⟨h.free, forall_mem_singleton.mpr fun e he => hfr e (h.kept e he)⟩
  once := by
    rw [map_append]
    refine nodup_append.mpr ⟨h.once, by simp, fun sri hsr sri' hsr' => ?_⟩
    obtain ⟨claim, hcl, rfl⟩ := mem_map.mp hsr
    obtain ⟨e, he, hes⟩ := h.held claim hcl
    rw [mem_singleton.mp hsr']
    exact fun heq => hfr e he (hes.trans heq)
  specs := hsp ▸ h.specs
  wrote sri hsr := by
    rw [map_append]
    exact mem_append_left _ (h.wrote sri hsr)

/-- The cells that are done are on record under the generations minted for them. -/
structure Claims (st₀ : Swarm) (gens : List (Sri × Gen)) (done : List CellDeployment) (st : Swarm)
    (txn : DeployTransaction) : Prop where
  clean : Clean st₀ st txn
  fresh : ∀ g ∈ gens, NewGen st₀ st g.2
  claimed : txn.claimed = done.map fun c => (c.sri, genOf gens c.sri)
  wrote : txn.wroteSpecs = []

def afterClaim (txn : DeployTransaction) (entry : PlacementEntry) :
    PlacementClaimOutcome → DeployTransaction
  | .claimed => { txn with claimed := txn.claimed ++ [(entry.sri, entry.genId)] }
  | .alreadyExists => txn

theorem claim_always (h : Clean st₀ st txn) (hge : NewGen st₀ st entry.genId) :
    DeployAlways st₀ (fun st' txn' oc => st'.minted = st.minted ∧ txn' = txn ∧
        Clean st₀ st' (afterClaim txn entry oc))
      (orFail (Orch.claimPlacement entry dep)) st txn := by
  cases hfo : st.reg.getPlacement entry.sri with
  | some found =>
    have hpe := perform_claim_taken st.reg dep hfo
    have hhe : takesHold st.reg (.claimPlacement entry dep) = false := by
      simp [takesHold, hfo]
    refine deployAlways_call (c := .claimPlacement entry dep) ?_ (.inl h) (.inl ?_)
    · rw [hpe]
      exact ⟨rfl, rfl, h⟩
    · rw [hpe, hhe]
      exact h
  | none =>
    have hpe := perform_claim_free st.reg dep hfo
    have hhe : takesHold st.reg (.claimPlacement entry dep) = true := by
      simp [takesHold, hfo]
    refine deployAlways_call (c := .claimPlacement entry dep) ?_ (.inl h) (.inr ?_)
    · rw [hpe]
      exact ⟨rfl, rfl, h.claim (Registries.getPlacement_eq_none.mp hfo) rfl rfl rfl rfl⟩
    · rw [hpe, hhe, if_pos rfl]
      refine ⟨fun hn => ?_, .inl ⟨entry, mem_put.mpr (.inr rfl), hge, fun claim hc heq => ?_⟩⟩
      · cases hn _ mem_cons_self
      · obtain ⟨e, he, hs⟩ := h.held claim hc
        exact Registries.getPlacement_eq_none.mp hfo e he (hs.trans heq.symm)

theorem claimCell_always (hce : cell.sri ∈ gens.map Prod.fst) (h : Claims st₀ gens done st txn) :
    DeployAlways st₀ (fun st txn _ => Claims st₀ gens (done ++ [cell]) st txn) (claimCell gens cell) st
      txn := by
  refine (resolveApp_looksUp.always h.clean).bind fun st' txn' app hs => ?_
  obtain ⟨rfl, rfl⟩ := hs
  refine (claim_always h.clean (h.fresh _ (genOf_mem hce))).bind fun st₂ txn₂ oc hcl => ?_
  obtain ⟨hm, rfl, hc⟩ := hcl
  cases oc with
  | alreadyExists => exact deployAlways_fail (.inl hc)
  | claimed =>
    have hcla : Claims st₀ gens (done ++ [cell]) st₂
        (afterClaim txn₂ ⟨cell.sri, .placeholder, app, genOf gens cell.sri⟩ .claimed) := by
      refine ⟨hc, fun g hg => (h.fresh g hg).mono fun _ hg => hm ▸ hg, ?_, h.wrote⟩
      rw [map_append, ← h.claimed]
      rfl
    refine (deployAlways_note (Q := fun st txn _ => Claims st₀ gens (done ++ [cell]) st txn)
      hcla).bind fun _ _ _ h => deployAlways_pure h

variable {dep : List (Sri × PlacementKind)}

/-! ### Placing, committing and writing specs -/

theorem Clean.record (h : Clean st₀ st txn) : Clean st₀ st { txn with deployed := dep } :=
  { h with }

theorem deployPlaced_always
    {placed : CellDeployment × RuntimeId} {rs : List (Except CellFailure DeployedCell)}
    (hpl : placed.1 ∈ cells) (h : Claims st₀ gens done st txn) (hre : Batched cells rs) :
    DeployAlways st₀ (fun st txn res => Claims st₀ gens done st txn ∧
      Batched cells (rs ++ [res])) (deployPlaced gens placed) st txn := by
  intro fate oc st' hde
  cases Swarm.deployCell_eq_some hde
  cases oc with
  | error kind =>
    refine ⟨h, fun d hd => ?_⟩
    rcases mem_append.mp hd with hd | hd
    · exact hre d hd
    · cases mem_singleton.mp hd
  | ok kind =>
    refine ⟨⟨h.clean.record, h.fresh, h.claimed, h.wrote⟩, fun d hd => ?_⟩
    rcases mem_append.mp hd with hd | hd
    · exact hre d hd
    · cases mem_singleton.mp hd
      exact mem_map_of_mem hpl

variable (h : Claims st₀ gens cells st txn) {spec : CellDeployment} {specs : List CellDeployment}
include h

theorem deployAll_always {placed : List (CellDeployment × RuntimeId)}
    (hpl : (placed.map Prod.fst).Perm cells) :
    DeployAlways st₀ (fun st txn rs => Claims st₀ gens cells st txn ∧ Batched cells rs)
      (each (deployPlaced gens) placed) st txn := by
  refine deployAlways_each (I := fun _ rs st txn => Claims st₀ gens cells st txn ∧
    Batched cells rs) [] [] ⟨h, nofun⟩ ?_
  intro done rs p hp st txn hI
  exact deployPlaced_always (hpl.mem_iff.mp (mem_map_of_mem hp)) hI.1 hI.2

theorem placeAndDeploy_always : DeployAlways st₀ (fun st txn dep => Claims st₀ gens cells st txn ∧
      ∀ d ∈ dep, d.sri ∈ cells.map CellDeployment.sri) (placeAndDeploy cells gens) st txn := by
  refine (deployAlways_lift (Q := fun st' txn' oc => st' = st ∧ txn' = txn ∧
    ∀ placed, oc = .ok placed → (placed.map Prod.fst).Perm cells) ?_).bind
    fun st' txn' oc hpla => ?_
  · intro fate oc st' hpl
    obtain ⟨rfl, hpe⟩ := Swarm.placeCells_eq_some hpl
    exact ⟨rfl, rfl, hpe⟩
  obtain ⟨rfl, rfl, hpla⟩ := hpla
  cases oc with
  | error e => exact deployAlways_fail (.inl h.clean)
  | ok placed =>
    refine (deployAll_always h (hpla placed rfl)).bind fun st₂ txn₂ rs hde => ?_
    split
    · exact deployAlways_pure ⟨hde.1, fun d hd => hde.2 d (mem_deployedOf hd)⟩
    · exact deployAlways_fail (.inl hde.1.clean)

theorem mem_claimed (hs : sri ∈ cells.map CellDeployment.sri) :
    (sri, genOf gens sri) ∈ txn.claimed := by
  obtain ⟨_, hc, rfl⟩ := mem_map.mp hs
  rw [h.claimed]
  exact mem_map_of_mem hc

omit h in
/-- A commit writes a placement in place of the one that is on record, or none. -/
theorem Clean.commit {lost : List DbCall} (h : Clean st₀ st txn)
    (he : (entry.sri, entry.genId) ∈ txn.claimed) (hl : ∀ c ∈ lost, vital c = false) :
    Clean st₀ { st with
      reg := ((commitPlacement entry).perform st.reg).2
      lost := lost } txn := by
  rcases perform_commit st.reg with ⟨_, hp⟩ | ⟨-, hp⟩
  · rw [hp]
    exact h.frame rfl rfl (fun _ hg => hg) hl
  · rw [hp]
    exact h.put he rfl rfl rfl hl

theorem commitCell_always {apps : List (Sri × Option String)} {d : DeployedCell}
    (hd : d.sri ∈ cells.map CellDeployment.sri) :
    DeployAlways st₀ (fun st txn _ => Claims st₀ gens cells st txn) (commitCell gens apps d) st txn := by
  have he := mem_claimed h hd
  let entry : PlacementEntry :=
    ⟨d.sri, d.kind, (apps.find? fun a => a.1 = d.sri).bind Prod.snd, genOf gens d.sri⟩
  refine DeployAlways.bind (Q := fun st txn _ => Claims st₀ gens cells st txn)
    (deployAlways_call (c := .commitPlacement entry) ?_ (.inl h.clean) (.inl ?_))
    fun st' txn' oc h' => ?_
  · exact ⟨h.clean.commit he h.clean.lost, h.fresh, h.claimed, h.wrote⟩
  · exact h.clean.commit he (h.clean.lost.note (c := .commitPlacement entry) st.reg rfl)
  · cases oc <;> exact deployAlways_pure h'

omit h

/-- The specs that are still to be written are of cells on record, each of its own. -/
structure Writing (st₀ : Swarm) (gens : List (Sri × Gen)) (specs : List CellDeployment) (st : Swarm)
    (txn : DeployTransaction) : Prop where
  clean : Clean st₀ st txn
  fresh : ∀ g ∈ gens, NewGen st₀ st g.2
  cells : ∀ spec ∈ specs, spec.sri ∈ gens.map Prod.fst
  claimed : ∀ spec ∈ specs, spec.sri ∈ txn.claimed.map Prod.fst
  distinct : (specs.map CellDeployment.sri).Nodup
  unwritten : ∀ spec ∈ specs, spec.sri ∉ txn.wroteSpecs

theorem Clean.writeSpec {author : Gen} (h : Clean st₀ st txn)
    (hc : spec.sri ∈ txn.claimed.map Prod.fst) :
    Clean st₀ { st with reg := ((writeSpec spec author).perform st.reg).2 }
      { txn with wroteSpecs := txn.wroteSpecs ++ [spec.sri] } where
  __ := h
  specs s hs := by
    rcases mem_put.mp hs with ⟨hs, -⟩ | rfl
    · exact (h.specs s hs).imp_right (mem_append_left _)
    · exact .inr (mem_append_right _ (mem_singleton_self _))
  wrote := forall_mem_append.mpr ⟨h.wrote, forall_mem_singleton.mpr hc⟩

theorem writeSpecOf_always (h : Writing st₀ gens (spec :: specs) st txn) :
    DeployAlways st₀ (fun st txn _ => Writing st₀ gens specs st txn) (writeSpecOf gens spec) st txn := by
  have hc := h.claimed spec mem_cons_self
  have hg := h.fresh _ (genOf_mem (h.cells spec mem_cons_self))
  have hd := nodup_cons.mp h.distinct
  refine DeployAlways.bind (Q := fun st' txn' _ => st' = { st with
      reg := ((writeSpec spec (genOf gens spec.sri)).perform st.reg).2 } ∧ txn' = txn)
    (deployAlways_call (c := .writeSpec spec (genOf gens spec.sri)) ⟨rfl, rfl⟩ (.inl h.clean)
      (.inr ⟨fun hn => ?_, .inr ⟨⟨spec, genOf gens spec.sri⟩, mem_put.mpr (.inr rfl), hg, ?_⟩⟩))
    fun st' txn' _ hsa => ?_
  · cases hn _ mem_cons_self
  · exact h.unwritten spec mem_cons_self
  · obtain ⟨rfl, rfl⟩ := hsa
    refine deployAlways_note ⟨h.clean.writeSpec hc, h.fresh, fun s hs => ?_, fun s hs => ?_,
      hd.2, fun s hs hw => ?_⟩
    · exact h.cells s (mem_cons_of_mem spec hs)
    · exact h.claimed s (mem_cons_of_mem spec hs)
    · rcases mem_append.mp hw with hw | hw
      · exact h.unwritten s (mem_cons_of_mem spec hs) hw
      · exact hd.1 (mem_singleton.mp hw ▸ mem_map_of_mem hs)

theorem writeSpecs_always (h : Writing st₀ gens specs st txn) :
    DeployAlways st₀ (fun _ _ _ => True) (each (writeSpecOf gens) specs) st txn := by
  induction specs generalizing st txn with
  | nil => exact deployAlways_pure trivial
  | cons spec specs ih =>
    refine (writeSpecOf_always h).bind fun st' txn' _ h' => ?_
    exact (ih h').bind fun _ _ _ _ => deployAlways_pure trivial

theorem clean_new (h : Settled st₀) : Clean st₀ st₀ .new where
  lost c hc := by
    rw [h.lost] at hc
    exact (not_mem_nil hc).elim
  minted _ hg := hg
  kept _ he := he
  placements _ he := .inl he
  held _ hcl := (not_mem_nil hcl).elim
  free _ hcl := (not_mem_nil hcl).elim
  once := nodup_nil
  specs _ hs := .inl hs
  wrote _ hsr := (not_mem_nil hsr).elim

/-- Once a batch has committed, its specs are to be written. -/
theorem Claims.writing
    (h : Claims st₀ gens cells st txn) (hc : ∀ c ∈ cells, c.sri ∈ gens.map Prod.fst) :
    Writing st₀ gens (cells.filter CellDeployment.isRestartable) st txn := by
  have hf : txn.claimed.map Prod.fst = cells.map CellDeployment.sri := by
    rw [h.claimed, map_map]
    rfl
  refine ⟨h.clean, h.fresh, fun spec hs => hc spec (mem_filter.mp hs).1,
    fun spec hs => ?_, ?_, fun spec _ hw => ?_⟩
  · rw [hf]
    exact mem_map_of_mem (mem_filter.mp hs).1
  · exact (hf ▸ h.clean.once).sublist (filter_sublist.map _)
  · rw [h.wrote] at hw
    exact not_mem_nil hw

/-- **How deploys fail**: with all that was written on record, or with something on no record. -/
theorem executeDeploy_always (h : Settled st₀) :
    DeployAlways st₀ (fun _ _ _ => True) (executeDeploy cells) st₀ .new := by
  have hne := clean_new h
  unfold executeDeploy
  split
  · exact deployAlways_fail (.inl hne)
  refine (rejectDuplicateAppNames_looksUp.always hne).bind fun st₁ txn₁ _ hsa => ?_
  obtain ⟨rfl, rfl⟩ := hsa
  refine (mintAll_always hne).bind fun st₂ txn₂ gens hmi => ?_
  have hce : ∀ c ∈ cells, c.sri ∈ gens.map Prod.fst := fun c hc => hmi.cells ▸ mem_map_of_mem hc
  have hcla : Claims st₁ gens [] st₂ txn₂ := by
    refine ⟨hmi.clean, hmi.gens, ?_, ?_⟩
    · rw [hmi.fresh]
      rfl
    · rw [hmi.fresh]
      rfl
  refine (deployAlways_each (I := fun done _ st txn => Claims st₁ gens done st txn) [] [] hcla
    fun done _ cell hcel st txn hI => claimCell_always (hce cell hcel) hI).bind
    fun st₃ txn₃ apps hcl => ?_
  refine (placeAndDeploy_always hcl).bind fun st₄ txn₄ dep hde => ?_
  refine (deployAlways_each (I := fun _ _ st txn => Claims st₁ gens cells st txn) [] [] hde.1
    fun _ _ d hd st txn hI => commitCell_always hI (hde.2 d hd)).bind
    fun st₅ txn₅ superseded hco => ?_
  split
  · exact (writeSpecs_always (hco.writing hce)).bind fun _ _ _ _ => deployAlways_pure trivial
  · exact deployAlways_fail (.inl hco.clean)

end Parts

/-! ## Rollback -/

section Rollback
variable {st₀ st st' : Swarm} {txn : DeployTransaction} {st₁ : Swarm} {claim : Sri × Gen}
  {done : List (Sri × Gen)}

/-- The placements, the specs and the generations are the same. -/
structure SameRows (st st' : Swarm) : Prop where
  placements : st'.reg.placements = st.reg.placements
  specs : st'.reg.specs = st.reg.specs
  minted : st'.minted = st.minted

theorem SameRows.refl : SameRows st st := ⟨rfl, rfl, rfl⟩

theorem sameRows_releases {fate : Fate} {req : Request} {a : req.Ans}
    (hr : Releases sri false req) (h : answerDone st fate req = some (a, st')) :
    possible req a ∧ SameRows st st' := by
  unfold Releases at hr
  split at hr
  case h_5 => cases hr.2
  case h_6 => exact hr.elim
  all_goals
    cases h
    exact ⟨trivial, rfl, rfl, rfl⟩

theorem releaseIf_always {placed : Bool} :
    (releaseIf placed sri).Always answerDone (fun st' _ => SameRows st st') st := by
  unfold releaseIf
  split
  · have hm : (releaseCellResources sri false).Meets possible
        (fun _ req => Releases sri false req) _ [] :=
      releaseCellResources_meets fun _ _ _ h => h
    refine hm.always SameRows.refl fun hr hs ha => ?_
    obtain ⟨hp, hs'⟩ := sameRows_releases hr ha
    exact ⟨hp, hs'.placements.trans hs.placements, hs'.specs.trans hs.specs,
      hs'.minted.trans hs.minted⟩
  · exact SameRows.refl

theorem removeInstance_always :
    (removeInstance sri genId).Always answerDone (fun st' _ => SameRows st st') st := by
  intro fate found st' ha
  cases ha
  change (removeUnplaced sri genId _).Always answerDone _ _
  unfold removeUnplaced
  split
  · exact SameRows.refl
  · intro fate oc st' ha
    cases ha
    exact ⟨rfl, rfl, rfl⟩

/-- What the rollback of a claim does: nothing, if another generation has the cell, or it takes the
placement, and the spec if the deploy has written it. -/
structure RolledBack (txn : DeployTransaction) (claim : Sri × Gen) (st st' : Swarm) : Prop where
  minted : st'.minted = st.minted
  rows : (∃ e, st.reg.getPlacement claim.1 = some e ∧ e.genId ≠ claim.2 ∧ SameRows st st') ∨
    st'.reg.placements = erase DbCall.placementKey claim st.reg.placements ∧
      st'.reg.specs = if claim.1 ∈ txn.wroteSpecs
        then erase (fun s => s.deployment.sri) claim.1 st.reg.specs else st.reg.specs

theorem eraseSpecIf_always {erased : Bool} :
    (eraseSpecIf erased sri).Always answerDone (fun st' _ => st'.minted = st.minted ∧
      st'.reg.placements = st.reg.placements ∧ st'.reg.specs = if erased
        then erase (fun s => s.deployment.sri) sri st.reg.specs else st.reg.specs) st := by
  cases erased with
  | false => exact ⟨rfl, rfl, rfl⟩
  | true =>
    intro fate found st' ha
    cases ha
    exact ⟨rfl, rfl, rfl⟩

theorem rollbackLife_always {row : Option PlacementEntry} :
    (rollbackLife txn claim.1 claim.2 row).Always answerDone (fun st' _ =>
      RolledBack txn claim st st') st := by
  refine releaseIf_always.bind fun st₁ _ hr => ?_
  refine eraseSpecIf_always.bind fun st₂ _ he => ?_
  intro fate oc st₃ ha
  cases ha
  refine removeInstance_always.bind fun st₄ _ hre => ?_
  obtain ⟨hm, hp, hs⟩ := he
  refine ⟨hre.minted.trans (hm.trans hr.minted), .inr ⟨?_, ?_⟩⟩
  · rw [hre.placements]
    change erase placementKey claim st₂.reg.placements = _
    rw [hp, hr.placements]
  · rw [hre.specs]
    change st₂.reg.specs = _
    rw [hs, hr.specs]
    simp only [decide_eq_true_eq]

theorem rollbackClaim_always :
    (rollbackClaim txn claim).Always answerDone (fun st' _ => RolledBack txn claim st st') st := by
  intro fate found st' ha
  cases ha
  change (rollbackUnlessHeld txn claim (st.reg.getPlacement claim.1)).Always answerDone _ st
  unfold rollbackUnlessHeld
  split
  · next hh =>
    obtain ⟨e, hf, hne⟩ := (Option.any_eq_true _ _).mp hh
    exact ⟨rfl, .inl ⟨e, hf, of_decide_eq_true hne, SameRows.refl⟩⟩
  · exact rollbackLife_always

/-- What is on record is undone, claim by claim. -/
structure Undone (st₀ : Swarm) (txn : DeployTransaction) (done : List (Sri × Gen)) (st : Swarm) :
    Prop where
  placements : ∀ e ∈ st.reg.placements, e ∈ st₀.reg.placements ∨
    (e.sri, e.genId) ∈ txn.claimed ∧ (e.sri, e.genId) ∉ done
  specs : ∀ s ∈ st.reg.specs, s ∈ st₀.reg.specs ∨
    s.deployment.sri ∈ txn.wroteSpecs ∧ s.deployment.sri ∉ done.map Prod.fst

theorem Undone.held {e : PlacementEntry}
    (hcl : Clean st₀ st₁ txn) (h : Undone st₀ txn done st) (hc : claim ∈ txn.claimed)
    (hf : st.reg.getPlacement claim.1 = some e) : e.genId = claim.2 := by
  obtain ⟨hl, hs⟩ := mem_of_lookup hf
  rcases h.placements e (mem_latest.mp hl).1 with hold | ⟨hcla, -⟩
  · exact absurd hs (hcl.free claim hc e hold)
  · have heq := inj_on_of_nodup_map hcl.once hcla hc hs
    rw [← heq]

theorem Undone.step
    (hcle : Clean st₀ st₁ txn) (hcla : claim ∈ txn.claimed) (h : Undone st₀ txn done st)
    (hro : RolledBack txn claim st st') : Undone st₀ txn (done ++ [claim]) st' := by
  rcases hro.rows with ⟨e, hfo, hne, -⟩ | ⟨hpl, hsp⟩
  · exact absurd (h.held hcle hcla hfo) hne
  · refine ⟨fun e he => ?_, fun s hs => ?_⟩
    · rw [hpl, mem_erase] at he
      refine (h.placements e he.1).imp_right fun hcl => ⟨hcl.1, fun hdo => ?_⟩
      rcases mem_append.mp hdo with hdo | hdo
      · exact hcl.2 hdo
      · exact he.2 (mem_singleton.mp hdo)
    · rw [hsp] at hs
      rw [map_append]
      split at hs
      · obtain ⟨hs, hne⟩ := mem_erase.mp hs
        refine (h.specs s hs).imp_right fun hwr => ⟨hwr.1, fun hdo => ?_⟩
        rcases mem_append.mp hdo with hdo | hdo
        · exact hwr.2 hdo
        · exact hne (mem_singleton.mp hdo)
      · next hun =>
        refine (h.specs s hs).imp_right fun hwr => ⟨hwr.1, fun hdo => ?_⟩
        rcases mem_append.mp hdo with hdo | hdo
        · exact hwr.2 hdo
        · rw [mem_singleton.mp hdo] at hwr
          exact hun hwr.1

/-- A row that is on no record and of a generation that was given out since. -/
def LeftBehind (st₀ : Swarm) (txn : DeployTransaction) (st : Swarm) : Prop :=
  (∃ e ∈ st.reg.placements, NewGen st₀ st e.genId ∧ ∀ claim ∈ txn.claimed, e.sri ≠ claim.1) ∨
    ∃ s ∈ st.reg.specs, NewGen st₀ st s.author ∧ s.deployment.sri ∉ txn.wroteSpecs

theorem LeftBehind.step (hcl : claim ∈ txn.claimed)
    (h : LeftBehind st₀ txn st) (hr : RolledBack txn claim st st') : LeftBehind st₀ txn st' := by
  have hn : ∀ {genId}, NewGen st₀ st genId → NewGen st₀ st' genId :=
    fun h => h.mono fun _ hg => hr.minted ▸ hg
  rcases hr.rows with ⟨-, -, -, hsa⟩ | ⟨hp, hsp⟩
  · unfold LeftBehind
    rw [hsa.placements, hsa.specs]
    rcases h with ⟨e, he, hge, hc⟩ | ⟨s, hs, hge, hw⟩
    · exact .inl ⟨e, he, hn hge, hc⟩
    · exact .inr ⟨s, hs, hn hge, hw⟩
  · unfold LeftBehind
    rw [hp, hsp]
    rcases h with ⟨e, he, hge, hc⟩ | ⟨s, hs, hge, hw⟩
    · refine .inl ⟨e, mem_erase.mpr ⟨he, fun hk => ?_⟩, hn hge, hc⟩
      exact hc claim hcl (congrArg Prod.fst hk)
    · refine .inr ⟨s, ?_, hn hge, hw⟩
      split
      · next hwr =>
        exact mem_erase.mpr ⟨hs, fun hk => hw (hk ▸ hwr)⟩
      · exact hs

/-- The rollback of a deploy, by what the rollback of each claim keeps. -/
theorem rollback_always {I : List (Sri × Gen) → Swarm → Prop} (hI : I [] st)
    (hs : ∀ done, ∀ claim ∈ txn.claimed, ∀ st st', I done st → RolledBack txn claim st st' →
      I (done ++ [claim]) st') :
    (rollback txn).Always answerDone (fun st' _ => I txn.claimed st') st := by
  refine (Process.always_each (I := fun _ st => I [] st) [] hI fun _ dep _ st hI => ?_).bind
    fun st₁ _ hI₁ => ?_
  · unfold rollbackDeployed teardownCellOnExec
    split
    · intro fate a st' ha
      have hst' : st' = st := Swarm.message_eq_some ha
      rw [hst']
      exact hI
    · exact hI
  · exact Process.always_each (I := I) [] hI₁ fun done claim hc st hI =>
      rollbackClaim_always.mono fun st' _ hr => hs done claim hc st st' hI hr

/-- **A failed deploy leaves nothing behind exactly if no claim and no spec has lost its answer.** -/
theorem nothing_left_iff_none_lost {cells : List CellDeployment} {fates fates' : List Fate}
    {st₁ st₂ : Swarm} {e : DeploymentError} (h : Settled st₀)
    (hdeploy : (executeDeploy cells .new).run Swarm.answer st₀ fates = some (st₁, .error e, txn))
    (hrollback : (rollback txn).run answerDone st₁ fates' = some (st₂, ())) :
    LeavesNothing st₀ st₂ ↔ NoneLost st₁ := by
  have hfa : Failed st₀ st₁ txn := (executeDeploy_always h).of_run hdeploy
  rcases hfa with hcl | hst
  · refine iff_of_true ?_ hcl.lost
    have hun : Undone st₀ txn txn.claimed st₂ := by
      refine (rollback_always (I := Undone st₀ txn) ⟨fun e he => ?_, fun s hs => ?_⟩
        fun done claim hcla st st' hI hro => hI.step hcl hcla hro).of_run hrollback
      · exact (hcl.placements e he).imp_right fun hclai => ⟨hclai, not_mem_nil⟩
      · exact (hcl.specs s hs).imp_right fun hwr => ⟨hwr, not_mem_nil⟩
    refine ⟨fun e he _ => ?_, fun s hs _ => ?_⟩
    · rcases hun.placements e he with hold | ⟨hclai, hdo⟩
      · exact h.placements e hold
      · exact absurd hclai hdo
    · rcases hun.specs s hs with hold | ⟨hwr, hdo⟩
      · exact h.specs s hold
      · exact absurd (hcl.wrote _ hwr) hdo
  · refine iff_of_false (fun hle => ?_) hst.lost
    have hlef : LeftBehind st₀ txn st₂ :=
      (rollback_always (I := fun _ st => LeftBehind st₀ txn st) hst.row
        fun _ claim hcla st st' hI hro => hI.step hcla hro).of_run hrollback
    rcases hlef with ⟨e, he, hge, -⟩ | ⟨s, hs, hge, -⟩
    · exact hge.2 (hle.1 e he hge.1)
    · exact hge.2 (hle.2 s hs hge.1)

end Rollback

instance instDecidableLeavesNothing (st₀ st : Swarm) : Decidable (LeavesNothing st₀ st) :=
  inferInstanceAs (Decidable ((∀ e ∈ st.reg.placements, e.genId ∈ st.minted → e.genId ∈ st₀.minted) ∧
    ∀ s ∈ st.reg.specs, s.author ∈ st.minted → s.author ∈ st₀.minted))

namespace Sample

def idleSwarm : Swarm := ⟨⟨[], [], [], [], [], [], [], []⟩, [], [], []⟩

theorem settled_idleSwarm : Settled idleSwarm := ⟨nofun, nofun, rfl⟩

end Sample
open Orchestration.Sample

/-- **A claim whose answer is lost is left behind**: the placeholder blocks the cell, and no rollback
knows of it. -/
theorem lost_claim_left_behind : ∃ fates fates' st₁ st₂ e txn, Settled idleSwarm ∧
      (executeDeploy [rootDeployment] .new).run Swarm.answer idleSwarm fates =
        some (st₁, .error e, txn) ∧ (rollback txn).run answerDone st₁ fates' = some (st₂, ()) ∧
      ¬LeavesNothing idleSwarm st₂ := by
  obtain ⟨⟨st₁, e | _, txn⟩, hd, hf, ⟨st₂, _⟩, hr, hl⟩ :
      ∃ r ∈ (executeDeploy [rootDeployment] .new).run Swarm.answer idleSwarm
        [.clock firstLife, .lost "timeout"], r.2.1.toOption = none ∧
      ∃ r' ∈ (rollback r.2.2).run answerDone r.1 [], ¬LeavesNothing idleSwarm r'.1 := by
    decide +kernel
  · exact ⟨_, _, st₁, st₂, e, txn, settled_idleSwarm, hd, hr, hl⟩
  · cases hf

/-- Where no runtime is found, the claim is rolled back. -/
theorem unplaced_root_rolled_back : ∃ fates fates' st₁ st₂ e txn,
      (executeDeploy [rootDeployment] .new).run Swarm.answer idleSwarm fates =
        some (st₁, .error e, txn) ∧ (rollback txn).run answerDone st₁ fates' = some (st₂, ()) ∧
      LeavesNothing idleSwarm st₂ ∧ NoneLost st₁ := by
  obtain ⟨⟨st₁, e | _, txn⟩, hd, hf, ⟨st₂, _⟩, hr, hl⟩ :
      ∃ r ∈ (executeDeploy [rootDeployment] .new).run Swarm.answer idleSwarm
        [.clock firstLife, .done, .placed (.error .noRuntimesAvailable)],
        r.2.1.toOption = none ∧
      ∃ r' ∈ (rollback r.2.2).run answerDone r.1 (replicate 6 .done),
        LeavesNothing idleSwarm r'.1 := by
    decide +kernel
  · have hi := nothing_left_iff_none_lost settled_idleSwarm hd hr
    exact ⟨_, _, st₁, st₂, e, txn, hd, hr, hl, hi.mp hl⟩
  · cases hf

end Orchestration

end Myrmic
