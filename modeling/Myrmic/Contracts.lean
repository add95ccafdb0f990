import Myrmic.Orchestration

/-!
# What tasks answer for

A task knows nothing but what it has been answered.  Its contract says, for every request it sends, what
in its history justifies it, and for its outcome what must have happened.  The contracts hold of each
task by itself (`program_meets`), whatever the others do, and so in every run
(`Processes.reached_meets`).

A contract is stated by what a history contains: `seen f history` collects what `f` picks out of the
events.
-/
namespace Myrmic
open KeyedTables Processes Machine List
namespace Orchestration
open Process.Meets Deploying Process

/-! ## Histories -/

/-- What is picked out of a history. -/
def seen {β : Type} (pick : OrchEvent → List β) (history : List OrchEvent) : List β :=
  history.flatMap pick

variable {β : Type} {hist : List OrchEvent} {pick : OrchEvent → List β} {e : OrchEvent}
  {hist' : List OrchEvent} {b : β} {sri : Sri} {genId : Gen} {S : List OrchEvent → Request → Prop}
  {c : DbCall}

@[simp] theorem seen_snoc : seen pick (hist ++ [e]) = seen pick hist ++ pick e := by
  simp [seen]

theorem seen_mono (h : hist <+: hist') (hb : b ∈ seen pick hist) : b ∈ seen pick hist' := by
  obtain ⟨_, rfl⟩ := h
  simp only [seen, flatMap_append, mem_append] at hb ⊢
  exact .inl hb

theorem mem_seen_snoc (h : b ∈ pick e) : b ∈ seen pick (hist ++ [e]) := by
  rw [seen_snoc]
  exact mem_append_right _ h

theorem mem_seen : b ∈ seen pick hist ↔ ∃ e ∈ hist, b ∈ pick e := by
  simp [seen]

def specsIn : OrchEvent → List CellDeployment
  | ⟨.db .listSpecs, .ok specs⟩ => specs
  | _ => []

def deathsIn : OrchEvent → List RootDeath
  | ⟨.db .listDeaths, .ok deaths⟩ => deaths
  | _ => []

def placementsIn : OrchEvent → List PlacementEntry
  | ⟨.db .listPlacements, .ok placements⟩ => placements
  | _ => []

def instancesIn : OrchEvent → List CellInstance
  | ⟨.db .listInstances, .ok instances⟩ => instances
  | _ => []

/-- The placements that were asked for and found. -/
def foundIn : OrchEvent → List PlacementEntry
  | ⟨.db (.getPlacement _), .ok (some entry)⟩ => [entry]
  | _ => []

/-- What was answered for the instances of single cells. -/
def lookedUpIn : OrchEvent → List (Sri × Option CellInstance)
  | ⟨.db (.getInstance sri), .ok found⟩ => [(sri, found)]
  | _ => []

/-- The deaths whose recording was answered with success. -/
def recordedIn : OrchEvent → List RootDeath
  | ⟨.db (.recordDeath death), .ok _⟩ => [death]
  | _ => []

/-- The deaths whose recording was asked for. -/
def reportedIn : OrchEvent → List RootDeath
  | ⟨.db (.recordDeath death), _⟩ => [death]
  | _ => []

/-- The specs whose erasure was asked for. -/
def erasedIn : OrchEvent → List Sri
  | ⟨.db (.eraseSpec sri), _⟩ => [sri]
  | _ => []

/-- The specs whose erasure was answered with success. -/
def droppedIn : OrchEvent → List Sri
  | ⟨.db (.eraseSpec sri), .ok _⟩ => [sri]
  | _ => []

def claimedIn : OrchEvent → List (Sri × Gen)
  | ⟨.db (.claimPlacement entry _), .ok .claimed⟩ => [(entry.sri, entry.genId)]
  | _ => []

/-- The placements whose removal was answered, and how. -/
def removedIn : OrchEvent → List (Sri × Gen × FenceOutcome)
  | ⟨.db (.removePlacement sri genId), .ok outcome⟩ => [(sri, genId, outcome)]
  | _ => []

/-- The placements whose removal was asked for. -/
def releasedIn : OrchEvent → List (Sri × Gen)
  | ⟨.db (.removePlacement sri genId), _⟩ => [(sri, genId)]
  | _ => []

def mintedIn : OrchEvent → List Gen
  | ⟨.mint, genId⟩ => [genId]
  | _ => []

/-- The deploys that were asked for, and who handles them. -/
def sentIn : OrchEvent → List (List CellDeployment × Nat)
  | ⟨.sendDeploy cells, handler⟩ => [(cells, handler)]
  | _ => []

def deployedIn : OrchEvent → List Nat
  | ⟨.awaitDeploy handler, .ok _⟩ => [handler]
  | _ => []

def owedIn : OrchEvent → List CleanupAction
  | ⟨.owe _ actions, _⟩ => actions
  | _ => []

/-- The cleanups a node has taken up. -/
def takenIn : OrchEvent → List CleanupAction
  | ⟨.takeOwed _, actions⟩ => actions
  | _ => []

/-- The scheduler answers for the cells it was asked for. -/
def possible : (req : Request) → req.Ans → Prop
  | .placeCells cells, .ok placed => (placed.map Prod.fst).Perm cells
  | _, _ => True

/-- A call that fails ends the matter, and one that succeeds lets it go on. -/
theorem meets_db {α : Type} {E : List OrchEvent → α → Prop} {hist : List OrchEvent}
    {next : Except String c.Value → Orch α} (hs : S hist (.db c))
    (herr : ∀ e, (next (.error e)).Meets possible S E (hist ++ [⟨.db c, .error e⟩]))
    (hok : ∀ v, (next (.ok v)).Meets possible S E (hist ++ [⟨.db c, .ok v⟩])) :
    (send (.db c) next : Orch α).Meets possible S E hist :=
  ⟨hs, fun
    | .error e, _ => herr e
    | .ok v, _ => hok v⟩

/-! ## Restarts -/

/-- What makes a pass clear a death: the root has no spec or has come back, or it was redeployed, or
its spec was dropped. -/
def Cleared (history : List OrchEvent) (d : RootDeath) : Prop :=
  (∃ specs : List CellDeployment, (⟨.db .listSpecs, .ok specs⟩ : OrchEvent) ∈ history ∧
      ∀ spec ∈ specs, spec.sri ≠ d.sri) ∨
    (∃ e ∈ seen placementsIn history, e.sri = d.sri ∧ d.genId < e.genId) ∨
    (∃ spec handler, ([spec], handler) ∈ seen sentIn history ∧ handler ∈ seen deployedIn history ∧
      spec.sri = d.sri) ∨
    d.sri ∈ seen erasedIn history

/-- What a restart pass answers for. -/
def RestartSends (history : List OrchEvent) : Request → Prop
  | .db .listSpecs => True
  | .db .listDeaths => seen sentIn history = []
  | .db .listPlacements => True
  | .db .listInstances => True
  | .sendDeploy cells => ∃ spec ∈ seen specsIn history, cells = [spec]
  | .awaitDeploy _ => True
  | .db (.eraseSpec _) => True
  | .db (.clearDeath sri) => ∃ d ∈ seen deathsIn history, d.sri = sri ∧ Cleared history d
  | _ => False

/-- What a pass has read by the time it acts. -/
structure HasRead (specs : List CellDeployment) (deaths : List RootDeath)
    (placements : List PlacementEntry) (history : List OrchEvent) : Prop where
  listed : (⟨.db .listSpecs, .ok specs⟩ : OrchEvent) ∈ history
  specs : seen specsIn history = specs
  deaths : seen deathsIn history = deaths
  placements : seen placementsIn history = placements

section Restarts
variable {specs : List CellDeployment} {ds : List RootDeath} {pls : List PlacementEntry}
  {hist : List OrchEvent} (h : HasRead specs ds pls hist) {budget : RestartBudget}
  {sweep : RestartSweep} {now : Nat}
include h

theorem HasRead.snoc (hs : specsIn e = []) (hd : deathsIn e = []) (hp : placementsIn e = []) :
    HasRead specs ds pls (hist ++ [e]) := by
  refine ⟨mem_append_left _ h.listed, ?_, ?_, ?_⟩
  · rw [seen_snoc, hs, append_nil, h.specs]
  · rw [seen_snoc, hd, append_nil, h.deaths]
  · rw [seen_snoc, hp, append_nil, h.placements]

/-- Redeploys are from specs that were read, and a death is cleared once its root was redeployed. -/
theorem restartRoot_meets (hsr : ∃ d ∈ ds, d.sri = sri) :
    (restartRoot specs budget sri).Meets possible RestartSends
      (fun hist _ => HasRead specs ds pls hist) hist := by
  unfold restartRoot
  split
  · exact h
  · next spec hs =>
    obtain ⟨hm, rfl⟩ := mem_of_specOf hs
    refine ⟨⟨spec, h.specs ▸ hm, rfl⟩, fun handler _ => ⟨trivial, fun oc _ => ?_⟩⟩
    have hr := (h.snoc (e := ⟨.sendDeploy [spec], handler⟩) rfl rfl rfl).snoc
      (e := ⟨.awaitDeploy handler, oc⟩) rfl rfl rfl
    cases oc with
    | ok v =>
      obtain ⟨d, hd, hds⟩ := hsr
      refine ⟨⟨d, hr.deaths ▸ hd, hds, .inr (.inr (.inl ⟨spec, handler, ?_, ?_, hds.symm⟩))⟩,
        fun a _ => hr.snoc rfl rfl rfl⟩
      · simp [seen, sentIn]
      · exact mem_seen_snoc (mem_singleton_self handler)
    | error e => cases e <;> exact hr

theorem dropSpecs_meet {dropped : List Sri} : (each dropSpec dropped).Meets possible RestartSends
      (fun hist _ => HasRead specs ds pls hist ∧
        ∀ sri ∈ dropped, sri ∈ seen erasedIn hist) hist := by
  refine meets_each_done (I := fun done hist => HasRead specs ds pls hist ∧
    ∀ sri ∈ done, sri ∈ seen erasedIn hist) [] ⟨h, nofun⟩ ?_
  rintro done sri - hist ⟨hr, hd⟩
  refine ⟨trivial, fun a _ => ⟨hr.snoc rfl rfl rfl, fun sri' hs' => ?_⟩⟩
  rw [seen_snoc]
  rcases mem_append.mp hs' with hs' | hs'
  · exact mem_append_left _ (hd sri' hs')
  · exact mem_append_right _ hs'

theorem carryOutRestarts_meets {plan : RestartPlan} (hpl : plan.Justified specs pls ds) :
    (carryOutRestarts specs plan budget).Meets possible RestartSends (fun _ _ => True) hist := by
  refine (meets_fold h fun budget sri hsr hist hre =>
    restartRoot_meets hre (hpl.restart sri hsr)).bind fun hist budget hre => ?_
  refine (dropSpecs_meet hre).bind fun hist _ hre => ?_
  refine (meets_each (I := fun hist => HasRead specs ds pls hist ∧
    ∀ sri ∈ plan.dropSpecs, sri ∈ seen erasedIn hist) hre ?_).bind fun _ _ _ => trivial
  intro sri hsr hist hre
  obtain ⟨hre, her⟩ := hre
  obtain ⟨d, hd, hds, hwh⟩ := hpl.clear sri hsr
  refine ⟨⟨d, hre.deaths ▸ hd, hds, ?_⟩, fun a _ => ⟨hre.snoc rfl rfl rfl, fun sri' hsr' => ?_⟩⟩
  · rcases hwh with hsp | hpla | hdr
    · left
      rw [hds]
      exact ⟨specs, hre.listed, hsp⟩
    · right
      left
      rw [hre.placements, hds]
      exact hpla
    · right
      right
      right
      rw [hds]
      exact her sri hdr
  · rw [seen_snoc]
    exact mem_append_left _ (her sri' hsr')

omit h

theorem restartFrom_meets (h : HasRead specs ds [] hist) :
    (restartFrom budget sweep now specs ds).Meets possible RestartSends (fun _ _ => True) hist := by
  unfold restartFrom
  split
  · exact trivial
  · refine meets_db trivial (fun _ => trivial) fun pls => ?_
    refine meets_db trivial (fun _ => trivial) fun insts => ?_
    refine (carryOutRestarts_meets (HasRead.snoc ⟨mem_append_left _ h.listed, ?_, ?_, ?_⟩ rfl rfl rfl)
      planRootRestarts_justified).bind fun _ _ _ => trivial
    · rw [seen_snoc, h.specs]
      exact append_nil specs
    · rw [seen_snoc, h.deaths]
      exact append_nil ds
    · rw [seen_snoc, h.placements]
      exact nil_append pls

theorem processRootRestarts_meets :
    (processRootRestarts budget sweep now).Meets possible RestartSends (fun _ _ => True) [] := by
  refine meets_db trivial (fun _ => trivial) fun specs => ?_
  refine meets_db rfl (fun _ => trivial) fun ds => ?_
  exact restartFrom_meets ⟨mem_cons_self, append_nil specs, append_nil ds, rfl⟩

end Restarts

/-! ## Releasing -/

/-- The requests that release what a cell has declared. -/
def Releases (sri : Sri) (erased : Bool) : Request → Prop
  | .db .listGatewayRoutes => True
  | .db (.listCellAssets _) => True
  | .db (.deleteRoutes owner _) => owner = sri
  | .db (.unlinkAssets owner _) => owner = sri
  | .db (.eraseSpec s) => s = sri ∧ erased = true
  | _ => False

section Releasing
variable {S : List OrchEvent → Request → Prop} {hist : List OrchEvent} {sri : Sri}
  {erased : Bool} (h : ∀ hist', hist <+: hist' → ∀ req, Releases sri erased req → S hist' req)
include h

theorem deregisterCellRoutes_meets :
    (deregisterCellRoutes sri).Meets possible S (fun _ _ => True) hist := by
  refine meets_db (h _ prefix_rfl _ trivial) (fun _ => trivial) fun routes => ?_
  change (deleteMounts sri _).Meets possible S _ _
  unfold deleteMounts
  split
  · exact trivial
  · refine ⟨h _ (prefix_append _ _) _ rfl, fun a _ => ?_⟩
    cases a <;> exact trivial

theorem purgeCellAssets_meets : (purgeCellAssets sri).Meets possible S (fun _ _ => True) hist := by
  refine meets_db (h _ prefix_rfl _ trivial) (fun _ => trivial) fun paths => ?_
  change (unlinkPaths sri _).Meets possible S _ _
  unfold unlinkPaths
  split
  · exact trivial
  · refine ⟨h _ (prefix_append _ _) _ rfl, fun a _ => ?_⟩
    cases a <;> exact trivial

theorem eraseSpecIf_meets : (eraseSpecIf erased sri).Meets possible S (fun hist' left =>
      erased = true → sri ∈ seen erasedIn hist' ∧ (left = [] → sri ∈ seen droppedIn hist'))
      hist := by
  cases erased with
  | false => exact fun h => nomatch h
  | true =>
    refine ⟨h _ prefix_rfl _ ⟨rfl, rfl⟩, fun a _ => ?_⟩
    intro _
    rw [seen_snoc, seen_snoc]
    refine ⟨mem_append_right _ (mem_singleton_self sri), ?_⟩
    cases a with
    | error e => exact fun h => nomatch h
    | ok v => exact fun _ => mem_append_right _ (mem_singleton_self sri)

theorem releaseCellResources_meets :
    (releaseCellResources sri erased).Meets possible S (fun hist' left =>
      erased = true → sri ∈ seen erasedIn hist' ∧ (left = [] → sri ∈ seen droppedIn hist'))
      hist := by
  refine (eraseSpecIf_meets h).grows.bind fun h₁ left hsp => ?_
  have hs₁ := fun h' hp => h h' (hsp.1.trans hp)
  refine (deregisterCellRoutes_meets hs₁).grows.bind fun h₂ routes hr => ?_
  have hs₂ := fun h' hp => hs₁ h' (hr.1.trans hp)
  refine (purgeCellAssets_meets hs₂).grows.bind fun h₃ assets has => ?_
  intro he
  obtain ⟨ha, hl⟩ := hsp.2 he
  have hg := hr.1.trans has.1
  refine ⟨seen_mono hg ha, fun hn => seen_mono hg (hl ?_)⟩
  simp only [append_eq_nil_iff] at hn
  exact hn.1.1

omit h in
/-- The removal of an instance asks for the placement first. -/
theorem removeInstance_meets (hg : S hist (.db (.getPlacement sri)))
    (hr : ∀ hist', hist <+: hist' → S hist' (.db (.removeInstanceRow sri genId))) :
    (removeInstance sri genId).Meets possible S (fun _ _ => True) hist := by
  refine meets_db hg (fun _ => trivial) fun found => ?_
  change (removeUnplaced sri genId found).Meets possible S _ _
  unfold removeUnplaced
  split
  · exact trivial
  · exact ⟨hr _ (prefix_append _ _), fun _ _ => trivial⟩

end Releasing

/-! ## Undeploys -/

/-- The life that an undeploy has found. -/
def lifeFound (history : List OrchEvent) : Option Gen :=
  (seen foundIn history).head?.map PlacementEntry.genId

theorem lifeFound_mono (h : hist <+: hist')
    (hf : lifeFound hist = some genId) : lifeFound hist' = some genId := by
  obtain ⟨_, rfl⟩ := h
  obtain ⟨_, he, rfl⟩ := Option.map_eq_some_iff.mp hf
  unfold lifeFound seen at *
  rw [flatMap_append, List.head?_append, he]
  rfl

/-- What an undeploy answers for: it acts on the life it has found, and the placement goes after the
spec. -/
def UndeploySends (sri : Sri) (history : List OrchEvent) : Request → Prop
  | .db (.getPlacement s) => s = sri
  | .undeployWasmCell .. => True
  | .db .listGatewayRoutes => True
  | .db (.listCellAssets _) => True
  | .db (.eraseSpec s) => s = sri ∧ (lifeFound history).isSome
  | .db (.deleteRoutes s _) => s = sri ∧ (lifeFound history).isSome
  | .db (.unlinkAssets s _) => s = sri ∧ (lifeFound history).isSome
  | .db (.removePlacement s genId) =>
    s = sri ∧ lifeFound history = some genId ∧ sri ∈ seen erasedIn history
  | .db (.removeInstanceRow s genId) => s = sri ∧ lifeFound history = some genId
  | _ => False

/-- What has happened when an undeploy returns with success. -/
def UndeployEnds (sri : Sri) (history : List OrchEvent) : Except String Unit → Prop
  | .error _ => True
  | .ok _ => sri ∈ seen droppedIn history ∧
    ∃ genId outcome, (sri, genId, outcome) ∈ seen removedIn history ∧
      (outcome = .applied ∨ outcome = .absent)

section Undeploys
variable {sri : Sri} {hist : List OrchEvent}

theorem undeployOutcome_ok {leftovers : List String} {oc : FenceOutcome}
    (h : undeployOutcome sri leftovers oc = .ok ()) :
    leftovers = [] ∧ (oc = .applied ∨ oc = .absent) := by
  cases oc with
  | superseded cur => cases h
  | _ =>
    simp only [undeployOutcome] at h
    split at h
    · next hn => exact ⟨hn, by simp⟩
    · cases h

theorem teardown_meets {kind : PlacementKind}
    (h : ∀ runtime, S hist (.undeployWasmCell sri genId runtime)) :
    (teardownCellOnExec sri genId kind).Meets possible S (fun _ _ => True) hist := by
  cases kind with
  | wasm runtime => exact ⟨h runtime, fun _ _ => trivial⟩
  | _ => exact trivial

theorem undeployLife_meets {entry : PlacementEntry} (h : lifeFound hist = some entry.genId) :
    (undeployLife sri entry).Meets possible (UndeploySends sri) (UndeployEnds sri) hist := by
  refine (teardown_meets fun _ => trivial).grows.bind fun h₁ _ hte => ?_
  have hrel : ∀ hist', h₁ <+: hist' → ∀ req, Releases sri true req →
      UndeploySends sri hist' req := by
    intro hist' hgr req hreq
    have hfo : (lifeFound hist').isSome :=
      Option.isSome_of_eq_some (lifeFound_mono (hte.1.trans hgr) h)
    unfold Releases at hreq
    split at hreq
    · exact trivial
    · exact trivial
    · exact ⟨hreq, hfo⟩
    · exact ⟨hreq, hfo⟩
    · exact ⟨hreq.1, hfo⟩
    · exact hreq.elim
  refine (releaseCellResources_meets hrel).grows.bind fun h₂ leftovers hre => ?_
  obtain ⟨her, hdr⟩ := hre.2 rfl
  have hfo₂ := lifeFound_mono (hte.1.trans hre.1) h
  refine meets_db ⟨rfl, hfo₂, her⟩ (fun _ => trivial) fun oc => ?_
  refine (removeInstance_meets (S := UndeploySends sri) rfl fun hist' hgr =>
    ⟨rfl, lifeFound_mono ((prefix_append _ _).trans hgr) hfo₂⟩).grows.bind
    fun h₃ removed hrem => ?_
  cases hout : undeployOutcome sri (leftovers ++ leftover "instance row" removed) oc with
  | error e => exact trivial
  | ok _ =>
    obtain ⟨hni, hou⟩ := undeployOutcome_ok hout
    have hgr := (prefix_append h₂ _).trans hrem.1
    refine ⟨seen_mono hgr (hdr (append_eq_nil_iff.mp hni).1), entry.genId, oc,
      seen_mono hrem.1 ?_, hou⟩
    exact mem_seen_snoc (mem_singleton_self _)

theorem undeployCell_meets :
    (undeployCell sri).Meets possible (UndeploySends sri) (UndeployEnds sri) [] := by
  refine meets_db rfl (fun _ => trivial) fun found => ?_
  cases (found : Option PlacementEntry) with
  | none => exact trivial
  | some entry => exact undeployLife_meets rfl

end Undeploys

/-! ## Deploys -/

/-- What a deploy answers for: it claims cells of its batch, one generation for each, and undoes nothing
but claims it has won. -/
def DeploySends (cells : List CellDeployment) (history : List OrchEvent) : Request → Prop
  | .mint => True
  | .placeCells _ => True
  | .deployCell .. => True
  | .undeployWasmCell .. => True
  | .db .listPlacements => True
  | .db (.getSpec _) => True
  | .db (.getPlacement _) => True
  | .db .listGatewayRoutes => True
  | .db (.listCellAssets _) => True
  | .db (.claimPlacement entry deployment) =>
    deployment ∈ cells ∧ entry.sri = deployment.sri ∧ entry.genId ∈ seen mintedIn history ∧
      ∀ genId, (entry.sri, genId) ∈ seen claimedIn history → genId = entry.genId
  | .db (.commitPlacement entry) => entry.sri ∈ cells.map CellDeployment.sri
  | .db (.writeSpec deployment author) =>
    deployment ∈ cells ∧ (deployment.sri, author) ∈ seen claimedIn history
  | .db (.eraseSpec s) => ∃ genId, (s, genId) ∈ seen claimedIn history
  | .db (.deleteRoutes s _) => ∃ genId, (s, genId) ∈ seen claimedIn history
  | .db (.unlinkAssets s _) => ∃ genId, (s, genId) ∈ seen claimedIn history
  | .db (.removePlacement s genId) => (s, genId) ∈ seen claimedIn history
  | .db (.removeInstanceRow s genId) => (s, genId) ∈ seen claimedIn history
  | _ => False

/-- What has happened when a deploy succeeds. -/
def DeployEnds {α : Type} (cells : List CellDeployment) (history : List OrchEvent) :
    Except DeploymentError α → Prop
  | .error _ => True
  | .ok _ => ∀ cell ∈ cells, ∃ genId ∈ seen mintedIn history,
    (cell.sri, genId) ∈ seen claimedIn history

/-! ### Looking things up -/

/-- Parts of a deploy that only look things up. -/
inductive LooksUp : {α : Type} → Deploying α → Prop
  | pure {α : Type} (a : α) : LooksUp (pure a)
  | fail {α : Type} (e : DeploymentError) : LooksUp (α := α) (fail e)
  | spec (sri : Sri) : LooksUp (orFail (Orch.getSpec sri))
  | placement (sri : Sri) : LooksUp (orFail (Orch.getPlacement sri))
  | placements : LooksUp (orFail Orch.listPlacements)
  | bind {α β : Type} {p : Deploying α} {f : α → Deploying β} (hp : LooksUp p)
    (hf : ∀ a, LooksUp (f a)) : LooksUp (p >>= f)

theorem allHaveSpecs_looksUp (roots : List CellDeployment) : LooksUp (allHaveSpecs roots) := by
  induction roots with
  | nil => exact .pure true
  | cons root roots ih =>
    refine .bind (.spec root.sri) fun found => ?_
    cases found with
    | none => exact .pure false
    | some spec => exact ih

theorem rejectNames_looksUp {roots : List CellDeployment} {existing : List PlacementEntry}
    {names : List String} : LooksUp (rejectNames roots existing names) := by
  induction names with
  | nil => exact .pure ()
  | cons name names ih =>
    unfold rejectNames
    split
    · refine .bind (allHaveSpecs_looksUp _) fun all => ?_
      cases all with
      | true => exact ih
      | false => exact .fail _
    · exact ih

theorem rejectDuplicateAppNames_looksUp {cells : List CellDeployment} :
    LooksUp (rejectDuplicateAppNames cells) := by
  unfold rejectDuplicateAppNames
  dsimp only
  split
  · exact .pure ()
  · exact .bind .placements fun existing => rejectNames_looksUp

theorem resolveApp_looksUp {cell : CellDeployment} : LooksUp (resolveApp cell) := by
  unfold resolveApp
  split
  · exact .pure _
  · split
    · exact .pure none
    · exact .bind (.placement _) fun _ => .pure _

section Deploys
variable {α β : Type} {cells : List CellDeployment} {hist : List OrchEvent}
  {txn : DeployTransaction} {Q : List OrchEvent → α → Prop} {R : List OrchEvent → β → Prop}
  {p : Deploying α} {f : α → Deploying β}

/-- What a deploy has recorded has happened. -/
def TxnTrue (history : List OrchEvent) (txn : DeployTransaction) : Prop :=
  ∀ claim ∈ txn.claimed, claim ∈ seen claimedIn history

theorem TxnTrue.mono (h : TxnTrue hist txn) (hg : hist <+: hist') : TxnTrue hist' txn :=
  fun claim hc => seen_mono hg (h claim hc)

/-- The part of a deploy keeps to the contract and to its record, and what it gives satisfies `Q`. -/
def DeployMeets (cells : List CellDeployment) (Q : List OrchEvent → α → Prop)
    (p : Deploying α) (history : List OrchEvent) (txn : DeployTransaction) : Prop :=
  (p txn).Meets possible (DeploySends cells)
    (fun history r => TxnTrue history r.2 ∧ ∀ a, r.1 = .ok a → Q history a) history

theorem DeployMeets.bind (hp : DeployMeets cells Q p hist txn)
    (hf : ∀ hist' txn a, hist <+: hist' → TxnTrue hist' txn → Q hist' a →
      DeployMeets cells R (f a) hist' txn) : DeployMeets cells R (p >>= f) hist txn := by
  refine Process.Meets.bind (Process.Meets.grows hp) fun hist' r hr => ?_
  obtain ⟨hg, ht, hpo⟩ := hr
  obtain ⟨res, txn'⟩ := r
  cases res with
  | error e => exact ⟨ht, nofun⟩
  | ok a => exact hf hist' txn' a hg ht (hpo a rfl)

theorem DeployMeets.mono {R : List OrchEvent → α → Prop} (hp : DeployMeets cells Q p hist txn)
    (h : ∀ hist' a, hist <+: hist' → Q hist' a → R hist' a) :
    DeployMeets cells R p hist txn := by
  refine (grows hp).mono fun hist' r hr => ?_
  exact ⟨hr.2.1, fun a ha => h hist' a hr.1 (hr.2.2 a ha)⟩

theorem deployMeets_note {f : DeployTransaction → DeployTransaction}
    {Q : List OrchEvent → Unit → Prop} (ht : TxnTrue hist (f txn)) (h : Q hist ()) :
    DeployMeets cells Q (note f) hist txn :=
  ⟨ht, fun _ _ => h⟩

variable (ht : TxnTrue hist txn)
include ht

theorem deployMeets_pure {a : α} (h : Q hist a) : DeployMeets cells Q (pure a) hist txn :=
  ⟨ht, fun _ hb => by cases hb; exact h⟩

theorem deployMeets_fail {e : DeploymentError} : DeployMeets cells Q (fail e) hist txn :=
  ⟨ht, nofun⟩

theorem deployMeets_lift {p : Orch α} (h : p.Meets possible (DeploySends cells) Q hist) :
    DeployMeets cells Q (lift p) hist txn :=
  (grows h).bind fun _ a ha => ⟨ht.mono ha.1, fun b hb => by cases hb; exact ha.2⟩

theorem deployMeets_orFail {p : Orch (Except String α)}
    (h : p.Meets possible (DeploySends cells) (fun hist r => ∀ a, r = .ok a → Q hist a)
      hist) : DeployMeets cells Q (orFail p) hist txn := by
  refine (grows h).bind fun hist' r hr => ?_
  cases r with
  | error e => exact ⟨ht.mono hr.1, nofun⟩
  | ok a => exact ⟨ht.mono hr.1, fun b hb => by cases hb; exact hr.2 a rfl⟩

/-- A loop, by an invariant of the elements that are done, what they gave, and the history. -/
theorem deployMeets_each {as : List α}
    {I : List α → List β → List OrchEvent → Prop} (done : List α) (given : List β)
    (hI : I done given hist)
    (hf : ∀ done given, ∀ a ∈ as, ∀ hist txn, TxnTrue hist txn → I done given hist →
      DeployMeets cells (fun hist b => I (done ++ [a]) (given ++ [b]) hist) (f a) hist txn) :
    DeployMeets cells (fun hist bs => I (done ++ as) (given ++ bs) hist) (each f as) hist txn := by
  induction as generalizing done given hist txn with
  | nil =>
    refine deployMeets_pure ht ?_
    rw [append_nil, append_nil]
    exact hI
  | cons a as ih =>
    refine (hf done given a mem_cons_self hist txn ht hI).bind fun hist' txn' b _ ht' hI' => ?_
    refine (ih ht' (done ++ [a]) (given ++ [b]) hI' fun done given c hc =>
      hf done given c (mem_cons_of_mem a hc)).bind fun h₂ txn₂ bs _ ht₂ hI₂ => ?_
    refine deployMeets_pure ht₂ ?_
    rw [append_assoc, append_assoc] at hI₂
    exact hI₂

/-! ### The parts of a deploy -/

variable {claims : List (Sri × Gen)} {roots : List CellDeployment}
  (h : seen claimedIn hist = claims) {batch : List CellDeployment} {gens : List (Sri × Gen)}
  {cell : CellDeployment} {row : Option PlacementEntry}
include h

theorem deployMeets_read (hs : DeploySends cells hist (.db c)) (hp : ∀ a, claimedIn ⟨.db c, a⟩ = []) :
    DeployMeets cells (fun hist _ => seen claimedIn hist = claims) (orFail (Orch.call c)) hist txn := by
  refine deployMeets_orFail ht ⟨hs, fun a _ _ _ => ?_⟩
  rw [seen_snoc, hp, append_nil]
  exact h

theorem LooksUp.meets (hp : LooksUp p) :
    DeployMeets cells (fun hist _ => seen claimedIn hist = claims) p hist txn := by
  induction hp generalizing hist txn with
  | pure a => exact deployMeets_pure ht h
  | fail e => exact deployMeets_fail ht
  | bind _ _ ihp ihf => exact (ihp ht h).bind fun _ _ a _ ht' h' => ihf a ht' h'
  | _ => exact deployMeets_read ht h trivial fun _ => rfl

omit h

/-- Generations are minted for the cells, in their order. -/
theorem mintAll_meets (h : seen claimedIn hist = []) :
    DeployMeets cells (fun hist gens => seen claimedIn hist = [] ∧
        gens.map Prod.fst = batch.map CellDeployment.sri ∧ ∀ g ∈ gens, g.2 ∈ seen mintedIn hist)
      (mintAll batch) hist txn := by
  refine deployMeets_each ht (I := fun done gens hist => seen claimedIn hist = [] ∧
    gens.map Prod.fst = done.map CellDeployment.sri ∧ ∀ g ∈ gens, g.2 ∈ seen mintedIn hist) [] []
    ⟨h, rfl, nofun⟩ ?_
  rintro done gens cell - hist txn ht ⟨hc, hf, hge⟩
  refine DeployMeets.bind (Q := fun hist' genId => seen claimedIn hist' = [] ∧
    genId ∈ seen mintedIn hist') (deployMeets_lift ht ⟨trivial, fun genId _ => ⟨?_, ?_⟩⟩) ?_
  · rw [seen_snoc, hc]
    rfl
  · exact mem_seen_snoc (mem_singleton_self _)
  · rintro hist' txn' genId hgr ht' ⟨hc', hm⟩
    refine deployMeets_pure ht' ⟨hc', by simp [hf], forall_mem_append.mpr ⟨fun g hg => ?_, ?_⟩⟩
    · exact seen_mono hgr (hge g hg)
    · exact forall_mem_singleton.mpr hm

omit ht in
theorem genOf_mem (h : sri ∈ gens.map Prod.fst) : (sri, genOf gens sri) ∈ gens := by
  obtain ⟨g, hg, rfl⟩ := mem_map.mp h
  cases hf : gens.reverse.find? fun g' => decide (g'.1 = g.1) with
  | none =>
    have hne := List.find?_eq_none.mp hf g (mem_reverse.mpr hg)
    simp at hne
  | some g' =>
    have heq : g'.1 = g.1 := by simpa using List.find?_some hf
    have hge : genOf gens g.1 = g'.2 := by
      unfold genOf
      rw [hf]
      rfl
    rw [hge, ← heq]
    exact mem_reverse.mp (mem_of_find?_eq_some hf)

/-- What holds while a batch is being claimed under the generations minted for it. -/
structure Claiming (gens : List (Sri × Gen)) (done : List CellDeployment)
    (history : List OrchEvent) : Prop where
  done : ∀ cell ∈ done, (cell.sri, genOf gens cell.sri) ∈ seen claimedIn history
  only : ∀ claim ∈ seen claimedIn history, claim.2 = genOf gens claim.1

theorem claimCell_meets {done : List CellDeployment} (hce : cell ∈ cells)
    (hgen : genOf gens cell.sri ∈ seen mintedIn hist) (h : Claiming gens done hist) :
    DeployMeets cells (fun hist _ => Claiming gens (done ++ [cell]) hist)
      (claimCell gens cell) hist txn := by
  refine (resolveApp_looksUp.meets ht rfl).bind fun h₁ txn₁ app hgr htx₁ hsa => ?_
  refine DeployMeets.bind (Q := fun h₂ oc => oc = .claimed →
      seen claimedIn h₂ = seen claimedIn hist ++ [(cell.sri, genOf gens cell.sri)])
    (deployMeets_orFail htx₁ ⟨⟨hce, rfl, seen_mono hgr hgen, fun genId hge => ?_⟩,
      fun ans _ oc hou hcla => ?_⟩) ?_
  · rw [hsa] at hge
    exact h.only _ hge
  · subst hou
    subst hcla
    rw [seen_snoc, hsa]
    rfl
  · intro h₂ txn₂ oc hgr₂ htx₂ hclai
    cases oc with
    | alreadyExists => exact deployMeets_fail htx₂
    | claimed =>
      have hse := hclai rfl
      have hne : (cell.sri, genOf gens cell.sri) ∈ seen claimedIn h₂ := by
        rw [hse]
        exact mem_append_right _ (mem_singleton_self _)
      refine DeployMeets.bind (Q := fun h₃ _ => Claiming gens (done ++ [cell]) h₃)
        (deployMeets_note ?_ ⟨?_, ?_⟩) fun h₃ txn₃ _ _ htx₃ h₃ => deployMeets_pure htx₃ h₃
      · exact forall_mem_append.mpr ⟨htx₂, forall_mem_singleton.mpr hne⟩
      · refine forall_mem_append.mpr ⟨fun c hc => ?_, forall_mem_singleton.mpr hne⟩
        rw [hse]
        exact mem_append_left _ (h.done c hc)
      · rw [hse]
        exact forall_mem_append.mpr ⟨h.only, forall_mem_singleton.mpr rfl⟩

/-- The cells that deployed are cells of the batch. -/
def Batched (cells : List CellDeployment) (results : List (Except CellFailure DeployedCell)) : Prop :=
  ∀ d, .ok d ∈ results → d.sri ∈ cells.map CellDeployment.sri

theorem deployPlaced_meets {placed : CellDeployment × RuntimeId}
    {rs : List (Except CellFailure DeployedCell)} (hp : placed.1 ∈ cells)
    (h : Batched cells rs) :
    DeployMeets cells (fun _ res => Batched cells (rs ++ [res]))
      (deployPlaced gens placed) hist txn := by
  refine DeployMeets.bind (Q := fun _ _ => True)
    (deployMeets_lift ht ⟨trivial, fun _ _ => trivial⟩) fun h₁ txn₁ oc _ ht₁ _ => ?_
  cases oc with
  | error kind =>
    refine deployMeets_pure ht₁ fun d hd => ?_
    rcases mem_append.mp hd with hd | hd
    · exact h d hd
    · cases mem_singleton.mp hd
  | ok kind =>
    refine DeployMeets.bind (Q := fun _ _ => True) (deployMeets_note ht₁ trivial)
      fun h₂ txn₂ _ _ ht₂ _ => deployMeets_pure ht₂ fun d hd => ?_
    rcases mem_append.mp hd with hd | hd
    · exact h d hd
    · cases mem_singleton.mp hd
      exact mem_map_of_mem hp

theorem placeAndDeploy_meets :
    DeployMeets cells (fun _ dep => ∀ d ∈ dep, d.sri ∈ cells.map CellDeployment.sri)
      (placeAndDeploy cells gens) hist txn := by
  refine DeployMeets.bind (Q := fun _ oc => ∀ placed, oc = .ok placed →
      (placed.map Prod.fst).Perm cells)
    (deployMeets_lift ht ⟨trivial, fun oc hpo placed hok => ?_⟩)
    fun h₁ txn₁ oc _ htx₁ hpl => ?_
  · subst hok
    exact hpo
  cases oc with
  | error e => exact deployMeets_fail htx₁
  | ok placed =>
    have hpe := hpl placed rfl
    refine (deployMeets_each htx₁ (I := fun _ rs _ => Batched cells rs) [] [] nofun
      fun done rs p hp h txn htx hI =>
        deployPlaced_meets htx (hpe.mem_iff.mp (mem_map_of_mem hp)) hI).bind
      fun h₂ txn₂ rs _ htx₂ hres => ?_
    split
    · exact deployMeets_pure htx₂ fun d hd => hres d (mem_deployedOf hd)
    · exact deployMeets_fail htx₂

theorem commitCell_meets {apps : List (Sri × Option String)} {d : DeployedCell}
    (hd : d.sri ∈ cells.map CellDeployment.sri) :
    DeployMeets cells (fun _ _ => True) (commitCell gens apps d) hist txn := by
  refine DeployMeets.bind (Q := fun _ _ => True)
    (deployMeets_orFail ht ⟨hd, fun _ _ _ _ => trivial⟩) fun h₁ txn₁ oc _ ht₁ _ => ?_
  cases oc <;> exact deployMeets_pure ht₁ trivial

theorem writeSpecOf_meets {spec : CellDeployment} (hs : spec ∈ cells)
    (hc : (spec.sri, genOf gens spec.sri) ∈ seen claimedIn hist) :
    DeployMeets cells (fun _ _ => True) (writeSpecOf gens spec) hist txn := by
  refine DeployMeets.bind (Q := fun _ _ => True)
    (deployMeets_orFail ht ⟨⟨hs, hc⟩, fun _ _ _ _ => trivial⟩)
    fun h₁ txn₁ _ _ ht₁ _ => deployMeets_note ht₁ trivial

omit ht

theorem executeDeploy_meets :
    DeployMeets cells (fun hist _ => ∀ cell ∈ cells, ∃ genId ∈ seen mintedIn hist,
      (cell.sri, genId) ∈ seen claimedIn hist) (executeDeploy cells) [] .new := by
  have hne : TxnTrue [] .new := nofun
  unfold executeDeploy
  split
  · exact deployMeets_fail hne
  refine (rejectDuplicateAppNames_looksUp.meets hne rfl).bind fun h₁ txn₁ _ _ htx₁ hclai₁ => ?_
  refine (mintAll_meets htx₁ hclai₁).bind fun h₂ txn₂ gens _ htx₂ hge => ?_
  obtain ⟨hclai₂, hfs, hmi⟩ := hge
  have hgen : ∀ cell ∈ cells, genOf gens cell.sri ∈ seen mintedIn h₂ := fun cell hce =>
    hmi _ (genOf_mem (hfs ▸ mem_map_of_mem hce))
  have hcla : Claiming gens [] h₂ := by
    refine ⟨nofun, fun claim hclaim => ?_⟩
    rw [hclai₂] at hclaim
    exact (not_mem_nil hclaim).elim
  refine (deployMeets_each htx₂ (I := fun done _ hist => h₂ <+: hist ∧ Claiming gens done hist)
    [] [] ⟨prefix_rfl, hcla⟩ fun done _ cell hce hist txn htx hI =>
      (claimCell_meets htx hce (seen_mono hI.1 (hgen cell hce)) hI.2).mono
        fun hist' _ hgr hcla => ⟨hI.1.trans hgr, hcla⟩).bind
    fun h₃ txn₃ apps _ htx₃ hcl => ?_
  refine (placeAndDeploy_meets htx₃).bind fun h₄ txn₄ dep hgr₄ htx₄ hde => ?_
  refine (deployMeets_each htx₄ (I := fun _ _ hist => h₄ <+: hist) [] [] prefix_rfl
    fun _ _ d hd hist txn htx hI =>
      (commitCell_meets htx (hde d hd)).mono fun _ _ hgr _ => hI.trans hgr).bind
    fun h₅ txn₅ superseded hgr₅ htx₅ _ => ?_
  have hcl₅ : ∀ cell ∈ cells, (cell.sri, genOf gens cell.sri) ∈ seen claimedIn h₅ :=
    fun cell hce => seen_mono (hgr₄.trans hgr₅) (hcl.2.done cell hce)
  split
  · refine (deployMeets_each htx₅ (I := fun _ _ hist => h₅ <+: hist) [] [] prefix_rfl
      fun _ _ spec hsp hist txn htx hI => ?_).bind fun h₆ txn₆ _ hgr₆ htx₆ _ =>
        deployMeets_pure htx₆ fun cell hce => ?_
    · have hme := (mem_filter.mp hsp).1
      exact (writeSpecOf_meets htx hme (seen_mono hI (hcl₅ spec hme))).mono
        fun _ _ hgr _ => hI.trans hgr
    · have hgr : h₂ <+: h₆ := hcl.1.trans ((hgr₄.trans hgr₅).trans hgr₆)
      exact ⟨_, seen_mono hgr (hgen cell hce), seen_mono hgr₆ (hcl₅ cell hce)⟩
  · exact deployMeets_fail htx₅

/-! ### Rollback -/

theorem rollbackLife_meets (h : (sri, genId) ∈ seen claimedIn hist) :
    (rollbackLife txn sri genId row).Meets possible (DeploySends cells)
      (fun hist' _ => hist <+: hist') hist := by
  have hre : ∀ hist' erased, hist <+: hist' → ∀ req, Releases sri erased req →
      DeploySends cells hist' req := by
    intro hist' erased hgr req hreq
    have hcl := seen_mono hgr h
    unfold Releases at hreq
    split at hreq
    · exact trivial
    · exact trivial
    · exact ⟨genId, hreq ▸ hcl⟩
    · exact ⟨genId, hreq ▸ hcl⟩
    · exact ⟨genId, hreq.1 ▸ hcl⟩
    · exact hreq.elim
  have hif : (releaseIf row.isSome sri).Meets possible (DeploySends cells)
      (fun _ _ => True) hist := by
    unfold releaseIf
    split
    · exact (releaseCellResources_meets fun hist' hgr => hre hist' false hgr).mono
        fun _ _ _ => trivial
    · exact trivial
  refine hif.grows.bind fun h₁ _ hgr₁ => ?_
  refine (eraseSpecIf_meets fun hist' hgr =>
    hre hist' _ (hgr₁.1.trans hgr)).grows.bind fun h₂ _ hgr₂ => ?_
  have hpr₂ := hgr₁.1.trans hgr₂.1
  refine ⟨seen_mono hpr₂ h, fun removed _ => ?_⟩
  have hpr₃ := hpr₂.trans (prefix_append h₂ [⟨.db (.removePlacement sri genId), removed⟩])
  refine (removeInstance_meets (S := DeploySends cells) trivial fun hist' hgr =>
    seen_mono (hpr₃.trans hgr) h).grows.bind fun h₄ _ hgr₄ => ?_
  exact hpr₃.trans hgr₄.1

theorem rollback_meets (ht : TxnTrue hist txn) :
    (rollback txn).Meets possible (DeploySends cells) (fun _ _ => True) hist := by
  refine (meets_each (I := fun hist' => hist <+: hist') prefix_rfl
    fun dep _ hist' hI => ?_).bind fun h₁ _ hg₁ => ?_
  · exact (teardown_meets (S := DeploySends cells) fun _ => trivial).grows.mono
      fun _ _ hg => hI.trans hg.1
  · refine (meets_each (I := fun hist' => hist <+: hist') hg₁
      fun claim hc hist' hI => ?_).mono fun _ _ _ => trivial
    refine ⟨trivial, fun found _ => ?_⟩
    have hg := hI.trans (prefix_append hist' [⟨.db (.getPlacement claim.1), found⟩])
    cases found with
    | error e => exact hg
    | ok row =>
      change (rollbackUnlessHeld txn claim row).Meets possible (DeploySends cells) _ _
      unfold rollbackUnlessHeld
      split
      · exact hg
      · exact (rollbackLife_meets (seen_mono hg (ht claim hc))).mono fun _ _ h => hg.trans h

theorem handleDeployCellQuery_meets :
    (handleDeployCellQuery cells).Meets possible (DeploySends cells) (DeployEnds cells) [] := by
  refine bind executeDeploy_meets fun hist r hr => ?_
  obtain ⟨res, _⟩ := r
  cases res with
  | ok dep => exact hr.2 dep rfl
  | error e => exact (rollback_meets hr.1).bind fun _ _ _ => trivial

end Deploys
end Orchestration

end Myrmic
