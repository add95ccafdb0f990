import Myrmic.Contracts

/-!
# What cleanups answer for

The contracts of hygiene and of what nodes do about rows.  Hygiene reads the placements first and the
instances later, acts on instances it has read, of cells that are due, releases rows only after it has
asked for the deaths of roots to be recorded, and tears a node down only after it has asked for the
placements on it to be removed.  A node removes what it owes, and owes what it has swept or what has
exited.  The sweep of a node's boot and that of an embedded node remove the rows of what they find,
whoever it is.
-/
namespace Myrmic
open KeyedTables Processes Machine List
namespace Orchestration
open Process NodeWatch

/-! ## Hygiene -/

/-- A life that hygiene acts on: the instance it has read for a cell that is due. -/
def Targets (watch : NodeWatch) (history : List OrchEvent) (sri : Sri) (genId : Gen) : Prop :=
  (∃ i, NodeWatch.instanceOf (seen instancesIn history) sri = some i ∧ i.genId = genId) ∧
    sri ∈ watch.due (seen placementsIn history) (seen instancesIn history)

/-- The death of a root whose instance was read was reported. -/
def NodeLossReported (history : List OrchEvent) (sri : Sri) : Prop :=
  ∀ i, NodeWatch.instanceOf (seen instancesIn history) sri = some i → i.lineage.parent = none →
    ⟨sri, i.genId, .nodeLost⟩ ∈ seen reportedIn history

/-- The removal of the placements of some cells was asked for. -/
def Released (cells : List PlacementEntry) (sris : List Sri) (history : List OrchEvent) : Prop :=
  ∀ sri ∈ sris, ∀ genId, placementGen cells sri = some genId → (sri, genId) ∈ seen releasedIn history

/-- The removal of all placements on a node was asked for. -/
def ReleasedFrom (node : RuntimeId) (history : List OrchEvent) : Prop :=
  ∀ e ∈ seen placementsIn history, e.kind.host = some node →
    Released (seen placementsIn history) [e.sri] history

/-- What hygiene answers for. -/
def HygieneSends (watch : NodeWatch) (history : List OrchEvent) : Request → Prop
  | .db .listPlacements => history = []
  | .db .listInstances => seen instancesIn history = []
  | .db (.getPlacement _) => True
  | .deregisterExec id => ReleasedFrom id history
  | .deleteLease id => ReleasedFrom id history
  | .db (.recordDeath d) => Targets watch history d.sri d.genId
  | .emitCellLost note _ => Targets watch history note.cell note.cellGen
  | .db (.removePlacement sri genId) =>
    (∃ e ∈ seen placementsIn history, e.sri = sri ∧ e.genId = genId) ∧ NodeLossReported history sri
  | .db (.removeInstanceRow sri genId) =>
    Targets watch history sri genId ∧ NodeLossReported history sri
  | _ => False

/-- What hygiene has read by the time it acts. -/
structure HasScanned (cells : List PlacementEntry) (instances : List CellInstance)
    (history : List OrchEvent) : Prop where
  cells : seen placementsIn history = cells
  instances : seen instancesIn history = instances

variable {i : CellInstance}
section Hygiene
variable {watch : NodeWatch} {cells : List PlacementEntry} {insts : List CellInstance}
  {hist : List OrchEvent} {sri : Sri} {sris : List Sri} {hist' : List OrchEvent} {done : List Sri}

theorem HasScanned.snoc {e : OrchEvent} (h : HasScanned cells insts hist)
    (hc : placementsIn e = []) (hi : instancesIn e = []) :
    HasScanned cells insts (hist ++ [e]) := by
  refine ⟨?_, ?_⟩
  · rw [seen_snoc, hc, append_nil, h.cells]
  · rw [seen_snoc, hi, append_nil, h.instances]

theorem HasScanned.targets (h : HasScanned cells insts hist)
    (hi : instanceOf insts sri = some i) (hd : sri ∈ watch.due cells insts) :
    Targets watch hist sri i.genId := by
  unfold Targets
  rw [h.instances, h.cells]
  exact ⟨⟨i, hi, rfl⟩, hd⟩

/-- The roots among some cells have been reported. -/
def LossesReported (instances : List CellInstance) (sris : List Sri) (history : List OrchEvent) :
    Prop :=
  ∀ sri ∈ sris, ∀ i, NodeWatch.instanceOf instances sri = some i → i.lineage.parent = none →
    ⟨sri, i.genId, .nodeLost⟩ ∈ seen reportedIn history

theorem LossesReported.mono (h : LossesReported insts sris hist) (hg : hist <+: hist') :
    LossesReported insts sris hist' :=
  fun sri hs i hi hr => seen_mono hg (h sri hs i hi hr)

theorem LossesReported.of_mem (h : LossesReported insts sris hist)
    (hs : HasScanned cells insts hist) (hsr : sri ∈ sris) :
    NodeLossReported hist sri := by
  intro i hi hr
  rw [hs.instances] at hi
  exact h sri hsr i hi hr

theorem recordNodeLoss_meets (hdu : sri ∈ watch.due cells insts) (hsc : HasScanned cells insts hist)
    (h : LossesReported insts done hist) :
    (recordNodeLoss insts sri).Meets possible (HygieneSends watch) (fun hist _ =>
      HasScanned cells insts hist ∧ LossesReported insts (done ++ [sri]) hist)
      hist := by
  unfold recordNodeLoss
  have hsn : ∀ {hist}, LossesReported insts done hist →
      (∀ i, instanceOf insts sri = some i → i.lineage.parent = none →
        ⟨sri, i.genId, .nodeLost⟩ ∈ seen reportedIn hist) →
      LossesReported insts (done ++ [sri]) hist := by
    intro hist hdo hsr
    exact forall_mem_append.mpr ⟨hdo, forall_mem_singleton.mpr hsr⟩
  split
  · next hno => exact ⟨hsc, hsn h fun i hi => by rw [hno] at hi; cases hi⟩
  · next i hi =>
    split
    · refine ⟨hsc.targets hi hdu, fun a _ => ⟨hsc.snoc rfl rfl, ?_⟩⟩
      refine hsn (h.mono (prefix_append _ _)) fun j hj _ => ?_
      rw [hi] at hj
      cases hj
      exact mem_seen_snoc (mem_singleton_self _)
    · next hpa =>
      refine ⟨hsc, hsn h fun j hj hro => ?_⟩
      rw [hi] at hj
      cases hj
      exact absurd hro hpa

theorem noteFor_spec {note : CellLostNote} (h : watch.noteFor cells insts sri = some note) :
    note.cell = sri ∧ ∃ i, instanceOf insts sri = some i ∧ i.genId = note.cellGen := by
  revert h
  fun_cases noteFor watch cells insts sri <;> rintro ⟨⟩
  next i hi _ _ _ _ _ => exact ⟨rfl, i, hi, rfl⟩

theorem emitNotes_meets {notes : List CellLostNote}
    (hno : ∀ note ∈ notes, ∃ i, instanceOf insts note.cell = some i ∧
      i.genId = note.cellGen ∧ note.cell ∈ watch.due cells insts)
    (hs : HasScanned cells insts hist) (h : LossesReported insts sris hist) :
    (emitNotes notes).Meets possible (HygieneSends watch) (fun hist _ =>
      HasScanned cells insts hist ∧ LossesReported insts sris hist) hist := by
  induction notes generalizing hist with
  | nil => exact ⟨hs, h⟩
  | cons note notes ih =>
    obtain ⟨i, hi, hg, hd⟩ := hno note mem_cons_self
    have ht : Targets watch hist note.cell note.cellGen := hg ▸ hs.targets hi hd
    refine ⟨ht, fun sent _ => ?_⟩
    refine (ih (fun n hn => hno n (mem_cons_of_mem note hn)) (hs.snoc rfl rfl)
      (h.mono (prefix_append _ _))).bind fun hist' _ h' => ?_
    exact h'

theorem Released.mono (h : Released cells sris hist) (hg : hist <+: hist') :
    Released cells sris hist' :=
  fun sri hs genId hge => seen_mono hg (h sri hs genId hge)

theorem Released.snoc (h : Released cells sris hist)
    (hsr : Released cells [sri] hist) : Released cells (sris ++ [sri]) hist :=
  forall_mem_append.mpr ⟨h, hsr⟩

variable (hsc : HasScanned cells insts hist)
include hsc

theorem releasePlacement_meets (hsr : sri ∈ sris) (h : LossesReported insts sris hist)
    (hdo : Released cells done hist) :
    (releasePlacement cells sri).Meets possible (HygieneSends watch) (fun hist _ =>
      HasScanned cells insts hist ∧ LossesReported insts sris hist ∧
        Released cells (done ++ [sri]) hist) hist := by
  unfold releasePlacement
  split
  · next hno =>
    refine ⟨hsc, h, hdo.snoc fun s hs genId hge => ?_⟩
    rw [mem_singleton.mp hs, hno] at hge
    cases hge
  · next genId hge =>
    obtain ⟨e, he, hes, heg⟩ := mem_of_placementGen hge
    refine ⟨⟨⟨e, hsc.cells ▸ he, hes, heg⟩, h.of_mem hsc hsr⟩, fun a _ =>
      ⟨hsc.snoc rfl rfl, h.mono (prefix_append _ _), ?_⟩⟩
    refine (hdo.mono (prefix_append _ _)).snoc fun s hs genId' hge' => ?_
    rw [mem_singleton.mp hs] at hge' ⊢
    rw [hge] at hge'
    cases hge'
    exact mem_seen_snoc (mem_singleton_self _)

theorem releaseInstance_meets (hsr : sri ∈ sris) (hdu : sri ∈ watch.due cells insts)
    (h : LossesReported insts sris hist) :
    (releaseInstance insts sri).Meets possible (HygieneSends watch) (fun hist _ =>
      HasScanned cells insts hist ∧ LossesReported insts sris hist) hist := by
  unfold releaseInstance
  split
  · exact ⟨hsc, h⟩
  · next i hi =>
    refine ⟨trivial, fun found _ => ?_⟩
    have hsc₁ := hsc.snoc (e := ⟨.db (.getPlacement sri), found⟩) rfl rfl
    have h₁ := h.mono (prefix_append hist [⟨.db (.getPlacement sri), found⟩])
    cases found with
    | error e => exact ⟨hsc₁, h₁⟩
    | ok found =>
      have hre : (removeUnplaced sri i.genId found).Meets possible (HygieneSends watch)
          (fun hist _ => HasScanned cells insts hist ∧
            LossesReported insts sris hist)
          (hist ++ [⟨.db (.getPlacement sri), .ok found⟩]) := by
        unfold removeUnplaced
        split
        · exact ⟨hsc₁, h₁⟩
        · exact ⟨⟨hsc₁.targets hi hdu, h₁.of_mem hsc₁ hsr⟩,
            fun _ _ => ⟨hsc₁.snoc rfl rfl, h₁.mono (prefix_append _ _)⟩⟩
      exact hre.bind fun _ _ h => h

/-- All placements on a node that is torn down are among those that are released. -/
theorem teardownNode_meets {id : RuntimeId}
    (hid : id ∈ (watch.planHygiene cells insts).teardownNodes)
    (h : Released cells (watch.planHygiene cells insts).releaseCells hist) :
    (teardownNode id).Meets possible (HygieneSends watch) (fun hist _ =>
      HasScanned cells insts hist ∧
        Released cells (watch.planHygiene cells insts).releaseCells hist) hist := by
  have hf : ∀ {hist}, HasScanned cells insts hist →
      Released cells (watch.planHygiene cells insts).releaseCells hist →
      ReleasedFrom id hist := by
    intro hist hsc h e he hh s hs
    rw [hsc.cells] at he ⊢
    rw [mem_singleton.mp hs]
    refine h e.sri (mem_filter.mpr ⟨mem_map_of_mem he, ?_⟩)
    have ha := all_eq_true.mp (mem_filter.mp hid).2 e he
    simpa [hh] using ha
  refine ⟨hf hsc h, fun a _ => ⟨hf (hsc.snoc rfl rfl) (h.mono (prefix_append _ _)),
    fun b _ => ⟨(hsc.snoc rfl rfl).snoc rfl rfl, ?_⟩⟩⟩
  exact (h.mono (prefix_append _ _)).mono (prefix_append _ _)

theorem carryOut_meets : (carryOut (watch.planHygiene cells insts) cells insts).Meets possible
      (HygieneSends watch) (fun _ _ => True) hist := by
  have hdu : ∀ sri ∈ (watch.planHygiene cells insts).removeInstances,
      sri ∈ watch.due cells insts := fun sri hsr => by
    simpa using (mem_filter.mp hsr).2
  refine (meets_each_done (I := fun done hist => HasScanned cells insts hist ∧
    LossesReported insts done hist) [] ⟨hsc, nofun⟩
    fun done sri hsr hist h => recordNodeLoss_meets (hdu sri hsr) h.1 h.2).bind
    fun h₁ _ hre => ?_
  have hnot : ∀ note ∈ (watch.planHygiene cells insts).notes,
      ∃ i, instanceOf insts note.cell = some i ∧ i.genId = note.cellGen ∧
        note.cell ∈ watch.due cells insts := by
    intro note hno
    obtain ⟨sri, hsr, hno⟩ := mem_filterMap.mp hno
    obtain ⟨rfl, i, hi, hge⟩ := noteFor_spec hno
    exact ⟨i, hi, hge, hdu _ hsr⟩
  refine (emitNotes_meets hnot hre.1 hre.2).bind fun h₂ sent hse => ?_
  cases sent with
  | false => exact trivial
  | true =>
    refine (meets_each_done (I := fun done hist => HasScanned cells insts hist ∧
      LossesReported insts _ hist ∧ Released cells done hist) []
      ⟨hse.1, hse.2, nofun⟩ fun done sri hsr hist h =>
        releasePlacement_meets h.1 hsr h.2.1 h.2.2).bind fun h₃ _ hrel => ?_
    refine (meets_each (I := fun hist => HasScanned cells insts hist ∧
      LossesReported insts _ hist ∧
        Released cells (watch.planHygiene cells insts).releaseCells hist) hrel
      fun sri hsr hist h => ?_).bind fun h₄ _ hrem => ?_
    · refine (releaseInstance_meets h.1 hsr (hdu sri hsr) h.2.1).grows.mono fun hist' _ h' => ?_
      exact ⟨h'.2.1, h'.2.2, h.2.2.mono h'.1⟩
    exact (meets_each (I := fun hist => HasScanned cells insts hist ∧
      Released cells (watch.planHygiene cells insts).releaseCells hist)
      ⟨hrem.1, hrem.2.2⟩ fun id hid hist h => teardownNode_meets h.1 hid h.2).mono
        fun _ _ _ => trivial

omit hsc

theorem hygienePass_meets :
    (hygienePass watch).Meets possible (HygieneSends watch) (fun _ _ => True) [] := by
  refine meets_db rfl (fun _ => trivial) fun cells => ?_
  change (hygieneIfDead watch cells).Meets possible (HygieneSends watch) _ _
  unfold hygieneIfDead
  split
  · refine meets_db rfl (fun _ => trivial) fun insts => ?_
    change (cleanUp (watch.planHygiene cells insts) cells insts).Meets possible _ _ _
    unfold cleanUp
    split
    · exact trivial
    · exact carryOut_meets ⟨append_nil cells, append_nil insts⟩
  · exact trivial

end Hygiene

/-! ## Nodes -/

/-- The death of a root was recorded by whoever found its instance. -/
def Reported (history : List OrchEvent) (sri : Sri) (i : CellInstance) : Prop :=
  i.lineage.detached = false → i.lineage.parent = none →
    ⟨sri, i.genId, .crashed⟩ ∈ seen recordedIn history

/-- Why a node's sweep owes the removal of a row. -/
def Swept (history : List OrchEvent) : CleanupAction → Prop
  | .releaseCell sri genId =>
    (∃ e ∈ seen placementsIn history, e.sri = sri ∧ e.genId = genId) ∧
      ∃ found, (sri, found) ∈ seen lookedUpIn history ∧ ∀ i, found = some i → Reported history sri i
  | .removeInstance sri genId =>
    ∃ i, (sri, some i) ∈ seen lookedUpIn history ∧ i.genId = genId ∧ Reported history sri i
  | .releaseRows _ _ => False

/-- What a node's verification pass answers for: it removes what it has taken up, and owes what it has
swept or could not remove. -/
def VerifySends (node : RuntimeId) (history : List OrchEvent) : Request → Prop
  | .db .listPlacements => True
  | .db (.getPlacement _) => True
  | .db (.getInstance sri) => ∃ e ∈ seen placementsIn history, e.sri = sri
  | .db (.recordDeath _) => True
  | .emitCellLost .. => True
  | .takeOwed n => n = node
  | .owe n actions => n = node ∧ ∀ a ∈ actions, a ∈ seen takenIn history ∨ Swept history a
  | .db (.removePlacement sri genId) =>
    .releaseCell sri genId ∈ seen takenIn history ∨ .releaseRows sri genId ∈ seen takenIn history
  | .db (.removeInstanceRow sri genId) =>
    .removeInstance sri genId ∈ seen takenIn history ∨ .releaseRows sri genId ∈ seen takenIn history
  | _ => False

/-- What the handler of an exit answers for. -/
def ExitedSends (node : RuntimeId) (watched : Option WatchedCell) (sri : Sri) : Request → Prop
  | .db (.recordDeath _) => True
  | .emitCellLost .. => True
  | .owe n actions => n = node ∧ ∃ cell, watched = some cell ∧
    actions = [.releaseCell sri cell.genId, .removeInstance sri cell.genId]
  | _ => False

/-- What has happened when an exit is reported with success. -/
def ExitedEnds (watched : Option WatchedCell) (sri : Sri) (history : List OrchEvent) :
    Except String Unit → Prop
  | .error _ => True
  | .ok _ => ∀ cell, watched = some cell → seen owedIn history ≠ [] →
    cell.lineage.detached = false → cell.lineage.parent = none →
    ⟨sri, cell.genId, .crashed⟩ ∈ seen recordedIn history

/-- What the sweep at a node's boot answers for: it removes the rows of what names the node. -/
def BootSends (node : RuntimeId) (history : List OrchEvent) : Request → Prop
  | .db .listPlacements => True
  | .db (.getPlacement _) => True
  | .db (.getInstance _) => True
  | .emitCellLost .. => True
  | .db (.removePlacement sri genId) =>
    ∃ e ∈ seen placementsIn history, e.kind = .wasm node ∧ e.sri = sri ∧ e.genId = genId
  | .db (.removeInstanceRow sri genId) =>
    ∃ i, (sri, some i) ∈ seen lookedUpIn history ∧ i.genId = genId
  | _ => False

def EmbeddedBootSends (node : RuntimeId) (hosted : Option Sri) (history : List OrchEvent) :
    Request → Prop
  | .db .listPlacements => True
  | .db (.getInstance _) => True
  | .emitCellLost .. => True
  | .owe n actions => n = node ∧ ∃ e ∈ seen placementsIn history, e.kind = .wasm node ∧
    e.sri ∉ hosted ∧ actions = [.releaseRows e.sri e.genId]
  | _ => False

section Nodes
variable {node : RuntimeId} {hist : List OrchEvent} {sri : Sri}
  {S : List OrchEvent → Request → Prop} {genId : Gen} {remnant : Sri × Gen} {hosted : List Sri}
  {cells : List PlacementEntry}

theorem reportCellDeath_meets {lineage : SpawnLineage} {reason : LostReason}
    (hr : ∀ d, S hist (.db (.recordDeath d)))
    (he : ∀ note reason, S hist (.emitCellLost note reason)) :
    (reportCellDeath sri genId lineage reason).Meets possible S (fun hist' r =>
      r = .ok () → lineage.detached = false → lineage.parent = none →
        ⟨sri, genId, reason⟩ ∈ seen recordedIn hist') hist := by
  unfold reportCellDeath
  split
  · next hd =>
    intro _ h
    rw [hd] at h
    cases h
  · split
    · next parent hp =>
      refine ⟨he _ _, fun a _ _ _ h => ?_⟩
      rw [hp] at h
      cases h
    · refine ⟨hr _, fun a _ hok _ _ => ?_⟩
      subst hok
      exact mem_seen_snoc (mem_singleton_self _)

theorem sweepRemnant_meets
    (h : ∃ e ∈ seen placementsIn hist, e.sri = remnant.1 ∧ e.genId = remnant.2) :
    (sweepRemnant node remnant).Meets possible (VerifySends node) (fun _ _ => True) hist := by
  obtain ⟨e, he, hsr, hge⟩ := h
  refine meets_db ⟨e, he, hsr⟩ (fun _ => trivial) fun found => ?_
  have hgr := prefix_append hist [⟨.db (.getInstance remnant.1), .ok found⟩]
  have hlo : (remnant.1, found) ∈ seen lookedUpIn
      (hist ++ [⟨.db (.getInstance remnant.1), .ok found⟩]) :=
    mem_seen_snoc (mem_singleton_self _)
  cases (found : Option CellInstance) with
  | none =>
    refine ⟨⟨rfl, fun a ha => .inr ?_⟩, fun _ _ => trivial⟩
    rw [mem_singleton.mp ha]
    exact ⟨⟨e, seen_mono hgr he, hsr, hge⟩, none, hlo, nofun⟩
  | some i =>
    refine (reportCellDeath_meets (S := VerifySends node) (fun _ => trivial)
      fun _ _ => trivial).grows.bind fun h₁ oc hre => ?_
    obtain ⟨hgr₁, hre⟩ := hre
    cases oc with
    | error e => exact trivial
    | ok _ =>
      refine ⟨⟨rfl, fun a ha => .inr ?_⟩, fun _ _ => trivial⟩
      rcases mem_cons.mp ha with rfl | ha
      · refine ⟨⟨e, seen_mono (hgr.trans hgr₁) he, hsr, hge⟩, some i,
          seen_mono hgr₁ hlo, fun j hj => ?_⟩
        cases hj
        exact hre rfl
      · rw [mem_singleton.mp ha]
        exact ⟨i, seen_mono hgr₁ hlo, rfl, hre rfl⟩

theorem sweepRemnants_meets {sweep : Sri × Gen → Orch Bool} {remnants : List (Sri × Gen)}
    (h : ∀ remnant ∈ remnants, ∀ hist', hist <+: hist' →
      (sweep remnant).Meets possible S (fun _ _ => True) hist') :
    (sweepRemnants sweep remnants).Meets possible S (fun _ _ => True) hist := by
  induction remnants generalizing hist with
  | nil => exact trivial
  | cons remnant remnants ih =>
    refine (h remnant mem_cons_self hist prefix_rfl).grows.bind fun h₁ _ hg => ?_
    refine (ih fun r hr h₂ hp => h r (mem_cons_of_mem remnant hr) h₂
      (hg.1.trans hp)).bind fun _ _ _ => trivial

theorem mem_selectRemnants (h : remnant ∈ selectRemnants cells node hosted) :
    ∃ e ∈ cells, e.kind = .wasm node ∧ e.sri ∉ hosted ∧ e.sri = remnant.1 ∧ e.genId = remnant.2 := by
  obtain ⟨e, he, rfl⟩ := mem_map.mp h
  obtain ⟨hm, hs⟩ := mem_filter.mp he
  simp only [Bool.and_eq_true, decide_eq_true_eq] at hs
  exact ⟨e, hm, hs.1, hs.2, rfl, rfl⟩

theorem startupSweep_meets :
    (startupSweep node hosted).Meets possible (VerifySends node) (fun _ _ => True) [] := by
  refine meets_db trivial (fun _ => trivial) fun cells => ?_
  refine sweepRemnants_meets fun remnant hr hist' hg => sweepRemnant_meets ?_
  obtain ⟨e, he, -, -, hs, hge⟩ := mem_selectRemnants hr
  exact ⟨e, seen_mono hg (mem_append_left _ he), hs, hge⟩

theorem releaseOwed_meets {act : CleanupAction} (h : act ∈ seen takenIn hist) :
    (releaseOwed act).Meets possible (VerifySends node) (fun _ _ => True) hist := by
  cases act with
  | releaseCell sri genId => exact ⟨.inl h, fun _ _ => trivial⟩
  | removeInstance sri genId =>
    refine (removeInstance_meets (S := VerifySends node) trivial fun hist' hg =>
      .inl (seen_mono hg h)).bind fun _ _ _ => trivial
  | releaseRows sri genId =>
    refine meets_db (.inr h) (fun _ => trivial) fun _ => ?_
    exact ⟨.inr (seen_mono (prefix_append _ _) h), fun _ _ => trivial⟩

theorem retryOwed_meets {pending : List CleanupAction}
    (h : ∀ act ∈ pending, act ∈ seen takenIn hist) :
    (each (retryOwed node) pending).Meets possible (VerifySends node) (fun _ _ => True) hist := by
  refine (meets_each (I := fun hist' => ∀ act ∈ pending,
    act ∈ seen takenIn hist') h fun act hac hist' hI => ?_).mono
    fun _ _ _ => trivial
  refine (releaseOwed_meets (hI act hac)).grows.bind fun h₁ released hg => ?_
  have hI₁ : ∀ act ∈ pending, act ∈ seen takenIn h₁ := fun a ha => seen_mono hg.1 (hI a ha)
  cases released with
  | true => exact hI₁
  | false =>
    refine ⟨⟨rfl, fun a ha => ?_⟩, fun _ _ a ha => seen_mono (prefix_append _ _) (hI₁ a ha)⟩
    rw [mem_singleton.mp ha]
    exact .inl (hI₁ act hac)

theorem drainCleanup_meets :
    (drainCleanup node).Meets possible (VerifySends node) (fun _ _ => True) hist := by
  refine ⟨rfl, fun pending _ => retryOwed_meets fun act ha => ?_⟩
  exact mem_seen_snoc ha

theorem verifyPass_meets {sweepDone : Bool} :
    (verifyPass node hosted sweepDone).Meets possible (VerifySends node) (fun _ _ => True) [] := by
  unfold verifyPass
  split
  · exact drainCleanup_meets
  · exact startupSweep_meets.bind fun _ _ _ => drainCleanup_meets

theorem handleCellExited_meets {regs : Bool} {watched : Option WatchedCell} :
    (handleCellExited node regs watched sri genId).Meets possible
      (fun _ => ExitedSends node watched sri) (ExitedEnds watched sri) [] := by
  unfold handleCellExited
  split
  · split
    · exact nofun
    · next _ cell _ =>
      refine ⟨⟨rfl, cell, rfl, rfl⟩, fun _ _ => ?_⟩
      refine (reportCellDeath_meets (fun _ => trivial) fun _ _ => trivial).mono fun h₁ r hr => ?_
      cases r with
      | error e => exact trivial
      | ok _ =>
        intro cell' hc _
        cases hc
        exact hr rfl
  · exact fun _ _ h => (h rfl).elim

theorem notifyParent_meets (he : ∀ note reason, S hist (.emitCellLost note reason)) :
    (notifyParent sri i).Meets possible S (fun _ _ => True) hist := by
  unfold notifyParent
  split
  · exact trivial
  · split
    · exact trivial
    · exact ⟨he _ _, fun _ _ => trivial⟩

theorem releaseRemnant_meets
    (h : ∃ e ∈ seen placementsIn hist, e.kind = .wasm node ∧ e.sri = remnant.1 ∧
      e.genId = remnant.2) :
    (releaseRemnant remnant).Meets possible (BootSends node) (fun _ _ => True) hist := by
  obtain ⟨e, he, hre⟩ := h
  refine meets_db trivial (fun _ => trivial) fun found => ?_
  have hgr := prefix_append hist [⟨.db (.getInstance remnant.1), .ok found⟩]
  have hlo : (remnant.1, found) ∈ seen lookedUpIn
      (hist ++ [⟨.db (.getInstance remnant.1), .ok found⟩]) :=
    mem_seen_snoc (mem_singleton_self _)
  cases (found : Option CellInstance) with
  | none => exact ⟨⟨e, seen_mono hgr he, hre⟩, fun _ _ => trivial⟩
  | some i =>
    refine (notifyParent_meets (S := BootSends node) fun _ _ => trivial).grows.bind
      fun h₁ sent hgr₁ => ?_
    cases sent with
    | false => exact trivial
    | true =>
      refine meets_db ⟨e, seen_mono (hgr.trans hgr₁.1) he, hre⟩ (fun _ => trivial) fun _ => ?_
      refine (removeInstance_meets (S := BootSends node) trivial fun hist' hgr₂ => ?_).bind
        fun _ _ _ => trivial
      exact ⟨i, seen_mono (hgr₁.1.trans ((prefix_append _ _).trans hgr₂)) hlo, rfl⟩

theorem releaseRemnants_meet (h : ∀ e ∈ cells, e ∈ seen placementsIn hist) :
    (each releaseRemnant (selectRemnants cells node [])).Meets possible (BootSends node)
      (fun _ _ => True) hist := by
  refine (meets_each (I := fun hist' => ∀ e ∈ cells, e ∈ seen placementsIn hist') h
    fun remnant hr hist' hI => ?_).mono fun _ _ _ => trivial
  obtain ⟨e, he, hk, -, hre⟩ := mem_selectRemnants hr
  exact (releaseRemnant_meets ⟨e, hI e he, hk, hre⟩).grows.mono
    fun h₁ _ hg e he => seen_mono hg.1 (hI e he)

theorem sweepPreviousIncarnation_meets :
    (sweepPreviousIncarnation node).Meets possible (BootSends node) (fun _ _ => True) [] := by
  refine meets_db trivial (fun _ => trivial) fun cells => ?_
  exact releaseRemnants_meet fun e he => mem_append_left _ he

theorem bootSweep_meets {hosted : Option Sri} :
    (bootSweep node hosted).Meets possible (EmbeddedBootSends node hosted) (fun _ _ => True) [] := by
  refine meets_db trivial (fun _ => trivial) fun cells => ?_
  refine sweepRemnants_meets fun remnant hre hist' hgr => ?_
  obtain ⟨e, he, hki, hho, hsr, hge⟩ := mem_selectRemnants hre
  have hse : e ∈ seen placementsIn hist' := seen_mono hgr (mem_append_left _ he)
  have how : ∀ h₁, hist' <+: h₁ →
      EmbeddedBootSends node hosted h₁ (.owe node [.releaseRows remnant.1 remnant.2]) := by
    intro h₁ hgr₁
    refine ⟨rfl, e, seen_mono hgr₁ hse, hki, ?_, by rw [hsr, hge]⟩
    simpa using hho
  refine meets_db trivial (fun _ => trivial) fun found => ?_
  cases (found : Option CellInstance) with
  | none => exact ⟨how _ (prefix_append _ _), fun _ _ => trivial⟩
  | some i =>
    refine (notifyParent_meets (S := EmbeddedBootSends node hosted)
      fun _ _ => trivial).grows.bind fun h₁ sent hgr₁ => ?_
    cases sent with
    | false => exact trivial
    | true => exact ⟨how _ ((prefix_append _ _).trans hgr₁.1), fun _ _ => trivial⟩

end Nodes

/-! ## All tasks -/

/-- What a task answers for. -/
def sends : OrchTask → List OrchEvent → Request → Prop
  | .deploy cells => DeploySends cells
  | .undeploy sri => UndeploySends sri
  | .hygiene watch => HygieneSends watch
  | .restarts .. => RestartSends
  | .exited node _ watched sri _ => fun _ => ExitedSends node watched sri
  | .verify node _ _ => VerifySends node
  | .boot node => BootSends node
  | .embeddedBoot node hosted => EmbeddedBootSends node hosted
  | .embeddedDrain node => VerifySends node

/-- What has happened when a task ends. -/
def ends : OrchTask → List OrchEvent → TaskResult → Prop
  | .deploy cells, history, .deployed r => DeployEnds cells history r
  | .undeploy sri, history, .undeployed r => UndeployEnds sri history r
  | .exited _ _ watched sri _, history, .reported r => ExitedEnds watched sri history r
  | _, _, _ => True

/-- **Every task keeps to its contract.** -/
theorem program_meets (task : OrchTask) :
    (program task).Meets possible (sends task) (ends task) [] := by
  cases task with
  | deploy cells => exact handleDeployCellQuery_meets.bind fun _ _ h => h
  | undeploy sri => exact undeployCell_meets.bind fun _ _ h => h
  | hygiene watch => exact hygienePass_meets.bind fun _ _ _ => trivial
  | restarts budget sweep now => exact processRootRestarts_meets.bind fun _ _ _ => trivial
  | exited node regs watched sri genId => exact handleCellExited_meets.bind fun _ _ h => h
  | verify node hosted sweepDone => exact verifyPass_meets.bind fun _ _ _ => trivial
  | boot node => exact sweepPreviousIncarnation_meets.bind fun _ _ _ => trivial
  | embeddedBoot node hosted => exact bootSweep_meets.bind fun _ _ _ => trivial
  | embeddedDrain node => exact drainCleanup_meets.bind fun _ _ _ => trivial

/-! ## Runs -/

section Runs
variable {allowed : OrchWorld → OrchAction → Prop} {start : Swarm} {w w' : OrchWorld}
  {act : OrchAction}

theorem serve_possible {fate : Fate} {req : Request} {a : req.Ans} {st : Swarm}
    {tasks : List OrchTask} (h : serve w fate req = some (a, st, tasks)) : possible req a := by
  cases req with
  | placeCells cells =>
    obtain ⟨⟨placing, _⟩, ha, hr⟩ := Option.map_eq_some_iff.mp h
    cases hr
    have hp := (Swarm.placeCells_eq_some ha).2
    cases placing with
    | error e => exact trivial
    | ok placed => exact hp placed rfl
  | _ => exact trivial

variable (h : Reached step allowed ⟨start, []⟩ w) {task : OrchTask} {s : Served}
include h

theorem keeps_of_reached : ∀ p ∈ w.procs, p.Keeps possible sends ends :=
  reached_meets program_meets serve_possible (fun _ hp => (not_mem_nil hp).elim) h

omit h in
theorem mem_of_served (hs : servedBy w act = some s) :
    ∃ next, (⟨s.task, s.history, .send s.req next⟩ : OrchRunning) ∈ w.procs ∧
      w.procs[s.index]? = some ⟨s.task, s.history, .send s.req next⟩ := by
  revert hs
  fun_cases servedBy w act <;> rintro ⟨⟩
  next next hp => exact ⟨next, mem_of_getElem? hp, hp⟩

theorem sends_of_served (hs : servedBy w act = some s) : sends s.task s.history s.req := by
  obtain ⟨next, -, hp⟩ := mem_of_served hs
  exact sends_of_keeps (keeps_of_reached h) hp

theorem ends_of_ended {p : OrchRunning} {hist : List OrchEvent} {res : TaskResult}
    (hp : p ∈ w.procs) (hd : p = ⟨task, hist, .done res⟩) : ends task hist res := by
  subst hd
  exact keeps_of_reached h _ hp

omit h

/-! ### A task on its own -/

def alone : OrchAction → Bool
  | .advance 0 _ => true
  | _ => false

theorem keeps_of_alone (h : Reached step allowed ⟨start, [begin program task]⟩ w) :
    ∀ p ∈ w.procs, p.Keeps possible sends ends := by
  refine reached_meets program_meets serve_possible (fun p hp => ?_) h
  rw [mem_singleton.mp hp]
  exact begin_keeps program_meets task

/-- What every request of a task keeps, as long as no other task takes a step. -/
theorem reached_alone {I : Swarm → List OrchEvent → Prop} (hbe : I start [])
    (hse : ∀ {w : OrchWorld} {fate : Fate} {hist : List OrchEvent} {req : Request} {a : req.Ans}
      {st : Swarm} {tasks : List OrchTask}, I w.state hist → sends task hist req →
      serve w fate req = some (a, st, tasks) → I st (hist ++ [⟨req, a⟩]))
    (h : Reached step (fun _ act => alone act = true) ⟨start, [begin program task]⟩ w) :
    ∃ hist rest, w.procs[0]? = some ⟨task, hist, rest⟩ ∧ I w.state hist := by
  induction h with
  | refl => exact ⟨[], program task, rfl, hbe⟩
  | tail act hre hal hst ih =>
    obtain ⟨hist, rest, hpr, hI⟩ := ih
    cases stepped hst with
    | @advance i fate task' hist' req next a st tasks hpr' hser =>
      cases i with
      | succ i => cases hal
      | zero =>
        rw [hpr] at hpr'
        cases hpr'
        have hju := sends_of_keeps (keeps_of_alone hre) hpr
        refine ⟨_, next a, ?_, hse hI hju hser⟩
        have hlt := (List.getElem?_eq_some_iff.mp hpr).1
        rw [List.getElem?_append_left (by rwa [length_set]), List.getElem?_set_self hlt]
    | _ => cases hal

end Runs
end Orchestration

end Myrmic
