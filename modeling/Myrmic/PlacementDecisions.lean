import Myrmic.Placement

/-!
# Decisions about placement

What a decision binds, in terms of the eligible runtimes of the cells: the cells with one eligible
runtime are bound to it, the others are assigned greedily (`triage_bound_iff`).  From this come the two results
about decisions.

* **Capacity and eligibility**: a decision places every cell once, on a runtime that meets its
  requirements and, if it is embedded, hosts nothing yet.  It keeps to one cell of the batch on an embedded
  runtime exactly if no embedded runtime is the only one for two cells of the batch
  (`placement_respects_iff`).  Otherwise triage would have found the conflict, but a batch that has a
  flexible cell too does not come there.
* **Completeness**: where the cells can be placed, they are, if every cell with several eligible runtimes
  has an unlimited one or fewer rivals than runtimes (`placement_complete`).
-/
namespace Myrmic
open GreedyAssignment List
namespace Placement
open CellMapping
variable {context : PlacementContext} {cells : List PlacementCell} {cell : PlacementCell}
  {rt : ExecRuntime} {id : RuntimeId} {a : PlacementCell × RuntimeId} {embedded : RuntimeId → Bool}
  {bindings : List CellBinding}

/-! ## Eligible runtimes -/

theorem mem_eligible :
    id ∈ eligible context cell ↔ ∃ rt ∈ context.execs, rt.id = id ∧ rejection context cell rt = none := by
  simp only [eligible, mem_map, mem_filter, Option.isNone_iff_eq_none]
  constructor
  · rintro ⟨rt, ⟨hrt, hn⟩, hid⟩
    exact ⟨rt, hrt, hid, hn⟩
  · rintro ⟨rt, hrt, hid, hn⟩
    exact ⟨rt, ⟨hrt, hn⟩, hid⟩

theorem eligible_nodup : (eligible context cell).Nodup :=
  context.distinct.sublist (filter_sublist.map _)

/-- What it takes for a runtime to be able to take a cell. -/
theorem rejection_eq_none : rejection context cell rt = none ↔ tagsRejection rt cell = none ∧
      artifactRejection cell rt context.classInfo = none ∧
      (rt.runtimeKind.isEmbedded = true → context.cellsPerRuntime rt.id = []) := by
  have hc : capacityRejection rt context = none ↔
      (rt.runtimeKind.isEmbedded = true → context.cellsPerRuntime rt.id = []) := by
    unfold capacityRejection
    by_cases he : rt.runtimeKind.isEmbedded = true
    · by_cases hem : context.cellsPerRuntime rt.id = []
      · simp [hem]
      · simp [he, hem]
    · simp [he]
  rw [rejection, Option.or_eq_none_iff, Option.or_eq_none_iff, hc]

theorem embeddedNodes_iff (hrt : rt ∈ context.execs) :
    context.embeddedNodes rt.id = true ↔ rt.runtimeKind.isEmbedded = true := by
  simp only [PlacementContext.embeddedNodes, any_eq_true, Bool.and_eq_true, decide_eq_true_eq]
  constructor
  · rintro ⟨e, he, hem, hid⟩
    rw [← inj_on_of_nodup_map context.distinct he hrt hid]
    exact hem
  · intro hem
    exact ⟨rt, hrt, hem, rfl⟩

theorem existingLoad_eq_zero (hid : id ∈ eligible context cell)
    (he : context.embeddedNodes id = true) : context.existingLoad id = 0 := by
  obtain ⟨_, hrt, rfl, hn⟩ := mem_eligible.mp hid
  have hf := (rejection_eq_none.mp hn).2.2 ((embeddedNodes_iff hrt).mp he)
  rw [PlacementContext.existingLoad, hf, length_nil]

/-! ## Forced and flexible cells -/

def forcedPair (context : PlacementContext) (cell : PlacementCell) :
    Option (PlacementCell × RuntimeId) :=
  match eligible context cell with
  | [id] => some (cell, id)
  | _ => none

def isFlexible (context : PlacementContext) (cell : PlacementCell) : Bool :=
  2 ≤ (eligible context cell).length

/-- The flexible cells, the most constrained ones first. -/
def flexibleCells (context : PlacementContext) (cells : List PlacementCell) : List PlacementCell :=
  (cells.filter (isFlexible context)).insertionSort fun a b =>
    (eligible context a).length ≤ (eligible context b).length

def toBinding (a : PlacementCell × RuntimeId) : CellBinding := ⟨a.1.sri, a.2⟩

def forcedLoad (context : PlacementContext) (cells : List PlacementCell) : RuntimeId → Nat :=
  (cells.filterMap (forcedPair context)).foldl (fun load a => bump load a.2) context.existingLoad

theorem forced_mapping :
    (mappingForCell context cell).forced = (forcedPair context cell).map toBinding := by
  unfold forcedPair mappingForCell forced
  rcases eligible context cell with _ | ⟨id, _ | ⟨id', ids⟩⟩ <;> rfl

theorem flexible_mapping : (mappingForCell context cell).flexible =
      if isFlexible context cell then some (cell.sri, eligible context cell) else none := by
  unfold isFlexible mappingForCell flexible
  rcases eligible context cell with _ | ⟨id, _ | ⟨id', ids⟩⟩ <;> rfl

theorem isUntrivial_mapping :
    (mappingForCell context cell).isUntrivial = isFlexible context cell := by
  unfold isFlexible mappingForCell isUntrivial
  rcases eligible context cell with _ | ⟨id, _ | ⟨id', ids⟩⟩ <;> rfl

theorem infeasibility_mapping :
    (mappingForCell context cell).infeasibility = none ↔ eligible context cell ≠ [] := by
  unfold mappingForCell infeasibility
  rcases eligible context cell with _ | ⟨id, _ | ⟨id', ids⟩⟩ <;> simp

theorem mem_forcedPairs :
    a ∈ cells.filterMap (forcedPair context) ↔ a.1 ∈ cells ∧ eligible context a.1 = [a.2] := by
  obtain ⟨c, _⟩ := a
  simp only [mem_filterMap, forcedPair]
  constructor
  · rintro ⟨_, hc, heq⟩
    split at heq
    · next id' hid =>
      cases heq
      exact ⟨hc, hid⟩
    · cases heq
  · rintro ⟨hc, hid⟩
    exact ⟨c, hc, by simp [hid]⟩

/-! ## What is bound -/

/-- The optimizer's loop is a greedy assignment of the flexible cells. -/
theorem spread_eq_place {load : RuntimeId → Nat} (flexible : List PlacementCell) :
    spread embedded load (flexible.map fun c => (c.sri, eligible context c)) =
      (place embedded load (flexible.map fun c => (c, eligible context c))).map
        (List.map toBinding) := by
  induction flexible generalizing load with
  | nil => rfl
  | cons c flexible ih =>
    simp only [map_cons, spread, place, pickLeastLoaded]
    cases leastLoaded embedded (eligible context c) load with
    | none => rfl
    | some id =>
      simp only [ih, Option.map_map]
      rfl

theorem forced_mappings : (cells.map (mappingForCell context)).filterMap forced =
      (cells.filterMap (forcedPair context)).map toBinding := by
  rw [filterMap_map, map_filterMap]
  exact filterMap_congr fun c _ => forced_mapping

theorem flexible_mappings : ((cells.map (mappingForCell context)).filterMap flexible).insertionSort
        (fun a b => a.2.length ≤ b.2.length) =
      (flexibleCells context cells).map fun c => (c.sri, eligible context c) := by
  have hf : (cells.map (mappingForCell context)).filterMap flexible =
      (cells.filter (isFlexible context)).map fun c => (c.sri, eligible context c) := by
    rw [filterMap_map, ← filterMap_eq_filter, map_filterMap]
    refine filterMap_congr fun c _ => ?_
    rw [Function.comp_apply, flexible_mapping]
    by_cases hc : isFlexible context c = true
    · simp [hc, Option.guard]
    · simp [hc, Option.guard]
  rw [hf, flexibleCells]
  symm
  apply map_insertionSort
  intro a _ b _
  rfl

/-- What the optimizer binds: the forced cells, and the greedy assignment of the others. -/
theorem bindUntrivialMappings_eq :
    bindUntrivialMappings (cells.map (mappingForCell context)) context.embeddedNodes
        context.existingLoad = (place context.embeddedNodes (forcedLoad context cells)
        ((flexibleCells context cells).map fun c => (c, eligible context c))).map
        fun spreadOut => (cells.filterMap (forcedPair context) ++ spreadOut).map toBinding := by
  have hl : ((cells.filterMap (forcedPair context)).map toBinding).foldl
      (fun load b => bump load b.rtId) context.existingLoad = forcedLoad context cells := by
    rw [foldl_map]
    rfl
  simp only [bindUntrivialMappings, forced_mappings, flexible_mappings, hl, spread_eq_place]
  rw [Option.map_map]
  refine congrArg (fun f => Option.map f _) (funext fun spreadOut => ?_)
  simp

theorem forcedLoad_eq : forcedLoad context cells id = context.existingLoad id +
      ((cells.filterMap (forcedPair context)).map Prod.snd).count id := by
  unfold forcedLoad
  generalize context.existingLoad = load
  generalize cells.filterMap (forcedPair context) = pairs
  induction pairs generalizing load with
  | nil => rfl
  | cons a pairs ih =>
    rw [foldl_cons, ih, map_cons, count_cons]
    by_cases h : a.2 = id
    · subst h
      simp [bump]
      omega
    · simp [bump, h, Function.update_of_ne (Ne.symm h)]

/-- The pairs that a batch is bound by: the forced cells, and what the others were assigned. -/
structure Bound (context : PlacementContext) (cells : List PlacementCell)
    (spreadOut : List (PlacementCell × RuntimeId)) : Prop where
  eligible : ∀ c ∈ cells, eligible context c ≠ []
  spreadOut : place context.embeddedNodes (forcedLoad context cells)
    ((flexibleCells context cells).map fun c => (c, Placement.eligible context c)) = some spreadOut
  conflict : (∃ c ∈ cells, isFlexible context c = true) ∨ ∀ id, context.embeddedNodes id = true →
    ((cells.filterMap (forcedPair context)).map Prod.snd).count id ≤ 1

theorem mem_flexibleCells :
    cell ∈ flexibleCells context cells ↔ cell ∈ cells ∧ isFlexible context cell = true :=
  (perm_insertionSort _ _).mem_iff.trans mem_filter

theorem flexibleCells_eq_nil (h : ∀ c ∈ cells, isFlexible context c = false) :
    flexibleCells context cells = [] := by
  have hn : cells.filter (isFlexible context) = [] :=
    filter_eq_nil_iff.mpr fun c hc => by simp [h c hc]
  rw [flexibleCells, hn, insertionSort_nil]

variable (context cells) in
theorem preprocess_cases :
    (∃ c ∈ cells, eligible context c = []) ∧ (∃ infeasible, preprocess cells context =
        .infeasible infeasible) ∨ (∀ c ∈ cells, eligible context c ≠ []) ∧
        ((∃ c ∈ cells, isFlexible context c = true) ∧
            preprocess cells context = .untrivial (cells.map (mappingForCell context)) ∨
          (∀ c ∈ cells, isFlexible context c = false) ∧
            preprocess cells context = .trivial (cells.map (mappingForCell context))) := by
  unfold preprocess
  by_cases hin : (cells.map (mappingForCell context)).filterMap infeasibility = []
  · refine .inr ⟨fun c hc => ?_, ?_⟩
    · have hno := filterMap_eq_nil_iff.mp hin _ (mem_map_of_mem hc)
      exact infeasibility_mapping.mp hno
    · simp only [hin, ne_eq, not_true_eq_false, if_false]
      by_cases han : (cells.map (mappingForCell context)).any isUntrivial = true
      · obtain ⟨m, hm, hun⟩ := any_eq_true.mp han
        obtain ⟨c, hc, rfl⟩ := mem_map.mp hm
        rw [isUntrivial_mapping] at hun
        exact .inl ⟨⟨c, hc, hun⟩, if_pos han⟩
      · refine .inr ⟨fun c hc => ?_, if_neg han⟩
        by_contra hfl
        refine han (any_eq_true.mpr ⟨_, mem_map_of_mem hc, ?_⟩)
        rw [isUntrivial_mapping]
        exact Bool.of_not_eq_false hfl
  · refine .inl ⟨?_, _, if_pos hin⟩
    by_contra hno
    refine hin (filterMap_eq_nil_iff.mpr fun m hm => ?_)
    obtain ⟨c, hc, rfl⟩ := mem_map.mp hm
    exact infeasibility_mapping.mpr fun hem => hno ⟨c, hc, hem⟩

/-- Triage finds the forced cells that share an embedded runtime, if all cells are forced. -/
theorem bindTrivial_eq_bound {mappings : List CellMapping}
    : bindTrivial mappings embedded = .bound bindings ↔
      bindings = mappings.filterMap forced ∧ ∀ id, embedded id = true →
        ((mappings.filterMap forced).map CellBinding.rtId).count id ≤ 1 := by
  unfold bindTrivial
  generalize mappings.filterMap forced = forced
  generalize hli : (forced.map CellBinding.rtId).filter embedded = limited
  have hcou : ∀ id, embedded id = true →
      limited.count id = (forced.map CellBinding.rtId).count id := by
    intro id hid
    rw [← hli, count_filter hid]
  by_cases hco : limited.any (fun id => 1 < limited.count id) = true
  · simp only [hli, hco, if_true, reduceCtorEq, false_iff, not_and]
    intro _ hsi
    obtain ⟨id, hid, hma⟩ := any_eq_true.mp hco
    have hem : embedded id = true := by
      rw [← hli] at hid
      exact (mem_filter.mp hid).2
    have hon := hsi id hem
    rw [← hcou id hem] at hon
    simp only [decide_eq_true_eq] at hma
    omega
  · simp only [hli, hco, if_false, TriageOutcome.bound.injEq, Bool.false_eq_true]
    refine ⟨fun heq => ⟨heq.symm, fun id hid => ?_⟩, fun heq => heq.1.symm⟩
    by_contra hma
    refine hco (any_eq_true.mpr ⟨id, ?_, ?_⟩)
    · exact count_pos_iff.mp (by rw [hcou id hid]; omega)
    · simp only [decide_eq_true_eq]
      rw [hcou id hid]
      omega

/-- **What triage binds.** -/
theorem triage_bound_iff :
    triage (preprocess cells context) context.embeddedNodes context.existingLoad = .bound bindings ↔
      ∃ spreadOut, Bound context cells spreadOut ∧
        bindings = (cells.filterMap (forcedPair context) ++ spreadOut).map toBinding := by
  rcases preprocess_cases context cells with
    ⟨⟨c, hc, hem⟩, _, heq⟩ | ⟨hel, ⟨hfl, heq⟩ | ⟨hfo, heq⟩⟩
  · rw [heq]
    simp only [triage, reduceCtorEq, false_iff, not_exists, not_and]
    exact fun spreadOut hbo => absurd hem (hbo.eligible c hc)
  · rw [heq]
    simp only [triage, bindUntrivial, bindUntrivialMappings_eq]
    constructor
    · intro h
      split at h
      · next bindings' hso =>
        cases h
        obtain ⟨spreadOut, hpl, rfl⟩ := Option.map_eq_some_iff.mp hso
        exact ⟨spreadOut, ⟨hel, hpl, .inl hfl⟩, rfl⟩
      · cases h
    · rintro ⟨spreadOut, hbo, rfl⟩
      rw [hbo.spreadOut]
      rfl
  · rw [heq]
    have hpa : ((cells.map (mappingForCell context)).filterMap forced).map
        CellBinding.rtId = (cells.filterMap (forcedPair context)).map Prod.snd := by
      rw [forced_mappings, map_map]
      rfl
    simp only [triage, bindTrivial_eq_bound, hpa]
    constructor
    · rintro ⟨rfl, hsi⟩
      refine ⟨[], ⟨hel, ?_, .inr hsi⟩, ?_⟩
      · rw [flexibleCells_eq_nil hfo]
        rfl
      · rw [append_nil, forced_mappings]
    · rintro ⟨spreadOut, hbo, rfl⟩
      have hsp := hbo.spreadOut
      rw [flexibleCells_eq_nil hfo] at hsp
      cases hsp
      refine ⟨by rw [append_nil, forced_mappings], ?_⟩
      rcases hbo.conflict with ⟨c, hc, hfl⟩ | hsi
      · rw [hfo c hc] at hfl
        cases hfl
      · exact hsi

namespace Bound
variable {spreadOut : List (PlacementCell × RuntimeId)}

theorem mem_eligible (h : Bound context cells spreadOut)
    (ha : a ∈ cells.filterMap (forcedPair context) ++ spreadOut) :
    a.2 ∈ Placement.eligible context a.1 := by
  rcases mem_append.mp ha with ha | ha
  · rw [(mem_forcedPairs.mp ha).2]
    exact mem_singleton_self _
  · obtain ⟨_, hj, hin⟩ := place_mem h.spreadOut a ha
    obtain ⟨c, -, heq⟩ := mem_map.mp hj
    cases heq
    exact hin

theorem forced_fst (h : ∀ c ∈ cells, Placement.eligible context c ≠ []) :
    (cells.filterMap (forcedPair context)).map Prod.fst =
      cells.filter fun c => !isFlexible context c := by
  rw [map_filterMap, ← filterMap_eq_filter]
  refine filterMap_congr fun c hc => ?_
  have hne := h c hc
  rcases ho : Placement.eligible context c with _ | ⟨id, _ | ⟨id', ids⟩⟩
  · exact absurd ho hne
  · simp [forcedPair, isFlexible, ho, Option.guard]
  · simp [forcedPair, isFlexible, ho, Option.guard]

variable (h : Bound context cells spreadOut)
include h

theorem spread_fst : spreadOut.map Prod.fst = flexibleCells context cells := by
  rw [place_fst h.spreadOut, map_map]
  exact map_id _

theorem perm : ((cells.filterMap (forcedPair context) ++ spreadOut).map Prod.fst).Perm cells := by
  rw [map_append, forced_fst h.eligible, h.spread_fst]
  have hs : (flexibleCells context cells).Perm (cells.filter (isFlexible context)) :=
    perm_insertionSort _ _
  refine (List.Perm.append_left _ hs).trans (perm_append_comm.trans ?_)
  exact filter_append_perm _ _

/-- **What embedded runtimes get**: at least the cells that are forced onto them, and no more than that
unless it is the one cell they can take. -/
theorem count_le (he : context.embeddedNodes id = true) :
    ((cells.filterMap (forcedPair context) ++ spreadOut).map Prod.snd).count id ≤
      max 1 (((cells.filterMap (forcedPair context)).map Prod.snd).count id) := by
  have hp := place_single h.spreadOut he
  rw [forcedLoad_eq] at hp
  rw [map_append, count_append]
  by_cases han : ∃ a ∈ cells.filterMap (forcedPair context) ++ spreadOut, a.2 = id
  · obtain ⟨a, ha, rfl⟩ := han
    rw [existingLoad_eq_zero (h.mem_eligible ha) he] at hp
    omega
  · have hn : ((cells.filterMap (forcedPair context) ++ spreadOut).map Prod.snd).count id = 0 := by
      refine count_eq_zero.mpr fun hm => han ?_
      obtain ⟨a, ha, hid⟩ := mem_map.mp hm
      exact ⟨a, ha, hid⟩
    rw [map_append, count_append] at hn
    omega

end Bound

/-! ## Decisions -/

theorem find?_of_nodup {α β : Type} [DecidableEq β] {key : α → β} {rows : List α} {a : α}
    (hn : (rows.map key).Nodup) (ha : a ∈ rows) :
    rows.reverse.find? (fun b => key b = key a) = some a := by
  cases hf : rows.reverse.find? fun b => key b = key a with
  | none =>
    have hno := List.find?_eq_none.mp hf a (mem_reverse.mpr ha)
    simp at hno
  | some b =>
    have hk : key b = key a := by simpa using List.find?_some hf
    have hm := mem_reverse.mp (mem_of_find?_eq_some hf)
    rw [inj_on_of_nodup_map hn hm ha hk]

variable (hs : (cells.map PlacementCell.sri).Nodup) {pls : List CellPlacement}
include hs

/-- A binding leads back to its cell and its runtime. -/
theorem resolve_pair (hc : a.1 ∈ cells) (hid : a.2 ∈ eligible context a.1) :
    ∃ rt ∈ context.execs, rt.id = a.2 ∧ rejection context a.1 rt = none ∧
      resolve cells context (toBinding a) = some ⟨a.1, rt⟩ := by
  obtain ⟨rt, hrt, hr, hn⟩ := mem_eligible.mp hid
  refine ⟨rt, hrt, hr, hn, ?_⟩
  have hf : cells.reverse.find? (fun c => c.sri = (toBinding a).sri) = some a.1 :=
    find?_of_nodup hs hc
  have hf' : context.execs.reverse.find? (fun e => e.id = (toBinding a).rtId) = some rt := by
    rw [show (toBinding a).rtId = rt.id from hr.symm]
    exact find?_of_nodup context.distinct hrt
  unfold resolve
  rw [hf, hf']
  rfl

/-- What placements are made of. -/
structure Resolved (context : PlacementContext) (pairs : List (PlacementCell × RuntimeId))
    (placements : List CellPlacement) : Prop where
  cells : placements.map CellPlacement.cell = pairs.map Prod.fst
  ids : placements.map (fun p => p.runtime.id) = pairs.map Prod.snd
  eligible : ∀ p ∈ placements, p.runtime ∈ context.execs ∧ rejection context p.cell p.runtime = none

theorem resolved_pairs {pairs : List (PlacementCell × RuntimeId)}
    (hpa : ∀ a ∈ pairs, a.1 ∈ cells ∧ a.2 ∈ eligible context a.1) :
    Resolved context pairs ((pairs.map toBinding).filterMap (resolve cells context)) := by
  induction pairs with
  | nil => exact ⟨rfl, rfl, nofun⟩
  | cons a pairs ih =>
    obtain ⟨hc, hid⟩ := hpa a mem_cons_self
    obtain ⟨_, hrt, hrti, hn, hre⟩ := resolve_pair hs hc hid
    have hr := ih fun b hb => hpa b (mem_cons_of_mem a hb)
    rw [map_cons, filterMap_cons_some hre]
    refine ⟨?_, ?_, forall_mem_cons.mpr ⟨⟨hrt, hn⟩, hr.eligible⟩⟩
    · rw [map_cons, map_cons, hr.cells]
    · rw [map_cons, map_cons, hr.ids, hrti]

omit hs in
theorem decideCellPlacement_eq_ok : decideCellPlacement cells context = .ok pls ↔
      context.execs ≠ [] ∧ unknownClass cells context = none ∧ ∃ spreadOut,
        Bound context cells spreadOut ∧ pls =
          ((cells.filterMap (forcedPair context) ++ spreadOut).map toBinding).filterMap
            (resolve cells context) := by
  unfold decideCellPlacement
  by_cases hex : context.execs = []
  · simp [hex]
  · rw [if_neg hex]
    cases hcl : unknownClass cells context with
    | some cls => simp
    | none =>
      simp only [ne_eq, hex, not_false_eq_true, true_and]
      constructor
      · intro h
        split at h
        · next bindings hbo =>
          obtain ⟨spreadOut, hsp, rfl⟩ := triage_bound_iff.mp hbo
          exact ⟨spreadOut, hsp, (Except.ok.inj h).symm⟩
        · cases h
        · cases h
      · rintro ⟨spreadOut, hsp, rfl⟩
        rw [triage_bound_iff.mpr ⟨spreadOut, hsp, rfl⟩]

theorem exists_resolved (h : decideCellPlacement cells context = .ok pls) :
    ∃ spreadOut, Bound context cells spreadOut ∧
      Resolved context (cells.filterMap (forcedPair context) ++ spreadOut) pls := by
  obtain ⟨-, -, spreadOut, hb, rfl⟩ := decideCellPlacement_eq_ok.mp h
  exact ⟨spreadOut, hb, resolved_pairs hs fun a ha =>
    ⟨hb.perm.mem_iff.mp (mem_map_of_mem ha), hb.mem_eligible ha⟩⟩

omit hs

/-! ## Capacity and eligibility -/

/-- A runtime takes a cell: it has its tags and its artifact. -/
def Meets (context : PlacementContext) (cell : PlacementCell) (rt : ExecRuntime) : Prop :=
  tagsRejection rt cell = none ∧ artifactRejection cell rt context.classInfo = none

/-- **A placement respects capacity and eligibility.** -/
structure Respects (context : PlacementContext) (cells : List PlacementCell)
    (placements : List CellPlacement) : Prop where
  once : (placements.map CellPlacement.cell).Perm cells
  meets : ∀ p ∈ placements, p.runtime ∈ context.execs ∧ Meets context p.cell p.runtime
  free : ∀ p ∈ placements, p.runtime.runtimeKind.isEmbedded = true →
    context.cellsPerRuntime p.runtime.id = []
  single : ∀ rt ∈ context.execs, rt.runtimeKind.isEmbedded = true →
    (placements.map fun p => p.runtime.id).count rt.id ≤ 1

/-- The cells of a batch that have a runtime as their only eligible one. -/
def forcedOnto (context : PlacementContext) (cells : List PlacementCell) (id : RuntimeId) :
    List PlacementCell :=
  cells.filter fun c => eligible context c = [id]

theorem forcedOnto_length : (forcedOnto context cells id).length =
      ((cells.filterMap (forcedPair context)).map Prod.snd).count id := by
  unfold forcedOnto
  induction cells with
  | nil => rfl
  | cons c cells ih =>
    rcases ho : eligible context c with _ | ⟨id', _ | ⟨id'', ids⟩⟩
    · rw [filter_cons_of_neg (by simp [ho]), filterMap_cons_none (by simp [forcedPair, ho]), ih]
    · rw [filterMap_cons_some (b := (c, id')) (by simp [forcedPair, ho]), map_cons, count_cons]
      by_cases hid : id' = id
      · rw [filter_cons_of_pos (by simp [ho, hid]), length_cons, ih]
        simp [hid]
      · rw [filter_cons_of_neg (by simp [ho, hid]), ih]
        simp [hid]
    · rw [filter_cons_of_neg (by simp [ho]), filterMap_cons_none (by simp [forcedPair, ho]), ih]

/-- **A decision respects capacity and eligibility exactly if no embedded runtime is the only one for two
cells of the batch.** -/
theorem placement_respects_iff {placements : List CellPlacement}
    (hsris : (cells.map PlacementCell.sri).Nodup)
    (h : decideCellPlacement cells context = .ok placements) :
    Respects context cells placements ↔ ∀ rt ∈ context.execs,
      rt.runtimeKind.isEmbedded = true → (forcedOnto context cells rt.id).length ≤ 1 := by
  obtain ⟨spreadOut, hbo, hre⟩ := exists_resolved hsris h
  have hco : ∀ id, context.embeddedNodes id = true → (forcedOnto context cells id).length ≤
          ((cells.filterMap (forcedPair context) ++ spreadOut).map Prod.snd).count id ∧
        ((cells.filterMap (forcedPair context) ++ spreadOut).map Prod.snd).count id ≤
          max 1 (forcedOnto context cells id).length := by
    intro id hem
    rw [forcedOnto_length]
    refine ⟨?_, hbo.count_le hem⟩
    rw [map_append, count_append]
    exact Nat.le_add_right _ _
  constructor
  · intro hres rt hrt hem
    have hsi := hres.single rt hrt hem
    rw [hre.ids] at hsi
    exact (hco rt.id ((embeddedNodes_iff hrt).mpr hem)).1.trans hsi
  · intro hfo
    refine ⟨?_, fun p hp => ?_, fun p hp hem => ?_, fun rt hrt hem => ?_⟩
    · rw [hre.cells]
      exact hbo.perm
    · obtain ⟨hrt, hno⟩ := hre.eligible p hp
      obtain ⟨hta, har, -⟩ := rejection_eq_none.mp hno
      exact ⟨hrt, hta, har⟩
    · exact (rejection_eq_none.mp (hre.eligible p hp).2).2.2 hem
    · rw [hre.ids]
      have hle := (hco rt.id ((embeddedNodes_iff hrt).mpr hem)).2
      have hon := hfo rt hrt hem
      omega

/-! ## Completeness -/

structure Assignment (context : PlacementContext) (cells : List PlacementCell)
    (assigned : List (PlacementCell × ExecRuntime)) : Prop where
  cells : assigned.map Prod.fst = cells
  meets : ∀ a ∈ assigned, a.2 ∈ context.execs ∧ Meets context a.1 a.2
  free : ∀ a ∈ assigned, a.2.runtimeKind.isEmbedded = true → context.cellsPerRuntime a.2.id = []
  single : ∀ rt ∈ context.execs, rt.runtimeKind.isEmbedded = true →
    (assigned.map fun a => a.2.id).count rt.id ≤ 1

/-- The cells of a batch that compete with a cell, itself included: they share an eligible runtime with
it and do not have more of them. -/
def rivals (context : PlacementContext) (cells : List PlacementCell) (cell : PlacementCell) : Nat :=
  cells.countP fun c => shares (eligible context c) (eligible context cell) &&
    decide ((eligible context c).length ≤ (eligible context cell).length)

/-- **The condition**: a cell with several eligible runtimes has one that is not embedded, or no more
rivals than runtimes. -/
def Spared (context : PlacementContext) (cells : List PlacementCell) : Prop :=
  ∀ c ∈ cells, isFlexible context c = true →
    (∃ id ∈ eligible context c, context.embeddedNodes id = false) ∨
      rivals context cells c ≤ (eligible context c).length

section Completeness
variable {asg : List (PlacementCell × ExecRuntime)} (h : Assignment context cells asg)
  {pre after : List PlacementCell}
include h

theorem Assignment.mem_eligible {a : PlacementCell × ExecRuntime} (ha : a ∈ asg) :
    a.2.id ∈ eligible context a.1 := by
  obtain ⟨hrt, ht, har⟩ := h.meets a ha
  exact Placement.mem_eligible.mpr ⟨a.2, hrt, rfl, rejection_eq_none.mpr ⟨ht, har, h.free a ha⟩⟩

theorem Assignment.exists_of_mem (hc : cell ∈ cells) : ∃ rt, (cell, rt) ∈ asg := by
  rw [← h.cells] at hc
  obtain ⟨⟨c, rt⟩, ha, rfl⟩ := mem_map.mp hc
  exact ⟨rt, ha⟩

theorem Assignment.unknownClass : unknownClass cells context = none := by
  refine List.findSome?_eq_none_iff.mpr fun c hc => ?_
  obtain ⟨_, ha⟩ := h.exists_of_mem hc
  split
  · next cls hcl =>
    by_cases hu : context.classInfo cls = none
    · have hre := (h.meets _ ha).2.2
      unfold artifactRejection at hre
      rw [hcl] at hre
      simp only [hu, hasAot] at hre
      split at hre <;> simp at hre
    · rw [if_neg hu]
  · rfl

/-- Cells that are forced onto an embedded runtime sit there in every assignment. -/
theorem Assignment.forced_le_one (he : context.embeddedNodes id = true) :
    ((cells.filterMap (forcedPair context)).map Prod.snd).count id ≤ 1 := by
  obtain ⟨rt, hrt, hk⟩ := any_eq_true.mp he
  simp only [Bool.and_eq_true, decide_eq_true_eq] at hk
  have hs := h.single rt hrt hk.1
  rw [hk.2] at hs
  refine le_trans ?_ hs
  rw [← forcedOnto_length, forcedOnto, ← countP_eq_length_filter]
  have hc := h.cells
  rw [← hc, countP_map, List.count, countP_map]
  refine countP_mono_left fun a ha hf => ?_
  have hin := h.mem_eligible ha
  simp only [Function.comp_apply, decide_eq_true_eq] at hf
  rw [hf] at hin
  simpa using mem_singleton.mp hin

omit h

/-- Different options that occur in a list take up different places of it. -/
theorem countP_occurs_le {opts ids : List RuntimeId} (hn : opts.Nodup) :
    opts.countP (fun p => 1 ≤ ids.count p) ≤ ids.countP fun id => id ∈ opts := by
  rw [countP_eq_length_filter, countP_eq_length_filter]
  refine ((hn.filter _).subperm fun p hp => ?_).length_le
  obtain ⟨hp, hc⟩ := mem_filter.mp hp
  refine mem_filter.mpr ⟨count_pos_iff.mp ?_, decide_eq_true hp⟩
  exact of_decide_eq_true hc

/-- The busy runtimes of a flexible cell that has embedded ones only are those of forced rivals. -/
theorem busy_le_forced (hem : ∀ id ∈ eligible context cell, context.embeddedNodes id = true) :
    busy (forcedLoad context cells) (eligible context cell) ≤
      (cells.filterMap (forcedPair context)).countP fun a =>
        shares (eligible context a.1) (eligible context cell) := by
  have hlo : ∀ id ∈ eligible context cell, forcedLoad context cells id =
      ((cells.filterMap (forcedPair context)).map Prod.snd).count id := by
    intro id hid
    rw [forcedLoad_eq, existingLoad_eq_zero hid (hem id hid), Nat.zero_add]
  calc busy (forcedLoad context cells) (eligible context cell)
      = (eligible context cell).countP (fun p =>
          1 ≤ ((cells.filterMap (forcedPair context)).map Prod.snd).count p) := by
        refine countP_congr fun id hid => ?_
        rw [hlo id hid]
    _ ≤ ((cells.filterMap (forcedPair context)).map Prod.snd).countP
          (fun id => id ∈ eligible context cell) := countP_occurs_le eligible_nodup
    _ ≤ (cells.filterMap (forcedPair context)).countP fun a =>
          shares (eligible context a.1) (eligible context cell) := by
        rw [countP_map]
        refine countP_mono_left fun a ha hin => ?_
        rw [(mem_forcedPairs.mp ha).2]
        simpa [shares] using hin

abbrev rivalOf (context : PlacementContext) (cell c : PlacementCell) : Bool :=
  shares (eligible context c) (eligible context cell) &&
    decide ((eligible context c).length ≤ (eligible context cell).length)

theorem rivals_eq (he : ∀ c ∈ cells, eligible context c ≠ []) : rivals context cells cell =
      (cells.filterMap (forcedPair context)).countP (fun a => rivalOf context cell a.1) +
        (flexibleCells context cells).countP (rivalOf context cell) := by
  have hfo : (cells.filterMap (forcedPair context)).countP (fun a => rivalOf context cell a.1) =
      (cells.filter fun c => !isFlexible context c).countP (rivalOf context cell) := by
    rw [← Bound.forced_fst he, countP_map]
    rfl
  have hf : (flexibleCells context cells).countP (rivalOf context cell) =
      (cells.filter (isFlexible context)).countP (rivalOf context cell) :=
    (perm_insertionSort _ _).countP_eq _
  rw [hfo, hf, Nat.add_comm, ← countP_append]
  exact ((filter_append_perm _ _).countP_eq _).symm

theorem length_le_of_before (h : flexibleCells context cells = pre ++ cell :: after) :
    ∀ c ∈ pre, (eligible context c).length ≤ (eligible context cell).length := by
  have hs : (flexibleCells context cells).Pairwise fun a b =>
      (eligible context a).length ≤ (eligible context b).length := by
    exact pairwise_insertionSort _ _
  rw [h] at hs
  intro c hc
  exact (pairwise_append.mp hs).2.2 c hc cell mem_cons_self

/-- A flexible cell that is spared finds a runtime, whatever those before it have taken. -/
theorem spared_of_before (hel : ∀ c ∈ cells, eligible context c ≠ [])
    (hem : ∀ id ∈ eligible context cell, context.embeddedNodes id = true)
    (h : flexibleCells context cells = pre ++ cell :: after)
    (hri : rivals context cells cell ≤ (eligible context cell).length) :
    busy (forcedLoad context cells) (eligible context cell) +
        pre.countP (fun c => shares (eligible context c) (eligible context cell)) <
      (eligible context cell).length := by
  have hce : cell ∈ cells ∧ isFlexible context cell = true := by
    rw [← mem_flexibleCells, h]
    exact mem_append_right _ mem_cons_self
  have hse : rivalOf context cell cell = true := by
    obtain ⟨id, hid⟩ := exists_mem_of_ne_nil _ (hel cell hce.1)
    exact Bool.and_eq_true_iff.mpr
      ⟨any_eq_true.mpr ⟨id, hid, decide_eq_true hid⟩, decide_eq_true (le_refl _)⟩
  have hfo : busy (forcedLoad context cells) (eligible context cell) ≤
      (cells.filterMap (forcedPair context)).countP (fun a => rivalOf context cell a.1) := by
    refine (busy_le_forced hem).trans (countP_mono_left fun a ha hsh => ?_)
    refine Bool.and_eq_true_iff.mpr ⟨hsh, decide_eq_true ?_⟩
    rw [(mem_forcedPairs.mp ha).2]
    exact length_pos_of_ne_nil (hel cell hce.1)
  have hbe : pre.countP (fun c => shares (eligible context c) (eligible context cell)) ≤
      pre.countP (rivalOf context cell) :=
    countP_mono_left fun c hc hsh =>
      Bool.and_eq_true_iff.mpr ⟨hsh, decide_eq_true (length_le_of_before h c hc)⟩
  rw [rivals_eq hel, h, countP_append, countP_cons_of_pos hse] at hri
  omega

/-- **Placement is complete where cells are spared**: if the batch can be placed, it is. -/
theorem placement_complete (hspared : Spared context cells)
    (hexecs : cells = [] → context.execs ≠ []) (h : ∃ assigned, Assignment context cells assigned) :
    ∃ placements, decideCellPlacement cells context = .ok placements := by
  obtain ⟨assigned, h⟩ := h
  have hel : ∀ c ∈ cells, eligible context c ≠ [] := by
    intro c hc
    obtain ⟨_, ha⟩ := h.exists_of_mem hc
    exact ne_nil_of_mem (h.mem_eligible ha)
  have hpl : ∃ spreadOut, place context.embeddedNodes (forcedLoad context cells)
      ((flexibleCells context cells).map fun c => (c, eligible context c)) = some spreadOut := by
    refine exists_place (fun job hjo => ?_) fun before job after heq => ?_
    · obtain ⟨c, -, rfl⟩ := mem_map.mp hjo
      exact eligible_nodup
    · obtain ⟨_, _, hfl, rfl, hre⟩ := map_eq_append_iff.mp heq
      obtain ⟨c, _, rfl, rfl, rfl⟩ := map_eq_cons_iff.mp hre
      have hme : c ∈ cells ∧ isFlexible context c = true := by
        rw [← mem_flexibleCells, hfl]
        exact mem_append_right _ mem_cons_self
      by_cases hli : ∃ id ∈ eligible context c, context.embeddedNodes id = false
      · exact .inl hli
      · right
        have hem : ∀ id ∈ eligible context c, context.embeddedNodes id = true :=
          fun id hid => Bool.of_not_eq_false fun hfa => hli ⟨id, hid, hfa⟩
        rw [countP_map]
        exact spared_of_before hel hem hfl ((hspared c hme.1 hme.2).resolve_left hli)
  obtain ⟨spreadOut, hsp⟩ := hpl
  refine ⟨_, decideCellPlacement_eq_ok.mpr ⟨?_, h.unknownClass, spreadOut,
    ⟨hel, hsp, .inr fun id hid => h.forced_le_one hid⟩, rfl⟩⟩
  rcases assigned with _ | ⟨a, assigned⟩
  · exact hexecs h.cells.symm
  · exact ne_nil_of_mem (h.meets a mem_cons_self).1

end Completeness

/-! ## Samples -/

namespace Sample

def runtime (n : UInt8) (tags : List String) : ExecRuntime :=
  ⟨.fill 16 n, tags⟩

def cls : BlobHash := .fill 32 0

/-- A wasm class that was compiled for embedded runtimes too. -/
def classInfo : BlobHash → Option ClassInfo := fun _ => some (.wasm [(.riscv32imac, cls)] [])

def wasmCell (n : UInt8) (tags : List String) : PlacementCell :=
  ⟨⟨.fill 16 n, some cls, none, .root, ⟨.never, 0, 0, 0⟩⟩,
    tags⟩

/-- One embedded runtime and two that are not. -/
def mixedFleet : PlacementContext where
  execs := [runtime 1 ["esp32c6", "radio"], runtime 2 ["linux"], runtime 3 ["linux"]]
  classInfo := classInfo
  hosted := []
  distinct := by decide +kernel

/-- Two cells for the embedded runtime, and one that can go to two others. -/
def mixedBatch : List PlacementCell :=
  [wasmCell 1 ["radio"], wasmCell 2 ["radio"], wasmCell 3 ["linux"]]

def embeddedFleet : PlacementContext where
  execs := [runtime 1 ["esp32c6", "radio"], runtime 2 ["esp32c6", "radio", "relay"],
    runtime 3 ["esp32c6", "relay"]]
  classInfo := classInfo
  hosted := []
  distinct := by decide +kernel

/-- Two cells for the first two of them, and between them one for the last two. -/
def tightBatch : List PlacementCell := [wasmCell 1 ["radio"], wasmCell 2 ["relay"], wasmCell 3 ["radio"]]

/-- What is decided for a batch satisfies a test. -/
def decidesOn (cells : List PlacementCell) (context : PlacementContext)
    (test : List CellPlacement → Bool) : Bool :=
  match decideCellPlacement cells context with
  | .ok placements => test placements
  | .error _ => false

theorem exists_of_decidesOn {cells : List PlacementCell} {context : PlacementContext}
    {test : List CellPlacement → Bool} (h : decidesOn cells context test = true) :
    ∃ pls, decideCellPlacement cells context = .ok pls ∧ test pls = true := by
  unfold decidesOn at h
  split at h
  · next pls hok => exact ⟨pls, hok, h⟩
  · cases h

end Sample
open Placement.Sample

/-- **Two cells share an embedded runtime**: it is the only one for both, and the batch has a third cell
with a choice. -/
theorem forced_cells_share_runtime : (mixedBatch.map PlacementCell.sri).Nodup ∧ ∃ placements,
      decideCellPlacement mixedBatch mixedFleet = .ok placements ∧
        ¬Respects mixedFleet mixedBatch placements := by
  have hru : decidesOn mixedBatch mixedFleet (fun placements =>
      1 < (placements.map fun p => p.runtime.id).count (runtime 1 []).id) = true := by
    decide +kernel
  obtain ⟨placements, hok, ht⟩ := exists_of_decidesOn hru
  refine ⟨by decide +kernel, placements, hok, fun hr => ?_⟩
  have hs := hr.single (runtime 1 ["esp32c6", "radio"]) mem_cons_self (by decide +kernel)
  simp only [decide_eq_true_eq] at ht
  exact absurd hs (Nat.not_le_of_lt ht)

/-- With one such cell the batch is placed as it should be. -/
theorem mixed_batch_respected :
    ∃ placements, decideCellPlacement (mixedBatch.tail) mixedFleet = .ok placements ∧
      Respects mixedFleet mixedBatch.tail placements := by
  have hr : decidesOn mixedBatch.tail mixedFleet (fun _ => true) = true := by
    decide +kernel
  obtain ⟨placements, hok, -⟩ := exists_of_decidesOn hr
  exact ⟨placements, hok, (placement_respects_iff (by decide +kernel) hok).mpr (by decide +kernel)⟩

theorem tightBatch_assignment : Assignment embeddedFleet tightBatch
      [(wasmCell 1 ["radio"], runtime 1 ["esp32c6", "radio"]),
        (wasmCell 2 ["relay"], runtime 3 ["esp32c6", "relay"]),
        (wasmCell 3 ["radio"], runtime 2 ["esp32c6", "radio", "relay"])] where
  cells := by decide +kernel
  meets := by
    unfold Meets
    decide +kernel
  free := by decide +kernel
  single := by decide +kernel

/-- **A batch that can be placed is refused**: the second cell takes the runtime that the third one would
need, although it has another. -/
theorem tight_batch_refused : (∃ assigned, Assignment embeddedFleet tightBatch assigned) ∧
      decideCellPlacement tightBatch embeddedFleet = .error .placementConflicts := by
  refine ⟨⟨_, tightBatch_assignment⟩, ?_⟩
  have hr : (match decideCellPlacement tightBatch embeddedFleet with
      | .error .placementConflicts => true
      | _ => false) = true := by
    decide +kernel
  split at hr
  · next hc => exact hc
  · cases hr

/-- Without the third cell nothing is in the way. -/
theorem spared_batch_placed : ∃ placements, decideCellPlacement (tightBatch.take 2) embeddedFleet =
      .ok placements := by
  refine placement_complete ?_ (by decide +kernel) ⟨[(wasmCell 1 ["radio"],
    runtime 1 ["esp32c6", "radio"]), (wasmCell 2 ["relay"],
    runtime 3 ["esp32c6", "relay"])], ?_⟩
  · unfold Spared
    decide +kernel
  · refine ⟨by decide +kernel, ?_, by decide +kernel, by decide +kernel⟩
    unfold Meets
    decide +kernel

end Placement

end Myrmic
