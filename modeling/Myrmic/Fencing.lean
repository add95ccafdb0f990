import Myrmic.Leases

/-!
# Fencing

A host verifies the cells it runs: in every pass it reads the placement row of a cell and the row of the
cell's parent, and it kills a cell whose row names another body, whose parent was replaced, or whose
parent's node is dead.  A row that is gone kills only when it was **confirmed absent**: two reads have
found nothing and none between them has found it.  The reads that found nothing are counted under the SRI
of the cell.

The counts outlive the body they were made for.  On Linux a deploy over a hosted SRI replaces the body and
leaves the counts; on an embedded host nothing but a kill drops them.  What holds is that **a body that
is deployed while its SRI has no count is killed for an absent row only after two reads of its own**
(`absent_row_confirmed_for_body`).

Both hosts use the same decision, `FencingState.evaluate`.  What it does to the counts is said once for a
cell (`evaluate_decided`), then for a pass over all cells of a
Linux host, and the runs of both hosts keep one invariant, `Streaks`.
-/
namespace Myrmic
namespace Fencing
open Leases List

/-! ## The decision -/

/-- The part of a spawn edge that fencing reads. -/
structure SpawnEdge where
  parent : Option Sri
  parentGenId : Option Gen
  detached : Bool
  graceMs : Option Nat
deriving DecidableEq

/-- A hosted body: its identity, its generation, and the edge it was born on. -/
structure WatchedCell where
  sri : Sri
  genId : Gen
  lineage : SpawnEdge
deriving DecidableEq

/-- The exec that a placement row names, and the row's generation. -/
abbrev RowFacts := RuntimeId × Gen

/-- What a pass has read about a cell; a lease that was not read says nothing. -/
structure Evidence where
  selfRow : RowRead RowFacts
  parentRow : RowRead RowFacts
  parentLeaseExpired : Option Bool

/-- Why a cell is stopped. -/
inductive KillWhy where
  | selfSuperseded
  | parentAbsent
  | parentSuperseded
  | parentNodeDead
deriving DecidableEq

/-- What a pass decides about a cell. -/
inductive Verdict where
  | keep
  | kill (why : KillWhy)
deriving DecidableEq

/-- The rows that a cell lives by: its own and its parent's. -/
inductive WhichRow where
  | selfRow
  | parentRow
deriving DecidableEq

/-- As many reads in a row must find a row absent. -/
def confirmAbsentAfter : Nat := 2

/-- How many reads have found a row of a cell absent, without one that found it. -/
structure FencingState where
  absentCounts : List (Sri × WhichRow × Nat)

/-- Counts one more for the first entry of a row, or begins to count. -/
def countUp (sri : Sri) (row : WhichRow) : List (Sri × WhichRow × Nat) → List (Sri × WhichRow × Nat)
  | [] => [(sri, row, 1)]
  | entry :: counts =>
    if entry.1 = sri ∧ entry.2.1 = row then (entry.1, entry.2.1, entry.2.2 + 1) :: counts
    else entry :: countUp sri row counts

namespace FencingState

def new : FencingState := ⟨[]⟩

/-- The length of the streak of absent reads. -/
def count (f : FencingState) (sri : Sri) (row : WhichRow) : Nat :=
  match f.absentCounts.find? fun entry => entry.1 = sri ∧ entry.2.1 = row with
  | some entry => entry.2.2
  | none => 0

/-- One more absent read, and whether it confirms the absence. -/
def confirmedAbsent (f : FencingState) (sri : Sri) (row : WhichRow) : FencingState × Bool :=
  let f : FencingState := ⟨countUp sri row f.absentCounts⟩
  (f, confirmAbsentAfter ≤ f.count sri row)

/-- A row that was found ends its streak. -/
def reset (f : FencingState) (sri : Sri) (row : WhichRow) : FencingState :=
  ⟨f.absentCounts.filter fun entry => ¬ (entry.1 = sri ∧ entry.2.1 = row)⟩

/-- Drops both streaks of a cell. -/
def forget (f : FencingState) (sri : Sri) : FencingState :=
  ⟨f.absentCounts.filter fun entry => entry.1 ≠ sri⟩

/-- A row of another node or of another generation supersedes the cell at once. -/
def checkSelf (f : FencingState) (myExec : RuntimeId) (cell : WatchedCell) (ev : Evidence) :
    FencingState × Option KillWhy :=
  match ev.selfRow with
  | .ok (exec, rowGen) =>
    (f.reset cell.sri .selfRow,
      if exec ≠ myExec ∨ rowGen ≠ cell.genId then some .selfSuperseded else none)
  | .absent =>
    let counted := f.confirmedAbsent cell.sri .selfRow
    (counted.1, if counted.2 then some .selfSuperseded else none)
  | .failed => (f, none)

/-- A parent of another generation, or on a node whose lease expired, takes the cell along. -/
def checkParent (f : FencingState) (cell : WatchedCell) (ev : Evidence) :
    FencingState × Option KillWhy :=
  match ev.parentRow with
  | .ok (_, rowGen) =>
    (f.reset cell.sri .parentRow,
      -- a cell of an external deploy has no generation to compare with
      if cell.lineage.parentGenId.any (fun anchor => anchor ≠ rowGen) then some .parentSuperseded
      else if ev.parentLeaseExpired = some true then some .parentNodeDead
      else none)
  | .absent =>
    let counted := f.confirmedAbsent cell.sri .parentRow
    (counted.1, if counted.2 then some .parentAbsent else none)
  | .failed => (f, none)

/-- The cell's own row first, then the parent's, which is skipped for roots and detached cells. -/
def evaluate (f : FencingState) (myExec : RuntimeId) (cell : WatchedCell) (ev : Evidence) :
    FencingState × Verdict :=
  match f.checkSelf myExec cell ev with
  | (f, some why) => (f.forget cell.sri, .kill why)
  | (f, none) =>
    if cell.lineage.parent.isSome ∧ ¬ cell.lineage.detached then
      match f.checkParent cell ev with
      | (f, some why) => (f.forget cell.sri, .kill why)
      | (f, none) => (f, .keep)
    else (f, .keep)

end FencingState

/-! ## What a decision does to the counts -/

/-- What a read makes of a count. -/
def afterRead {α : Type} (n : Nat) : RowRead α → Nat
  | .ok _ => 0
  | .absent => n + 1
  | .failed => n

def Evidence.read (ev : Evidence) : WhichRow → RowRead RowFacts
  | .selfRow => ev.selfRow
  | .parentRow => ev.parentRow

/-- Whether a row of the cell is looked at. -/
def WatchedCell.Watches (cell : WatchedCell) : WhichRow → Prop
  | .selfRow => True
  | .parentRow => cell.lineage.parent.isSome ∧ ¬ cell.lineage.detached

namespace FencingState
variable {f f' : FencingState} {sri sri' : Sri} {row row' : WhichRow} {myExec : RuntimeId}
  {cell : WatchedCell} {ev : Evidence} {keep : Sri × WhichRow × Nat → Bool}

/-- What a read does to the streak of its row; one that failed does nothing. -/
def note (f : FencingState) (sri : Sri) (row : WhichRow) : RowRead RowFacts → FencingState
  | .ok _ => f.reset sri row
  | .absent => (f.confirmedAbsent sri row).1
  | .failed => f

open FencingState

theorem find_countUp_self (counts : List (Sri × WhichRow × Nat)) :
    (mk (countUp sri row counts)).count sri row = (mk counts).count sri row + 1 := by
  induction counts with
  | nil => simp [countUp, count]
  | cons e counts ih =>
    unfold countUp
    by_cases h : e.1 = sri ∧ e.2.1 = row
    · rw [if_pos h]
      simp [count, h]
    · rw [if_neg h]
      simp only [count, List.find?_cons, h, decide_false] at ih ⊢
      exact ih

theorem find_countUp_of_ne (h : ¬ (sri' = sri ∧ row' = row)) (counts : List (Sri × WhichRow × Nat)) :
    (mk (countUp sri row counts)).count sri' row' = (mk counts).count sri' row' := by
  induction counts with
  | nil =>
    have hne : ¬ (sri = sri' ∧ row = row') := fun heq => h ⟨heq.1.symm, heq.2.symm⟩
    simp [countUp, count, hne]
  | cons e counts ih =>
    unfold countUp
    by_cases he : e.1 = sri ∧ e.2.1 = row
    · have hne : ¬ (sri = sri' ∧ row = row') := fun heq => h ⟨heq.1.symm, heq.2.symm⟩
      rw [if_pos he]
      simp [count, he, hne]
    · rw [if_neg he]
      by_cases ho : e.1 = sri' ∧ e.2.1 = row'
      · simp [count, ho]
      · simp only [count, List.find?_cons, ho, decide_false] at ih ⊢
        exact ih

theorem count_filter_of_kept (h : ∀ e, e.1 = sri → e.2.1 = row → keep e = true) :
    (mk (f.absentCounts.filter keep)).count sri row = f.count sri row := by
  simp only [count, List.find?_filter]
  congr 2
  funext e
  by_cases he : e.1 = sri ∧ e.2.1 = row
  · simp [he, h e he.1 he.2]
  · simp [he]

theorem count_filter_of_dropped (h : ∀ e, e.1 = sri → e.2.1 = row → keep e = false) :
    (mk (f.absentCounts.filter keep)).count sri row = 0 := by
  have hn : (f.absentCounts.filter keep).find? (fun e => e.1 = sri ∧ e.2.1 = row) = none := by
    rw [List.find?_eq_none]
    intro e he hm
    obtain ⟨hs, hr⟩ := of_decide_eq_true hm
    have hk := (mem_filter.mp he).2
    rw [h e hs hr] at hk
    cases hk
  simp only [count, hn]

theorem count_forget_of_ne (h : sri' ≠ sri) : (f.forget sri).count sri' row = f.count sri' row :=
  count_filter_of_kept fun e hs _ => by simp [hs, h]

theorem count_note_self (read : RowRead RowFacts) :
    (f.note sri row read).count sri row = afterRead (f.count sri row) read := by
  cases read with
  | ok facts => exact count_filter_of_dropped fun e hs hr => by simp [hs, hr]
  | absent => exact find_countUp_self _
  | failed => rfl

theorem count_note_of_ne (h : ¬ (sri' = sri ∧ row' = row)) (read : RowRead RowFacts) :
    (f.note sri row read).count sri' row' = f.count sri' row' := by
  cases read with
  | ok facts =>
    refine count_filter_of_kept fun e hs hr => ?_
    have hne : ¬ (e.1 = sri ∧ e.2.1 = row) := by rwa [hs, hr]
    exact decide_eq_true hne
  | absent => exact find_countUp_of_ne h _
  | failed => rfl

theorem counted_of_confirmed (h : (f.confirmedAbsent sri row).2 = true) : 0 < f.count sri row := by
  have hc : (f.confirmedAbsent sri row).1.count sri row = f.count sri row + 1 := find_countUp_self _
  have hr : confirmAbsentAfter ≤ (f.confirmedAbsent sri row).1.count sri row := of_decide_eq_true h
  rw [hc] at hr
  unfold confirmAbsentAfter at hr
  omega

variable (f myExec cell ev) in
/-- The own row is counted, and it refutes the cell if it names another or was absent before. -/
theorem checkSelf_spec : ∃ refuted : Bool,
    f.checkSelf myExec cell ev = (f.note cell.sri .selfRow ev.selfRow,
      if refuted then some .selfSuperseded else none) ∧
    (refuted = true → ev.selfRow = .absent → 0 < f.count cell.sri .selfRow) := by
  unfold checkSelf
  cases ev.selfRow with
  | ok facts =>
    exact ⟨decide (facts.1 ≠ myExec ∨ facts.2 ≠ cell.genId), by simp [note], fun _ => nofun⟩
  | absent => exact ⟨_, rfl, fun h _ => counted_of_confirmed h⟩
  | failed => exact ⟨false, rfl, nofun⟩

variable (f cell ev) in
/-- The parent's row is counted, and it refutes the cell for its absence if it was absent before. -/
theorem checkParent_spec : ∃ why, f.checkParent cell ev =
      (f.note cell.sri .parentRow ev.parentRow, why) ∧ why ≠ some .selfSuperseded ∧
    (why = some .parentAbsent → ev.parentRow = .absent ∧ 0 < f.count cell.sri .parentRow) := by
  unfold checkParent
  cases ev.parentRow with
  | ok facts =>
    refine ⟨_, rfl, ?_, ?_⟩
    · split <;> [skip; split] <;> exact nofun
    · split <;> [skip; split] <;> exact nofun
  | absent =>
    refine ⟨_, rfl, ?_, fun h => ⟨rfl, ?_⟩⟩
    · split <;> exact nofun
    · split at h
      · next hc => exact counted_of_confirmed hc
      · cases h
  | failed => exact ⟨none, rfl, nofun, nofun⟩

/-- **What a decision does**: it leaves the counts of other cells, a cell that is kept has its reads
counted, and a cell that is killed for an absent row was counted before. -/
structure Decided (f : FencingState) (cell : WatchedCell) (ev : Evidence) (f' : FencingState)
    (verdict : Verdict) : Prop where
  other : ∀ {sri row}, sri ≠ cell.sri → f'.count sri row = f.count sri row
  keep : verdict = .keep → ∀ row, cell.Watches row →
    f'.count cell.sri row = afterRead (f.count cell.sri row) (ev.read row)
  own : verdict = .kill .selfSuperseded → ev.selfRow = .absent → 0 < f.count cell.sri .selfRow
  parent : verdict = .kill .parentAbsent →
    cell.Watches .parentRow ∧ ev.parentRow = .absent ∧ 0 < f.count cell.sri .parentRow

variable (f myExec cell ev) in
theorem evaluate_decided :
    f.Decided cell ev (f.evaluate myExec cell ev).1 (f.evaluate myExec cell ev).2 := by
  have hse : ¬ (cell.sri = cell.sri ∧ WhichRow.parentRow = .selfRow) := fun heq => nomatch heq.2
  have hpa : ¬ (cell.sri = cell.sri ∧ WhichRow.selfRow = .parentRow) := fun heq => nomatch heq.2
  have hot : ∀ {f : FencingState} {sri row row' read}, sri ≠ cell.sri →
      (f.note cell.sri row' read).count sri row = f.count sri row :=
    fun hne => count_note_of_ne (fun heq => hne heq.1) _
  obtain ⟨refuted, hch, hco⟩ := f.checkSelf_spec myExec cell ev
  unfold evaluate
  rw [hch]
  cases refuted with
  | true => exact ⟨fun hne => (count_forget_of_ne hne).trans (hot hne), nofun,
      fun _ => hco rfl, nofun⟩
  | false =>
    simp only [Bool.false_eq_true, if_false]
    split
    · next hwa =>
      obtain ⟨why, hch', hwh, hab⟩ := (f.note cell.sri .selfRow ev.selfRow).checkParent_spec cell ev
      rw [hch']
      rw [count_note_of_ne hse] at hab
      cases why with
      | some why =>
        refine ⟨fun hne => ?_, nofun, ?_, ?_⟩
        · exact (count_forget_of_ne hne).trans ((hot hne).trans (hot hne))
        · rintro ⟨⟩
          exact absurd rfl hwh
        · rintro ⟨⟩
          exact ⟨hwa, hab rfl⟩
      | none =>
        refine ⟨fun hne => (hot hne).trans (hot hne), fun _ row _ => ?_, nofun, nofun⟩
        cases row with
        | selfRow => exact (count_note_of_ne hpa _).trans (count_note_self _)
        | parentRow =>
          rw [count_note_self, count_note_of_ne hse]
          rfl
    · next hro =>
      refine ⟨hot, fun _ row hrow => ?_, nofun, nofun⟩
      cases row with
      | selfRow => exact count_note_self _
      | parentRow => exact absurd hrow hro

/-- No absent read of the cell is on record. -/
def Clear (f : FencingState) (sri : Sri) : Prop :=
  f.count sri .selfRow = 0 ∧ f.count sri .parentRow = 0

instance instDecidableClear (f : FencingState) (sri : Sri) : Decidable (f.Clear sri) :=
  inferInstanceAs (Decidable (_ ∧ _))

theorem Clear.not_pos {f : FencingState} {sri : Sri} (h : f.Clear sri) :
    ¬ 0 < f.count sri row := by
  cases row with
  | selfRow => exact h.1.not_gt
  | parentRow => exact h.2.not_gt

end FencingState

/-! ## Passes and streaks -/

/-- One verify pass: the bodies that were hosted, and what the reads for them answered. -/
structure Pass where
  hosted : List WatchedCell
  read : WatchedCell → WhichRow → RowRead RowFacts

/-- A pass in which the body was hosted found the row absent, and every pass since then was made while
the body was hosted and has not found the row.  Passes are listed newest first. -/
def AbsentBefore (history : List Pass) (cell : WatchedCell) (row : WhichRow) : Prop :=
  ∃ newer pass older, history = newer ++ pass :: older ∧
    cell ∈ pass.hosted ∧ pass.read cell row = .absent ∧
    ∀ between ∈ newer, cell ∈ between.hosted ∧ ∀ facts, between.read cell row ≠ .ok facts

/-- A kill for an absent row, in a pass that comes after the history, rests on the read of that pass and
on one before it. -/
structure Confirmed (history : List Pass) (read : WhichRow → RowRead RowFacts) (cell : WatchedCell)
    (why : KillWhy) : Prop where
  own : why = .selfSuperseded → read .selfRow = .absent → AbsentBefore history cell .selfRow
  parent : why = .parentAbsent →
    read .parentRow = .absent ∧ AbsentBefore history cell .parentRow

/-- **Streaks belong to the hosted bodies**: whatever is counted for a hosted body was read for it. -/
def Streaks (hosted : List WatchedCell) (f : FencingState) (history : List Pass) : Prop :=
  ∀ cell ∈ hosted, ∀ row, cell.Watches row → 0 < f.count cell.sri row → AbsentBefore history cell row

section Passes
variable {history : List Pass} {pass : Pass} {cell : WatchedCell} {row : WhichRow}
  {hosted : List WatchedCell} {f : FencingState} {read : WhichRow → RowRead RowFacts}
  {leaseExpired : RuntimeId → Option Bool} {myExec : RuntimeId}

theorem absentBefore_cons {n : Nat} (h : 0 < n → AbsentBefore history cell row)
    (hh : cell ∈ pass.hosted) (hc : 0 < afterRead n (pass.read cell row)) :
    AbsentBefore (pass :: history) cell row := by
  cases hr : pass.read cell row with
  | ok facts =>
    rw [hr] at hc
    exact absurd hc (lt_irrefl 0)
  | absent => exact ⟨[], pass, history, rfl, hh, hr, nofun⟩
  | failed =>
    rw [hr] at hc
    obtain ⟨newer, first, older, hs, hf, ha, hb⟩ := h hc
    refine ⟨pass :: newer, first, older, by rw [hs]; rfl, hf, ha, ?_⟩
    intro between hm
    rcases mem_cons.mp hm with rfl | hm
    · refine ⟨hh, fun facts hok => ?_⟩
      rw [hr] at hok
      cases hok
    · exact hb between hm

/-- The evidence for a cell, from the reads of its rows and what is said of a node's lease. -/
def gather (cell : WatchedCell) (read : WhichRow → RowRead RowFacts)
    (leaseExpired : RuntimeId → Option Bool) : Evidence :=
  match cell.lineage.parent, cell.lineage.detached with
  | some _, false =>
    let expired := match read .parentRow with
      | .ok (node, _) => leaseExpired node
      | .absent => none
      | .failed => none
    ⟨read .selfRow, read .parentRow, expired⟩
  | some _, true => ⟨read .selfRow, .failed, none⟩
  | none, _ => ⟨read .selfRow, .failed, none⟩

theorem gather_selfRow : (gather cell read leaseExpired).selfRow = read .selfRow := by
  unfold gather
  split <;> rfl

theorem gather_read (h : cell.Watches row) : (gather cell read leaseExpired).read row = read row := by
  cases row with
  | selfRow => exact gather_selfRow
  | parentRow =>
    obtain ⟨hp, hd⟩ := h
    obtain ⟨_, hp⟩ := Option.isSome_iff_exists.mp hp
    have ha : cell.lineage.detached = false := by simpa using hd
    simp only [gather, hp, ha, Evidence.read]

theorem confirmed_of_evaluate {why : KillWhy}
    (hs : ∀ row, cell.Watches row → 0 < f.count cell.sri row → AbsentBefore history cell row)
    (h : (f.evaluate myExec cell (gather cell read leaseExpired)).2 = .kill why) :
    Confirmed history read cell why := by
  refine ⟨?_, ?_⟩
  · rintro rfl ha
    exact hs .selfRow trivial ((f.evaluate_decided ..).own h (gather_selfRow.trans ha))
  · rintro rfl
    obtain ⟨hw, ha, hc⟩ := (f.evaluate_decided ..).parent h
    exact ⟨(gather_read hw).symm.trans ha, hs .parentRow hw hc⟩

/-- A body that is kept has its streaks extended by the pass. -/
theorem absentBefore_of_keep (hs : 0 < f.count cell.sri row → AbsentBefore history cell row)
    (hw : cell.Watches row) (hh : cell ∈ pass.hosted)
    (hk : (f.evaluate myExec cell (gather cell (pass.read cell) leaseExpired)).2 = .keep)
    (hc : 0 < (f.evaluate myExec cell (gather cell (pass.read cell) leaseExpired)).1.count
      cell.sri row) : AbsentBefore (pass :: history) cell row := by
  rw [(f.evaluate_decided ..).keep hk row hw, gather_read hw] at hc
  exact absentBefore_cons hs hh hc

end Passes

/-! ## The Linux host -/

/-- Evaluates the cells of a pass one after another; a killed cell is dropped with its counts. -/
def verifyCells (myExec : RuntimeId) (evidence : WatchedCell → Evidence) :
    List WatchedCell → FencingState → FencingState × List (WatchedCell × KillWhy)
  | [], f => (f, [])
  | cell :: cells, f =>
    match f.evaluate myExec cell (evidence cell) with
    | (f, .keep) => verifyCells myExec evidence cells f
    | (f, .kill why) =>
      let rest := verifyCells myExec evidence cells (f.forget cell.sri)
      (rest.1, (cell, why) :: rest.2)

section VerifyCells
variable {myExec : RuntimeId} {evidence : WatchedCell → Evidence} {cells : List WatchedCell}
  {cell : WatchedCell} {f : FencingState} {sri : Sri} {row : WhichRow}

theorem verifyCells_other (h : sri ∉ cells.map WatchedCell.sri) :
    (verifyCells myExec evidence cells f).1.count sri row = f.count sri row := by
  induction cells generalizing f with
  | nil => rfl
  | cons cell cells ih =>
    obtain ⟨hne, hr⟩ := not_or.mp fun hm => h (mem_cons.mpr hm)
    have ho : (f.evaluate myExec cell (evidence cell)).1.count sri row = f.count sri row :=
      (f.evaluate_decided myExec cell (evidence cell)).other hne
    simp only [verifyCells]
    rcases he : f.evaluate myExec cell (evidence cell) with ⟨_, _ | _⟩
    · rw [he] at ho
      exact (ih hr).trans ho
    · rw [he] at ho
      exact (ih hr).trans ((FencingState.count_forget_of_ne hne).trans ho)

theorem mem_of_killed {kill : WatchedCell × KillWhy}
    (h : kill ∈ (verifyCells myExec evidence cells f).2) : kill.1 ∈ cells := by
  induction cells generalizing f with
  | nil => exact absurd h not_mem_nil
  | cons first cells ih =>
    simp only [verifyCells] at h
    split at h
    · exact mem_cons_of_mem _ (ih h)
    · rcases mem_cons.mp h with rfl | h
      · exact mem_cons_self
      · exact mem_cons_of_mem _ (ih h)

/-- **Every cell of a pass is decided on the counts the pass began with.** -/
theorem decision_of_mem (hdi : (cells.map WatchedCell.sri).Nodup) (hce : cell ∈ cells) :
    ∃ f' : FencingState, (∀ row, f'.count cell.sri row = f.count cell.sri row) ∧
      (∀ why, (cell, why) ∈ (verifyCells myExec evidence cells f).2 →
        (f'.evaluate myExec cell (evidence cell)).2 = .kill why) ∧
      (cell.sri ∉ ((verifyCells myExec evidence cells f).2.map fun k => k.1.sri) →
        (f'.evaluate myExec cell (evidence cell)).2 = .keep ∧
        ∀ row, (verifyCells myExec evidence cells f).1.count cell.sri row =
          (f'.evaluate myExec cell (evidence cell)).1.count cell.sri row) := by
  induction cells generalizing f with
  | nil => exact absurd hce not_mem_nil
  | cons first cells ih =>
    obtain ⟨hfi, hre⟩ := nodup_cons.mp hdi
    have hde := f.evaluate_decided myExec first (evidence first)
    simp only [verifyCells]
    rcases mem_cons.mp hce with rfl | hce
    · have hla : ∀ {f : FencingState} {why},
          (cell, why) ∉ (verifyCells myExec evidence cells f).2 :=
        fun hki => hfi (mem_map_of_mem (mem_of_killed hki))
      refine ⟨f, fun _ => rfl, ?_⟩
      rcases hev : f.evaluate myExec cell (evidence cell) with ⟨f', _ | why⟩
      · exact ⟨fun why hki => absurd hki hla, fun _ => ⟨rfl, fun row => verifyCells_other hfi⟩⟩
      · refine ⟨fun why' hki => ?_, fun hno => absurd mem_cons_self hno⟩
        rcases mem_cons.mp hki with hsa | hki
        · cases hsa
          rfl
        · exact absurd hki hla
    · have hne : cell.sri ≠ first.sri := fun heq => hfi (heq ▸ mem_map_of_mem hce)
      rcases hev : f.evaluate myExec first (evidence first) with ⟨f', _ | why⟩
      · rw [hev] at hde
        obtain ⟨f'', hco, hdec⟩ := ih (f := f') hre hce
        exact ⟨f'', fun row => (hco row).trans (hde.other hne), hdec⟩
      · rw [hev] at hde
        obtain ⟨f'', hco, hki, hke⟩ := ih (f := f'.forget first.sri) hre hce
        refine ⟨f'', fun row => ?_, fun why' hme => hki why' ?_, fun hno => hke ?_⟩
        · exact (hco row).trans ((FencingState.count_forget_of_ne hne).trans (hde.other hne))
        · exact (mem_cons.mp hme).resolve_left fun heq => hne (congrArg (fun k => k.1.sri) heq)
        · exact fun hme => hno (mem_cons_of_mem _ hme)

end VerifyCells

/-- A Linux host, with the watch list of its cells and the passes it has made. -/
structure LinuxHost where
  watched : List WatchedCell
  distinct : (watched.map WatchedCell.sri).Nodup
  fencing : FencingState
  tracker : LeaseTracker
  history : List Pass

structure LinuxConfig where
  myExec : RuntimeId
  timingTtlMs : Nat

/-- What happens on a Linux node. -/
inductive LinuxEvent where
  /-- A cell's task was started; it replaces what is hosted under the SRI. -/
  | deploy (cell : WatchedCell)
  | undeploy (sri : Sri) (genId : Gen)
  /-- A cell's task has ended. -/
  | exited (sri : Sri) (genId : Gen)
  /-- A verify pass, with what the rows of the SRIs answer (each is read once), the scan of the leases
  and the time. -/
  | verify (rows : Sri → RowRead RowFacts) (leases : Option LeaseTable) (nowMs : Nat)

variable {cell : WatchedCell} {nowMs : Nat}
namespace LinuxHost

def start : LinuxHost := ⟨[], nodup_nil, .new, .new, []⟩

/-- What the node hosts under an SRI. -/
def hosted (host : LinuxHost) (sri : Sri) : Option WatchedCell :=
  KeyedTables.lookup WatchedCell.sri sri host.watched

/-- Stops a cell and forgets its streaks. -/
def killLocal (host : LinuxHost) (sri : Sri) : LinuxHost :=
  { host with
    watched := KeyedTables.erase WatchedCell.sri sri host.watched
    distinct := KeyedTables.nodup_erase host.distinct
    fencing := host.fencing.forget sri }

/-- A cell that is hosted under the SRI is replaced, and its streaks stay. -/
def deployCell (host : LinuxHost) (cell : WatchedCell) : LinuxHost :=
  { host with
    watched := KeyedTables.put WatchedCell.sri cell host.watched
    distinct := KeyedTables.nodup_put host.distinct }

/-- Ends the body that is hosted under the SRI if it has the generation; a successor is left alone. -/
def endGeneration (host : LinuxHost) (sri : Sri) (genId : Gen) : LinuxHost :=
  match host.hosted sri with
  | none => host
  | some cell => if cell.genId = genId then host.killLocal sri else host

def undeployCell (host : LinuxHost) (sri : Sri) (genId : Gen) : LinuxHost :=
  host.endGeneration sri genId

def handleCellExited (host : LinuxHost) (sri : Sri) (genId : Gen) : LinuxHost :=
  host.endGeneration sri genId

/-- What is read of a row of a cell; the pass keeps the answers by SRI. -/
def readRow (rows : Sri → RowRead RowFacts) (cell : WatchedCell) : WhichRow → RowRead RowFacts
  | .selfRow => rows cell.sri
  | .parentRow =>
    match cell.lineage.parent with
    | some parent => rows parent
    | none => .failed

/-- The lease of the parent's node is judged by what the tracker has seen of it. -/
def evidence (config : LinuxConfig) (tracker : LeaseTracker) (rows : Sri → RowRead RowFacts)
    (nowMs : Nat) (cell : WatchedCell) : Evidence :=
  gather cell (readRow rows cell) fun node =>
    parentLeaseExpired tracker node cell.lineage.graceMs config.timingTtlMs nowMs

/-- What a verify pass leaves of the counts, and whom it kills. -/
def verified (config : LinuxConfig) (host : LinuxHost) (rows : Sri → RowRead RowFacts)
    (leases : Option LeaseTable) (nowMs : Nat) : FencingState × List (WatchedCell × KillWhy) :=
  verifyCells config.myExec
    (evidence config (observeScan host.tracker leases nowMs) rows nowMs) host.watched host.fencing

/-- One pass over all hosted cells. -/
def verifyPass (config : LinuxConfig) (host : LinuxHost) (rows : Sri → RowRead RowFacts)
    (leases : Option LeaseTable) (nowMs : Nat) : LinuxHost :=
  let after := host.verified config rows leases nowMs
  let killed := after.2.map fun k => k.1.sri
  { watched := host.watched.filter fun cell => cell.sri ∉ killed
    distinct := host.distinct.sublist (filter_sublist.map _)
    fencing := after.1
    tracker := observeScan host.tracker leases nowMs
    history := ⟨host.watched, readRow rows⟩ :: host.history }

def step (config : LinuxConfig) (host : LinuxHost) : LinuxEvent → Option LinuxHost
  | .deploy cell => some (host.deployCell cell)
  | .undeploy sri genId => some (host.undeployCell sri genId)
  | .exited sri genId => some (host.handleCellExited sri genId)
  | .verify rows leases nowMs => some (host.verifyPass config rows leases nowMs)

/-- A body is deployed while its SRI has no count, or it is hosted already. -/
def Fresh (host : LinuxHost) : LinuxEvent → Prop
  | .deploy cell => host.fencing.Clear cell.sri ∨ cell ∈ host.watched
  | .undeploy _ _ | .exited _ _ | .verify _ _ _ => True

instance instDecidableFresh (host : LinuxHost) (event : LinuxEvent) : Decidable (host.Fresh event) :=
  match event with
  | .deploy cell => inferInstanceAs (Decidable (host.fencing.Clear cell.sri ∨ cell ∈ host.watched))
  | .undeploy _ _ | .exited _ _ | .verify _ _ _ => inferInstanceAs (Decidable True)

/-- Whatever the next pass finds, what it kills for an absent row is confirmed. -/
def KillsConfirmed (config : LinuxConfig) (host : LinuxHost) : Prop :=
  ∀ rows leases nowMs, ∀ kill ∈ (host.verified config rows leases nowMs).2,
    Confirmed host.history (readRow rows kill.1) kill.1 kill.2

variable {config : LinuxConfig} {host host' : LinuxHost}

def StreaksOwn (host : LinuxHost) : Prop := Streaks host.watched host.fencing host.history

variable (h : host.StreaksOwn) {sri : Sri}
include h

theorem StreaksOwn.killsConfirmed : host.KillsConfirmed config := by
  rintro rows leases nowMs ⟨cell, why⟩ hk
  have hc := mem_of_killed hk
  obtain ⟨_, hco, hki, -⟩ := decision_of_mem host.distinct hc
  refine confirmed_of_evaluate (fun row hw hp => ?_) (hki why hk)
  exact h cell hc row hw (hco row ▸ hp)

theorem StreaksOwn.killLocal : (host.killLocal sri).StreaksOwn := by
  intro cell hce row hw hc
  obtain ⟨hce, hne⟩ := KeyedTables.mem_erase.mp hce
  have hc : 0 < (host.fencing.forget sri).count cell.sri row := hc
  rw [FencingState.count_forget_of_ne hne] at hc
  exact h cell hce row hw hc

theorem StreaksOwn.endGeneration {genId : Gen} : (host.endGeneration sri genId).StreaksOwn := by
  unfold LinuxHost.endGeneration
  split
  · exact h
  · split
    · exact h.killLocal
    · exact h

theorem StreaksOwn.deployCell (hf : host.Fresh (.deploy cell)) :
    (host.deployCell cell).StreaksOwn := by
  intro other ho row hw hc
  rcases KeyedTables.mem_put.mp ho with ⟨ho, -⟩ | rfl
  · exact h other ho row hw hc
  · rcases hf with hcl | hh
    · exact absurd hc hcl.not_pos
    · exact h other hh row hw hc

theorem StreaksOwn.verifyPass {rows : Sri → RowRead RowFacts} {leases : Option LeaseTable} :
    (host.verifyPass config rows leases nowMs).StreaksOwn := by
  intro cell hc row hw hco
  obtain ⟨hc, hk⟩ := mem_filter.mp hc
  obtain ⟨_, hb, -, hk'⟩ := decision_of_mem host.distinct hc
  obtain ⟨hke, ha⟩ := hk' (of_decide_eq_true hk)
  have hco : 0 < (host.verified config rows leases nowMs).1.count cell.sri row := hco
  unfold verified at hco
  rw [ha row] at hco
  refine absentBefore_of_keep ?_ hw hc hke hco
  intro hp
  exact h cell hc row hw (hb row ▸ hp)

theorem StreaksOwn.step {event : LinuxEvent} (hf : host.Fresh event)
    (hst : host.step config event = some host') : host'.StreaksOwn := by
  cases event with
  | deploy cell =>
    cases hst
    exact h.deployCell hf
  | verify rows leases nowMs =>
    cases hst
    exact h.verifyPass
  | _ =>
    cases hst
    exact h.endGeneration

omit h

theorem reached_streaksOwn (h : Machine.Reached (step config) Fresh start host) : host.StreaksOwn :=
  h.holds (P := StreaksOwn) (nofun) fun h hf hst => h.step hf hst

end LinuxHost

/-! ## The embedded host -/

/-- An embedded host.  It runs one cell: `watched` is the body it fences, `cell` what was confirmed to be
deployed, and `pending` a deploy that waits for the module before it to stop. -/
structure EmbeddedHost where
  cell : Option Sri
  watched : Option WatchedCell
  pending : Option WatchedCell
  awaitingDeletionConfirmation : Bool
  fencing : FencingState
  tracker : LeaseTracker
  history : List Pass

/-- What an embedded host is set up with; its firmware may itself be a cell. -/
structure EmbeddedConfig where
  myExec : RuntimeId
  native : Option Sri

/-- What happens on an embedded node. -/
inductive EmbeddedEvent where
  | deployCommand (cell : WatchedCell)
  | deleteCommand (sri : Sri)
  /-- The runtime is idle and takes the pending module. -/
  | runPending
  | confirmDeployment (sri : Sri) (failed : Bool)
  | confirmDeletion
  /-- A verify pass, with what the two rows of the cell and the leases answer, and the time. -/
  | verify (read : WhichRow → RowRead RowFacts) (lease : RuntimeId → RowRead NodeLease) (nowMs : Nat)

namespace EmbeddedHost

def start (config : EmbeddedConfig) : EmbeddedHost := ⟨config.native, none, none, false, .new, .new, []⟩

/-- A deploy that is not newer than what runs or waits is one that nobody awaits. -/
def stale (host : EmbeddedHost) (genId : Gen) : Bool :=
  host.pending.any (fun p => genId ≤ p.genId) || host.watched.any fun w => genId ≤ w.genId

def deployCommand (config : EmbeddedConfig) (host : EmbeddedHost) (cell : WatchedCell) :
    EmbeddedHost :=
  if config.native.isSome then host
  else if host.stale cell.genId then host
  else { host with awaitingDeletionConfirmation := false, pending := some cell }

/-- A deploy that never ran is deleted by dropping it; a cell that runs is told to stop. -/
def deleteCommand (host : EmbeddedHost) (sri : Sri) : EmbeddedHost :=
  { host with
    pending := host.pending.filter fun p => p.sri ≠ sri
    awaitingDeletionConfirmation :=
      if host.cell = some sri then true else host.awaitingDeletionConfirmation }

/-- The pending cell becomes the one that runs. -/
def runPending (host : EmbeddedHost) : EmbeddedHost :=
  match host.pending with
  | none => host
  | some cell => { host with pending := none, watched := some cell }

/-- After a failed deploy nothing is running. -/
def confirmDeployment (host : EmbeddedHost) (sri : Sri) (failed : Bool) : EmbeddedHost :=
  { host with cell := some sri, watched := if failed then none else host.watched }

/-- The runtime has stopped the cell that was to go. -/
def confirmDeletion (host : EmbeddedHost) : EmbeddedHost :=
  if host.awaitingDeletionConfirmation then
    { host with watched := none, cell := none, awaitingDeletionConfirmation := false }
  else host

/-- The tracker after the read of the lease of the parent's node, which is made when the parent's row
names one. -/
def trackerAfter (tracker : LeaseTracker) (cell : WatchedCell) (read : WhichRow → RowRead RowFacts)
    (lease : RuntimeId → RowRead NodeLease) (nowMs : Nat) : LeaseTracker :=
  match cell.lineage.parent, cell.lineage.detached, read .parentRow with
  | some _, false, .ok (node, _) =>
    (tracker.judgeRead node (lease node) cell.lineage.graceMs nowMs).1
  | _, _, _ => tracker

def verified (config : EmbeddedConfig) (host : EmbeddedHost) (cell : WatchedCell)
    (read : WhichRow → RowRead RowFacts) (lease : RuntimeId → RowRead NodeLease) (nowMs : Nat) :
    FencingState × Verdict :=
  host.fencing.evaluate config.myExec cell (gather cell read fun node =>
    (host.tracker.judgeRead node (lease node) cell.lineage.graceMs nowMs).2)

/-- The body that a verify tick looks at: none when no cell is deployed. -/
def active (host : EmbeddedHost) : Option WatchedCell :=
  if host.cell.isSome then host.watched else none

/-- One pass over the cell of the node. -/
def verifyTick (config : EmbeddedConfig) (host : EmbeddedHost) (read : WhichRow → RowRead RowFacts)
    (lease : RuntimeId → RowRead NodeLease) (nowMs : Nat) : EmbeddedHost :=
  match host.active with
  | none => host
  | some cell =>
    let after := host.verified config cell read lease nowMs
    { host with
      watched := if after.2 = .keep then host.watched else none
      fencing := after.1
      tracker := trackerAfter host.tracker cell read lease nowMs
      history := ⟨[cell], fun _ => read⟩ :: host.history }

def step (config : EmbeddedConfig) (host : EmbeddedHost) : EmbeddedEvent → Option EmbeddedHost
  | .deployCommand cell => some (host.deployCommand config cell)
  | .deleteCommand sri => some (host.deleteCommand sri)
  | .runPending => some host.runPending
  | .confirmDeployment sri failed => some (host.confirmDeployment sri failed)
  | .confirmDeletion => some host.confirmDeletion
  | .verify read lease nowMs => some (host.verifyTick config read lease nowMs)

/-- A pending deploy is run while its SRI has no count. -/
def Fresh (host : EmbeddedHost) : EmbeddedEvent → Prop
  | .runPending => ∀ cell ∈ host.pending, host.fencing.Clear cell.sri
  | .deployCommand _ | .deleteCommand _ | .confirmDeployment _ _ | .confirmDeletion
  | .verify _ _ _ => True

instance instDecidableFresh (host : EmbeddedHost) (event : EmbeddedEvent) :
    Decidable (host.Fresh event) :=
  match event with
  | .runPending => inferInstanceAs (Decidable (∀ cell ∈ host.pending, host.fencing.Clear cell.sri))
  | .deployCommand _ | .deleteCommand _ | .confirmDeployment _ _ | .confirmDeletion
  | .verify _ _ _ => inferInstanceAs (Decidable True)

/-- Whatever the next tick finds, a kill for an absent row is confirmed. -/
def KillsConfirmed (config : EmbeddedConfig) (host : EmbeddedHost) : Prop :=
  ∀ cell ∈ host.active, ∀ read lease nowMs why,
    (host.verified config cell read lease nowMs).2 = .kill why →
      Confirmed host.history read cell why

def StreaksOwn (host : EmbeddedHost) : Prop :=
  Streaks host.watched.toList host.fencing host.history

variable {config : EmbeddedConfig} {host host' : EmbeddedHost}

theorem mem_watched_of_active (h : cell ∈ host.active) : host.watched = some cell := by
  unfold active at h
  split at h
  · exact h
  · cases h

theorem StreaksOwn.killsConfirmed (h : host.StreaksOwn) : host.KillsConfirmed config := by
  intro cell hc read lease nowMs why hk
  have hw : cell ∈ host.watched.toList := Option.mem_toList.mpr (mem_watched_of_active hc)
  exact confirmed_of_evaluate (h cell hw) hk

/-- An event that leaves the counts and watches no other body keeps the streaks. -/
theorem StreaksOwn.of_subset (h : host.StreaksOwn) (hw : ∀ cell ∈ host'.watched,
    cell ∈ host.watched) (hf : host'.fencing = host.fencing)
    (hh : host'.history = host.history) : host'.StreaksOwn := by
  unfold StreaksOwn
  rw [hf, hh]
  refine fun cell hc => h cell ?_
  exact Option.mem_toList.mpr (hw cell (Option.mem_toList.mp hc))

theorem StreaksOwn.runPending (h : host.StreaksOwn) (hf : host.Fresh .runPending) :
    host.runPending.StreaksOwn := by
  unfold EmbeddedHost.runPending
  cases hp : host.pending with
  | none => exact h
  | some pending =>
    intro cell hc row hw hco
    obtain rfl : cell = pending := by simpa using hc
    exact absurd hco ((hf cell hp).not_pos)

theorem StreaksOwn.verifyTick {read : WhichRow → RowRead RowFacts}
    {lease : RuntimeId → RowRead NodeLease} (h : host.StreaksOwn) :
    (host.verifyTick config read lease nowMs).StreaksOwn := by
  unfold EmbeddedHost.verifyTick
  cases ha : host.active with
  | none => exact h
  | some cell =>
    have hw := mem_watched_of_active ha
    intro other ho row hwa hc
    simp only at ho hc
    split at ho
    · next hk =>
      rw [hw] at ho
      obtain rfl : other = cell := by simpa using ho
      refine absentBefore_of_keep ?_ hwa mem_cons_self hk hc
      exact h other (Option.mem_toList.mpr hw) row hwa
    · cases ho

theorem StreaksOwn.step {event : EmbeddedEvent} (h : host.StreaksOwn) (hfr : host.Fresh event)
    (hst : host.step config event = some host') : host'.StreaksOwn := by
  cases event <;> cases hst
  case deployCommand cell =>
    fun_cases EmbeddedHost.deployCommand config host cell
    · exact h
    · exact h
    · exact h.of_subset (fun _ hce => hce) rfl rfl
  case deleteCommand sri => exact h.of_subset (fun _ hce => hce) rfl rfl
  case runPending => exact h.runPending hfr
  case confirmDeployment sri failed =>
    refine h.of_subset (fun cell hce => ?_) rfl rfl
    cases failed with
    | true => cases hce
    | false => exact hce
  case confirmDeletion =>
    unfold confirmDeletion
    split
    · exact h.of_subset nofun rfl rfl
    · exact h
  case verify read lease nowMs => exact h.verifyTick

theorem reached_streaksOwn (h : Machine.Reached (step config) Fresh (start config) host) :
    host.StreaksOwn :=
  h.holds (P := StreaksOwn) (nofun) fun h hf hst => h.step hf hst

end EmbeddedHost

/-! ## Runs of both hosts -/

/-- **An absent row kills a body only after two reads of its own.**  On either host, in every run in which
a body is deployed only while nothing is counted for its SRI, every kill for an absent row rests on two
reads made for the very body that is killed, and none between them has found the row. -/
theorem absent_row_confirmed_for_body (linux : LinuxConfig) (embedded : EmbeddedConfig) :
    (∀ host, Machine.Reached (LinuxHost.step linux) LinuxHost.Fresh LinuxHost.start host →
      host.KillsConfirmed linux) ∧
    (∀ host, Machine.Reached (EmbeddedHost.step embedded) EmbeddedHost.Fresh
        (EmbeddedHost.start embedded) host → host.KillsConfirmed embedded) :=
  ⟨fun _ h => (LinuxHost.reached_streaksOwn h).killsConfirmed,
    fun _ h => (EmbeddedHost.reached_streaksOwn h).killsConfirmed⟩

namespace Sample

def sri : Sri := .fill 16 1

def node : RuntimeId := .fill 16 2

def first : WatchedCell := ⟨sri, ⟨1, 1⟩, ⟨none, none, false, none⟩⟩

def second : WatchedCell := ⟨sri, ⟨2, 1⟩, ⟨none, none, false, none⟩⟩

def linux : LinuxConfig := ⟨node, 30000⟩

def embedded : EmbeddedConfig := ⟨node, none⟩

def nothingFound : LinuxEvent := .verify (fun _ => .absent) none 0

def nothingRead : EmbeddedEvent := .verify (fun _ => .absent) (fun _ => .failed) 0

end Sample
open Sample
open Machine

/-- A body that is deployed on an empty host is killed by its second pass without a row. -/
theorem second_absent_read_confirmed :
    ∃ host, Reached (LinuxHost.step linux) LinuxHost.Fresh LinuxHost.start host ∧
      (first, KillWhy.selfSuperseded) ∈ (host.verified linux (fun _ => .absent) none 0).2 ∧
      AbsentBefore host.history first .selfRow := by
  obtain ⟨host, hr, hk⟩ : ∃ host,
      Reached (LinuxHost.step linux) LinuxHost.Fresh LinuxHost.start host ∧
      (first, KillWhy.selfSuperseded) ∈ (host.verified linux (fun _ => .absent) none 0).2 :=
    exists_reached [.deploy first, nothingFound] (by decide +kernel)
  have hc := (absent_row_confirmed_for_body linux embedded).1 host hr
  exact ⟨host, hr, hk, (hc _ _ _ _ hk).own rfl rfl⟩

theorem exists_hosted_of_absentBefore {history : List Pass} {row : WhichRow}
    (h : AbsentBefore history cell row) : ∃ pass ∈ history, cell ∈ pass.hosted := by
  obtain ⟨_, pass, _, rfl, hh, -⟩ := h
  exact ⟨pass, mem_append_right _ mem_cons_self, hh⟩

/-- **The streak of a replaced body counts for its successor.**  One pass finds no row for the first body,
a second body of the same SRI is deployed over it, and the first read made for the second body kills it,
on either host. -/
theorem replaced_body_leaves_streak :
    (∃ host, Reached (LinuxHost.step linux) (fun _ _ => True) LinuxHost.start host ∧
      ¬ host.KillsConfirmed linux) ∧ (∃ host, Reached (EmbeddedHost.step embedded) (fun _ _ => True)
        (EmbeddedHost.start embedded) host ∧ ¬ host.KillsConfirmed embedded) := by
  constructor
  · obtain ⟨host, hre, hki, hne⟩ : ∃ host,
        Reached (LinuxHost.step linux) (fun _ _ => True) LinuxHost.start host ∧
        (second, KillWhy.selfSuperseded) ∈ (host.verified linux (fun _ => .absent) none 0).2 ∧
        ∀ pass ∈ host.history, second ∉ pass.hosted :=
      exists_reached [.deploy first, nothingFound, .deploy second] (by decide +kernel)
    refine ⟨host, hre, fun hco => ?_⟩
    obtain ⟨pass, hpa, hho⟩ := exists_hosted_of_absentBefore ((hco _ _ _ _ hki).own rfl rfl)
    exact hne pass hpa hho
  · obtain ⟨host, hre, hac, hki, hne⟩ : ∃ host,
        Reached (EmbeddedHost.step embedded) (fun _ _ => True) (EmbeddedHost.start embedded) host ∧
        host.active = some second ∧
        (host.verified embedded second (fun _ => .absent) (fun _ => .failed) 0).2 =
          .kill .selfSuperseded ∧
        ∀ pass ∈ host.history, second ∉ pass.hosted :=
      exists_reached [.deployCommand first, .runPending, .confirmDeployment sri false,
        nothingRead, .deployCommand second, .runPending] (by decide +kernel)
    refine ⟨host, hre, fun hco => ?_⟩
    obtain ⟨pass, hpa, hho⟩ := exists_hosted_of_absentBefore ((hco _ hac _ _ _ _ hki).own rfl rfl)
    exact hne pass hpa hho

end Fencing

end Myrmic
