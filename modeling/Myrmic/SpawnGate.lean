import Myrmic.StackWalk
import Myrmic.Supervision

/-!
# The spawn tree

Cells name the cell that spawned them, so the instances that are registered form a tree, or should: rows
come from different nodes, and nothing keeps them from naming each other.  Two walks look at it.  A
**termination** asks whether its caller is the cell or above it, and climbs 64 links at most.  The
**cascade** collects what is below a cell and is not detached; it climbs without a bound, and so ends and
is exact only where the rows below the cell form a tree (`collects_exactly_iff`).
-/
namespace Myrmic
open StackWalk List
open NodeWatch (instanceOf)
namespace SpawnGate

/-! ## Ancestors -/

def parentOf (instances : List CellInstance) (sri : Sri) : Option Sri :=
  (instanceOf instances sri).bind fun i => i.lineage.parent

/-- The steps that are left to find the ancestor. -/
def climb (instances : List CellInstance) (ancestor : Sri) : Nat → Sri → Bool
  | 0, _ => false
  | steps + 1, current =>
    if current = ancestor then true
    else match parentOf instances current with
      | some parent => climb instances ancestor steps parent
      | none => false

def isSelfOrDescendant (instances : List CellInstance) (ancestor target : Sri) : Bool :=
  climb instances ancestor 64 target

/-- The cell that is a number of parent links above another. -/
def above (instances : List CellInstance) : Nat → Sri → Option Sri
  | 0, sri => some sri
  | links + 1, sri => (parentOf instances sri).bind (above instances links)

theorem climb_iff {instances : List CellInstance} {ancestor : Sri} {steps : Nat} {current : Sri} :
    climb instances ancestor steps current = true ↔
      ∃ links < steps, above instances links current = some ancestor := by
  induction steps generalizing current with
  | zero => simp [climb]
  | succ steps ih =>
    rw [Nat.exists_lt_succ_left, climb, above, Option.some_inj]
    by_cases hc : current = ancestor
    · simp [hc]
    · rw [if_neg hc, or_iff_right hc]
      cases hp : parentOf instances current with
      | none => simp [above, hp]
      | some parent => simp [above, hp, ih]

/-- **The ancestry check finds exactly what is at most 63 links above.** -/
theorem is_self_or_descendant_iff (instances : List CellInstance) (ancestor target : Sri) :
    isSelfOrDescendant instances ancestor target = true ↔
      ∃ links < 64, above instances links target = some ancestor :=
  climb_iff

namespace Sample

def rung (n : Nat) : Sri := .fill 16 n.toUInt8

def cell (sri parent : Sri) : CellInstance :=
  ⟨sri, .fill 32 0, ⟨0, 0⟩, ⟨some parent, false, none, none⟩⟩

/-- A chain of cells, each the child of the one before it. -/
def ladder : List CellInstance := (List.range 64).map fun n => cell (rung (n + 1)) (rung n)

end Sample

/-- The root of a chain is 64 links above its last cell, and is not found. -/
theorem distant_ancestor_refused :
    ¬(isSelfOrDescendant Sample.ladder (Sample.rung 0) (Sample.rung 64) = true ↔
      ∃ links, above Sample.ladder links (Sample.rung 64) = some (Sample.rung 0)) := by
  intro h
  have hf : isSelfOrDescendant Sample.ladder (Sample.rung 0) (Sample.rung 64) = false := by
    decide +kernel
  rw [h.mpr ⟨64, by decide +kernel⟩] at hf
  cases hf

/-! ## Descendants -/

/-- The children of a cell. -/
def childrenOf (instances : List CellInstance) (parent : Sri) : List CellInstance :=
  instances.filter fun i => i.lineage.parent = some parent

/-- The children that die with a cell. -/
def kids (instances : List CellInstance) (sri : Sri) : List Sri :=
  ((childrenOf instances sri).filter fun kid => !kid.lineage.detached).map CellInstance.sri

/-- What the walk has collected when its frontier is empty, if it comes to this within the fuel. -/
def collectSubtree (fuel : Nat) (instances : List CellInstance) (root : Sri) : Option (List Sri) :=
  walk (kids instances) fuel [root] []

theorem kids_subset {instances : List CellInstance} (sri : Sri) :
    kids instances sri ⊆ instances.map CellInstance.sri :=
  map_subset _ (filter_sublist.trans filter_sublist).subset

/-- The collection ends with exactly the cells below the root, each once and after its parent. -/
def CollectsExactly (instances : List CellInstance) (root : Sri) : Prop :=
  ∃ fuel out, collectSubtree fuel instances root = some out ∧ out.Nodup ∧
    (∀ sri, sri ∈ out ↔ sri ≠ root ∧ Relation.TransGen (Child (kids instances)) root sri) ∧
    ParentsFirst (kids instances) root out

/-- **Collecting a subtree is exact if and only if the rows below the root form a tree.** -/
theorem collects_exactly_iff (instances : List CellInstance) (root : Sri) :
    CollectsExactly instances root ↔ IsTree (kids instances) root :=
  listsBelow_iff kids_subset

/-- Two cells that name each other as parents. -/
theorem cycle_not_collected : ¬CollectsExactly
    [Sample.cell (Sample.rung 1) (Sample.rung 0), Sample.cell (Sample.rung 0) (Sample.rung 1)]
    (Sample.rung 0) := by
  intro h
  have ht := (listsBelow_iff kids_subset).mp h
  have hk : Sample.rung 1 ∈ kids
      [Sample.cell (Sample.rung 1) (Sample.rung 0), Sample.cell (Sample.rung 0) (Sample.rung 1)]
      (Sample.rung 0) := by decide
  exact ht.root_notMem (Sample.rung 1) (.single hk) (by decide)

/-- **Whenever the collection ends**, tree or not, it has the cells below the root and no others, and
none before all its parents. -/
theorem collected_iff_below {instances : List CellInstance} {root : Sri} {fuel : Nat} {out : List Sri}
    (h : collectSubtree fuel instances root = some out) : ParentsFirst (kids instances) root out ∧
      ∀ sri, sri ∈ out ↔ Relation.TransGen (Child (kids instances)) root sri := by
  obtain ⟨hpf, done, rfl, hp⟩ := walk_spec .nil (List.Subset.refl _) h
  refine ⟨hpf, fun sri => ⟨hpf.transGen sri, fun hb => ?_⟩⟩
  obtain ⟨p, hb, hc⟩ := Relation.TransGen.tail'_iff.mp hb
  exact mem_flatMap.mpr ⟨p, mem_of_below hp hb, hc⟩

/-- A cell with two rows is collected twice. -/
theorem collected_twice :
    let rows := replicate 2 (Sample.cell (Sample.rung 1) (Sample.rung 0))
    ∃ out, collectSubtree 4 rows (Sample.rung 0) = some out ∧ ¬out.Nodup ∧
      ParentsFirst (kids rows) (Sample.rung 0) out := by
  intro rows
  have h : collectSubtree 4 rows (Sample.rung 0) = some [Sample.rung 1, Sample.rung 1] := by decide
  exact ⟨_, h, by simp, (collected_iff_below h).1⟩

end SpawnGate

end Myrmic
