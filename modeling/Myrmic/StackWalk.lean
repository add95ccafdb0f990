import Mathlib.Data.List.Nodup
import Mathlib.Data.List.Pairwise
import Mathlib.Data.List.Perm.Basic

/-!
# Walks that mark nothing

A walk takes a node off a stack, writes down its children and puts them on the stack, until the stack is
empty.  It does not remember where it has been.  It ends, and lists every node below the root once,
**exactly if the nodes form a tree** (`listsBelow_iff`): no node below the root is the child of two nodes,
or twice of one, and the root is the child of none.
-/
namespace StackWalk
open List Relation
variable {α : Type} {kids : α → List α} {root : α} {fuel : Nat} {stack out res done nodes : List α}
  {x : α}

/-- The rest of a walk: what is written down when the stack is empty. -/
def walk (kids : α → List α) : Nat → List α → List α → Option (List α)
  | 0, _, _ => none
  | _ + 1, [], out => some out
  | fuel + 1, x :: stack, out => walk kids fuel ((kids x).reverse ++ stack) (out ++ kids x)

def Child (kids : α → List α) (p y : α) : Prop := y ∈ kids p

/-- Every node is a child of the root or of a node before it. -/
inductive ParentsFirst (kids : α → List α) (root : α) : List α → Prop
  | nil : ParentsFirst kids root []
  | snoc {out : List α} {p y : α} : ParentsFirst kids root out → p ∈ root :: out → y ∈ kids p →
      ParentsFirst kids root (out ++ [y])

/-- The walk ends with the nodes below the root, each once and after its parent. -/
def ListsBelow (kids : α → List α) (root : α) : Prop :=
  ∃ fuel out, walk kids fuel [root] [] = some out ∧ out.Nodup ∧
    (∀ y, y ∈ out ↔ y ≠ root ∧ TransGen (Child kids) root y) ∧ ParentsFirst kids root out

/-- The nodes below the root have one parent there each, and the root has none. -/
structure IsTree (kids : α → List α) (root : α) : Prop where
  root_notMem : ∀ p, ReflTransGen (Child kids) root p → root ∉ kids p
  nodup : ∀ p, ReflTransGen (Child kids) root p → (kids p).Nodup
  disjoint : ∀ p q, ReflTransGen (Child kids) root p → ReflTransGen (Child kids) root q → p ≠ q →
    Disjoint (kids p) (kids q)

theorem ParentsFirst.append {ys : List α} (h : ParentsFirst kids root out) (hx : x ∈ root :: out)
    (hy : ys ⊆ kids x) : ParentsFirst kids root (out ++ ys) := by
  induction ys generalizing out with
  | nil => rwa [append_nil]
  | cons y ys ih =>
    obtain ⟨hy, hys⟩ := cons_subset.mp hy
    have hin : x ∈ root :: (out ++ [y]) := by
      rw [← cons_append]
      exact mem_append_left _ hx
    have hs := ih (h.snoc hx hy) hin hys
    rwa [append_assoc, singleton_append] at hs

theorem ParentsFirst.transGen (h : ParentsFirst kids root out) :
    ∀ y ∈ out, TransGen (Child kids) root y := by
  induction h with
  | nil => exact nofun
  | @snoc out p y _ hp hy ih =>
    intro z hz
    rcases mem_append.mp hz with hz | hz
    · exact ih z hz
    · rw [mem_singleton.mp hz]
      rcases mem_cons.mp hp with rfl | hp
      · exact .single hy
      · exact (ih p hp).tail hy

/-- What a walk has written down when it ends: the children of all nodes it took off the stack. -/
theorem walk_spec (hpf : ParentsFirst kids root out) (hst : stack ⊆ root :: out)
    (h : walk kids fuel stack out = some res) : ParentsFirst kids root res ∧
      ∃ done, res = out ++ done.flatMap kids ∧ stack ++ done.flatMap kids ~ done := by
  induction fuel generalizing stack out with
  | zero => cases h
  | succ fuel ih =>
    cases stack with
    | nil =>
      cases h
      exact ⟨hpf, [], by simp, by simp⟩
    | cons x stack =>
      obtain ⟨hx, hst⟩ := cons_subset.mp hst
      have hst' : (kids x).reverse ++ stack ⊆ root :: (out ++ kids x) := by
        rw [← cons_append]
        refine append_subset.mpr ⟨fun y hy => mem_append_right _ (mem_reverse.mp hy), fun y hy => ?_⟩
        exact mem_append_left _ (hst hy)
      obtain ⟨hpf', done, rfl, hp⟩ := ih (hpf.append hx (Subset.refl _)) hst' h
      refine ⟨hpf', x :: done, by rw [flatMap_cons, append_assoc], ?_⟩
      rw [flatMap_cons, cons_append]
      refine Perm.cons x (Perm.trans ?_ hp)
      rw [← append_assoc]
      exact (perm_append_comm.trans ((reverse_perm _).symm.append_right _)).append_right _

/-- Where a walk of a tree has come to. -/
structure Walking (kids : α → List α) (root : α) (done stack out : List α) : Prop where
  written : out = done.flatMap kids
  perm : root :: out ~ done ++ stack
  nodup : (root :: out).Nodup
  below : ∀ x ∈ root :: out, ReflTransGen (Child kids) root x

theorem Walking.step (ht : IsTree kids root) (h : Walking kids root done (x :: stack) out) :
    Walking kids root (done ++ [x]) ((kids x).reverse ++ stack) (out ++ kids x) := by
  have hx : x ∈ root :: out := h.perm.symm.subset (by simp)
  have hb := h.below x hx
  have hno : ∀ p ∈ done, p ≠ x := by
    have hn := h.perm.nodup_iff.mp h.nodup
    rintro p hp rfl
    exact (nodup_append.mp hn).2.2 p hp p mem_cons_self rfl
  refine ⟨?_, ?_, ?_, fun y hy => ?_⟩
  · rw [flatMap_append, ← h.written, flatMap_singleton]
  · rw [← cons_append, append_assoc, singleton_append]
    refine (h.perm.append_right _).trans ?_
    rw [append_assoc, cons_append]
    refine Perm.append_left done (Perm.cons x ?_)
    exact perm_append_comm.trans ((reverse_perm _).symm.append_right _)
  · rw [← cons_append]
    refine h.nodup.append (ht.nodup x hb) fun y hy hyx => ?_
    rcases mem_cons.mp hy with rfl | hy
    · exact ht.root_notMem x hb hyx
    · rw [h.written] at hy
      obtain ⟨p, hp, hyp⟩ := mem_flatMap.mp hy
      have hpb := h.below p (h.perm.symm.subset (mem_append_left _ hp))
      exact ht.disjoint p x hpb hb (hno p hp) hyp hyx
  · rw [← cons_append] at hy
    rcases mem_append.mp hy with hy | hy
    · exact h.below y hy
    · exact hb.tail hy

/-- A walk of a finite tree ends. -/
theorem Walking.ends (hn : ∀ p, kids p ⊆ nodes) (ht : IsTree kids root)
    (h : Walking kids root done stack out) (hf : nodes.length + 2 ≤ fuel + done.length) :
    ∃ res done, walk kids fuel stack out = some res ∧ Walking kids root done [] res := by
  induction fuel generalizing done stack out with
  | zero =>
    have hsub : root :: out ⊆ root :: nodes := by
      refine cons_subset_cons root fun y hy => ?_
      rw [h.written] at hy
      obtain ⟨p, -, hp⟩ := mem_flatMap.mp hy
      exact hn p hp
    have hle := (subperm_of_subset h.nodup hsub).length_le
    rw [h.perm.length_eq, length_append, length_cons] at hle
    omega
  | succ fuel ih =>
    cases stack with
    | nil => exact ⟨out, done, rfl, h⟩
    | cons x stack =>
      refine ih (h.step ht) ?_
      rw [length_append, length_singleton]
      omega

theorem mem_of_below (hd : root :: done.flatMap kids ~ done) {y : α}
    (h : ReflTransGen (Child kids) root y) : y ∈ done := by
  induction h with
  | refl => exact hd.subset mem_cons_self
  | tail _ hc ih => exact hd.subset (mem_cons_of_mem _ (mem_flatMap.mpr ⟨_, ih, hc⟩))

/-- **A walk without marks lists what is below the root exactly if this is a tree.** -/
theorem listsBelow_iff (hn : ∀ p, kids p ⊆ nodes) : ListsBelow kids root ↔ IsTree kids root := by
  have hro : [root] ⊆ root :: ([] : List α) := Subset.refl _
  constructor
  · rintro ⟨fuel, out, hw, hnd, hm, -⟩
    obtain ⟨-, done, rfl, hp⟩ := walk_spec .nil hro hw
    rw [nil_append] at hnd hm
    obtain ⟨hks, hdi⟩ := nodup_flatMap.mp hnd
    have hsy : Std.Symm (Function.onFun Disjoint kids) := ⟨fun _ _ h => disjoint_symm h⟩
    refine ⟨fun p hb hr => ?_, fun p hb => hks p (mem_of_below hp hb), fun p q hpb hqb hne => ?_⟩
    · exact ((hm root).mp (mem_flatMap.mpr ⟨p, mem_of_below hp hb, hr⟩)).1 rfl
    · exact hdi.forall (mem_of_below hp hpb) (mem_of_below hp hqb) hne
  · intro ht
    have hst : Walking kids root [] [root] [] :=
      ⟨rfl, Perm.refl _, nodup_singleton root, fun x hx => mem_singleton.mp hx ▸ .refl⟩
    obtain ⟨out, done, hw, hend⟩ : ∃ out done, walk kids (nodes.length + 2) [root] [] = some out ∧
        Walking kids root done [] out := hst.ends hn ht (Nat.le_refl _)
    have hpf := (walk_spec .nil hro hw).1
    have hp := hend.perm
    rw [append_nil] at hp
    refine ⟨_, out, hw, (nodup_cons.mp hend.nodup).2, fun y => ⟨fun hy => ?_, fun hy => ?_⟩, hpf⟩
    · refine ⟨?_, hpf.transGen y hy⟩
      rintro rfl
      exact (nodup_cons.mp hend.nodup).1 hy
    · have hin := mem_of_below (hend.written ▸ hp) hy.2.to_reflTransGen
      exact (mem_cons.mp (hp.symm.subset hin)).resolve_left hy.1

end StackWalk
