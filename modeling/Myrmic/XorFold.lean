import Mathlib.Data.Finset.Powerset
import Mathlib.Data.Finset.SymmDiff

/-!
# Folding a set by exclusive or

A set can be summarised by the exclusive or of a fingerprint of each member.  The fold does not depend
on the order, and folding a set together with another cancels what the two have in common.  Two
subsets of a set have equal folds only if they are equal, exactly when no nonempty subset folds to
zero, which is what `Independent` says.
-/
namespace XorFold
variable {α : Type} (f : α → UInt64)

/-- The exclusive or of the fingerprints of a set. -/
def fold (s : Finset α) : UInt64 := s.fold (· ^^^ ·) 0 f

/-- No nonempty subset folds to zero. -/
def Independent (s : Finset α) : Prop := ∀ t ⊆ s, t.Nonempty → fold f t ≠ 0

@[simp]
theorem fold_empty : fold f ∅ = 0 := rfl

instance (s : Finset α) : Decidable (Independent f s) :=
  decidable_of_iff (∀ t ∈ s.powerset, t.Nonempty → fold f t ≠ 0) (by simp [Independent])

variable [DecidableEq α]

theorem fold_union_of_disjoint {s t : Finset α} (h : Disjoint s t) :
    fold f (s ∪ t) = fold f s ^^^ fold f t := by
  have hu : (s.disjUnion t h).fold (fun x y : UInt64 => x ^^^ y) (0 ^^^ 0) f =
      fold f s ^^^ fold f t := Finset.fold_disjUnion h
  rw [← hu, Finset.disjUnion_eq_union, UInt64.xor_self]
  rfl

/-- Folding the symmetric difference cancels what two sets share. -/
theorem fold_symmDiff (s t : Finset α) : fold f (symmDiff s t) = fold f s ^^^ fold f t := by
  have hs : fold f s = fold f (s \ t) ^^^ fold f (s ∩ t) := by
    rw [← fold_union_of_disjoint f (Finset.disjoint_sdiff_inter s t), Finset.sdiff_union_inter]
  have ht : fold f t = fold f (t \ s) ^^^ fold f (s ∩ t) := by
    rw [Finset.inter_comm, ← fold_union_of_disjoint f (Finset.disjoint_sdiff_inter t s),
      Finset.sdiff_union_inter]
  have hd : fold f (symmDiff s t) = fold f (s \ t) ^^^ fold f (t \ s) :=
    fold_union_of_disjoint f disjoint_sdiff_sdiff
  rw [hd, hs, ht, UInt64.xor_assoc, UInt64.xor_comm (fold f (t \ s)) (fold f (s ∩ t)),
    ← UInt64.xor_assoc (fold f (s ∩ t)), UInt64.xor_self, UInt64.zero_xor]

variable {f} in
/-- Among the subsets of an independent set the fold tells them apart. -/
theorem Independent.eq_of_fold_eq {s t u : Finset α} (h : Independent f s) (ht : t ⊆ s) (hu : u ⊆ s)
    (heq : fold f t = fold f u) : t = u := by
  by_contra hne
  have hs : symmDiff t u ⊆ s := fun a ha => by
    rcases Finset.mem_symmDiff.mp ha with ⟨ha, -⟩ | ⟨ha, -⟩
    · exact ht ha
    · exact hu ha
  refine h _ hs (Finset.nonempty_iff_ne_empty.mpr fun he => hne ?_) ?_
  · exact symmDiff_eq_bot.mp he
  · rw [fold_symmDiff, heq, UInt64.xor_self]

/-- Folding a list without repetitions folds the set of its members. -/
theorem foldl_eq_fold {l : List α} (h : l.Nodup) :
    l.foldl (fun acc a => acc ^^^ f a) 0 = fold f l.toFinset := by
  -- the accumulator is carried along by the induction
  have hac : ∀ acc, l.foldl (fun acc a => acc ^^^ f a) acc = acc ^^^ fold f l.toFinset := by
    induction l with
    | nil => simp
    | cons a l ih =>
      intro acc
      obtain ⟨ha, hl⟩ := List.nodup_cons.mp h
      have hn : a ∉ l.toFinset := fun hm => ha (List.mem_toFinset.mp hm)
      have hi : fold f (insert a l.toFinset) = f a ^^^ fold f l.toFinset := Finset.fold_insert hn
      rw [List.foldl_cons, ih hl, List.toFinset_cons, hi, UInt64.xor_assoc]
  rw [hac, UInt64.zero_xor]

end XorFold
