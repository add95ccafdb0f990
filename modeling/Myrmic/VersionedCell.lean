import Mathlib.Data.List.Sort

/-!
# Versioned cells

In a multi-version store a key is a **cell**: for each version it says whether the version wrote the
key at all, and if so whether it erased it or gave it a value.  Reading the cell at a bound returns
what the newest version at or below the bound left there.  The results here say that a read is
determined by the versions it can see, and which version it saw.
-/
namespace VersionedCell

/-- What each version did to one key: nothing, an erasure, or a value. -/
abbrev Cell (V α : Type) := V → Option (Option α)

variable {V α : Type} [LE V] [LT V] {c d : Cell V α} {bound : V} {r r' : Option α}

/-- `ReadsAt c bound r`: a read of the cell at `bound` returns `r`. -/
inductive ReadsAt (c : Cell V α) (bound : V) : Option α → Prop
  | absent : (∀ t, t ≤ bound → c t = none) → ReadsAt c bound none
  | newest {t : V} {r : Option α} : t ≤ bound → c t = some r →
      (∀ t', t < t' → t' ≤ bound → c t' = none) → ReadsAt c bound r

/-- Cells that agree at every version a read can see are read alike. -/
theorem ReadsAt.congr (h : ReadsAt c bound r) (hcd : ∀ t, t ≤ bound → c t = d t) :
    ReadsAt d bound r := by
  cases h with
  | absent hn => exact .absent fun t ht => hcd t ht ▸ hn t ht
  | newest ht hc hne =>
    exact .newest ht (hcd _ ht ▸ hc) fun t' hlt ht' => hcd t' ht' ▸ hne t' hlt ht'

variable [Std.IsLinearOrder V] [Std.LawfulOrderLT V]

theorem ReadsAt.unique (h : ReadsAt c bound r) (h' : ReadsAt c bound r') : r = r' := by
  cases h with
  | absent hn =>
    cases h' with
    | absent => rfl
    | newest ht hc => rw [hn _ ht] at hc; cases hc
  | @newest t r ht hc hne =>
    cases h' with
    | absent hn => rw [hn _ ht] at hc; cases hc
    | @newest t' r' ht' hc' hne' =>
      -- neither version can be newer than the other
      have hle : ¬ t < t' := fun hlt => by simp [hne t' hlt ht'] at hc'
      have hge : ¬ t' < t := fun hlt => by simp [hne' t hlt ht] at hc
      obtain rfl : t = t' := by grind
      rw [hc] at hc'
      exact Option.some.inj hc'

end VersionedCell
