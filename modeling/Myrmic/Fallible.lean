import Mathlib.Data.List.Sort

/-!
# Lists of fallible computations

Mapping a fallible function over a list succeeds when it succeeds on every element, and then the
results stand in the order of the arguments.
-/
namespace Fallible
open List
variable {ε α β : Type} {x : Except ε α} {f : α → Except ε β} {l : List α} {L : List β} {r : β}

/-- Peels one step off a computation that succeeded. -/
theorem bind_eq_ok {f : α → Except ε β} : (x >>= f) = .ok r ↔ ∃ a, x = .ok a ∧ f a = .ok r := by
  cases x <;> simp [bind, Except.bind]

theorem bind_eq_error {f : α → Except ε β} {e : ε} :
    (x >>= f) = .error e ↔ x = .error e ∨ ∃ a, x = .ok a ∧ f a = .error e := by
  cases x <;> simp [bind, Except.bind]

theorem toOption_eq_some {a : α} : x.toOption = some a ↔ x = .ok a := by
  cases x <;> simp [Except.toOption]

theorem map_eq_ok {g : α → β} : x.map g = .ok r ↔ ∃ a, x = .ok a ∧ g a = r := by
  cases x <;> simp [Except.map]

theorem mapM_cons_eq_ok {x : α} :
    (x :: l).mapM f = .ok L ↔ ∃ y ys, f x = .ok y ∧ l.mapM f = .ok ys ∧ L = y :: ys := by
  rw [mapM_cons, bind_eq_ok]
  constructor
  · rintro ⟨y, hy, h⟩
    obtain ⟨ys, hys, h⟩ := bind_eq_ok.mp h
    exact ⟨y, ys, hy, hys, (Except.ok.inj h).symm⟩
  · rintro ⟨y, ys, hy, hys, rfl⟩
    exact ⟨y, hy, bind_eq_ok.mpr ⟨ys, hys, rfl⟩⟩

theorem mapM_ok (h : ∀ x ∈ l, ∃ y, f x = .ok y) : ∃ L, l.mapM f = .ok L := by
  induction l with
  | nil => exact ⟨[], rfl⟩
  | cons x l ih =>
    obtain ⟨y, hy⟩ := h x mem_cons_self
    obtain ⟨ys, hys⟩ := ih fun x' hx' => h x' (mem_cons_of_mem _ hx')
    exact ⟨y :: ys, mapM_cons_eq_ok.mpr ⟨y, ys, hy, hys, rfl⟩⟩

variable (h : l.mapM f = .ok L)
include h

theorem mem_of_mapM {y : β} : y ∈ L ↔ ∃ x ∈ l, f x = .ok y := by
  induction l generalizing L with
  | nil =>
    cases h
    simp
  | cons x l ih =>
    obtain ⟨_, _, hy', hys, rfl⟩ := mapM_cons_eq_ok.mp h
    constructor
    · intro hy
      rcases mem_cons.mp hy with rfl | hy
      · exact ⟨x, mem_cons_self, hy'⟩
      · obtain ⟨x', hx', hfx'⟩ := (ih hys).mp hy
        exact ⟨x', mem_cons_of_mem _ hx', hfx'⟩
    · rintro ⟨x', hx', hfx'⟩
      rcases mem_cons.mp hx' with rfl | hx'
      · rw [hy'] at hfx'
        exact Except.ok.inj hfx' ▸ mem_cons_self
      · exact mem_cons_of_mem _ ((ih hys).mpr ⟨x', hx', hfx'⟩)

theorem exists_of_mapM {x : α} (hx : x ∈ l) : ∃ y ∈ L, f x = .ok y := by
  induction l generalizing L with
  | nil => cases hx
  | cons x' l ih =>
    obtain ⟨y, _, hy, hys, rfl⟩ := mapM_cons_eq_ok.mp h
    rcases mem_cons.mp hx with rfl | hx
    · exact ⟨y, mem_cons_self, hy⟩
    · obtain ⟨y', hy', hfx⟩ := ih hys hx
      exact ⟨y', mem_cons_of_mem _ hy', hfx⟩

theorem pairwise_of_mapM {R : α → α → Prop} {S : β → β → Prop} (hl : l.Pairwise R)
    (hRS : ∀ {x x' y y'}, x ∈ l → x' ∈ l → f x = .ok y → f x' = .ok y' → R x x' → S y y') :
    L.Pairwise S := by
  induction l generalizing L with
  | nil =>
    cases h
    exact .nil
  | cons x l ih =>
    obtain ⟨y, _, hy, hys, rfl⟩ := mapM_cons_eq_ok.mp h
    rw [pairwise_cons] at hl ⊢
    refine ⟨fun y' hy' => ?_, ih hys hl.2 fun hx hx' =>
      hRS (mem_cons_of_mem _ hx) (mem_cons_of_mem _ hx')⟩
    obtain ⟨x', hx', hfx'⟩ := (mem_of_mapM hys).mp hy'
    exact hRS mem_cons_self (mem_cons_of_mem _ hx') hy hfx' (hl.1 x' hx')

omit h in
theorem mapM_append_ok {l₁ l₂ : List α} {L₁ L₂ : List β} (h₁ : l₁.mapM f = .ok L₁)
    (h₂ : l₂.mapM f = .ok L₂) : (l₁ ++ l₂).mapM f = .ok (L₁ ++ L₂) := by
  rw [mapM_append, h₁]
  simp [h₂, bind, Except.bind, pure, Except.pure]

theorem mapM_reverse_ok : l.reverse.mapM f = .ok L.reverse := by
  induction l generalizing L with
  | nil =>
    cases h
    rfl
  | cons x l ih =>
    obtain ⟨y, _, hy, hys, rfl⟩ := mapM_cons_eq_ok.mp h
    rw [reverse_cons, reverse_cons]
    exact mapM_append_ok (ih hys) (mapM_cons_eq_ok.mpr ⟨y, [], hy, rfl, rfl⟩)

omit h

theorem mapM_congr {g : α → Except ε β} (h : ∀ x ∈ l, f x = g x) : l.mapM f = l.mapM g := by
  induction l with
  | nil => rfl
  | cons x l ih =>
    rw [mapM_cons, mapM_cons, h x mem_cons_self, ih fun x' hx' => h x' (mem_cons_of_mem _ hx')]

end Fallible
