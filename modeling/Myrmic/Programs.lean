import Mathlib.Data.List.Basic

/-!
# Programs over a state with fallible calls

A program looks at a state and performs calls on it.  A call may fail; the program is told, and may
fail in turn, but what earlier calls have done stays done.  Programs are trees, so that a statement
about **every** program is an induction over the tree, proved once: an invariant of the calls a program
may perform is an invariant of the program (`exec_keeps`).

`view` says what a program sees of a state and `act` what a call does to it.
-/
namespace Programs
variable {View Call ε σ α β : Type}

/-- A program: it is done, it has failed, or it goes on after looking at the state or performing a
call. -/
inductive Prog (View Call ε α : Type) where
  | done (a : α)
  | fail (e : ε)
  | look (next : View → Prog View Call ε α)
  | perform (c : Call) (next : Except ε Bool → Prog View Call ε α)

namespace Prog

def bind : Prog View Call ε α → (α → Prog View Call ε β) → Prog View Call ε β
  | .done a, f => f a
  | .fail e, _ => .fail e
  | .look next, f => .look fun v => (next v).bind f
  | .perform c next, f => .perform c fun r => (next r).bind f

instance : Monad (Prog View Call ε) where
  pure := .done
  bind := Prog.bind

/-- A computation that does not touch the state. -/
def ofExcept : Except ε α → Prog View Call ε α
  | .ok a => .done a
  | .error e => .fail e

instance : MonadLift (Except ε) (Prog View Call ε) := ⟨ofExcept⟩

def ask (f : View → Except ε α) : Prog View Call ε α := .look fun v => ofExcept (f v)

/-- Performs a call and fails if it fails. -/
def call (c : Call) : Prog View Call ε Bool := .perform c ofExcept

/-- Replaces the errors of a program. -/
def mapError (f : ε → ε) : Prog View Call ε α → Prog View Call ε α
  | .done a => .done a
  | .fail e => .fail (f e)
  | .look next => .look fun v => (next v).mapError f
  | .perform c next => .perform c fun r => (next r).mapError f

/-- Runs a program for every element of a list, in order. -/
def each (f : α → Prog View Call ε Unit) : List α → Prog View Call ε Unit
  | [] => .done ()
  | a :: as => (f a).bind fun _ => each f as

/-! ## Running a program -/

section Exec
variable (view : σ → View) (act : σ → Call → Except ε (Bool × σ))

/-- The outcome of a program and the state it leaves. -/
def exec : Prog View Call ε α → σ → Except ε α × σ
  | .done a, s => (.ok a, s)
  | .fail e, s => (.error e, s)
  | .look next, s => (next (view s)).exec s
  | .perform c next, s =>
    match act s c with
    | .ok (b, s') => (next (.ok b)).exec s'
    | .error e => (next (.error e)).exec s

variable {view act}

theorem exec_bind (p : Prog View Call ε α) (f : α → Prog View Call ε β) (s : σ) :
    (p.bind f).exec view act s = match p.exec view act s with
      | (.ok a, s') => (f a).exec view act s'
      | (.error e, s') => (.error e, s') := by
  induction p generalizing s with
  | look next ih => exact ih (view s) s
  | perform c next ih =>
    simp only [bind, exec]
    cases act s c with
    | error e => exact ih (.error e) s
    | ok r => exact ih (.ok r.1) r.2
  | _ => rfl

end Exec

/-! ## The calls a program may perform -/

/-- Every call of the program has a property, whatever the state answers. -/
def Only (P : Call → Prop) : Prog View Call ε α → Prop
  | .done _ => True
  | .fail _ => True
  | .look next => ∀ v, (next v).Only P
  | .perform c next => P c ∧ ∀ r, (next r).Only P

section Only
variable {P : Call → Prop} {p : Prog View Call ε α} {view : σ → View}
  {act : σ → Call → Except ε (Bool × σ)}

@[simp] theorem only_pure {a : α} : (pure a : Prog View Call ε α).Only P := trivial

theorem Only.bind {f : α → Prog View Call ε β} (hp : p.Only P)
    (hf : ∀ a, (f a).Only P) : (p >>= f).Only P := by
  induction p with
  | done a => exact hf a
  | fail e => exact trivial
  | look next ih => exact fun v => ih v (hp v)
  | perform c next ih => exact ⟨hp.1, fun r => ih r (hp.2 r)⟩

theorem only_ofExcept (x : Except ε α) : (ofExcept x : Prog View Call ε α).Only P := by
  cases x <;> trivial

theorem only_lift {x : Except ε α} : (liftM x : Prog View Call ε α).Only P := only_ofExcept x

theorem only_ask {f : View → Except ε α} : (ask f : Prog View Call ε α).Only P :=
  fun v => only_ofExcept (f v)

theorem only_call {c : Call} (hc : P c) : (call c : Prog View Call ε Bool).Only P :=
  ⟨hc, only_ofExcept⟩

theorem Only.mapError (hp : p.Only P) (f : ε → ε) : (p.mapError f).Only P := by
  induction p with
  | look next ih => exact fun v => ih v (hp v)
  | perform c next ih => exact ⟨hp.1, fun r => ih r (hp.2 r)⟩
  | _ => trivial

theorem only_each {f : α → Prog View Call ε Unit} {l : List α} (hf : ∀ a ∈ l, (f a).Only P) :
    (each f l).Only P := by
  induction l with
  | nil => trivial
  | cons a l ih =>
    exact (hf a List.mem_cons_self).bind fun _ => ih fun b hb => hf b (List.mem_cons_of_mem _ hb)

/-- **The invariant rule**: what the calls of a program keep, the program keeps, whether it succeeds or
fails. -/
theorem Only.exec_keeps {I : σ → Prop} (hp : p.Only P)
    (ha : ∀ s c b s', P c → I s → act s c = .ok (b, s') → I s') {s : σ} (hs : I s) :
    I (p.exec view act s).2 := by
  induction p generalizing s with
  | look next ih => exact ih (view s) (hp (view s)) hs
  | perform c next ih =>
    simp only [exec]
    cases hc : act s c with
    | error e => exact ih (.error e) (hp.2 _) hs
    | ok r => exact ih (.ok r.1) (hp.2 _) (ha s c r.1 r.2 hp.1 hs hc)
  | _ => exact hs

end Only
end Prog

end Programs
