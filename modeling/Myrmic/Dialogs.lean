import Mathlib.Data.List.Basic

/-!
# Dialogs between a client and a server

A client sends requests, one after another, and goes on with the answer to each; it ends with a result
or with an error.  Such a **dialog** is a tree, so a statement about every dialog is an induction over
the tree.  A server is a function from its state and a request to an answer and the next state, and
`run` lets a dialog take place.

Dialogs are a lawful monad, so a client is written with `do` and a dialog that is composed of others
runs them in turn (`run_bind`): an error ends the dialog where it occurs, and what the server has done
by then stays done.  A dialog for each element of a list that leaves the server as it is computes what
the elements' outcomes give in order (`run_mapM`).
-/
namespace Dialogs
variable {Req Ans ε α β σ : Type}

/-- A client's side of a conversation. -/
inductive Dialog (Req Ans ε α : Type) where
  | done (a : α)
  | fail (e : ε)
  | send (req : Req) (next : Ans → Dialog Req Ans ε α)

namespace Dialog

/-- Goes on with the result of a dialog; an error is the outcome of the whole. -/
def bind : Dialog Req Ans ε α → (α → Dialog Req Ans ε β) → Dialog Req Ans ε β
  | .done a, f => f a
  | .fail e, _ => .fail e
  | .send req next, f => .send req fun a => (next a).bind f

instance instMonad : Monad (Dialog Req Ans ε) where
  pure := .done
  bind := Dialog.bind

theorem bind_done (p : Dialog Req Ans ε α) : p.bind .done = p := by
  induction p with
  | send req next ih => exact congrArg (send req) (funext ih)
  | _ => rfl

instance instLawfulMonad : LawfulMonad (Dialog Req Ans ε) :=
  LawfulMonad.mk' _ bind_done (fun _ _ => rfl) fun p f g => by
    induction p with
    | send req next ih => exact congrArg (send req) (funext ih)
    | _ => rfl

/-- Holds a dialog for every element of a list, in order. -/
def each (f : α → Dialog Req Ans ε Unit) : List α → Dialog Req Ans ε Unit
  | [] => .done ()
  | a :: as => (f a).bind fun _ => each f as

variable {s : σ} {f : α → Dialog Req Ans ε β}

/-! ## Taking place -/

section Run
variable (serve : σ → Req → Ans × σ)

/-- The outcome of a dialog and the state of the server after it. -/
def run : Dialog Req Ans ε α → σ → Except ε α × σ
  | .done a, s => (.ok a, s)
  | .fail e, s => (.error e, s)
  | .send req next, s => (next (serve s req).1).run (serve s req).2

variable {serve}

theorem run_send {req : Req} {next : Ans → Dialog Req Ans ε α} :
    (send req next).run serve s = (next (serve s req).1).run serve (serve s req).2 := rfl

theorem run_bind (p : Dialog Req Ans ε α) (f : α → Dialog Req Ans ε β) (s : σ) :
    (p.bind f).run serve s = match p.run serve s with
      | (.ok a, s') => (f a).run serve s'
      | (.error e, s') => (.error e, s') := by
  induction p generalizing s with
  | send req next ih => exact ih (serve s req).1 (serve s req).2
  | _ => rfl

theorem run_mapM {g : α → Except ε β}
    (h : ∀ a s, (f a).run serve s = (g a, s)) {as : List α} :
    (as.mapM f).run serve s = (as.mapM g, s) := by
  induction as with
  | nil => rfl
  | cons a as ih =>
    rw [List.mapM_cons, List.mapM_cons]
    change Dialog.run serve (Dialog.bind _ _) s = _
    rw [run_bind, h]
    cases g a with
    | error e => rfl
    | ok b =>
      change Dialog.run serve (Dialog.bind _ _) s = _
      rw [run_bind, ih]
      cases as.mapM g <;> rfl

end Run
end Dialog

end Dialogs
