import Mathlib.Data.Option.Basic
import Mathlib.Data.List.Basic

/-!
# Runs of a machine

A machine is a step function: an action either is not possible in a state, or leads to one state.
What may happen next is left to the actions, so an interleaving of several parties is a list of
actions.  `allowed` restricts the actions of a run; a property that holds of the start and is kept by
every allowed step holds of **every state an allowed run reaches** (`Reached.holds`).

`runAllowed` carries a list of actions out, so that a run on concrete data can be evaluated.
-/
namespace Machine
variable {State Action : Type} {step : State → Action → Option State}
  {allowed : State → Action → Prop} {start : State} {st : State} {P : State → Prop}

/-- The states that runs of allowed actions reach. -/
inductive Reached (step : State → Action → Option State) (allowed : State → Action → Prop)
    (start : State) : State → Prop
  | refl : Reached step allowed start start
  | tail {st st' : State} (action : Action) : Reached step allowed start st → allowed st action →
      step st action = some st' → Reached step allowed start st'

/-- What holds at the start and is kept by every allowed step holds in every state reached. -/
theorem Reached.holds (h : Reached step allowed start st) (hs : P start)
    (hste : ∀ {st st' act}, P st → allowed st act → step st act = some st' → P st') :
    P st := by
  induction h with
  | refl => exact hs
  | tail act _ ha hst ih => exact hste ih ha hst

theorem Reached.trans {mid : State} (h : Reached step allowed start mid)
    (h' : Reached step allowed mid st) : Reached step allowed start st := by
  induction h' with
  | refl => exact h
  | tail act _ ha hst ih => exact .tail act ih ha hst

variable (h : Reached step allowed start st) {actions : List Action}
include h

theorem Reached.mono {allowed' : State → Action → Prop}
    (hi : ∀ {st act}, allowed st act → allowed' st act) : Reached step allowed' start st := by
  induction h with
  | refl => exact .refl
  | tail act _ ha hst ih => exact .tail act ih (hi ha) hst

/-- Between a state where something holds and one where it does not, a step has ended it. -/
theorem Reached.exists_end (hsta : P start) (hst : ¬P st) :
    ∃ mid act mid', Reached step allowed start mid ∧ step mid act = some mid' ∧
      Reached step allowed mid' st ∧ P mid ∧ ¬P mid' := by
  induction h with
  | refl => exact absurd hsta hst
  | @tail mid st act hm ha hs ih =>
    by_cases hP : P mid
    · exact ⟨mid, act, st, hm, hs, .refl, hP, hst⟩
    · obtain ⟨first, ended, next, hf, he, hn, hb⟩ := ih hP
      exact ⟨first, ended, next, hf, he, .tail act hn ha hs, hb⟩

/-- Carries out actions, as long as each is allowed and possible. -/
def runAllowed (step : State → Action → Option State) (allowed : State → Action → Prop)
    [∀ st action, Decidable (allowed st action)] (st : State) : List Action → Option State
  | [] => some st
  | action :: actions =>
    if allowed st action then
      (step st action).bind fun st' => runAllowed step allowed st' actions
    else none

theorem Reached.run [∀ st act, Decidable (allowed st act)] {st' : State}
    (hru : runAllowed step allowed st actions = some st') : Reached step allowed start st' := by
  induction actions generalizing st with
  | nil =>
    cases hru
    exact h
  | cons act actions ih =>
    simp only [runAllowed] at hru
    split at hru
    · next ha =>
      obtain ⟨_, hm, hr⟩ := Option.bind_eq_some_iff.mp hru
      exact ih (Reached.tail act h ha hm) hr
    · cases hru

omit h

section Evaluation
variable [∀ st act, Decidable (allowed st act)] (actions)

/-- A list of actions that can be carried out reaches a state, and what evaluation finds there holds. -/
theorem exists_reached [DecidablePred P]
    (h : (runAllowed step allowed start actions).any (P ·) = true) :
    ∃ st, Reached step allowed start st ∧ P st := by
  obtain ⟨st, hst, hf⟩ := (Option.any_eq_true _ _).mp h
  exact ⟨st, Reached.refl.run hst, of_decide_eq_true hf⟩

theorem exists_reached_some {β : Type} {o : State → Option β} {P : State → β → Prop}
    [∀ st, DecidablePred (P st)]
    (h : (runAllowed step allowed start actions).any (fun st => (o st).any (P st ·)) = true) :
    ∃ st b, Reached step allowed start st ∧ o st = some b ∧ P st b := by
  obtain ⟨st, hst, hf⟩ := (Option.any_eq_true _ _).mp h
  obtain ⟨b, hb, hf⟩ := (Option.any_eq_true _ _).mp hf
  exact ⟨st, b, Reached.refl.run hst, hb, of_decide_eq_true hf⟩

end Evaluation

end Machine
