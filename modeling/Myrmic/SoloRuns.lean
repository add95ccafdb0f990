import Myrmic.Processes

/-!
# A process on its own

A process that runs on its own is followed state by state: `run` plays a list of choices, each of which
says how the next request is answered.  `Always` is a program logic for all such runs at once: whatever
the choices, where the process ends, its result and the state satisfy the postcondition.  Its rules
follow the way processes are put together, as those of `Meets` do; what `Meets` says of histories,
`Always` says of states, which nobody else changes meanwhile.  Where a contract says which requests a
process may send, it is enough to look at those (`Meets.always`).
-/
namespace Processes
namespace Process
variable {Req : Type} {Ans : Req → Type} {α β State Choice : Type}
section Solo
variable (answer : State → Choice → (req : Req) → Option (Ans req × State))

/-- Plays a list of choices to the end of a process. -/
def run : Process Req Ans α → State → List Choice → Option (State × α)
  | .done a, st, [] => some (st, a)
  | .send req next, st, c :: cs => (answer st c req).bind fun r => (next r.1).run r.2 cs
  | _, _, _ => none

/-- Wherever a process ends, the state and its result satisfy the postcondition. -/
def Always (Q : State → α → Prop) : Process Req Ans α → State → Prop
  | .done a, st => Q st a
  | .send req next, st => ∀ c a st', answer st c req = some (a, st') → (next a).Always Q st'

variable {answer} {Q : State → α → Prop} {R : State → β → Prop} {st st' : State}
  {p : Process Req Ans α}

theorem Always.of_run {cs : List Choice} {a : α} (h : p.Always answer Q st)
    (hru : p.run answer st cs = some (st', a)) : Q st' a := by
  induction p generalizing st cs with
  | done b =>
    cases cs with
    | nil =>
      cases hru
      exact h
    | cons c cs => cases hru
  | send req next ih =>
    cases cs with
    | nil => cases hru
    | cons c cs =>
      obtain ⟨⟨b, mid⟩, ha, hr⟩ := Option.bind_eq_some_iff.mp hru
      exact ih b (h c b mid ha) hr

theorem Always.bind {f : α → Process Req Ans β}
    (hp : p.Always answer Q st) (hf : ∀ st a, Q st a → (f a).Always answer R st) :
    (p.bind f).Always answer R st := by
  induction p generalizing st with
  | done a => exact hf st a hp
  | send req next ih => exact fun c a st' ha => ih a (hp c a st' ha)

theorem Always.mono {R : State → α → Prop} (hp : p.Always answer Q st)
    (h : ∀ st a, Q st a → R st a) : p.Always answer R st := by
  induction p generalizing st with
  | done a => exact h st a hp
  | send req next ih => exact fun c a st' ha => ih a (hp c a st' ha)

theorem always_each {f : α → Process Req Ans Unit} {as : List α} {I : List α → State → Prop}
    (done : List α) (hI : I done st) (hf : ∀ done, ∀ a ∈ as, ∀ st, I done st →
      (f a).Always answer (fun st _ => I (done ++ [a]) st) st) :
    (each f as).Always answer (fun st _ => I (done ++ as) st) st := by
  induction as generalizing done st with
  | nil =>
    rw [List.append_nil]
    exact hI
  | cons a as ih =>
    refine (hf done a List.mem_cons_self st hI).bind fun st _ hI => ?_
    have hr := ih (done ++ [a]) hI fun done b hb => hf done b (List.mem_cons_of_mem a hb)
    rw [List.append_assoc] at hr
    exact hr

/-- What every request that a process may send keeps, the process keeps. -/
theorem Meets.always {poss : (req : Req) → Ans req → Prop} {S : Req → Prop} {I : State → Prop}
    {ends : List (Event Req Ans) → α → Prop} {hist : List (Event Req Ans)}
    (hp : p.Meets poss (fun _ req => S req) ends hist) (hI : I st)
    (hk : ∀ {st c req a st'}, S req → I st → answer st c req = some (a, st') →
      poss req a ∧ I st') : p.Always answer (fun st _ => I st) st := by
  induction p generalizing hist st with
  | done a => exact hI
  | send req next ih =>
    intro c a st' ha
    obtain ⟨hpo, hI'⟩ := hk hp.1 hI ha
    exact ih a (hp.2 a hpo) hI'

end Solo
end Process

end Processes
