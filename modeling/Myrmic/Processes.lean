import Myrmic.Machine

/-!
# Processes that share a state

A process sends requests, one after another, and goes on with the answers; it is a tree, so that a
statement about a process is an induction over it.  A **history** is what a process has sent and been
answered so far.

`Meets` is a program logic over histories: every request is justified by the history before it, and
so is the result by the history at the end.  It says nothing about the state, so it is proved for one
process at a time, without regard to the others; the rules follow the way processes are put together
(`Meets.bind`, `meets_each`).

`Interleaving` runs any number of processes on one state.  A request is served in one step, and any
other process may take steps in between.  Whatever happens there, **every process keeps to its
contract** (`reached_meets`), so that what remains to be said about a run is what the shared state
makes of justified requests.
-/
namespace Processes
open List

/-- A client of a shared state, which answers a request `req` with an `Ans req`. -/
inductive Process (Req : Type) (Ans : Req → Type) (α : Type) where
  | done (a : α)
  | send (req : Req) (next : Ans req → Process Req Ans α)

variable {Req : Type} {Ans : Req → Type} {α β γ : Type}

/-- A request and its answer. -/
abbrev Event (Req : Type) (Ans : Req → Type) := (req : Req) × Ans req

namespace Process

def bind : Process Req Ans α → (α → Process Req Ans β) → Process Req Ans β
  | .done a, f => f a
  | .send req next, f => .send req fun a => (next a).bind f

instance instMonad : Monad (Process Req Ans) where
  pure := .done
  bind := Process.bind

def ask (req : Req) : Process Req Ans (Ans req) := .send req .done

/-- Runs a process for every element of a list, in order. -/
def each (f : α → Process Req Ans Unit) : List α → Process Req Ans Unit
  | [] => .done ()
  | a :: as => (f a).bind fun _ => each f as

/-- Threads a value through a list. -/
def fold (f : β → α → Process Req Ans β) (b : β) : List α → Process Req Ans β
  | [] => .done b
  | a :: as => (f b a).bind fun b => fold f b as

def isDone : Process Req Ans α → Bool
  | .done _ => true
  | .send _ _ => false

/-! ## Contracts -/

section Meets
variable (possible : (req : Req) → Ans req → Prop) (sends : List (Event Req Ans) → Req → Prop)

/-- After the history every request is justified by what has come before it, and the result by all that
has come, whatever possible answers the requests are given. -/
def Meets (ends : List (Event Req Ans) → α → Prop) : List (Event Req Ans) → Process Req Ans α → Prop
  | history, .done a => ends history a
  | history, .send req next =>
    sends history req ∧ ∀ a, possible req a → Meets ends (history ++ [⟨req, a⟩]) (next a)

variable {possible sends} {ends : List (Event Req Ans) → α → Prop}
  {ends' : List (Event Req Ans) → β → Prop} {history : List (Event Req Ans)} {p : Process Req Ans α}
  (hp : p.Meets possible sends ends history) {as : List α} {f : α → Process Req Ans Unit}
  {I : List (Event Req Ans) → Prop}
include hp

theorem Meets.bind {f : α → Process Req Ans β}
    (hf : ∀ history a, ends history a → (f a).Meets possible sends ends' history) :
    (p.bind f).Meets possible sends ends' history := by
  induction p generalizing history with
  | done a => exact hf history a hp
  | send req next ih => exact ⟨hp.1, fun a ha => ih a (hp.2 a ha)⟩

theorem Meets.mono {ends₂ : List (Event Req Ans) → α → Prop}
    (h : ∀ history a, ends history a → ends₂ history a) : p.Meets possible sends ends₂ history := by
  induction p generalizing history with
  | done a => exact h history a hp
  | send req next ih => exact ⟨hp.1, fun a ha => ih a (hp.2 a ha)⟩

theorem Meets.grows :
    p.Meets possible sends (fun hist' a => history <+: hist' ∧ ends hist' a) history := by
  suffices h : ∀ start, start <+: history →
      p.Meets possible sends (fun hist' a => start <+: hist' ∧ ends hist' a) history from
    h history prefix_rfl
  intro start hs
  induction p generalizing history with
  | done a => exact ⟨hs, hp⟩
  | send req next ih =>
    exact ⟨hp.1, fun a ha => ih a (hp.2 a ha) (hs.trans (prefix_append _ _))⟩

omit hp

/-- A loop, by an invariant of the elements that are done and the history. -/
theorem meets_each_done
    {I : List α → List (Event Req Ans) → Prop} (done : List α) (hI : I done history)
    (hf : ∀ done, ∀ a ∈ as, ∀ history, I done history →
      (f a).Meets possible sends (fun history _ => I (done ++ [a]) history) history) :
    (each f as).Meets possible sends (fun history _ => I (done ++ as) history) history := by
  induction as generalizing done history with
  | nil =>
    rw [append_nil]
    exact hI
  | cons a as ih =>
    refine (hf done a mem_cons_self history hI).bind fun history _ hI => ?_
    have hr := ih (done ++ [a]) hI fun done b hb => hf done b (mem_cons_of_mem a hb)
    rw [append_assoc] at hr
    exact hr

/-- A loop, by an invariant of the history. -/
theorem meets_each (hI : I history) (hf : ∀ a ∈ as, ∀ history, I history →
      (f a).Meets possible sends (fun history _ => I history) history) :
    (each f as).Meets possible sends (fun history _ => I history) history :=
  meets_each_done (I := fun _ => I) [] hI fun _ => hf

theorem meets_fold {f : β → α → Process Req Ans β} {b : β}
    (hI : I history) (hf : ∀ b, ∀ a ∈ as, ∀ history, I history →
      (f b a).Meets possible sends (fun history _ => I history) history) :
    (fold f b as).Meets possible sends (fun history _ => I history) history := by
  induction as generalizing b history with
  | nil => exact hI
  | cons a as ih =>
    refine (hf b a mem_cons_self history hI).bind fun history b hI => ih hI fun b c hc => ?_
    exact hf b c (mem_cons_of_mem a hc)

end Meets
end Process

/-! ## Interleavings -/

section Interleaving
variable (Task : Type) (Req : Type) (Ans : Req → Type) (Result : Type)

/-- A process in progress: what it is for, what it has done, and what it will do. -/
structure Running where
  task : Task
  history : List (Event Req Ans)
  rest : Process Req Ans Result

/-- The shared state and all processes that were ever started. -/
structure World (State : Type) where
  state : State
  procs : List (Running Task Req Ans Result)

inductive WorldAction (Choice Outer : Type) where
  /-- A process is started. -/
  | start (task : Task)
  /-- A process has its request served. -/
  | advance (i : Nat) (choice : Choice)
  /-- Something outside the processes changes the state. -/
  | outer (e : Outer)

variable {Task Req Ans Result} {State Choice Outer : Type}
section Step
variable (program : Task → Process Req Ans Result)
  (serve : World Task Req Ans Result State → Choice → (req : Req) →
    Option (Ans req × State × List Task))
  (outer : State → Outer → Option State)

def begin (task : Task) : Running Task Req Ans Result := ⟨task, [], program task⟩

/-- One step; serving a request may start other processes. -/
def step (w : World Task Req Ans Result State) : WorldAction Task Choice Outer →
    Option (World Task Req Ans Result State)
  | .start task => some { w with procs := w.procs ++ [begin program task] }
  | .advance i choice =>
    match w.procs[i]? with
    | some ⟨task, history, .send req next⟩ =>
      (serve w choice req).map fun r =>
        ⟨r.2.1, w.procs.set i ⟨task, history ++ [⟨req, r.1⟩], next r.1⟩ ++ r.2.2.map (begin program)⟩
    | _ => none
  | .outer e => (outer w.state e).map fun state => { w with state := state }

variable {program serve outer} {w w' : World Task Req Ans Result State}
  {act : WorldAction Task Choice Outer}

/-- What a step does. -/
inductive Stepped (program : Task → Process Req Ans Result)
    (serve : World Task Req Ans Result State → Choice → (req : Req) →
      Option (Ans req × State × List Task))
    (outer : State → Outer → Option State) (w : World Task Req Ans Result State) :
    WorldAction Task Choice Outer → World Task Req Ans Result State → Prop
  | start (task : Task) :
    Stepped program serve outer w (.start task) ⟨w.state, w.procs ++ [begin program task]⟩
  | advance {i : Nat} {choice : Choice} {task : Task} {history : List (Event Req Ans)} {req : Req}
      {next : Ans req → Process Req Ans Result} {a : Ans req} {state : State} {tasks : List Task}
      (hproc : w.procs[i]? = some ⟨task, history, .send req next⟩)
      (hserve : serve w choice req = some (a, state, tasks)) :
    Stepped program serve outer w (.advance i choice)
      ⟨state, w.procs.set i ⟨task, history ++ [⟨req, a⟩], next a⟩ ++ tasks.map (begin program)⟩
  | outer {e : Outer} {state : State} (h : outer w.state e = some state) :
    Stepped program serve outer w (.outer e) ⟨state, w.procs⟩

theorem stepped_of_step (h : step program serve outer w act = some w') :
    Stepped program serve outer w act w' := by
  cases act with
  | start task =>
    cases h
    exact .start task
  | advance i choice =>
    simp only [step] at h
    split at h
    · next task history req next hp =>
      obtain ⟨⟨a, state, _⟩, hs, rfl⟩ := Option.map_eq_some_iff.mp h
      exact .advance hp hs
    · cases h
  | outer e =>
    obtain ⟨state, hst, rfl⟩ := Option.map_eq_some_iff.mp h
    exact .outer hst

/-! ### Contracts -/

variable (possible : (req : Req) → Ans req → Prop)
  (sends : Task → List (Event Req Ans) → Req → Prop)
  (ends : Task → List (Event Req Ans) → Result → Prop)

/-- A process in progress goes on as its contract says. -/
def Running.Keeps (p : Running Task Req Ans Result) : Prop :=
  p.rest.Meets possible (sends p.task) (ends p.task) p.history

variable {possible sends ends}
  (hp : ∀ task, (program task).Meets possible (sends task) (ends task) [])
  {allowed : World Task Req Ans Result State → WorldAction Task Choice Outer → Prop}
  {start : World Task Req Ans Result State} {task : Task} {history : List (Event Req Ans)} {i : Nat}
  {j : Nat} {req : Req}
include hp

theorem begin_keeps (task : Task) : (begin program task).Keeps possible sends ends := hp task

omit hp in
/-- A step keeps the processes to their contracts. -/
theorem Stepped.keeps
    (hse : ∀ {w choice req a state tasks}, serve w choice req = some (a, state, tasks) →
      possible req a) (hpr : ∀ task, (program task).Meets possible (sends task) (ends task) [])
    (hst : Stepped program serve outer w act w') (h : ∀ p ∈ w.procs, p.Keeps possible sends ends) :
    ∀ p ∈ w'.procs, p.Keeps possible sends ends := by
  cases hst with
  | start task =>
    exact forall_mem_append.mpr ⟨h, forall_mem_singleton.mpr (begin_keeps hpr task)⟩
  | @advance i choice task history req next a state tasks hpro hser =>
    intro p hp
    rcases mem_append.mp hp with hp | hp
    · rcases mem_or_eq_of_mem_set hp with hp | rfl
      · exact h p hp
      · exact (h _ (mem_of_getElem? hpro)).2 a (hse hser)
    · obtain ⟨task', -, rfl⟩ := mem_map.mp hp
      exact begin_keeps hpr task'
  | outer hsta => exact h

/-- **Every process of a run keeps to its contract.** -/
theorem reached_meets
    (hs : ∀ {w choice req a state tasks}, serve w choice req = some (a, state, tasks) →
      possible req a) (hsta : ∀ p ∈ start.procs, p.Keeps possible sends ends)
    (h : Machine.Reached (step program serve outer) allowed start w) :
    ∀ p ∈ w.procs, p.Keeps possible sends ends :=
  h.holds hsta fun hw _ hst => (stepped_of_step hst).keeps hs hp hw

omit hp

theorem sends_of_keeps {next : Ans req → Process Req Ans Result}
    (h : ∀ p ∈ w.procs, p.Keeps possible sends ends)
    (hp : w.procs[i]? = some ⟨task, history, .send req next⟩) : sends task history req :=
  (h _ (mem_of_getElem? hp)).1

/-! ### Histories -/

/-- A process goes on with what it is for, and forgets nothing. -/
structure Running.Continues (p p' : Running Task Req Ans Result) : Prop where
  task : p'.task = p.task
  history : p.history <+: p'.history

theorem Running.Continues.refl (p : Running Task Req Ans Result) : p.Continues p :=
  ⟨rfl, prefix_rfl⟩

variable (hs : Stepped program serve outer w act w')
include hs

theorem Stepped.continues {p : Running Task Req Ans Result} (hp : w.procs[j]? = some p) :
    ∃ p', w'.procs[j]? = some p' ∧ p.Continues p' := by
  obtain ⟨hj, -⟩ := List.getElem?_eq_some_iff.mp hp
  cases hs with
  | start task =>
    exact ⟨p, by rw [List.getElem?_append_left hj, hp], .refl p⟩
  | @advance i choice task history req next a state tasks hpr hse =>
    have hl : j < (w.procs.set i ⟨task, history ++ [⟨req, a⟩], next a⟩).length := by
      rw [length_set]
      exact hj
    rw [List.getElem?_append_left hl, List.getElem?_set]
    by_cases hij : i = j
    · subst hij
      rw [hpr] at hp
      cases hp
      exact ⟨⟨task, history ++ [⟨req, a⟩], next a⟩, by simp [hj], rfl, prefix_append _ _⟩
    · exact ⟨p, by rw [if_neg hij, hp], .refl p⟩
  | outer h => exact ⟨p, hp, .refl p⟩

theorem Stepped.ended {res : Result} (hp : w.procs[j]? = some ⟨task, history, .done res⟩) :
    w'.procs[j]? = some ⟨task, history, .done res⟩ := by
  obtain ⟨hj, -⟩ := List.getElem?_eq_some_iff.mp hp
  cases hs with
  | start task => rw [List.getElem?_append_left hj, hp]
  | @advance i choice task' hist' req next a state tasks hpr hse =>
    have hij : i ≠ j := by
      rintro rfl
      rw [hpr] at hp
      cases hp
    rw [List.getElem?_append_left (by rwa [length_set]), List.getElem?_set_ne hij, hp]
  | outer h => exact hp

omit hs

theorem Stepped.eq_advance {choice : Choice} {next : Ans req → Process Req Ans Result} {a : Ans req}
    {state : State} {tasks : List Task} (hst : Stepped program serve outer w (.advance i choice) w')
    (hp : w.procs[i]? = some ⟨task, history, .send req next⟩)
    (hs : serve w choice req = some (a, state, tasks)) :
    w' = ⟨state, w.procs.set i ⟨task, history ++ [⟨req, a⟩], next a⟩ ++ tasks.map (begin program)⟩ := by
  cases hst with
  | advance hp' hs' =>
    rw [hp] at hp'
    cases hp'
    rw [hs] at hs'
    cases hs'
    rfl

/-- What starts a process: somebody outside, or the service of a request. -/
def Starts (serve : World Task Req Ans Result State → Choice → (req : Req) →
      Option (Ans req × State × List Task))
    (w : World Task Req Ans Result State) (action : WorldAction Task Choice Outer) (task : Task) : Prop :=
  action = .start task ∨
    ∃ i choice task' history req next a state tasks, action = .advance i choice ∧
      w.procs[i]? = some ⟨task', history, .send req next⟩ ∧
      serve w choice req = some (a, state, tasks) ∧ task ∈ tasks

/-- Where a process of the next world comes from: it has not moved, or it is the one whose request was
served, or it has just been started. -/
theorem Stepped.proc_cases (hst : Stepped program serve outer w act w')
    {q' : Running Task Req Ans Result} (hq' : w'.procs[j]? = some q') : w.procs[j]? = some q' ∨
      (∃ choice task history req next a tasks, act = .advance j choice ∧
        w.procs[j]? = some ⟨task, history, .send req next⟩ ∧
        serve w choice req = some (a, w'.state, tasks) ∧
        q' = ⟨task, history ++ [⟨req, a⟩], next a⟩) ∨
      w.procs.length ≤ j ∧ ∃ task, q' = begin program task ∧ Starts serve w act task := by
  cases hst with
  | start task =>
    by_cases hj : j < w.procs.length
    · rw [List.getElem?_append_left hj] at hq'
      exact .inl hq'
    · refine .inr (.inr ⟨Nat.le_of_not_lt hj, task, ?_, .inl rfl⟩)
      have hme := mem_of_getElem? ((List.getElem?_append_right (Nat.le_of_not_lt hj)).symm.trans hq')
      exact mem_singleton.mp hme
  | @advance i choice task history req next a state tasks hpr hse =>
    by_cases hj : j < w.procs.length
    · rw [List.getElem?_append_left (by rwa [length_set])] at hq'
      by_cases hij : i = j
      · subst hij
        rw [List.getElem?_set_self hj] at hq'
        cases hq'
        exact .inr (.inl ⟨choice, task, history, req, next, a, tasks, rfl, hpr, hse, rfl⟩)
      · rw [List.getElem?_set_ne hij] at hq'
        exact .inl hq'
    · refine .inr (.inr ⟨Nat.le_of_not_lt hj, ?_⟩)
      rw [List.getElem?_append_right (by rw [length_set]; exact Nat.le_of_not_lt hj)] at hq'
      obtain ⟨task', hta', rfl⟩ := mem_map.mp (mem_of_getElem? hq')
      exact ⟨task', rfl, .inr ⟨i, choice, task, history, req, next, a, state, tasks, rfl, hpr, hse,
        hta'⟩⟩
  | outer h => exact .inl hq'

/-- **What a step makes of what is known about tasks and their histories**: it goes on to hold, holds of
what is started, and takes in the event of the request that was served. -/
theorem Stepped.histories {P P' : Task → List (Event Req Ans) → Prop}
    (hste : Stepped program serve outer w act w') (hold : ∀ p ∈ w.procs, P p.task p.history)
    (hm : ∀ {task history}, P task history → P' task history)
    (hb : ∀ {task}, Starts serve w act task → P' task [])
    (hse : ∀ {i choice task history req next a tasks}, act = .advance i choice →
      w.procs[i]? = some ⟨task, history, .send req next⟩ →
      serve w choice req = some (a, w'.state, tasks) → P task history →
      P' task (history ++ [⟨req, a⟩])) : ∀ p ∈ w'.procs, P' p.task p.history := by
  intro p hp
  obtain ⟨j, hj⟩ := mem_iff_getElem?.mp hp
  rcases hste.proc_cases hj with hs | ⟨choice, task, history, req, next, a, tasks, ha, hpr,
      hser, rfl⟩ | ⟨-, task, rfl, hst⟩
  · exact hm (hold p (mem_of_getElem? hs))
  · exact hse ha hpr hser (hold _ (mem_of_getElem? hpr))
  · exact hb hst

variable (h : Machine.Reached (step program serve outer) allowed start w)
include h

/-- What holds of an event when it happens, and goes on to hold, holds of every event of a run. -/
theorem reached_events {Q : World Task Req Ans Result State → Event Req Ans → Prop}
    (hsta : ∀ p ∈ start.procs, ∀ e ∈ p.history, Q start e)
    (hser : ∀ {w i choice task history req next a state tasks},
      Machine.Reached (step program serve outer) allowed start w → allowed w (.advance i choice) →
      w.procs[i]? = some ⟨task, history, .send req next⟩ →
      serve w choice req = some (a, state, tasks) →
      Q ⟨state, w.procs.set i ⟨task, history ++ [⟨req, a⟩], next a⟩ ++ tasks.map (begin program)⟩
        ⟨req, a⟩) (hke : ∀ {w w' act e}, allowed w act → Stepped program serve outer w act w' →
      Q w e → Q w' e) : ∀ p ∈ w.procs, ∀ e ∈ p.history, Q w e := by
  induction h with
  | refl => exact hsta
  | @tail w w' act hre hal hst ih =>
    have hste := stepped_of_step hst
    refine hste.histories (P := fun _ history => ∀ e ∈ history, Q w e) ih
      (fun hold e he => hke hal hste (hold e he)) (fun _ e he => (not_mem_nil he).elim) ?_
    rintro i choice task history req next a tasks rfl hpr hse hold
    refine forall_mem_append.mpr ⟨fun e he => hke hal hste (hold e he), forall_mem_singleton.mpr ?_⟩
    rw [hste.eq_advance hpr hse]
    exact hser hre hal hpr hse

/-- What holds of a task and its history at the beginning, and is kept by every event, holds of every
process of a run. -/
theorem reached_histories {I : Task → List (Event Req Ans) → Prop} (hb : ∀ task, I task [])
    (hsta : ∀ p ∈ start.procs, I p.task p.history)
    (hs : ∀ {w i choice task history req next a state tasks},
      Machine.Reached (step program serve outer) allowed start w → allowed w (.advance i choice) →
      w.procs[i]? = some ⟨task, history, .send req next⟩ →
      serve w choice req = some (a, state, tasks) → I task history → I task (history ++ [⟨req, a⟩])) :
    ∀ p ∈ w.procs, I p.task p.history := by
  induction h with
  | refl => exact hsta
  | tail act hr ha hst ih =>
    refine (stepped_of_step hst).histories (P := I) ih id (fun {task} _ => hb task) ?_
    rintro i choice task history req next a tasks rfl hp hse hold
    exact hs hr ha hp hse hold

end Step
end Interleaving

end Processes
