import Myrmic.Libraries

/-!
# Whole answers

The evaluator yields the solutions of a query one by one, and any of them may be an error: the text
behind a hash is not there, or a row cannot be decoded.  A query asks for a **window** of them.  The
errors in the window are collected and then dropped, so what is answered are the solutions before the
first error, as if there were no more.  An update applies its templates to these.

`Whole` is what a caller may expect: an error inside the window is reported, and an answer holds
everything in it.  **An answer is whole exactly if the window has no error**
(`answers_whole_iff`); an update may also be refused for another reason.
-/
namespace Myrmic
open OrderedBytes Fallible Programs List
variable {α : Type} {items : List (Except String α)}

/-- The items a query asks for. -/
def window (items : List α) (skip limit : Nat) : List α := (items.drop skip).take limit

def Errorless (items : List (Except String α)) : Prop := ∀ e, .error e ∉ items

/-- **No partial answer.** -/
structure Whole (items : List (Except String α)) (answered : Prop) (holds : List α → Prop) :
    Prop where
  reported : ∀ e, .error e ∈ items → ¬ answered
  complete : answered → ∃ values, items = values.map .ok ∧ holds values

theorem eq_map_untilError (h : Errorless items) : items = (untilError items).map .ok := by
  induction items with
  | nil => rfl
  | cons item items ih =>
    cases item with
    | error e => exact absurd mem_cons_self (h e)
    | ok a => exact congrArg (.ok a :: ·) (ih fun e he => h e (mem_cons_of_mem _ he))

/-- What is answered from the items before the first error is whole if there is none. -/
theorem whole_iff {answered : Prop} {holds : List α → Prop}
    (hh : answered → holds (untilError items)) :
    Whole items answered holds ↔ Errorless items ∨ ¬ answered := by
  constructor
  · intro h
    by_cases ha : answered
    · exact .inl fun e he => h.reported e he ha
    · exact .inr ha
  · rintro (h | h)
    · exact ⟨fun e he => absurd he (h e), fun ha => ⟨_, eq_map_untilError h, hh ha⟩⟩
    · exact ⟨fun _ _ => h, fun ha => absurd ha h⟩

section Answers
variable [Sparql] {ks : Keyspace} {s : Scope} {query : SparqlQuery} {vars : List String}

def tripleTexts (triple : Triple) : String × String × String :=
  let subject : Term := match triple.subject with
    | .namedNode iri => .namedNode iri
    | .blankNode id => .blankNode id
  (Sparql.termToString subject, Sparql.termToString (.namedNode triple.predicate),
    Sparql.termToString triple.object)

variable [Postcard] (fresh : Nat → String) (baseIri : Option String)
  (delete insert : List QuadPattern)

/-- Applying the templates of an update to the solutions with the given values. -/
def applyTemplates (s : Scope) (vars : List String) (values : List (List (Option Term))) :
    TxProg Unit :=
  TxProg.context "unable to apply semantic delete/insert"
    (StoreTx.semDeleteInsert fresh s delete insert .new (values.map fun values => ⟨vars, values⟩))

/-- **Answers are whole exactly if the window has no error**: those of a query for solutions, those of
a query for a graph, and the changes of an update by pattern. -/
theorem answers_whole_iff (s : Scope) :
    (∀ ks query vars items skip limit, semEval ks s query = .ok (.solutions vars items) →
      (Whole (window items skip limit) (∃ r, semSolution ks s query skip limit = .ok r)
          (fun values => semSolution ks s query skip limit = .ok (vars, values)) ↔
        Errorless (window items skip limit))) ∧
    (∀ ks query items skip limit, semEval ks s query = .ok (.graph items) →
      (Whole (window items skip limit) (∃ r, semGraph ks s query skip limit = .ok r)
          (fun triples => semGraph ks s query skip limit = .ok (triples.map tripleTexts)) ↔
        Errorless (window items skip limit))) ∧
    ∀ fresh baseIri delete insert dataset pattern vars items t,
      semEval t.tx.view s ⟨dataset, baseIri, pattern, .select⟩ = .ok (.solutions vars items) →
      let run := (StoreTx.semOperation fresh s baseIri
        (.deleteInsert delete insert dataset pattern)).run t
      let applied := fun values => (applyTemplates fresh delete insert s vars values).run t
      (Whole (window items 0 maxUsize) (run.1 = .ok ()) (fun values => run = applied values) ↔
        Errorless (window items 0 maxUsize) ∨
          (applied (untilError (window items 0 maxUsize))).1 ≠ .ok ()) := by
  refine ⟨fun ks query vars items skip limit h => ?_, fun ks query items skip limit h => ?_,
    fun fresh baseIri delete insert dataset pattern vars items t h => ?_⟩
  · have heq : semSolution ks s query skip limit =
        .ok (vars, untilError (window items skip limit)) := by
      rw [semSolution, h]
      rfl
    exact (whole_iff fun _ => heq).trans (or_iff_left (not_not_intro ⟨_, heq⟩))
  · have heq : semGraph ks s query skip limit =
        .ok ((untilError (window items skip limit)).map tripleTexts) := by
      rw [semGraph, h]
      rfl
    exact (whole_iff fun _ => heq).trans (or_iff_left (not_not_intro ⟨_, heq⟩))
  · intro run applied
    have hru : run = applied (untilError (window items 0 maxUsize)) := by
      simp only [run, StoreTx.semOperation, TxProg.run_bind, TxProg.view, TxProg.run_ask,
        semSolution, h]
      rfl
    rw [← hru]
    exact whole_iff fun _ => hru

end Answers

/-! ## A name without its text -/

namespace Sample

/-- An evaluator of the query for the names of all graphs. -/
@[reducible] def graphNames : Sparql :=
  { (inferInstance : Sparql) with
    execute := fun _ view => .ok (.solutions ["g"] (view.internalNamedGraphs.map fun name => do
      let term ← view.externalizeTerm (← name)
      return [some term])) }

/-- A scope with the name of one graph, whose text is not stored. -/
def unnamedGraph : Keyspace :=
  writeRow ∅ (scope.dataKey (.graphName (.namedNode ⟨List.replicate 16 7, rfl⟩))) 5 .insertion []

end Sample

open Sample in
/-- The evaluator reports that the text is missing; the answer is that there are no graphs. -/
theorem missing_text_not_reported : let _ := graphNames
    ∃ query : SparqlQuery, ∃ vars items,
      semEval unnamedGraph scope query = .ok (.solutions vars items) ∧
      ¬ Whole (window items 0 100) (∃ r, semSolution unnamedGraph scope query 0 100 = .ok r)
        (fun values => semSolution unnamedGraph scope query 0 100 = .ok (vars, values)) := by
  let _ := graphNames
  refine ⟨⟨none, none, (), .select⟩, ["g"], [.error "Unable to find key"], ?_, fun h => ?_⟩
  · decide +kernel
  · exact h.reported _ mem_cons_self ⟨(["g"], []), by decide +kernel⟩

end Myrmic
