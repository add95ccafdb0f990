import Myrmic.Term

/-!
# Updates and queries of the semantic store

A client's update is a list of graph operations.  Their statements are data, or patterns that are
**filled** with the terms a query found.  A blank node in data or in a pattern names nothing outside the
update: each is replaced by a new blank node, the same one wherever it occurs again.

The parser and the evaluator of queries are libraries.  `Sparql` names what the store uses of them; a
graph pattern is opaque to the store, and the evaluator sees the store only through `Dataset`.
-/
namespace Myrmic

/-! ## Statements and patterns -/

inductive GraphName where
  | namedNode (iri : String)
  | blankNode (id : String)
  | defaultGraph
deriving DecidableEq

/-- A statement of an update's data; its graph is a named node or the default graph. -/
structure DataQuad where
  triple : Triple
  graph : Option String
deriving DecidableEq

def convertGraphName : Option String → GraphName
  | some iri => .namedNode iri
  | none => .defaultGraph

inductive NamedNodePattern where
  | namedNode (iri : String)
  | variable (name : String)
deriving DecidableEq

inductive GraphNamePattern where
  | namedNode (iri : String)
  | defaultGraph
  | variable (name : String)
deriving DecidableEq

inductive TermPattern where
  | namedNode (iri : String)
  | blankNode (id : String)
  | literal (value : Literal)
  | triple (subject : TermPattern) (predicate : NamedNodePattern) (object : TermPattern)
  | variable (name : String)
deriving DecidableEq

/-- A pattern for statements to insert.  The patterns for statements to delete have no blank nodes. -/
structure QuadPattern where
  subject : TermPattern
  predicate : NamedNodePattern
  object : TermPattern
  graphName : GraphNamePattern
deriving DecidableEq

structure Quad where
  triple : Triple
  graphName : GraphName
deriving DecidableEq

structure QuerySolution where
  vars : List String
  values : List (Option Term)
deriving DecidableEq

def QuerySolution.get (solution : QuerySolution) (name : String) : Option Term :=
  ((solution.vars.zip solution.values).lookup name).join

/-! ## Blank nodes -/

/-- The blank nodes replaced so far, and how many new ones were made. -/
structure Blanks where
  replaced : List (String × String)
  made : Nat

def Blanks.new : Blanks := ⟨[], 0⟩

def Blanks.clear (blanks : Blanks) : Blanks := { blanks with replaced := [] }

section Unify

-- the names of new blank nodes, in the order they are made
variable (fresh : Nat → String)

def replaceBlankNode (node : String) (blanks : Blanks) : String × Blanks :=
  match blanks.replaced.lookup node with
  | some replacement => (replacement, blanks)
  | none =>
    let replacement := fresh blanks.made
    (replacement, ⟨(node, replacement) :: blanks.replaced, blanks.made + 1⟩)

def convertNamedOrBlank (node : NamedOrBlankNode) (blanks : Blanks) : NamedOrBlankNode × Blanks :=
  match node with
  | .blankNode id =>
    let (id, blanks) := replaceBlankNode fresh id blanks
    (.blankNode id, blanks)
  | .namedNode iri => (.namedNode iri, blanks)

def convertObject (object : Term) (blanks : Blanks) : Term × Blanks :=
  match object with
  | .blankNode id =>
    let (id, blanks) := replaceBlankNode fresh id blanks
    (.blankNode id, blanks)
  | .triple subject predicate object =>
    let (subject, blanks) := convertNamedOrBlank fresh subject blanks
    let (object, blanks) := convertObject object blanks
    (.triple subject predicate object, blanks)
  | .namedNode iri => (.namedNode iri, blanks)
  | .literal value => (.literal value, blanks)

def convertTriple (triple : Triple) (blanks : Blanks) : Triple × Blanks :=
  let (subject, blanks) := convertNamedOrBlank fresh triple.subject blanks
  let (object, blanks) := convertObject fresh triple.object blanks
  (⟨subject, triple.predicate, object⟩, blanks)

/-! ## Filling patterns -/

/-- What can stand in subject position. -/
def asSubject : Term → Option NamedOrBlankNode
  | .namedNode iri => some (.namedNode iri)
  | .blankNode id => some (.blankNode id)
  | .triple _ _ _ => none
  | .literal _ => none

def fillNamedNodeOrVar (solution : QuerySolution) : NamedNodePattern → Option String
  | .namedNode iri => some iri
  | .variable name =>
    match solution.get name with
    | some (.namedNode iri) => some iri
    | _ => none

def fillGraphNameOrVar (solution : QuerySolution) : GraphNamePattern → Option GraphName
  | .namedNode iri => some (.namedNode iri)
  | .defaultGraph => some .defaultGraph
  | .variable name =>
    match solution.get name with
    | some (.namedNode iri) => some (.namedNode iri)
    | some (.blankNode id) => some (.blankNode id)
    | _ => none

/-- Fills a term; a pattern that cannot be filled still uses up the blank nodes before it. -/
def fillTermOrVar (solution : QuerySolution) : TermPattern → Blanks → Option Term × Blanks
  | .namedNode iri, blanks => (some (.namedNode iri), blanks)
  | .blankNode id, blanks =>
    let (id, blanks) := replaceBlankNode fresh id blanks
    (some (.blankNode id), blanks)
  | .literal value, blanks => (some (.literal value), blanks)
  | .triple subject predicate object, blanks =>
    match fillTermOrVar solution subject blanks with
    | (none, blanks) => (none, blanks)
    | (some subject, blanks) =>
      match asSubject subject, fillNamedNodeOrVar solution predicate with
      | some subject, some predicate =>
        match fillTermOrVar solution object blanks with
        | (some object, blanks) => (some (.triple subject predicate object), blanks)
        | (none, blanks) => (none, blanks)
      | _, _ => (none, blanks)
  | .variable name, blanks => (solution.get name, blanks)

def fillQuadPattern (quad : QuadPattern) (solution : QuerySolution) (blanks : Blanks) :
    Option Quad × Blanks :=
  match fillTermOrVar fresh solution quad.subject blanks with
  | (none, blanks) => (none, blanks)
  | (some subject, blanks) =>
    match asSubject subject, fillNamedNodeOrVar solution quad.predicate with
    | some subject, some predicate =>
      match fillTermOrVar fresh solution quad.object blanks with
      | (none, blanks) => (none, blanks)
      | (some object, blanks) =>
        ((fillGraphNameOrVar solution quad.graphName).map fun graphName =>
          ⟨⟨subject, predicate, object⟩, graphName⟩, blanks)
    | _, _ => (none, blanks)

end Unify

/-- Fills a pattern for statements to delete: without blank nodes it needs no new names. -/
def fillGroundQuadPattern (quad : QuadPattern) (solution : QuerySolution) : Option Quad :=
  (fillQuadPattern (fun _ => "") quad solution .new).1

/-! ## Operations -/

inductive GraphTarget where
  | namedNode (iri : String)
  | defaultGraph
  | namedGraphs
  | allGraphs
deriving DecidableEq

/-- One operation of an update; `P` are the graph patterns and `D` the data set clauses. -/
inductive GraphUpdateOperation (P D : Type) where
  | insertData (data : List DataQuad)
  | deleteData (data : List DataQuad)
  | deleteInsert (delete insert : List QuadPattern) (dataset : Option D) (pattern : P)
  | load (silent : Bool) (source : String)
  | clear (silent : Bool) (graph : GraphTarget)
  | create (silent : Bool) (graph : String)
  | drop (silent : Bool) (graph : GraphTarget)

structure SemUpdate (P D : Type) where
  baseIri : Option String
  operations : List (GraphUpdateOperation P D)

inductive QueryKind where
  | select
  | construct
  | describe
  | ask
deriving DecidableEq

def QueryKind.name : QueryKind → String
  | .select => "SELECT"
  | .ask => "ASK"
  | .construct => "CONSTRUCT"
  | .describe => "DESCRIBE"

structure SemQuery (P D : Type) where
  dataset : Option D
  baseIri : Option String
  pattern : P
  kind : QueryKind

/-- The items are produced one by one, and each may be an error. -/
inductive QueryResults where
  | solutions (vars : List String) (items : List (Except String (List (Option Term))))
  | graph (items : List (Except String Triple))
  | boolean (answer : Bool)
deriving DecidableEq

/-! ## What the evaluator sees -/

/-- A statement a query walks over; `none` is the default graph. -/
structure InternalQuad where
  subject : EncodedTerm
  predicate : EncodedTerm
  object : EncodedTerm
  graphName : Option EncodedTerm
deriving DecidableEq

/-- A term in an expression: a value of a known data type, or any other term. -/
inductive ExpressionTerm where
  | value (kind : XsdKind) (value : ByteVec kind.width)
  | boolean (value : Bool)
  | triple (subject predicate object : ExpressionTerm)
  | other (term : Term)

/-- A data set to evaluate queries over. -/
structure Dataset where
  internalQuadsForPattern : (subject predicate object : Option EncodedTerm) →
    (graphName : Option (Option EncodedTerm)) → List (Except String InternalQuad)
  internalizeTerm : Term → Except String EncodedTerm
  externalizeTerm : EncodedTerm → Except String Term
  internalizeExpressionTerm : ExpressionTerm → Except String EncodedTerm
  externalizeExpressionTerm : EncodedTerm → Except String ExpressionTerm
  internalNamedGraphs : List (Except String EncodedTerm)
  containsInternalGraphName : EncodedTerm → Except String Bool
  internalTermEffectiveBooleanValue : EncodedTerm → Except String (Option Bool)

/-- What the store uses of the libraries that parse and evaluate. -/
class Sparql extends Rdf where
  /-- Graph patterns. -/
  GraphPattern : Type
  /-- The data set clauses of a query. -/
  QueryDataset : Type
  /-- Whether a text can be the base of relative names. -/
  validBaseIri : String → Bool
  parseUpdate : Option String → String → Option (SemUpdate GraphPattern QueryDataset)
  parseQuery : Option String → String → Option (SemQuery GraphPattern QueryDataset)
  execute : SemQuery GraphPattern QueryDataset → Dataset → Except String QueryResults
  /-- Reads a term as the value of an expression. -/
  toExpression : Term → ExpressionTerm
  /-- An expression triple, unless a term stands where it cannot. -/
  newTriple : ExpressionTerm → ExpressionTerm → ExpressionTerm → Option ExpressionTerm
  /-- Whether a number counts as true. -/
  truth : (kind : XsdKind) → ByteVec kind.width → Bool
  /-- The text of a term. -/
  termToString : Term → String

end Myrmic
