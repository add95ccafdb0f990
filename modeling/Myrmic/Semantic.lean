import Myrmic.Sparql
import Myrmic.StoreOps

/-!
# The semantic store

A statement is stored as rows without values: a triple of the default graph under three orders of its
terms, a quad under six.  The rows hold **encoded** terms, and the texts behind the hashes in them are
kept in lookup rows that lie outside every scope.  Inserting a statement that is already there writes
nothing; erasing one erases all its rows whether they are there or not.

A query is evaluated over `DataView`: the ranges of rows that match a pattern of bound terms, the graph
names, and the decoding of terms.  An update is a list of graph operations; the ones with a pattern
evaluate it first and then delete and insert what its solutions give.
-/
namespace Myrmic
open OrderedBytes Fallible Programs

/-! ## Looking at the store -/

section DataView
variable [Rdf]

def resolveText (ks : Keyspace) (hash : HashedBytes) : Except String String := do
  let found ← context "Unable to lookup key" (getRaw ks (Location.term hash).key)
  let (_, data) ← contextNone "Unable to find key" found
  contextNone "Unable to convert stored data to utf-8" (fromUtf8 data)

def decodeTerm (ks : Keyspace) (term : EncodedTerm) : Except String Term :=
  decodeWith (resolveText ks) term

/-- The triples of the default graph that match a pattern. -/
def selectFromDefaultGraph (ks : Keyspace) (s : Scope) (subject predicate object : Option EncodedTerm) :
    Except String (List EncodedTriple) := do
  let (encoding, lower, upper) ← partialTripleIntoRange s subject predicate object
  (rangeLatest ks lower (some upper)).mapM fun entry => do
    let (key, _) ← entry
    let (a, b, c) ← decodeTripleKey key
    let (subject, predicate, object) := encoding.sort a b c
    return ⟨subject, predicate, object⟩

/-- The quads that match a pattern; without a graph name those of every named graph. -/
def selectFromNamedGraph (ks : Keyspace) (s : Scope)
    (subject predicate object graphName : Option EncodedTerm) :
    Except String (List EncodedQuad) := do
  let (encoding, lower, upper) ← partialQuadIntoRange s subject predicate object graphName
  (rangeLatest ks lower (some upper)).mapM fun entry => do
    let (key, _) ← entry
    let (a, b, c, d) ← decodeQuadKey key
    let (subject, predicate, object, graphName) := encoding.sort a b c d
    return ⟨subject, predicate, object, graphName⟩

def collectTriples (ks : Keyspace) (s : Scope) : Except String (List EncodedTriple) :=
  selectFromDefaultGraph ks s none none none

def collectQuads (ks : Keyspace) (s : Scope) (graphName : Option EncodedTerm) :
    Except String (List EncodedQuad) :=
  selectFromNamedGraph ks s none none none graphName

def onlyGraphName (s : Scope) : Bytes := s.encode ++ lit ['s', 'g']

def collectGraphNames (ks : Keyspace) (s : Scope) : Except String (List EncodedTerm) :=
  (latestEntries none (ks.prefixOf (onlyGraphName s))).mapM fun entry => do
    let (key, _) ← entry
    decodeGraphName key

/-- A walk that fails yields its error and nothing else. -/
def walked {α : Type} : Except String (List α) → List (Except String α)
  | .ok items => items.map .ok
  | .error e => [.error e]

/-- `some none` is the default graph, `some (some _)` one named graph, and `none` every named graph. -/
def internalQuadsForPattern (ks : Keyspace) (s : Scope) (subject predicate object : Option EncodedTerm)
    (graphName : Option (Option EncodedTerm)) : List (Except String InternalQuad) :=
  let named := fun graphName => walked <|
    (selectFromNamedGraph ks s subject predicate object graphName).map fun quads =>
      quads.map fun q => ⟨q.subject, q.predicate, q.object, some q.graphName⟩
  match graphName with
  | some (some graphName) => named (some graphName)
  | some none => walked <|
    (selectFromDefaultGraph ks s subject predicate object).map fun triples =>
      triples.map fun t => ⟨t.subject, t.predicate, t.object, none⟩
  | none => named none

end DataView
section Eval
variable [Sparql]

def internalizeExpressionTerm : ExpressionTerm → EncodedTerm
  | .value kind value => .literalValue kind value
  | .boolean value => .literalBoolean value
  | .triple subject predicate object =>
    .triple (internalizeExpressionTerm subject) (internalizeExpressionTerm predicate)
      (internalizeExpressionTerm object)
  | .other term => (encodeTerm term).1

def externalizeExpressionTerm (ks : Keyspace) : EncodedTerm → Except String ExpressionTerm
  | .literalValue kind value => .ok (.value kind value)
  | .literalBoolean value => .ok (.boolean value)
  | .triple subject predicate object => do
    let subject ← externalizeExpressionTerm ks subject
    let predicate ← externalizeExpressionTerm ks predicate
    let object ← externalizeExpressionTerm ks object
    contextNone "Unable to construct a valid triple" (Sparql.newTriple subject predicate object)
  | term => return Sparql.toExpression (← decodeTerm ks term)

def internalTermEffectiveBooleanValue : EncodedTerm → Option Bool
  | .literalBoolean value => some value
  | .literalStringSmall value => some !value.isEmpty
  | .literalStringBig _ => some false
  | .literalValue .float value => some (Sparql.truth .float value)
  | .literalValue .double value => some (Sparql.truth .double value)
  | .literalValue .integer value => some (Sparql.truth .integer value)
  | .literalValue .decimal value => some (Sparql.truth .decimal value)
  | _ => none

/-- The rows of a scope as the evaluator sees them. -/
def DataView (ks : Keyspace) (s : Scope) : Dataset where
  internalQuadsForPattern := internalQuadsForPattern ks s
  internalizeTerm term := .ok (encodeTerm term).1
  externalizeTerm := decodeTerm ks
  internalizeExpressionTerm term := .ok (internalizeExpressionTerm term)
  externalizeExpressionTerm := externalizeExpressionTerm ks
  internalNamedGraphs := walked (collectGraphNames ks s)
  containsInternalGraphName name := do
    let value ← context "Unable to lookup graph name" (getRaw ks (s.dataKey (.graphName name)))
    return value.isSome
  internalTermEffectiveBooleanValue term := .ok (internalTermEffectiveBooleanValue term)

abbrev SparqlQuery := SemQuery (Sparql.GraphPattern) (Sparql.QueryDataset)

abbrev SparqlUpdate := SemUpdate (Sparql.GraphPattern) (Sparql.QueryDataset)

abbrev SparqlOperation := GraphUpdateOperation (Sparql.GraphPattern) (Sparql.QueryDataset)

def semEval (ks : Keyspace) (s : Scope) (query : SparqlQuery) : Except String QueryResults :=
  context "unable to eval query" (Sparql.execute query (DataView ks s))

/-- The items before the first error. -/
def untilError {ε α : Type} : List (Except ε α) → List α
  | [] => []
  | .ok a :: items => a :: untilError items
  | .error _ :: _ => []

def wrongResults : String :=
  "[Internal Error] Query was checked but still returned the wrong thing"

/-- The solutions of a query: an error ends them without being reported. -/
def semSolution (ks : Keyspace) (s : Scope) (query : SparqlQuery) (skip limit : Nat) :
    Except String (List String × List (List (Option Term))) := do
  match ← context "unable to evaluate query" (semEval ks s query) with
  | .solutions vars items => return (vars, untilError ((items.drop skip).take limit))
  | _ => .error wrongResults

def semGraph (ks : Keyspace) (s : Scope) (query : SparqlQuery) (skip limit : Nat) :
    Except String (List (String × String × String)) := do
  match ← context "unable to evaluate query" (semEval ks s query) with
  | .graph items =>
    return (untilError ((items.drop skip).take limit)).map fun triple =>
      let subject : Term := match triple.subject with
        | .namedNode iri => .namedNode iri
        | .blankNode id => .blankNode id
      (Sparql.termToString subject, Sparql.termToString (.namedNode triple.predicate),
        Sparql.termToString triple.object)
  | _ => .error wrongResults

def semAsk (ks : Keyspace) (s : Scope) (query : SparqlQuery) : Except String Bool := do
  match ← context "unable to evaluate query" (semEval ks s query) with
  | .boolean answer => return answer
  | _ => .error wrongResults

end Eval

/-! ## Changing statements -/

namespace StoreTx
open TxProg
section Statements
variable [Rdf]

def semInsertHashLookup (entry : HashedBytes × String) : TxProg Unit := do
  let _ ← call (.putIfAbsent (.term entry.1) (strBytes entry.2))
  return ()

def semInsertGraphName (s : Scope) (name : String) : TxProg HashedBytes := do
  let hash := HashedBytes.new name
  let _ ← call (.putIfAbsent (.data s (.graphName (.namedNode hash))) (strBytes name))
  semInsertHashLookup (hash, name)
  return hash

/-- Puts the rows of a statement, unless the first of them is there. -/
def insertRows (s : Scope) (first : DataKey) (rest : List DataKey) : TxProg Unit := do
  if ← call (.putIfAbsent (.data s first) []) then
    Prog.each (fun k => TxProg.context "Unable to insert key" (put s k [])) rest

def semInsertQuad (s : Scope) (graphName : GraphName) (triple : EncodedTriple) : TxProg Unit :=
  let quad := fun term =>
    let quad := triple.inGraph term
    insertRows s (fromQuad .spog quad) [fromQuad .posg quad, fromQuad .ospg quad, fromQuad .gspo quad,
      fromQuad .gpos quad, fromQuad .gosp quad]
  match graphName with
  | .defaultGraph =>
    insertRows s (fromTriple .spo triple) [fromTriple .pos triple, fromTriple .osp triple]
  | .blankNode id => do
    let (term, hashed) := encodeBlankNode id
    Prog.each semInsertHashLookup (collect hashed)
    quad term
  | .namedNode iri => do
    let hash ← semInsertGraphName s iri
    quad (.namedNode hash)

/-- Inserts a statement with the texts of its terms. -/
def semInsertStatement (s : Scope) (graphName : GraphName) (triple : Triple) : TxProg Unit := do
  let (triple, hashed) := encodeTriple triple
  Prog.each semInsertHashLookup (collect hashed)
  semInsertQuad s graphName triple

def eraseEncodedTriple (s : Scope) (triple : EncodedTriple) : TxProg Unit :=
  Prog.each (erase s) [fromTriple .spo triple, fromTriple .pos triple, fromTriple .osp triple]

def eraseEncodedQuad (s : Scope) (quad : EncodedQuad) : TxProg Unit :=
  Prog.each (erase s) [fromQuad .spog quad, fromQuad .posg quad, fromQuad .ospg quad,
    fromQuad .gspo quad, fromQuad .gpos quad, fromQuad .gosp quad]

def semDeleteQuad (s : Scope) (graphName : GraphName) (triple : EncodedTriple) : TxProg Unit :=
  match graphName with
  | .defaultGraph => eraseEncodedTriple s triple
  | .blankNode id => eraseEncodedQuad s (triple.inGraph (encodeBlankNode id).1)
  | .namedNode iri => eraseEncodedQuad s (triple.inGraph (.namedNode (.new iri)))

def semInsertData (fresh : Nat → String) (s : Scope) : Blanks → List DataQuad → TxProg Unit
  | _, [] => return ()
  | blanks, quad :: data => do
    let (triple, blanks) := convertTriple fresh quad.triple blanks
    semInsertStatement s (convertGraphName quad.graph) triple
    semInsertData fresh s blanks data

def semDeleteData (s : Scope) (data : List DataQuad) : TxProg Unit :=
  Prog.each (fun quad =>
    semDeleteQuad s (convertGraphName quad.graph) (encodeTriple quad.triple).1) data

/-- Inserts what the patterns give for one solution. -/
def insertFilled (fresh : Nat → String) (s : Scope) (solution : QuerySolution) :
    Blanks → List QuadPattern → TxProg Blanks
  | blanks, [] => return blanks
  | blanks, pattern :: patterns => do
    let (quad, blanks) := fillQuadPattern fresh pattern solution blanks
    match quad with
    | some quad => semInsertStatement s quad.graphName quad.triple
    | none => pure ()
    insertFilled fresh s solution blanks patterns

/-- Deletes what the patterns give for one solution. -/
def deleteFilled (s : Scope) (solution : QuerySolution) (patterns : List QuadPattern) :
    TxProg Unit :=
  Prog.each (fun pattern =>
    match fillGroundQuadPattern pattern solution with
    | some quad => semDeleteQuad s quad.graphName (encodeTriple quad.triple).1
    | none => return ()) patterns

def semDeleteInsert (fresh : Nat → String) (s : Scope) (delete insert : List QuadPattern) :
    Blanks → List QuerySolution → TxProg Unit
  | _, [] => return ()
  | blanks, solution :: solutions => do
    deleteFilled s solution delete
    let blanks ← insertFilled fresh s solution blanks insert
    semDeleteInsert fresh s delete insert blanks.clear solutions

end Statements

/-! ### Clearing graphs -/

/-- Whether a target's named graphs survive the operation as empty graphs. -/
inductive GraphNames where
  | keep
  | remove
deriving DecidableEq

section Clear
variable [Postcard] [Rdf]

def clearDefaultGraph (s : Scope) : TxProg Unit := do
  let triples ← view fun ks => collectTriples ks s
  Prog.each (eraseEncodedTriple s) triples

def clearNamedGraph (s : Scope) (graphName : EncodedTerm) : TxProg Unit := do
  let quads ← view fun ks => collectQuads ks s (some graphName)
  Prog.each (eraseEncodedQuad s) quads

def clearNamedGraphs (s : Scope) (names : GraphNames) : TxProg Unit := do
  let quads ← view fun ks => collectQuads ks s none
  Prog.each (eraseEncodedQuad s) quads
  if names = .remove then
    let names ← view fun ks => collectGraphNames ks s
    Prog.each (fun name => TxProg.context "unable to erase graph name" (erase s (.graphName name)))
      names

def clearTarget (s : Scope) (target : GraphTarget) (silent : Bool) (names : GraphNames) :
    TxProg Unit :=
  match target with
  | .defaultGraph => clearDefaultGraph s
  | .namedNode iri => do
    let term : EncodedTerm := .namedNode (.new iri)
    let found ← TxProg.context "unable to look up graph name" (get (s.dataKey (.graphName term)))
    -- only a specific graph can be missing
    if found.isNone then
      if silent then return () else Prog.fail s!"graph <{iri}> does not exist"
    else
      clearNamedGraph s term
      if names = .remove then
        TxProg.context "unable to erase graph name" (erase s (.graphName term))
  | .namedGraphs => clearNamedGraphs s names
  | .allGraphs => do
    clearDefaultGraph s
    clearNamedGraphs s names

def semClear (s : Scope) (target : GraphTarget) (silent : Bool) : TxProg Unit :=
  clearTarget s target silent .keep

def semDrop (s : Scope) (target : GraphTarget) (silent : Bool) : TxProg Unit :=
  clearTarget s target silent .remove

end Clear

/-! ### Updates -/

section Update
variable [Postcard] [Sparql]

def semOperation (fresh : Nat → String) (s : Scope) (baseIri : Option String) :
    SparqlOperation → TxProg Unit
  | .insertData data =>
    TxProg.context "unable to insert semantic data" (semInsertData fresh s .new data)
  | .deleteData data => TxProg.context "unable to delete semantic data" (semDeleteData s data)
  | .deleteInsert delete insert dataset pattern => do
    let query : SparqlQuery := ⟨dataset, baseIri, pattern, .select⟩
    let (vars, solutions) ← view fun ks => semSolution ks s query 0 maxUsize
    TxProg.context "unable to apply semantic delete/insert"
      (semDeleteInsert fresh s delete insert .new (solutions.map fun values => ⟨vars, values⟩))
  | .create _ graph => TxProg.context "unable to insert semantic graph name" do
    let _ ← semInsertGraphName s graph
    return ()
  | .load silent source =>
    if silent then return () else Prog.fail s!"LOAD is not supported (source: <{source}>)"
  | .drop silent graph =>
    TxProg.context "unable to drop semantic graph" (semDrop s graph silent)
  | .clear silent graph =>
    TxProg.context "unable to clear semantic graph" (semClear s graph silent)

/-- Carries out an update; `fresh i` names the new blank nodes of its operation `i`. -/
def semUpdate (fresh : Nat → Nat → String) (s : ApiScope) (update : SparqlUpdate) :
    TxProg Unit := do
  let scope ← writeScope s
  Prog.each (fun op => semOperation (fresh op.2) scope update.baseIri op.1) update.operations.zipIdx

end Update

/-! ### Which calls an update makes -/

section Plain
open Prog
section Statements
variable [Rdf]

omit [Rdf] in
theorem plain_semInsertHashLookup (e : HashedBytes × String) : Plain (semInsertHashLookup e) :=
  (only_call trivial).bind fun _ => only_pure

theorem plain_semInsertGraphName {s : Scope} {name : String} : Plain (semInsertGraphName s name) :=
  (only_call trivial).bind fun _ => (plain_semInsertHashLookup _).bind fun _ => only_pure

omit [Rdf] in
theorem plain_insertRows (s : Scope) (first : DataKey) (rest : List DataKey) :
    Plain (insertRows s first rest) := by
  refine (only_call trivial).bind fun wrote => ?_
  cases wrote with
  | false => exact only_pure
  | true => exact only_each fun k _ => plain_put.mapError _

theorem plain_semInsertQuad (s : Scope) (graphName : GraphName) (triple : EncodedTriple) :
    Plain (semInsertQuad s graphName triple) := by
  cases graphName with
  | defaultGraph => exact plain_insertRows ..
  | blankNode id =>
    exact (only_each fun e _ => plain_semInsertHashLookup e).bind fun _ => plain_insertRows ..
  | namedNode iri => exact plain_semInsertGraphName.bind fun _ => plain_insertRows ..

theorem plain_semInsertStatement (s : Scope) (graphName : GraphName) (triple : Triple) :
    Plain (semInsertStatement s graphName triple) :=
  (only_each fun e _ => plain_semInsertHashLookup e).bind fun _ => plain_semInsertQuad ..

omit [Rdf] in
theorem plain_eraseEncodedTriple (s : Scope) (triple : EncodedTriple) :
    Plain (eraseEncodedTriple s triple) := only_each fun k _ => plain_erase s k

omit [Rdf] in
theorem plain_eraseEncodedQuad (s : Scope) (quad : EncodedQuad) :
    Plain (eraseEncodedQuad s quad) := only_each fun k _ => plain_erase s k

theorem plain_semDeleteQuad (s : Scope) (graphName : GraphName) (triple : EncodedTriple) :
    Plain (semDeleteQuad s graphName triple) := by
  cases graphName with
  | defaultGraph => exact plain_eraseEncodedTriple ..
  | _ => exact plain_eraseEncodedQuad ..

theorem plain_semInsertData (fresh : Nat → String) (s : Scope) (blanks : Blanks)
    (data : List DataQuad) : Plain (semInsertData fresh s blanks data) := by
  induction data generalizing blanks with
  | nil => exact only_pure
  | cons quad data ih => exact (plain_semInsertStatement ..).bind fun _ => ih _

theorem plain_insertFilled (fresh : Nat → String) (s : Scope) (solution : QuerySolution)
    (blanks : Blanks) (patterns : List QuadPattern) :
    Plain (insertFilled fresh s solution blanks patterns) := by
  induction patterns generalizing blanks with
  | nil => exact only_pure
  | cons pattern patterns ih =>
    simp only [insertFilled]
    cases (fillQuadPattern fresh pattern solution blanks).1 with
    | none => exact ih _
    | some quad => exact (plain_semInsertStatement ..).bind fun _ => ih _

theorem plain_deleteFilled (s : Scope) (solution : QuerySolution) (patterns : List QuadPattern) :
    Plain (deleteFilled s solution patterns) := by
  refine only_each fun pattern _ => ?_
  cases fillGroundQuadPattern pattern solution with
  | none => exact only_pure
  | some quad => exact plain_semDeleteQuad ..

theorem plain_semDeleteInsert (fresh : Nat → String) (s : Scope) (delete insert : List QuadPattern)
    (blanks : Blanks) (solutions : List QuerySolution) :
    Plain (semDeleteInsert fresh s delete insert blanks solutions) := by
  induction solutions generalizing blanks with
  | nil => exact only_pure
  | cons solution solutions ih =>
    exact (plain_deleteFilled ..).bind fun _ => (plain_insertFilled ..).bind fun _ => ih _

end Statements
section Clear
variable [Postcard] (s : Scope)

theorem plain_clearDefaultGraph : Plain (clearDefaultGraph s) :=
  plain_view.bind fun _ => only_each fun triple _ => plain_eraseEncodedTriple s triple

theorem plain_clearNamedGraph (graphName : EncodedTerm) : Plain (clearNamedGraph s graphName) :=
  plain_view.bind fun _ => only_each fun quad _ => plain_eraseEncodedQuad s quad

theorem plain_clearNamedGraphs {names : GraphNames} : Plain (clearNamedGraphs s names) := by
  refine plain_view.bind fun quads =>
    (only_each fun quad _ => plain_eraseEncodedQuad s quad).bind fun _ => ?_
  cases names with
  | keep => exact only_pure
  | remove =>
    exact plain_view.bind fun names => only_each fun name _ => (plain_erase ..).mapError _

variable [Rdf]

theorem plain_clearTarget (target : GraphTarget) (silent : Bool) (names : GraphNames) :
    Plain (clearTarget s target silent names) := by
  cases target with
  | defaultGraph => exact plain_clearDefaultGraph s
  | namedGraphs => exact plain_clearNamedGraphs s
  | allGraphs => exact (plain_clearDefaultGraph s).bind fun _ => plain_clearNamedGraphs s
  | namedNode iri =>
    refine (plain_view.mapError _).bind fun found => ?_
    cases found with
    | none => cases silent <;> trivial
    | some v =>
      refine (plain_clearNamedGraph s _).bind fun _ => ?_
      cases names with
      | keep => exact only_pure
      | remove => exact (plain_erase ..).mapError _

end Clear
variable [Postcard] [Sparql]

theorem plain_semOperation (fresh : Nat → String) (s : Scope) (baseIri : Option String)
    (op : SparqlOperation) : Plain (semOperation fresh s baseIri op) := by
  cases op with
  | insertData data => exact (plain_semInsertData ..).mapError _
  | deleteData data => exact (only_each fun quad _ => plain_semDeleteQuad ..).mapError _
  | deleteInsert delete insert dataset pattern =>
    exact plain_view.bind fun _ => (plain_semDeleteInsert ..).mapError _
  | load silent source => cases silent <;> trivial
  | create silent graph =>
    exact ((plain_semInsertGraphName ..).bind fun _ => only_pure).mapError _
  | _ => exact (plain_clearTarget ..).mapError _

end Plain
end StoreTx

end Myrmic
