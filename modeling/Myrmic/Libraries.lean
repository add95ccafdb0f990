import Myrmic.TxOps
import Myrmic.Wire

/-!
# Small instances of the libraries

The store takes a hash, a parser and an evaluator of queries from libraries.  To evaluate the model on
concrete operations they are given here, as small as can be: no text parses as a query or an update, and
the hash of a few bytes is these bytes.  Nothing that holds of all libraries is proved from these.
-/
namespace Myrmic
open OrderedBytes
namespace Sample

instance : Sparql where
  hash bs := ⟨(bs ++ List.replicate 16 0).take 16, by simp⟩
  uniqueId _ := none
  fromUniqueId _ := ""
  langString := "http://www.w3.org/1999/02/22-rdf-syntax-ns#langString"
  parse _ _ := none
  display _ _ := ""
  GraphPattern := Unit
  QueryDataset := Empty
  validBaseIri _ := true
  parseUpdate _ _ := none
  parseQuery _ _ := none
  execute _ _ := .ok (.solutions [] [])
  toExpression := .other
  newTriple s p o := some (.triple s p o)
  truth kind value := !kind.zeroOrNaN value
  termToString _ := ""

instance : Sha2 := ⟨fun _ => .fill 32 0⟩

instance : BodyCodec := ⟨fun _ _ => [], fun _ => .ok ([], [])⟩

/-- Nothing is taken from outside. -/
def env : Env := ⟨fun _ _ => .fill 16 0, fun _ _ => ""⟩

end Sample

end Myrmic
