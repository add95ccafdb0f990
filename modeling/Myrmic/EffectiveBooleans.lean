import Myrmic.Libraries

/-!
# Effective boolean values

A filter asks whether a literal counts as true.  The query language says so for booleans, numbers and
strings, and an ill-formed boolean or number counts as false (`effectiveBooleanValue`); other literals
have no such value.  The store answers from the **encoded** term.  There a string of more than fifteen
bytes is a hash, which is taken for false, and a literal whose text was not read is not told from one of
an unknown data type, so it has no value.  A number is read with the parser of its kind, whatever the
range of its data type.  **The answer is right exactly for the literals that are kept inline, or read as
their data type says** (`effective_boolean_value_iff`).
-/
namespace Myrmic
open OrderedBytes SmallString

def XsdKind.numeric : XsdKind → Bool
  | .float | .double | .integer | .decimal => true
  | _ => false

/-- The kind that a number of the data type is read as. -/
def numericKind (datatype : String) : Option XsdKind :=
  (parsedDatatypes.lookup datatype).filter XsdKind.numeric

namespace Literal
variable [Rdf] (l : Literal) (zero : String → String → Option Bool)

/-- What the query language says, where `zero` tells of a data type and a text whether the number is
zero or not a number, if the text is well formed. -/
def effectiveBooleanValue : Option Bool :=
  if l.datatype = Rdf.langString then none
  else if l.datatype = xsd "string" then some (l.value ≠ "")
  else if l.datatype = xsd "boolean" then some (l.value = "true" ∨ l.value = "1")
  else (numericKind l.datatype).map fun _ => (zero l.datatype l.value).any not

/-- A string is short, a boolean is `true` or `false`, and a number is read, where it is well formed for
its data type unless it counts as false anyway. -/
def Told : Prop :=
  if l.datatype = Rdf.langString then True
  else if l.datatype = xsd "string" then (strBytes l.value).length ≤ 15
  else if l.datatype = xsd "boolean" then l.value = "true" ∨ l.value = "false"
  else ∀ kind, numericKind l.datatype = some kind → ∃ v, Rdf.parse kind l.value = some v ∧
    (kind.zeroOrNaN v = true ∨ zero l.datatype l.value ≠ none)

end Literal

theorem isEmpty_ofString {value : String} {small : SmallString}
    (h : ofString value = some small) : small.isEmpty = decide (value = "") := by
  simp only [ofString] at h
  split at h
  · next hl =>
    cases h
    have hlast : (strBytes value ++ List.replicate (15 - (strBytes value).length) 0).length = 15 := by
      rw [List.length_append, List.length_replicate]
      omega
    have hzero : UInt8.ofNat (strBytes value).length = 0 ↔ value = "" := by
      rw [← UInt8.toNat_inj, UInt8.toNat_ofNat', Nat.mod_eq_of_lt (by omega)]
      constructor
      · intro h
        exact strBytes_injective (List.eq_nil_of_length_eq_zero h)
      · rintro rfl
        rfl
    rw [isEmpty, List.getD_eq_getElem?_getD, List.getElem?_append_right hlast.le, hlast]
    simp [hzero]
  · cases h

section Answers

variable [Sparql] {l : Literal}

/-- A string that is kept inline is told from the empty one; a hashed one is taken for it. -/
theorem value_of_string (value : String) : internalTermEffectiveBooleanValue
    ((trySmall value).1.elim .literalStringSmall .literalStringBig) = some (decide (value ≠ "")) ↔
      (strBytes value).length ≤ 15 := by
  unfold trySmall
  cases hs : ofString value with
  | some small =>
    have hl : (strBytes value).length ≤ 15 := by
      by_contra hl
      simp [ofString, hl] at hs
    simp [internalTermEffectiveBooleanValue, isEmpty_ofString hs, hl]
  | none =>
    have hl : ¬ (strBytes value).length ≤ 15 := fun hl => by simp [ofString, hl] at hs
    have hne : value ≠ "" := by
      rintro rfl
      exact hl (by decide)
    simp [internalTermEffectiveBooleanValue, hl, hne]

theorem value_of_unread (h : encodeKnownLiteral l = none) :
    internalTermEffectiveBooleanValue (encodeLiteral l).1 = none := by
  rw [encodeLiteral, h]
  rcases trySmall l.value with ⟨_ | _, _⟩ <;> rfl

/-- **The boolean value of a literal is the query language's exactly if** it is no long string, and its
text was read rightly if it is a boolean or a number. -/
theorem effective_boolean_value_iff (zero : String → String → Option Bool)
    (ht : ∀ kind value, kind.numeric = true → Sparql.truth kind value = !kind.zeroOrNaN value)
    (hz : ∀ datatype kind text v b, numericKind datatype = some kind → Rdf.parse kind text = some v →
      zero datatype text = some b → b = kind.zeroOrNaN v) (l : Literal) :
    internalTermEffectiveBooleanValue (encodeLiteral l).1 = l.effectiveBooleanValue zero ↔
      l.Told zero := by
  unfold Literal.effectiveBooleanValue Literal.Told
  by_cases hlang : l.datatype = Rdf.langString
  · have hk : encodeKnownLiteral l = l.language.map (encodeLanguageTagged l.value) := by
      rw [encodeKnownLiteral, if_pos hlang]
    rw [if_pos hlang, if_pos hlang, iff_true]
    cases hla : l.language with
    | none => exact value_of_unread (by rw [hk, hla]; rfl)
    | some language =>
      rw [encodeLiteral, hk, hla]
      rcases ha : trySmall l.value with ⟨_ | _, _⟩ <;> rcases hb : trySmall language with ⟨_ | _, _⟩ <;>
        simp [encodeLanguageTagged, ha, hb, internalTermEffectiveBooleanValue]
  rw [if_neg hlang, if_neg hlang]
  by_cases hstr : l.datatype = xsd "string"
  · rw [if_pos hstr, if_pos hstr, ← value_of_string, encodeLiteral, encodeKnownLiteral, if_neg hlang,
      if_pos hstr]
  rw [if_neg hstr, if_neg hstr]
  by_cases hbool : l.datatype = xsd "boolean"
  · have hk : encodeKnownLiteral l = if l.value = "true" then some (.literalBoolean true, [])
        else if l.value = "false" then some (.literalBoolean false, []) else none := by
      rw [encodeKnownLiteral, if_neg hlang, if_neg hstr, if_pos hbool]
    rw [if_pos hbool, if_pos hbool]
    by_cases htr : l.value = "true"
    · simp [encodeLiteral, hk, htr, internalTermEffectiveBooleanValue]
    by_cases hfa : l.value = "false"
    · simp [encodeLiteral, hk, hfa, internalTermEffectiveBooleanValue]
    · simp [value_of_unread (by rw [hk, if_neg htr, if_neg hfa]), htr, hfa]
  have hk : encodeKnownLiteral l = (parsedDatatypes.lookup l.datatype).bind fun kind =>
      (Rdf.parse kind l.value).bind fun value => some (.literalValue kind value, []) := by
    rw [encodeKnownLiteral, if_neg hlang, if_neg hstr, if_neg hbool]
    rfl
  rw [if_neg hbool, if_neg hbool]
  replace hz := hz l.datatype
  rw [numericKind] at hz ⊢
  cases hlo : parsedDatatypes.lookup l.datatype with
  | none => simp [value_of_unread (by rw [hk, hlo]; rfl)]
  | some kind =>
    cases hp : Rdf.parse kind l.value with
    | none =>
      rw [value_of_unread (by rw [hk, hlo, Option.bind_some, hp]; rfl)]
      cases hn : kind.numeric <;> simp [Option.filter, hn, hp]
    | some value =>
      have hv : internalTermEffectiveBooleanValue (.literalValue kind value) =
          if kind.numeric then some (!kind.zeroOrNaN value) else none := by
        cases kind <;> first | rfl | exact congrArg some (ht _ value rfl)
      rw [encodeLiteral, hk, hlo, Option.bind_some, hp]
      cases hn : kind.numeric with
      | false => simp [Option.filter, hv, hn]
      | true =>
        cases hzt : zero l.datatype l.value with
        | none => simp [Option.filter, hv, hn, hp]
        | some b =>
          have hb := hz kind l.value value b (by simp [hlo, Option.filter, hn]) hp hzt
          simp [Option.filter, hv, hn, hp, hb]

end Answers

open Sample

/-- A short string counts as true, if each text that is read is taken for well formed. -/
theorem short_string_is_true : internalTermEffectiveBooleanValue (encodeLiteral (.string "peer")).1 =
    some true := by
  refine ((effective_boolean_value_iff (fun datatype text => (numericKind datatype).bind fun kind =>
    (Rdf.parse kind text).map kind.zeroOrNaN) (fun _ _ _ => rfl) ?_ (.string "peer")).mpr ?_).trans
    (by decide +kernel)
  · intro datatype kind text v b hk hp hz
    rw [hk, Option.bind_some, hp] at hz
    exact (Option.some.inj hz).symm
  · rw [Literal.Told, if_neg (by decide +kernel), if_pos (by decide +kernel)]
    decide +kernel

/-- A string of sixteen letters counts as false. -/
theorem long_string_is_false :
    internalTermEffectiveBooleanValue (encodeLiteral (.string "abcdefghijklmnop")).1 = some false ∧
      (Literal.string "abcdefghijklmnop").effectiveBooleanValue (fun _ _ => none) = some true := by
  decide +kernel

end Myrmic
