import Myrmic.StoreKey

/-!
# Terms of the semantic store

A term of a statement is a named node, a blank node, a literal or a quoted triple.  The store keeps
terms inside keys, in an **encoded** form of bounded size: a text of up to fifteen bytes is kept
inline, a literal with a known data type is kept as the bytes of its value, and every other text is
replaced by its 128-bit hash.  The text behind a hash is kept apart, so encoding a term also
**collects** the texts it hashed, and decoding one needs a way to **resolve** hashes.

An encoded term can be read back from the front of a key in one way only (`readTerm_append`).  The values
of the data types and their bytes are those of another crate, `XsdValues`.
-/
namespace Myrmic
open OrderedBytes Fallible

/-! ## Fixed-size arrays -/

/-- An array of `n` bytes. -/
@[ext] structure ByteVec (n : Nat) where
  bytes : Bytes
  length_eq : bytes.length = n
deriving DecidableEq

variable {n : Nat} {fuel : Nat}

def ByteVec.fill (n : Nat) (b : UInt8) : ByteVec n := ⟨List.replicate n b, List.length_replicate⟩

instance (v : ByteVec n) (l : List (ByteVec n)) : Decidable (v ∈ l) := inferInstance

/-- Cuts an array off the front. -/
def takeVec (n : Nat) (bs : Bytes) : Option (ByteVec n × Bytes) :=
  if h : n ≤ bs.length then some (⟨bs.take n, by simpa using h⟩, bs.drop n) else none

@[simp] theorem takeVec_append (v : ByteVec n) (rest : Bytes) :
    takeVec n (v.bytes ++ rest) = some (v, rest) := by
  have hl := v.length_eq
  rw [takeVec, dif_pos (by simp [hl])]
  simp only [Option.some.injEq, Prod.mk.injEq]
  exact ⟨ByteVec.ext (by simp [← hl]), by simp [← hl]⟩

abbrev HashedBytes := ByteVec 16

/-- A string of at most fifteen bytes: the text, zeros, and the length in the last byte. -/
abbrev SmallString := ByteVec 16

def SmallString.ofString (value : String) : Option SmallString :=
  let text := strBytes value
  if h : text.length ≤ 15 then
    some ⟨text ++ List.replicate (15 - text.length) 0 ++ [UInt8.ofNat text.length], by
      simp only [List.length_append, List.length_replicate, List.length_singleton]
      omega⟩
  else none

/-- The last byte is the length. -/
def SmallString.isEmpty (small : SmallString) : Bool := small.bytes.getD 15 0 = 0

/-- The text; `none` stands for the panic on bytes that no constructor makes. -/
def SmallString.asStr (small : SmallString) : Option String :=
  let len := (small.bytes.getD 15 0).toNat
  if len ≤ 16 then fromUtf8 (small.bytes.take len) else none

/-! ## Data types -/

/-- The data types whose values are kept as bytes. -/
inductive XsdKind where
  | duration | durationYearMonth | durationDayTime
  | float | double | integer | decimal
  | dateTime | time | date | gYearMonth | gYear | gMonthDay | gDay | gMonth
deriving DecidableEq

/-- The size of a value. -/
def XsdKind.width : XsdKind → Nat
  | .duration => 24
  | .durationYearMonth => 8
  | .durationDayTime => 16
  | .float => 4
  | .double => 8
  | .integer => 8
  | .decimal => 16
  | .dateTime | .time | .date | .gYearMonth | .gYear | .gMonthDay | .gDay | .gMonth => 18

/-- What the store uses of the crate of data types: the values of each kind, with the bytes they are
written as and the values that bytes are read as.  The law is what a key's term is read back by.  The
crate writes a time without an offset and the same time at the offset of minus one minute alike, as
eighteen bytes that end in two times 255, and reads both as the former, so `Value` is without the
latter. -/
structure XsdValues where
  Value : XsdKind → Type
  toBeBytes : (kind : XsdKind) → Value kind → ByteVec kind.width
  fromBeBytes : (kind : XsdKind) → ByteVec kind.width → Value kind
  fromBeBytes_toBeBytes : ∀ kind value, fromBeBytes kind (toBeBytes kind value) = value
  decEq : ∀ kind, DecidableEq (Value kind)

instance {X : XsdValues} {kind : XsdKind} : DecidableEq (X.Value kind) := X.decEq kind

/-- Values that are known as what they are written as. -/
abbrev XsdValues.written : XsdValues :=
  ⟨fun kind => ByteVec kind.width, fun _ value => value, fun _ value => value, fun _ _ => rfl,
    fun _ => inferInstance⟩

/-- Whether the bytes are a zero, of either sign, or no number. -/
def XsdKind.zeroOrNaN : (kind : XsdKind) → ByteVec kind.width → Bool
  | .float, value => ofBe value.bytes % 2 ^ 31 = 0 ∨ 255 * 2 ^ 23 < ofBe value.bytes % 2 ^ 31
  | .double, value => ofBe value.bytes % 2 ^ 63 = 0 ∨ 2047 * 2 ^ 52 < ofBe value.bytes % 2 ^ 63
  | _, value => ofBe value.bytes = 0

/-- The number of the kind's variant in the encoded term. -/
def XsdKind.variant : XsdKind → Nat
  | .duration => 12
  | .durationYearMonth => 13
  | .durationDayTime => 14
  | .float => 16
  | .double => 17
  | .integer => 18
  | .decimal => 19
  | .dateTime => 20
  | .time => 21
  | .date => 22
  | .gYearMonth => 23
  | .gYear => 24
  | .gMonthDay => 25
  | .gDay => 26
  | .gMonth => 27

def XsdKind.ofVariant : Nat → Option XsdKind
  | 12 => some .duration
  | 13 => some .durationYearMonth
  | 14 => some .durationDayTime
  | 16 => some .float
  | 17 => some .double
  | 18 => some .integer
  | 19 => some .decimal
  | 20 => some .dateTime
  | 21 => some .time
  | 22 => some .date
  | 23 => some .gYearMonth
  | 24 => some .gYear
  | 25 => some .gMonthDay
  | 26 => some .gDay
  | 27 => some .gMonth
  | _ => none

/-- A name of the data type vocabulary. -/
def xsd (name : String) : String := "http://www.w3.org/2001/XMLSchema#" ++ name

/-- The data type of a value that is turned back into a literal. -/
def XsdKind.datatype : XsdKind → String
  | .duration => xsd "duration"
  | .durationYearMonth => xsd "yearMonthDuration"
  | .durationDayTime => xsd "dayTimeDuration"
  | .float => xsd "float"
  | .double => xsd "double"
  | .integer => xsd "integer"
  | .decimal => xsd "decimal"
  | .dateTime => xsd "dateTime"
  | .time => xsd "time"
  | .date => xsd "date"
  | .gYearMonth => xsd "gYearMonth"
  | .gYear => xsd "gYear"
  | .gMonthDay => xsd "gMonthDay"
  | .gDay => xsd "gDay"
  | .gMonth => xsd "gMonth"

/-- The data types of literals whose value is parsed, with what they are parsed as. -/
def parsedDatatypes : List (String × XsdKind) :=
  [(xsd "float", .float), (xsd "double", .double)] ++
  (["integer", "byte", "short", "int", "long", "unsignedByte", "unsignedShort", "unsignedInt",
    "unsignedLong", "positiveInteger", "nonPositiveInteger", "negativeInteger",
    "nonNegativeInteger"].map fun name => (xsd name, XsdKind.integer)) ++
  [(xsd "decimal", .decimal), (xsd "dateTime", .dateTime), (xsd "dateTimeStamp", .dateTime),
    (xsd "time", .time), (xsd "date", .date), (xsd "gYearMonth", .gYearMonth),
    (xsd "gYear", .gYear), (xsd "gMonthDay", .gMonthDay), (xsd "gDay", .gDay),
    (xsd "gMonth", .gMonth), (xsd "duration", .duration),
    (xsd "yearMonthDuration", .durationYearMonth), (xsd "dayTimeDuration", .durationDayTime)]

/-! ## Terms -/

inductive Literal where
  | string (value : String)
  | languageTagged (value language : String)
  | typed (value datatype : String)
deriving DecidableEq

/-- A plain string has no data type of its own. -/
def Literal.newTyped (value datatype : String) : Literal :=
  if datatype = xsd "string" then .string value else .typed value datatype

inductive NamedOrBlankNode where
  | namedNode (iri : String)
  | blankNode (id : String)
deriving DecidableEq

inductive Term where
  | namedNode (iri : String)
  | blankNode (id : String)
  | literal (value : Literal)
  | triple (subject : NamedOrBlankNode) (predicate : String) (object : Term)
deriving DecidableEq

structure Triple where
  subject : NamedOrBlankNode
  predicate : String
  object : Term
deriving DecidableEq

/-- Every possible term, with its texts in the form that keys hold.  `literalValue` stands for the
variants of the data types in `XsdKind`. -/
inductive ValuedTerm (X : XsdValues) where
  | namedNode (iri : HashedBytes)
  | blankNodeNumerical (id : ByteVec 16)
  | blankNodeSmall (id : SmallString)
  | blankNodeBig (id : HashedBytes)
  | literalStringSmall (value : SmallString)
  | literalStringBig (value : HashedBytes)
  | literalStringLangSmallSmall (value language : SmallString)
  | literalStringLangSmallBig (value : SmallString) (language : HashedBytes)
  | literalStringLangBigSmall (value : HashedBytes) (language : SmallString)
  | literalStringLangBigBig (value language : HashedBytes)
  | literalTypedSmall (value : SmallString) (datatype : HashedBytes)
  | literalTypedBig (value datatype : HashedBytes)
  | literalBoolean (value : Bool)
  | literalValue (kind : XsdKind) (value : X.Value kind)
  | triple (subject predicate object : ValuedTerm X)
deriving DecidableEq

/-- A term as the keys hold it, its values included. -/
abbrev EncodedTerm := ValuedTerm .written

structure EncodedTriple where
  subject : EncodedTerm
  predicate : EncodedTerm
  object : EncodedTerm
deriving DecidableEq

structure EncodedQuad where
  subject : EncodedTerm
  predicate : EncodedTerm
  object : EncodedTerm
  graphName : EncodedTerm
deriving DecidableEq

def EncodedTriple.inGraph (triple : EncodedTriple) (graphName : EncodedTerm) : EncodedQuad :=
  ⟨triple.subject, triple.predicate, triple.object, graphName⟩

/-! ## Terms as bytes -/

section Bytes
variable {X : XsdValues}

/-- The number of the variant and then its fields. -/
def ValuedTerm.encode : ValuedTerm X → Bytes
  | .namedNode iri => be 4 0 ++ iri.bytes
  | .blankNodeNumerical id => be 4 1 ++ id.bytes
  | .blankNodeSmall id => be 4 2 ++ id.bytes
  | .blankNodeBig id => be 4 3 ++ id.bytes
  | .literalStringSmall value => be 4 4 ++ value.bytes
  | .literalStringBig value => be 4 5 ++ value.bytes
  | .literalStringLangSmallSmall value language => be 4 6 ++ (value.bytes ++ language.bytes)
  | .literalStringLangSmallBig value language => be 4 7 ++ (value.bytes ++ language.bytes)
  | .literalStringLangBigSmall value language => be 4 8 ++ (value.bytes ++ language.bytes)
  | .literalStringLangBigBig value language => be 4 9 ++ (value.bytes ++ language.bytes)
  | .literalTypedSmall value datatype => be 4 10 ++ (value.bytes ++ datatype.bytes)
  | .literalTypedBig value datatype => be 4 11 ++ (value.bytes ++ datatype.bytes)
  | .literalBoolean value => be 4 15 ++ [if value then 1 else 0]
  | .literalValue kind value => be 4 kind.variant ++ (X.toBeBytes kind value).bytes
  | .triple subject predicate object =>
    be 4 28 ++ (subject.encode ++ (predicate.encode ++ object.encode))

def readOne {n : Nat} (variant : ByteVec n → ValuedTerm X) (bs : Bytes) :
    Option (ValuedTerm X × Bytes) := do
  let (value, bs) ← takeVec n bs
  return (variant value, bs)

def readTwo (variant : ByteVec 16 → ByteVec 16 → ValuedTerm X) (bs : Bytes) :
    Option (ValuedTerm X × Bytes) := do
  let (first, bs) ← takeVec 16 bs
  let (second, bs) ← takeVec 16 bs
  return (variant first second, bs)

def readVariant (bs : Bytes) : Option (Nat × Bytes) := do
  let (variant, bs) ← takeVec 4 bs
  return (ofBe variant.bytes, bs)

/-- Reads the fields of a variant; `nested` reads the terms of a quoted triple. -/
def readFields (nested : Bytes → Option (ValuedTerm X × Bytes)) (variant : Nat) (bs : Bytes) :
    Option (ValuedTerm X × Bytes) :=
  match variant with
  | 0 => readOne .namedNode bs
  | 1 => readOne .blankNodeNumerical bs
  | 2 => readOne .blankNodeSmall bs
  | 3 => readOne .blankNodeBig bs
  | 4 => readOne .literalStringSmall bs
  | 5 => readOne .literalStringBig bs
  | 6 => readTwo .literalStringLangSmallSmall bs
  | 7 => readTwo .literalStringLangSmallBig bs
  | 8 => readTwo .literalStringLangBigSmall bs
  | 9 => readTwo .literalStringLangBigBig bs
  | 10 => readTwo .literalTypedSmall bs
  | 11 => readTwo .literalTypedBig bs
  | 15 => do
    let (value, bs) ← takeVec 1 bs
    return (.literalBoolean (value.bytes ≠ [0]), bs)
  | 28 => do
    let (subject, bs) ← nested bs
    let (predicate, bs) ← nested bs
    let (object, bs) ← nested bs
    return (.triple subject predicate object, bs)
  | variant => do
    let kind ← XsdKind.ofVariant variant
    readOne (fun value => .literalValue kind (X.fromBeBytes kind value)) bs

def readTerm : Nat → Bytes → Option (ValuedTerm X × Bytes)
  | 0, _ => none
  | fuel + 1, bs => do
    let (variant, bs) ← readVariant bs
    readFields (readTerm fuel) variant bs

/-- How deep quoted triples nest. -/
def ValuedTerm.depth : ValuedTerm X → Nat
  | .triple subject predicate object =>
    max subject.depth (max predicate.depth object.depth) + 1
  | _ => 0

open ValuedTerm

theorem ValuedTerm.depth_lt_length (t : ValuedTerm X) : t.depth < t.encode.length := by
  induction t with
  | triple s p o ihs ihp iho =>
    simp only [depth, encode, List.length_append, length_be]
    omega
  | _ => simp [depth, encode]

theorem readVariant_append (hn : n < 256 ^ 4) (rest : Bytes) :
    readVariant (be 4 n ++ rest) = some (n, rest) := by
  have ht := takeVec_append (⟨be 4 n, length_be⟩ : ByteVec 4) rest
  rw [readVariant, ht]
  simp [ofBe_be hn]

theorem readOne_append {variant : ByteVec n → ValuedTerm X} {v : ByteVec n}
    {rest : Bytes} : readOne variant (v.bytes ++ rest) = some (variant v, rest) := by
  simp [readOne]

theorem readTerm_variant (hn : n < 256 ^ 4) (fields rest : Bytes) :
    readTerm (X := X) (fuel + 1) (be 4 n ++ fields ++ rest) =
      readFields (readTerm fuel) n (fields ++ rest) := by
  rw [readTerm, List.append_assoc, readVariant_append hn]
  rfl

theorem readTerm_append (t : ValuedTerm X) (rest : Bytes) (h : t.depth ≤ fuel) :
    readTerm (fuel + 1) (t.encode ++ rest) = some (t, rest) := by
  induction t generalizing fuel rest with
  | triple s p o ihs ihp iho =>
    simp only [depth] at h
    obtain ⟨fuel, rfl⟩ : ∃ n, fuel = n + 1 := ⟨fuel - 1, by omega⟩
    have hs := ihs (p.encode ++ (o.encode ++ rest)) (show s.depth ≤ fuel by omega)
    have hp := ihp (o.encode ++ rest) (show p.depth ≤ fuel by omega)
    have ho := iho rest (show o.depth ≤ fuel by omega)
    rw [encode, readTerm_variant (by decide)]
    simp [readFields, hs, hp, ho]
  | literalValue kind v =>
    have hva : kind.variant < 256 ^ 4 := by cases kind <;> decide
    have hre : readOne (fun value => .literalValue kind (X.fromBeBytes kind value))
        ((X.toBeBytes kind v).bytes ++ rest) = some (.literalValue kind v, rest) := by
      rw [readOne_append, X.fromBeBytes_toBeBytes]
    rw [encode, readTerm_variant hva]
    cases kind <;> exact hre
  | literalBoolean v =>
    have hta := takeVec_append (⟨[if v then 1 else 0], rfl⟩ : ByteVec 1) rest
    rw [encode, readTerm_variant (by decide)]
    simp only [readFields, hta]
    cases v <;> rfl
  | namedNode v | blankNodeNumerical v | blankNodeSmall v | blankNodeBig v
  | literalStringSmall v | literalStringBig v =>
    rw [encode, readTerm_variant (by decide)]
    exact readOne_append
  | literalStringLangSmallSmall first second | literalStringLangSmallBig first second
  | literalStringLangBigSmall first second | literalStringLangBigBig first second
  | literalTypedSmall first second | literalTypedBig first second =>
    rw [encode, readTerm_variant (by decide)]
    simp [readFields, readTwo]

def readEncodedTerm (bs : Bytes) : Except String (ValuedTerm X × Bytes) :=
  contextNone "Unable to decode Term" (readTerm bs.length bs)

@[simp] theorem readEncodedTerm_append (t : ValuedTerm X) (rest : Bytes) :
    readEncodedTerm (t.encode ++ rest) = .ok (t, rest) := by
  obtain ⟨_, hf, hle⟩ : ∃ n, (t.encode ++ rest).length = n + 1 ∧ t.depth ≤ n := by
    have := t.depth_lt_length
    rw [List.length_append]
    exact ⟨t.encode.length + rest.length - 1, by omega, by omega⟩
  rw [readEncodedTerm, hf, readTerm_append t rest hle]
  rfl

end Bytes

/-! ## Encoding terms -/

/-- What the store uses of the crates that hash, and that represent terms and data types. -/
class Rdf where
  /-- The 128-bit hash of some bytes. -/
  hash : Bytes → HashedBytes
  /-- The number a blank node is named by, if its name is one. -/
  uniqueId : String → Option (ByteVec 16)
  /-- The name of a numbered blank node. -/
  fromUniqueId : ByteVec 16 → String
  /-- The data type of every literal with a language. -/
  langString : String
  /-- Reads the lexical form of a value. -/
  parse : (kind : XsdKind) → String → Option (ByteVec kind.width)
  /-- The lexical form of a value. -/
  display : (kind : XsdKind) → ByteVec kind.width → String

section Encode
variable [Rdf]

def HashedBytes.new (text : String) : HashedBytes := Rdf.hash (strBytes text)

def Literal.value : Literal → String
  | .string value => value
  | .languageTagged value _ => value
  | .typed value _ => value

def Literal.datatype : Literal → String
  | .string _ => xsd "string"
  | .languageTagged _ _ => Rdf.langString
  | .typed _ datatype => datatype

def Literal.language : Literal → Option String
  | .languageTagged _ language => some language
  | _ => none

/-- A short text is kept, a long one is hashed; with the texts that were hashed. -/
def trySmall (value : String) : (SmallString ⊕ HashedBytes) × List String :=
  match SmallString.ofString value with
  | some small => (.inl small, [])
  | none => (.inr (.new value), [value])

def encodeBlankNode (id : String) : EncodedTerm × List String :=
  match Rdf.uniqueId id with
  | some number => (.blankNodeNumerical number, [])
  | none =>
    let (value, hashed) := trySmall id
    (value.elim .blankNodeSmall .blankNodeBig, hashed)

def encodeLanguageTagged (value language : String) : EncodedTerm × List String :=
  let (value, hashed) := trySmall value
  let (language, hashed') := trySmall language
  let term := match value, language with
    | .inl value, .inl language => .literalStringLangSmallSmall value language
    | .inl value, .inr language => .literalStringLangSmallBig value language
    | .inr value, .inl language => .literalStringLangBigSmall value language
    | .inr value, .inr language => .literalStringLangBigBig value language
  (term, hashed ++ hashed')

/-- The encoding of a literal of a known data type whose lexical form is well formed. -/
def encodeKnownLiteral (literal : Literal) : Option (EncodedTerm × List String) :=
  if literal.datatype = Rdf.langString then
    literal.language.map (encodeLanguageTagged literal.value)
  else if literal.datatype = xsd "string" then
    let (value, hashed) := trySmall literal.value
    some (value.elim .literalStringSmall .literalStringBig, hashed)
  else if literal.datatype = xsd "boolean" then
    if literal.value = "true" then some (.literalBoolean true, [])
    else if literal.value = "false" then some (.literalBoolean false, [])
    else none
  else do
    let kind ← parsedDatatypes.lookup literal.datatype
    let value ← Rdf.parse kind literal.value
    return (.literalValue kind value, [])

def encodeLiteral (literal : Literal) : EncodedTerm × List String :=
  match encodeKnownLiteral literal with
  | some encoded => encoded
  | none =>
    let datatype : HashedBytes := .new literal.datatype
    let (value, hashed) := trySmall literal.value
    (value.elim (fun small => .literalTypedSmall small datatype)
      (fun hash => .literalTypedBig hash datatype), literal.datatype :: hashed)

def encodeNamedOrBlankNode : NamedOrBlankNode → EncodedTerm × List String
  | .namedNode iri => (.namedNode (.new iri), [iri])
  | .blankNode id => encodeBlankNode id

/-- The encoded form of a term, with the texts that were hashed. -/
def encodeTerm : Term → EncodedTerm × List String
  | .namedNode iri => (.namedNode (.new iri), [iri])
  | .blankNode id => encodeBlankNode id
  | .literal value => encodeLiteral value
  | .triple subject predicate object =>
    let (subject, hashed) := encodeNamedOrBlankNode subject
    let (object, hashed') := encodeTerm object
    (.triple subject (.namedNode (.new predicate)) object, hashed ++ predicate :: hashed')

def encodeTriple (triple : Triple) : EncodedTriple × List String :=
  let (subject, hashed) := encodeNamedOrBlankNode triple.subject
  let (object, hashed') := encodeTerm triple.object
  (⟨subject, .namedNode (.new triple.predicate), object⟩, hashed ++ triple.predicate :: hashed')

/-- Puts the hashed texts into a map from their hashes. -/
def collect (texts : List String) : List (HashedBytes × String) :=
  texts.foldl (fun hashed text =>
    (.new text, text) :: hashed.filter fun entry => entry.1 ≠ .new text) []

/-! ## Decoding terms -/

/-- The text of a small string that a key holds. -/
def smallText (small : SmallString) : Except String String :=
  contextNone "unable to convert smallstring to utf8" small.asStr

/-- The term behind an encoded one, with a way to find the texts behind hashes. -/
def decodeWith (resolve : HashedBytes → Except String String) : EncodedTerm → Except String Term
  | .namedNode iri => return .namedNode (← resolve iri)
  | .blankNodeNumerical id => return .blankNode (Rdf.fromUniqueId id)
  | .blankNodeSmall id => return .blankNode (← smallText id)
  | .blankNodeBig id => return .blankNode (← resolve id)
  | .literalStringSmall value => return .literal (.string (← smallText value))
  | .literalStringBig value => return .literal (.string (← resolve value))
  | .literalStringLangSmallSmall value language =>
    return .literal (.languageTagged (← smallText value) (← smallText language))
  | .literalStringLangSmallBig value language =>
    return .literal (.languageTagged (← smallText value) (← resolve language))
  | .literalStringLangBigSmall value language =>
    return .literal (.languageTagged (← resolve value) (← smallText language))
  | .literalStringLangBigBig value language =>
    return .literal (.languageTagged (← resolve value) (← resolve language))
  | .literalTypedSmall value datatype => do
    let datatype ← resolve datatype
    return .literal (.newTyped (← smallText value) datatype)
  | .literalTypedBig value datatype =>
    return .literal (.newTyped (← resolve value) (← resolve datatype))
  | .literalBoolean value => return .literal (.typed (if value then "true" else "false") (xsd "boolean"))
  | .literalValue kind value => return .literal (.typed (Rdf.display kind value) kind.datatype)
  | .triple subject predicate object => do
    let subject ← match ← decodeWith resolve subject with
      | .namedNode iri => pure (.namedNode iri)
      | .blankNode id => pure (.blankNode id)
      | .triple _ _ _ => .error "decoded a triple in subject position"
      | .literal _ => .error "decoded a literal in subject position"
    match ← decodeWith resolve predicate with
    | .namedNode predicate => return .triple subject predicate (← decodeWith resolve object)
    | _ => .error "decoded a non-named-node in predicate position"

end Encode

end Myrmic
