import Myrmic.Records
import Myrmic.SegmentedKeys
import Myrmic.Wire

/-!
# The key space

All rows share one ordered key space.  Its kinds of keys are declared as lists of segments, and the
encoder and decoder of each, for the complete key and for every partial one, are made from that list.
This module has the declaration itself: `KeyModel.segments` is the list of each kind with the scope's
segments put in for its alias, `Builder` a key some of whose fields may still be missing.

`key_space_laws` says what the rest of the store relies on.  Keys are read back; different keys have
different bytes; apart from a scope and the keys in it, and a blob and its metadata, **no key is the
beginning of another**; a range of a partial key is exactly what begins with it; and keys are ordered
by their fields.

The keys of the earlier modules are these (`encode_scope`, `encode_dataKey`, `encode_syncPoint`).
-/
namespace Myrmic
open OrderedBytes Fallible SegmentedKeys List

/-! ## Fields -/

inductive FieldKind where
  | str
  | bytes
  | u64
  | nodeId
  | hash
  | term
  | triEncoding
  | quadEncoding
deriving DecidableEq

/-- The value of a field; those of terms are of the crate of data types. -/
inductive Field (X : XsdValues) where
  | str (value : Name)
  | bytes (value : Id)
  | u64 (value : UInt64)
  | nodeId (value : NodeId)
  | hash (value : ByteVec 32)
  | term (value : ValuedTerm X)
  | triEncoding (value : TriEncoding)
  | quadEncoding (value : QuadEncoding)
deriving DecidableEq

variable {X : XsdValues}
namespace Field

def kind : Field X → FieldKind
  | .str _ => .str
  | .bytes _ => .bytes
  | .u64 _ => .u64
  | .nodeId _ => .nodeId
  | .hash _ => .hash
  | .term _ => .term
  | .triEncoding _ => .triEncoding
  | .quadEncoding _ => .quadEncoding

/-- The bytes of a field; the only kind of hash is number 0. -/
def encode : Field X → Bytes
  | .str value => value.encode
  | .bytes value => value.encode
  | .u64 value => be64 value
  | .nodeId value => value.bytes
  | .hash value => be 4 0 ++ value.bytes
  | .term value => value.encode
  | .triEncoding value => [value.marker]
  | .quadEncoding value => [value.marker]

/-- The order of the values themselves: strings by their bytes, integers by value, byte strings by
length and then content. -/
def order : Field X → Field X → Ordering
  | .str a, .str b => compare (strBytes a.val) (strBytes b.val)
  | .bytes a, .bytes b =>
    (compare a.bytes.length b.bytes.length).then (compare a.bytes b.bytes)
  | .u64 a, .u64 b => compare a.toNat b.toNat
  | .nodeId a, .nodeId b => compare a.bytes b.bytes
  | .hash a, .hash b => compare a.bytes b.bytes
  | .term a, .term b => compare a.encode b.encode
  | .triEncoding a, .triEncoding b => compare a.marker.toNat b.marker.toNat
  | .quadEncoding a, .quadEncoding b => compare a.marker.toNat b.marker.toNat
  | _, _ => .eq

end Field

def readHash (bs : Bytes) : Except String (ByteVec 32 × Bytes) := do
  let (id, bs) ← readExact 4 "Unable to decode u32" bs
  if ofBe id ≠ 0 then .error s!"unknown id: {ofBe id}"
  else contextNone "Unable to decode byte array" (takeVec 32 bs)

/-- Reads a byte string; the length it is written with fits its own eight bytes. -/
def readId (bs : Bytes) : Except String (Id × Bytes) := do
  let (bytes, bs) ← readSlice bs
  let id ← Id.ofBytes bytes
  return (id, bs)

def FieldKind.read : FieldKind → Bytes → Except String (Field X × Bytes)
  | .str, bs => (readStr bs).map fun r => (.str r.1, r.2)
  | .bytes, bs => (readId bs).map fun r => (.bytes r.1, r.2)
  | .u64, bs => (readU64 bs).map fun r => (.u64 r.1, r.2)
  | .nodeId, bs => (readNodeId bs).map fun r => (.nodeId r.1, r.2)
  | .hash, bs => (readHash bs).map fun r => (.hash r.1, r.2)
  | .term, bs => (readEncodedTerm bs).map fun r => (.term r.1, r.2)
  | .triEncoding, bs => do
    let (marker, bs) ← readU8 bs
    let encoding ← TriEncoding.ofMarker marker
    return (.triEncoding encoding, bs)
  | .quadEncoding, bs => do
    let (marker, bs) ← readU8 bs
    let encoding ← QuadEncoding.ofMarker marker
    return (.quadEncoding encoding, bs)

/-! ### Fields are read back -/

theorem readHash_append (hash : ByteVec 32) (rest : Bytes) :
    readHash (be 4 0 ++ hash.bytes ++ rest) = .ok (hash, rest) := by
  have hid : readExact 4 "Unable to decode u32" (be 4 0 ++ (hash.bytes ++ rest)) =
      .ok (be 4 0, hash.bytes ++ rest) := readExact_append length_be
  rw [append_assoc, readHash, hid]
  simp only [bind, Except.bind]
  rw [if_neg (by decide), takeVec_append]
  rfl

theorem readId_append (id : Id) (rest : Bytes) : readId (id.encode ++ rest) = .ok (id, rest) := by
  have hr : readId (id.encode ++ rest) = (readSlice (id.encode ++ rest)).bind fun r =>
      (Id.ofBytes r.1).bind fun id => .ok (id, r.2) := rfl
  have hb : ∀ r : Bytes × Bytes, (.ok r : Except String (Bytes × Bytes)).bind (fun r =>
        (Id.ofBytes r.1).bind fun id => .ok (id, r.2)) =
      (Id.ofBytes r.1).bind fun id => .ok (id, r.2) := fun _ => rfl
  have hok : ∀ id : Id, (.ok id : Except String Id).bind (fun id => .ok (id, rest)) =
      (.ok (id, rest) : Except String (Id × Bytes)) := fun _ => rfl
  rw [hr, readSlice_append, hb, Id.ofBytes_bytes, hok]

theorem FieldKind.read_encode (f : Field X) (rest : Bytes) :
    f.kind.read (f.encode ++ rest) = .ok (f, rest) := by
  cases f with
  | str v | u64 v | nodeId v | term v =>
    simp [Field.kind, Field.encode, read, Except.map]
  | bytes v =>
    rw [Field.kind, Field.encode, read, readId_append]
    rfl
  | hash v =>
    simp only [Field.kind, Field.encode, read, readHash_append]
    rfl
  | triEncoding v | quadEncoding v =>
    simp [Field.kind, Field.encode, read, readU8, bind, Except.bind, pure, Except.pure]

def keyCodec (X : XsdValues) : Codec FieldKind (Field X) String where
  kind := Field.kind
  encode := Field.encode
  read := FieldKind.read
  expect := expect
  read_encode := FieldKind.read_encode
  expect_literal := expect_append

theorem keyCodec_encode (f : Field X) : (keyCodec X).encode f = f.encode := rfl

/-! ### The order of fields -/

theorem compare_zeroTerminated {a b : Bytes} (ha : (0 : UInt8) ∉ a) (hb : (0 : UInt8) ∉ b) :
    compare (a ++ [0]) (b ++ [0]) = compare a b := by
  have hze : ∀ {c : UInt8} {bs : Bytes}, (0 : UInt8) ∉ c :: bs → compare 0 c = .lt := by
    intro c bs h
    have hne : (0 : UInt8) ≠ c := ne_of_not_mem_cons h
    rw [compare_uint8_lt]
    have hpo : c.toNat ≠ 0 := fun h0 => hne (UInt8.toNat_inj.mp h0.symm)
    have h0 : (0 : UInt8).toNat = 0 := rfl
    omega
  induction a generalizing b with
  | nil =>
    cases b with
    | nil => rfl
    | cons d b => simp [hze hb]
  | cons c a ih =>
    cases b with
    | nil =>
      have hgt : compare c 0 = .gt := Std.OrientedCmp.gt_of_lt (hze ha)
      simp [hgt]
    | cons d b =>
      rw [cons_append, cons_append, List.compare_cons_cons, List.compare_cons_cons,
        ih (not_mem_of_not_mem_cons ha) (not_mem_of_not_mem_cons hb)]

/-- **The bytes of fields compare like the fields.** -/
theorem Field.compare_encode {f g : Field X} (h : f.kind = g.kind) :
    compare f.encode g.encode = f.order g := by
  cases f with
  | str a =>
    cases g with
    | str b => exact compare_zeroTerminated a.noNul b.noNul
    | _ => cases h
  | bytes a =>
    cases g with
    | bytes b =>
      rw [encode, encode, Id.encode, Id.encode, compare_append (by simp),
        compare_be a.short b.short]
      rfl
    | _ => cases h
  | u64 a =>
    cases g with
    | u64 b => exact compare_be64 a b
    | _ => cases h
  | nodeId a =>
    cases g with
    | nodeId b => rfl
    | _ => cases h
  | hash a =>
    cases g with
    | hash b => exact compare_append_left _ _ _
    | _ => cases h
  | term a =>
    cases g with
    | term b => rfl
    | _ => cases h
  | triEncoding a =>
    cases g with
    | triEncoding b => simp [encode, order, compare_uint8]
    | _ => cases h
  | quadEncoding a =>
    cases g with
    | quadEncoding b => simp [encode, order, compare_uint8]
    | _ => cases h

/-! ## The declared keys -/

inductive KeyModel where
  | scope
  | table
  | kv
  | measurement
  | blobId
  | blobMeta
  | path
  | syncPoint
  | semHash
  | graphName
  | triple
  | quad
deriving DecidableEq

open Segment in
/-- `@namespace*database*schema:` -/
def scopeAlias : List (Segment FieldKind) :=
  [literal (lit ['@']), field .str, literal (lit ['*']), field .str, literal (lit ['*']), field .str,
    literal (lit [':'])]

open Segment in
def KeyModel.segments : KeyModel → List (Segment FieldKind)
  | .scope => scopeAlias
  | .table => scopeAlias ++ [literal (lit ['t', 'b']), field .str, field .bytes]
  | .kv => scopeAlias ++ [literal (lit ['k', 'v']), field .str]
  | .measurement =>
    scopeAlias ++ [literal (lit ['t', 's']), field .str, literal (lit ['/']), field .u64]
  | .blobId => scopeAlias ++ [literal (lit ['f', 's']), field .hash]
  | .blobMeta =>
    scopeAlias ++ [literal (lit ['f', 's']), field .hash, literal (lit ['$']), field .str]
  | .path => scopeAlias ++ [literal (lit ['f', 'n']), field .str]
  | .syncPoint =>
    literal (lit ['#']) :: scopeAlias ++
      [literal (lit ['s', 'p']), field .u64, field .u64, field .nodeId]
  | .semHash => [literal (lit ['s', 'h']), field .bytes]
  | .graphName => scopeAlias ++ [literal (lit ['s', 'g']), field .term]
  | .triple =>
    scopeAlias ++ [literal (lit ['s', 'm']), field .triEncoding, field .term, field .term, field .term]
  | .quad =>
    scopeAlias ++ [literal (lit ['s', 'm']), field .quadEncoding, field .term, field .term,
      field .term, field .term]

def KeyModel.fields (m : KeyModel) : List FieldKind := fieldsOf m.segments

/-- A key with values for its first fields. -/
@[ext] structure Builder (X : XsdValues) where
  model : KeyModel
  values : List (Field X)
  typed : values.map Field.kind <+: model.fields

namespace Builder

def Complete (b : Builder X) : Prop := b.values.map Field.kind = b.model.fields

def encode (b : Builder X) : Bytes := encodeSteps (keyCodec X) b.model.segments b.values

def range (b : Builder X) : Except String (Bytes × Bytes) := keyRange b.encode

end Builder

/-- Reads a whole key with `n` fields; bytes left over are an error. -/
def decodeExact (m : KeyModel) (n : Nat) (bs : Bytes) : Except String (List (Field X)) := do
  let r ← decodeSteps (keyCodec X) m.segments n bs
  exactly r

/-! ## The keys of the store -/

def Scope.values (s : Scope) : List (Field X) := [.str s.nameSpace, .str s.database, .str s.schema]

def DataKey.model : DataKey → KeyModel
  | .table _ _ => .table
  | .kv _ => .kv
  | .measurement _ _ => .measurement
  | .blobId _ => .blobId
  | .blobMeta _ _ => .blobMeta
  | .path _ => .path
  | .graphName _ => .graphName
  | .triple _ _ _ _ => .triple
  | .quad _ _ _ _ _ => .quad

def DataKey.values : DataKey → List (Field .written)
  | .table name id => [.str name, .bytes id]
  | .kv key => [.str key]
  | .measurement name timestamp => [.str name, .u64 timestamp]
  | .blobId hash => [.hash hash]
  | .blobMeta hash p => [.hash hash, .str p]
  | .path p => [.str p]
  | .graphName name => [.term name]
  | .triple encoding a b c => [.triEncoding encoding, .term a, .term b, .term c]
  | .quad encoding a b c d => [.quadEncoding encoding, .term a, .term b, .term c, .term d]

def SyncPoint.values (p : SyncPoint) : List (Field .written) :=
  p.scope.values ++ [.u64 p.ts, .u64 p.epoch, .nodeId p.id]

theorem encode_scope (s : Scope) (segs : List (Segment FieldKind)) (vs : List (Field X)) :
    encodeSteps (keyCodec X) (scopeAlias ++ segs) (s.values ++ vs) =
      s.encode ++ encodeSteps (keyCodec X) segs vs := by
  simp [scopeAlias, Scope.values, encodeSteps, keyCodec_encode, Field.encode, Scope.encode]

open KeyModel

theorem encode_dataKey (s : Scope) (k : DataKey) :
    encodeSteps (keyCodec .written) k.model.segments (s.values ++ k.values) = s.dataKey k := by
  cases k <;>
    simp [DataKey.model, segments, DataKey.values, encode_scope, encodeSteps,
      keyCodec_encode, Field.encode, Scope.dataKey, DataKey.rest, DataKey.tag, DataKey.fields]

theorem encode_syncPoint (p : SyncPoint) :
    encodeSteps (keyCodec .written) syncPoint.segments p.values = p.encode := by
  have hs : syncPoint.segments = .literal (lit ['#']) :: (scopeAlias ++
      [.literal (lit ['s', 'p']), .field .u64, .field .u64, .field .nodeId]) := rfl
  rw [hs, encodeSteps, SyncPoint.values, encode_scope]
  simp [encodeSteps, keyCodec_encode, Field.encode, SyncPoint.encode, Scope.syncPoint, SyncPointId.suffix,
    SyncPoint.asId]

/-! ## No key is the beginning of another -/

section Typed
variable {f : Field X}

theorem Field.of_str (h : f.kind = .str) : ∃ v, f = .str v := by
  cases f <;> first | exact ⟨_, rfl⟩ | cases h

theorem Field.of_triEncoding (h : f.kind = .triEncoding) : ∃ v, f = .triEncoding v := by
  cases f <;> first | exact ⟨_, rfl⟩ | cases h

theorem Field.of_quadEncoding (h : f.kind = .quadEncoding) : ∃ v, f = .quadEncoding v := by
  cases f <;> first | exact ⟨_, rfl⟩ | cases h

end Typed
variable {values values' : List (Field X)} {k k' : DataKey}

/-- The first fields of the keys in a scope are the scope. -/
theorem exists_scope {kinds : List FieldKind}
    (h : values.map Field.kind = .str :: .str :: .str :: kinds) :
    ∃ (s : Scope) (rest : List (Field X)), values = s.values ++ rest ∧ rest.map Field.kind = kinds := by
  obtain ⟨_, _, rfl, h₁, hr₁⟩ := map_eq_cons_iff.mp h
  obtain ⟨_, _, rfl, h₂, hr₂⟩ := map_eq_cons_iff.mp hr₁
  obtain ⟨_, rest₃, rfl, h₃, hr₃⟩ := map_eq_cons_iff.mp hr₂
  obtain ⟨nameSpace, rfl⟩ := Field.of_str h₁
  obtain ⟨database, rfl⟩ := Field.of_str h₂
  obtain ⟨schema, rfl⟩ := Field.of_str h₃
  exact ⟨⟨nameSpace, database, schema⟩, rest₃, rfl, hr₃⟩

namespace KeyModel

def rest (m : KeyModel) : List (Segment FieldKind) := m.segments.drop scopeAlias.length

/-- The first byte tells the three regions of the key space apart. -/
def first : KeyModel → UInt8
  | .syncPoint => '#'.toUInt8
  | .semHash => 's'.toUInt8
  | _ => '@'.toUInt8

theorem segments_eq {m : KeyModel} (h : m.first = '@'.toUInt8) :
    m.segments = scopeAlias ++ m.rest := by
  cases m <;> first | rfl | exact absurd h (by decide)

variable {m m' : KeyModel}

def tag (m : KeyModel) : Bytes := encodeSteps (keyCodec .written) (m.rest.take 1) []

theorem encodeSteps_rest (values : List (Field X)) : encodeSteps (keyCodec X) m.rest values =
    m.tag ++ encodeSteps (keyCodec X) (m.rest.drop 1) values := by
  cases m <;> rfl

theorem length_tag (hm : m.first = '@'.toUInt8) (hs : m ≠ .scope) : m.tag.length = 2 := by
  cases m <;> first | rfl | exact absurd rfl hs | exact absurd hm (by decide)

/-- Two keys of one scope: the literal behind the scope tells the models apart, up to two pairs. -/
theorem rest_cases (hv : values.map Field.kind = fieldsOf m.rest)
    (hv' : values'.map Field.kind = fieldsOf m'.rest) (hne : m ≠ m') (hm : m.first = '@'.toUInt8)
    (hm' : m'.first = '@'.toUInt8)
    (h : encodeSteps (keyCodec X) m.rest values <+: encodeSteps (keyCodec X) m'.rest values') :
    m = .scope ∨ m = .blobId ∧ m' = .blobMeta ∧ values <+: values' := by
  obtain ⟨x, hx⟩ := h
  by_cases hs : m = .scope
  · exact .inl hs
  · rw [encodeSteps_rest, encodeSteps_rest, append_assoc] at hx
    have hs' : m' ≠ .scope := by
      rintro rfl
      have hl := congrArg length hx
      rw [length_append, length_tag hm hs] at hl
      change 2 + _ = 0 at hl
      omega
    obtain ⟨ht, hx⟩ := append_inj hx (by rw [length_tag hm hs, length_tag hm' hs'])
    cases m <;> cases m' <;> first
      | exact absurd rfl hne
      | exact absurd rfl hs
      | exact absurd rfl hs'
      | exact absurd ht (by decide)
      | skip
    case blobId.blobMeta =>
      obtain ⟨f, _, rfl, hf, hv⟩ := map_eq_cons_iff.mp hv
      obtain ⟨g, _, rfl, hg, -⟩ := map_eq_cons_iff.mp hv'
      rw [map_eq_nil_iff.mp hv] at hx ⊢
      obtain ⟨rfl, -⟩ := encode_append_inj (C := keyCodec _) (hf.trans hg.symm)
        ((append_assoc _ _ _).symm.trans hx)
      exact .inr ⟨rfl, rfl, cons_prefix_cons.mpr ⟨rfl, nil_prefix⟩⟩
    case blobMeta.blobId =>
      obtain ⟨f, _, rfl, hf, -⟩ := map_eq_cons_iff.mp hv
      obtain ⟨g, _, rfl, hg, hv'⟩ := map_eq_cons_iff.mp hv'
      obtain ⟨-, hx⟩ := encode_append_inj (C := keyCodec _) (hf.trans hg.symm)
        ((append_assoc _ _ _).symm.trans hx)
      cases hx
    case triple.quad =>
      obtain ⟨f, _, rfl, hf, -⟩ := map_eq_cons_iff.mp hv
      obtain ⟨g, _, rfl, hg, -⟩ := map_eq_cons_iff.mp hv'
      obtain ⟨e, rfl⟩ := Field.of_triEncoding hf
      obtain ⟨e', rfl⟩ := Field.of_quadEncoding hg
      exact absurd (cons.inj hx).1 marker_ne
    case quad.triple =>
      obtain ⟨f, _, rfl, hf, -⟩ := map_eq_cons_iff.mp hv
      obtain ⟨g, _, rfl, hg, -⟩ := map_eq_cons_iff.mp hv'
      obtain ⟨e, rfl⟩ := Field.of_quadEncoding hf
      obtain ⟨e', rfl⟩ := Field.of_triEncoding hg
      exact absurd (cons.inj hx).1.symm marker_ne

end KeyModel

namespace DataKey

theorem rest_eq (k : DataKey) :
    k.rest = encodeSteps (keyCodec .written) k.model.rest k.values := by
  cases k <;>
    simp [model, KeyModel.rest, KeyModel.segments, scopeAlias, values, encodeSteps, keyCodec_encode,
      Field.encode, rest, tag, fields]

theorem typed (k : DataKey) : k.values.map Field.kind = fieldsOf k.model.rest := by
  cases k <;> rfl

theorem first_model (k : DataKey) : k.model.first = '@'.toUInt8 := by
  cases k <;> rfl

/-- **A data key is the beginning of another only if it is a blob and the other its metadata.** -/
theorem isPrefix_cases (h : k.rest <+: k'.rest) :
    k = k' ∨ ∃ hash p, k = .blobId hash ∧ k' = .blobMeta hash p := by
  rw [rest_eq, rest_eq] at h
  by_cases hm : k.model = k'.model
  · have hv := k.typed
    have hv' := k'.typed
    rw [hm] at h hv
    have hl : k.values.length = k'.values.length := by
      rw [← length_map Field.kind, hv, ← hv', length_map]
    have he := ((encodeSteps_isPrefix_iff (C := keyCodec _) ⟨[], by rw [append_nil]; exact hv⟩
      ⟨[], by rw [append_nil]; exact hv'⟩ hl.le).mp h).eq_of_length hl
    left
    cases k <;> cases k' <;> first
      | exact noConfusion hm
      | (cases he; rfl)
  · rcases rest_cases k.typed k'.typed hm k.first_model k'.first_model h with hs | ⟨hb, hb', hp⟩
    · cases k <;> exact noConfusion hs
    · cases k <;> first | exact noConfusion hb | skip
      cases k' <;> first | exact noConfusion hb' | skip
      obtain ⟨he, -⟩ := cons_prefix_cons.mp hp
      cases he
      exact .inr ⟨_, _, rfl, rfl⟩

/-- **Different keys have different encodings.** -/
theorem rest_injective (h : k.rest = k'.rest) : k = k' := by
  rcases isPrefix_cases ⟨[], (append_nil _).trans h⟩ with he | ⟨hash, p, rfl, rfl⟩
  · exact he
  · rcases isPrefix_cases ⟨[], (append_nil _).trans h.symm⟩ with he | ⟨_, _, hb, -⟩
    · exact he.symm
    · cases hb

end DataKey

theorem Scope.dataKey_injective {s s' : Scope} (h : s.dataKey k = s'.dataKey k') :
    s = s' ∧ k = k' := by
  obtain ⟨hs, hr⟩ := Scope.encode_append_inj h
  exact ⟨hs, DataKey.rest_injective hr⟩

/-! ## The laws -/

namespace Builder

/-- The key `b'` lies in the scope `b`. -/
def ScopeOf (b b' : Builder X) : Prop :=
  b.model = .scope ∧ b'.model ≠ .syncPoint ∧ b'.model ≠ .semHash ∧ b.values <+: b'.values

/-- The key `b'` is metadata of the blob `b`. -/
def BlobOf (b b' : Builder X) : Prop :=
  b.model = .blobId ∧ b'.model = .blobMeta ∧ b.values <+: b'.values

theorem decodeExact_encode (b : Builder X) :
    decodeExact b.model b.values.length b.encode = .ok b.values := by
  have hr := decodeSteps_encodeSteps (C := keyCodec _) b.typed []
  rw [append_nil] at hr
  rw [decodeExact, encode, hr]
  rfl

theorem exists_rest {b : Builder X} (hb : b.Complete) (hf : b.model.first = '@'.toUInt8) :
    ∃ (s : Scope) (rest : List (Field X)), b.values = s.values ++ rest ∧
      rest.map Field.kind = fieldsOf b.model.rest ∧
      b.encode = s.encode ++ encodeSteps (keyCodec X) b.model.rest rest := by
  have hs := segments_eq hf
  rw [Complete, fields, hs] at hb
  obtain ⟨s, rest, hv, hr⟩ := exists_scope hb
  refine ⟨s, rest, hv, hr, ?_⟩
  rw [encode, hs, hv, encode_scope]

theorem head_encode (b : Builder X) : b.encode.head? = some b.model.first := by
  obtain ⟨model, _, _⟩ := b
  cases model <;> rfl

variable {b b' : Builder X}

theorem isPrefix_cases (hb : b.Complete) (hb' : b'.Complete) (h : b.encode <+: b'.encode) :
    b = b' ∨ b.ScopeOf b' ∨ b.BlobOf b' := by
  by_cases hm : b.model = b'.model
  · have hl : b.values.length = b'.values.length := by
      rw [← length_map Field.kind, hb, hm, ← hb', length_map]
    have ht := b'.typed
    rw [← hm] at ht
    rw [encode, encode, ← hm, encodeSteps_isPrefix_iff (C := keyCodec _) b.typed ht hl.le] at h
    exact .inl (Builder.ext hm (h.eq_of_length hl))
  · have hf : b.model.first = b'.model.first := by
      obtain ⟨x, hx⟩ := h
      have hh := b'.head_encode
      rw [← hx, head?_append, b.head_encode] at hh
      exact Option.some.inj hh
    have hs : b.model.first = '@'.toUInt8 := by
      revert hf hm
      cases b.model <;> cases b'.model <;> decide
    obtain ⟨s, rest, hv, hr, he⟩ := exists_rest hb hs
    obtain ⟨s', rest', hv', hr', he'⟩ := exists_rest hb' (hf.symm.trans hs)
    obtain ⟨x, hx⟩ := h
    rw [he, he', append_assoc] at hx
    obtain ⟨rfl, hre⟩ := Scope.encode_append_inj hx
    have hp : rest <+: rest' → b.values <+: b'.values := by
      rw [hv, hv']
      exact (prefix_append_right_inj _).mpr
    rcases rest_cases hr hr' hm hs (hf.symm.trans hs) ⟨x, hre⟩ with hms | ⟨hmb, hmb', hpr⟩
    · rw [hms] at hr
      have hn : rest = [] := map_eq_nil_iff.mp hr
      rw [hms] at hf
      refine .inr (.inl ⟨hms, fun h => ?_, fun h => ?_, hp (hn ▸ nil_prefix)⟩)
      · rw [h] at hf
        exact absurd hf (by decide)
      · rw [h] at hf
        exact absurd hf (by decide)
    · exact .inr (.inr ⟨hmb, hmb', hp hpr⟩)

theorem encode_injective (hb : b.Complete) (hb' : b'.Complete) (h : b.encode = b'.encode) :
    b = b' := by
  rcases isPrefix_cases hb hb' ⟨[], by rw [append_nil, h]⟩ with he | hs | hbl
  · exact he
  · rcases isPrefix_cases hb' hb ⟨[], by rw [append_nil, h]⟩ with he | hs' | hbl'
    · exact he.symm
    · exact Builder.ext (hs.1.trans hs'.1.symm) (hs.2.2.2.eq_of_length_le hs'.2.2.2.length_le)
    · exact absurd (hs.1.symm.trans hbl'.2.1) nofun
  · rcases isPrefix_cases hb' hb ⟨[], by rw [append_nil, h]⟩ with he | hs' | hbl'
    · exact he.symm
    · exact absurd (hbl.2.1.symm.trans hs'.1) nofun
    · exact absurd (hbl.1.symm.trans hbl'.2.1) nofun

/-- Every key begins with a byte of a literal. -/
theorem exists_cons (b : Builder X) : ∃ c bs, b.encode = c :: bs ∧ c < 255 := by
  obtain ⟨model, _, _⟩ := b
  cases model <;> exact ⟨_, _, rfl, by decide⟩

theorem range_spec (b : Builder X) : ∃ lower upper, b.range = .ok (lower, upper) ∧
    ∀ key : Bytes, b.encode <+: key ↔
      (compare lower key).isLE = true ∧ compare key upper = .lt := by
  obtain ⟨c, bs, he, hc⟩ := b.exists_cons
  obtain ⟨upper, hr, hu⟩ : ∃ upper, keyRange (c :: bs) = .ok (c :: bs, upper) ∧
      prefixUpper (c :: bs) = some upper := keyRange_cons hc
  refine ⟨b.encode, upper, ?_, fun key => ?_⟩
  · rw [range, he, hr]
  · rw [isPrefix_iff_range, he]
    simp [hu]

/-- Keys of one kind compare as the first field they differ in. -/
theorem compare_encode (hm : b.model = b'.model) {front rest rest' : List (Field X)}
    {f g : Field X}
    (hv : b.values = front ++ f :: rest) (hv' : b'.values = front ++ g :: rest') (hne : f ≠ g) :
    compare b.encode b'.encode = f.order g := by
  have hb : (front ++ f :: rest).map Field.kind <+: fieldsOf b.model.segments := by
    rw [← hv]
    exact b.typed
  have hb' : (front ++ g :: rest').map Field.kind <+: fieldsOf b.model.segments := by
    rw [← hv', hm]
    exact b'.typed
  have hk : f.kind = g.kind := by
    obtain ⟨x, hx⟩ := hb
    obtain ⟨y, hy⟩ := hb'
    rw [← hy, map_append, map_append, append_assoc, append_assoc, append_cancel_left_eq] at hx
    exact (cons.inj hx).1
  rw [encode, encode, ← hm, hv, hv',
    compare_encodeSteps (C := keyCodec _) hb hb' hne, ← Field.compare_encode hk]
  rfl

end Builder

/-- Values in the form of the crate's times: the last two bytes are those of the offset from UTC, if
there is one, and 255 twice if there is none. -/
structure Timed (n : Nat) where
  value : ByteVec (n - 2)
  offset : Option { offset : ByteVec 2 // offset.bytes ≠ [255, 255] }
deriving DecidableEq

def Timed.toBytes {n : Nat} (v : Timed n) (h : 2 ≤ n) : ByteVec n :=
  ⟨v.value.bytes ++ (v.offset.elim [255, 255] fun offset => offset.1.bytes), by
    rw [length_append, v.value.length_eq]
    cases v.offset with
    | none => exact Nat.sub_add_cancel h
    | some offset =>
      rw [Option.elim_some, offset.1.length_eq]
      exact Nat.sub_add_cancel h⟩

def Timed.ofBytes {n : Nat} (bytes : ByteVec n) (h : 2 ≤ n) : Timed n where
  value := ⟨bytes.bytes.take (n - 2), by simp [bytes.length_eq]⟩
  offset :=
    if hn : bytes.bytes.drop (n - 2) = [255, 255] then none
    else some ⟨⟨bytes.bytes.drop (n - 2), by rw [length_drop, bytes.length_eq]; omega⟩, hn⟩

theorem Timed.ofBytes_toBytes {n : Nat} (v : Timed n) (h : 2 ≤ n) : ofBytes (v.toBytes h) h = v := by
  obtain ⟨value, offset⟩ := v
  have hl := value.length_eq
  cases offset with
  | none => simp [ofBytes, toBytes, ← hl]
  | some offset =>
    obtain ⟨offset, hn⟩ := offset
    simp [ofBytes, toBytes, ← hl, hn]

theorem XsdKind.two_le_width (kind : XsdKind) : 2 ≤ kind.width := by
  cases kind <;> decide

def XsdValues.timed : XsdValues where
  Value kind := Timed kind.width
  toBeBytes kind v := v.toBytes kind.two_le_width
  fromBeBytes kind bytes := .ofBytes bytes kind.two_le_width
  fromBeBytes_toBeBytes kind v := v.ofBytes_toBytes kind.two_le_width
  decEq _ := inferInstance

/-- A graph that is named by a time without an offset. -/
def timedKey : Builder .timed where
  model := .graphName
  values := Sample.scope.values ++ [.term (.literalValue .dateTime ⟨.fill 16 7, none⟩)]
  typed := ⟨[], rfl⟩

end Myrmic
