import Myrmic.Rows
import Myrmic.Term

/-!
# Data keys

The keys that data is stored under in a scope: table rows, key-value pairs, measurements, blobs, their
metadata and their paths, and the graph names, triples and quads of the semantic store.  After the
scope each kind has a tag of two bytes and then its fields.  A statement is stored several times, under
the same terms in different orders, so that every pattern of bound terms is a range of keys; the
**encoding** is the order, and one byte of the key says which it is.

That these keys can be told apart is shown in `KeySpace`, for all keys of the store.
-/
namespace Myrmic
open OrderedBytes Fallible List

/-! ## Orders of terms -/

inductive TriEncoding where
  | spo
  | pos
  | osp
deriving DecidableEq

def TriEncoding.marker : TriEncoding → UInt8
  | .spo => 1
  | .pos => 2
  | .osp => 3

/-- The order whose keys start with the bound terms. -/
def TriEncoding.fromPartial (subject predicate object : Bool) : TriEncoding :=
  match subject, predicate, object with
  | _, false, true => .osp
  | false, true, _ => .pos
  | _, false, false => .spo
  | true, true, _ => .spo

/-- Puts subject, predicate and object in the order of the encoding. -/
def TriEncoding.shuffle {α : Type} (encoding : TriEncoding) (a b c : α) : α × α × α :=
  match encoding with
  | .spo => (a, b, c)
  | .osp => (c, a, b)
  | .pos => (b, c, a)

/-- Puts terms in the order of the encoding back as subject, predicate and object. -/
def TriEncoding.sort {α : Type} (encoding : TriEncoding) (a b c : α) : α × α × α :=
  match encoding with
  | .spo => (a, b, c)
  | .pos => (c, a, b)
  | .osp => (b, c, a)

inductive QuadEncoding where
  | spog
  | posg
  | ospg
  | gspo
  | gpos
  | gosp
deriving DecidableEq

def QuadEncoding.marker : QuadEncoding → UInt8
  | .spog => 4
  | .posg => 5
  | .ospg => 6
  | .gspo => 7
  | .gpos => 8
  | .gosp => 9

def QuadEncoding.fromPartial (subject predicate object graph : Bool) : QuadEncoding :=
  match TriEncoding.fromPartial subject predicate object, graph with
  | .spo, true => .gspo
  | .pos, true => .gpos
  | .osp, true => .gosp
  | .spo, false => .spog
  | .pos, false => .posg
  | .osp, false => .ospg

def QuadEncoding.shuffle {α : Type} (encoding : QuadEncoding) (a b c d : α) : α × α × α × α :=
  match encoding with
  | .spog => (a, b, c, d)
  | .posg => (b, c, a, d)
  | .ospg => (c, a, b, d)
  | .gspo => (d, a, b, c)
  | .gpos => (d, b, c, a)
  | .gosp => (d, c, a, b)

def QuadEncoding.sort {α : Type} (encoding : QuadEncoding) (a b c d : α) : α × α × α × α :=
  match encoding with
  | .spog => (a, b, c, d)
  | .posg => (c, a, b, d)
  | .ospg => (b, c, a, d)
  | .gspo => (b, c, d, a)
  | .gpos => (d, b, c, a)
  | .gosp => (c, d, b, a)

/-! ## Keys -/

/-- Bytes whose length fits the eight bytes it is written in. -/
@[ext] structure Id where
  bytes : Bytes
  short : bytes.length < 2 ^ 64
deriving DecidableEq

def Id.encode (id : Id) : Bytes := be 8 id.bytes.length ++ id.bytes

/-- A row's id; no byte string in memory is too long for its length field. -/
def Id.ofBytes (bytes : Bytes) : Except String Id :=
  if h : bytes.length < 2 ^ 64 then .ok ⟨bytes, h⟩ else .error "Unable to encode byte slice"

theorem Id.ofBytes_bytes (id : Id) : Id.ofBytes id.bytes = .ok id := dif_pos id.short

/-- A key within a scope. -/
inductive DataKey where
  | table (name : Name) (id : Id)
  | kv (key : Name)
  | measurement (measurement : Name) (timestamp : UInt64)
  | blobId (hash : ByteVec 32)
  | blobMeta (hash : ByteVec 32) (path : Name)
  | path (path : Name)
  | graphName (name : EncodedTerm)
  | triple (encoding : TriEncoding) (a b c : EncodedTerm)
  | quad (encoding : QuadEncoding) (a b c d : EncodedTerm)
deriving DecidableEq

namespace DataKey

/-- The two bytes that tell the kinds apart; triples and quads share theirs. -/
def tag : DataKey → Bytes
  | .table _ _ => lit ['t', 'b']
  | .kv _ => lit ['k', 'v']
  | .measurement _ _ => lit ['t', 's']
  | .blobId _ => lit ['f', 's']
  | .blobMeta _ _ => lit ['f', 's']
  | .path _ => lit ['f', 'n']
  | .graphName _ => lit ['s', 'g']
  | .triple _ _ _ _ => lit ['s', 'm']
  | .quad _ _ _ _ _ => lit ['s', 'm']

/-- The fields of a key; the only kind of hash is number 0. -/
def fields : DataKey → Bytes
  | .table name id => name.encode ++ id.encode
  | .kv key => key.encode
  | .measurement name timestamp => name.encode ++ (lit ['/'] ++ be64 timestamp)
  | .blobId hash => be 4 0 ++ hash.bytes
  | .blobMeta hash p => be 4 0 ++ (hash.bytes ++ (lit ['$'] ++ p.encode))
  | .path p => p.encode
  | .graphName name => name.encode
  | .triple encoding a b c => encoding.marker :: (a.encode ++ (b.encode ++ c.encode))
  | .quad encoding a b c d => encoding.marker :: (a.encode ++ (b.encode ++ (c.encode ++ d.encode)))

def rest (k : DataKey) : Bytes := k.tag ++ k.fields

end DataKey

def Scope.dataKey (s : Scope) (k : DataKey) : Bytes := s.encode ++ k.rest

/-- The rest of a term lookup key: a hash is written as bytes of their own length. -/
def semHash (hash : HashedBytes) : Bytes := be 8 16 ++ hash.bytes

/-! ### Keys of statements -/

/-- The key of a triple in one of its encodings. -/
def fromTriple (encoding : TriEncoding) (t : EncodedTriple) : DataKey :=
  let (a, b, c) := encoding.shuffle t.subject t.predicate t.object
  .triple encoding a b c

/-- The key of a quad in one of its encodings. -/
def fromQuad (encoding : QuadEncoding) (q : EncodedQuad) : DataKey :=
  let (a, b, c, d) := encoding.shuffle q.subject q.predicate q.object q.graphName
  .quad encoding a b c d

/-- The bytes of a term if it is bound. -/
def partialTerm (t : Option EncodedTerm) : Bytes := (t.map ValuedTerm.encode).getD []

/-- The keys of the triples that match a pattern: an encoding and a range. -/
def partialTripleIntoRange (s : Scope) (subject predicate object : Option EncodedTerm) :
    Except String (TriEncoding × Bytes × Bytes) :=
  let encoding := TriEncoding.fromPartial subject.isSome predicate.isSome object.isSome
  let (a, b, c) := encoding.shuffle subject predicate object
  let buffer := s.encode ++ (lit ['s', 'm'] ++
    encoding.marker :: (partialTerm a ++ (partialTerm b ++ partialTerm c)))
  match prefixToRange buffer with
  | (lower, some upper) => .ok (encoding, lower, upper)
  | (_, none) => .error "triple key prefix has no range upper bound"

/-- The keys of the quads that match a pattern: an encoding and a range. -/
def partialQuadIntoRange (s : Scope) (subject predicate object graphName : Option EncodedTerm) :
    Except String (QuadEncoding × Bytes × Bytes) :=
  let encoding :=
    QuadEncoding.fromPartial subject.isSome predicate.isSome object.isSome graphName.isSome
  let (a, b, c, d) := encoding.shuffle subject predicate object graphName
  let buffer := s.encode ++ (lit ['s', 'm'] ++
    encoding.marker :: (partialTerm a ++ (partialTerm b ++ (partialTerm c ++ partialTerm d))))
  match prefixToRange buffer with
  | (lower, some upper) => .ok (encoding, lower, upper)
  | (_, none) => .error "quad key prefix has no range upper bound"

/-! ### Reading keys back -/

/-- A key must have been read to its end. -/
def exactly {α : Type} (r : α × Bytes) : Except String α :=
  let trailing := r.2.length
  if trailing ≠ 0 then .error s!"{trailing} trailing bytes after the key" else .ok r.1

def TriEncoding.ofMarker (marker : UInt8) : Except String TriEncoding :=
  if marker = 1 then .ok .spo
  else if marker = 2 then .ok .pos
  else if marker = 3 then .ok .osp
  else .error s!"Invalid TriEncoding marker: {marker}"

def QuadEncoding.ofMarker (marker : UInt8) : Except String QuadEncoding :=
  if marker = 4 then .ok .spog
  else if marker = 5 then .ok .posg
  else if marker = 6 then .ok .ospg
  else if marker = 7 then .ok .gspo
  else if marker = 8 then .ok .gpos
  else if marker = 9 then .ok .gosp
  else .error s!"Invalid QuadEncoding marker: {marker}"

def decodeTripleKey (key : Bytes) : Except String (EncodedTerm × EncodedTerm × EncodedTerm) := do
  let (_, bs) ← readScope key
  let bs ← expect (lit ['s', 'm']) bs
  let (marker, bs) ← readU8 bs
  let _ ← TriEncoding.ofMarker marker
  let (a, bs) ← readEncodedTerm bs
  let (b, bs) ← readEncodedTerm bs
  let (c, bs) ← readEncodedTerm bs
  exactly ((a, b, c), bs)

def decodeQuadKey (key : Bytes) :
    Except String (EncodedTerm × EncodedTerm × EncodedTerm × EncodedTerm) := do
  let (_, bs) ← readScope key
  let bs ← expect (lit ['s', 'm']) bs
  let (marker, bs) ← readU8 bs
  let _ ← QuadEncoding.ofMarker marker
  let (a, bs) ← readEncodedTerm bs
  let (b, bs) ← readEncodedTerm bs
  let (c, bs) ← readEncodedTerm bs
  let (d, bs) ← readEncodedTerm bs
  exactly ((a, b, c, d), bs)

def decodeGraphName (key : Bytes) : Except String EncodedTerm := do
  let (_, bs) ← readScope key
  let bs ← expect (lit ['s', 'g']) bs
  exactly (← readEncodedTerm bs)

/-! ## Keys delimit themselves -/

theorem marker_ne {e : TriEncoding} {e' : QuadEncoding} : e.marker ≠ e'.marker := by
  cases e <;> cases e' <;> decide

theorem Id.encode_append_inj {i j : Id} {x y : Bytes} (h : i.encode ++ x = j.encode ++ y) :
    i = j ∧ x = y := by
  simp only [Id.encode, append_assoc] at h
  obtain ⟨hl, h⟩ := append_inj h (by simp)
  obtain ⟨hb, h⟩ := append_inj h (be_injective i.short j.short hl)
  exact ⟨Id.ext hb, h⟩

theorem semHash_injective {h h' : HashedBytes} (he : semHash h = semHash h') : h = h' :=
  ByteVec.ext (append_inj he rfl).2

/-! ## Keys are read back -/

@[simp] theorem TriEncoding.ofMarker_marker (e : TriEncoding) :
    TriEncoding.ofMarker e.marker = .ok e := by
  cases e <;> rfl

@[simp] theorem QuadEncoding.ofMarker_marker (e : QuadEncoding) :
    QuadEncoding.ofMarker e.marker = .ok e := by
  cases e <;> rfl

end Myrmic
