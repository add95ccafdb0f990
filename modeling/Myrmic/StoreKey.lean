import Myrmic.OrderedStore
import Myrmic.Fallible

/-!
# Store keys

Every row of the store lives under a key made of segments: literal bytes, zero-terminated strings,
big-endian integers and fixed-size arrays.  A **scope** is the tenancy unit, encoded as
`@namespace\0*database\0*schema\0:`, and every row of a scope's data starts with those bytes.  A
**sync point** records one version of a scope and lives outside the data region, under
`#‖scope‖sp‖version‖epoch‖node`.

Strings that contain a NUL are refused by the encoder.  `Name` carries that check as a field, so the
encodings below are total and no scope can be built whose rows another scope's bytes would cover:
`Scope.encode_append_inj` is the self-delimiting property that all scope isolation rests on.
-/
namespace Myrmic
open OrderedBytes Fallible List

/-! ## Errors -/

/-- Replaces the outermost message of a failure. -/
def context {α : Type} (msg : String) : Except String α → Except String α
  | .ok a => .ok a
  | .error _ => .error msg

@[simp] theorem context_ok {α : Type} (msg : String) (a : α) :
    context msg (.ok a : Except String α) = .ok a := rfl

/-- A missing value becomes a failure. -/
def contextNone {α : Type} (msg : String) : Option α → Except String α
  | some a => .ok a
  | none => .error msg

/-! ## Segments -/

def strBytes (s : String) : Bytes := s.toByteArray.data.toList

theorem strBytes_injective {s t : String} (h : strBytes s = strBytes t) : s = t := by
  rw [← String.toByteArray_inj, ByteArray.ext_iff]
  exact Array.toList_inj.mp h

/-- The string some bytes spell, if they are valid UTF-8. -/
def fromUtf8 (bs : Bytes) : Option String := String.fromUTF8? ⟨⟨bs⟩⟩

@[simp] theorem fromUtf8_strBytes (s : String) : fromUtf8 (strBytes s) = some s := by
  simp [fromUtf8, strBytes, String.fromUTF8?, String.fromUTF8, s.isValidUTF8]

variable {bs : Bytes} {rest : Bytes} {n : Nat} {msg : String} {a : Bytes} {x y : Bytes}
  {s t : Scope}

theorem strBytes_of_fromUtf8 {s : String} (h : fromUtf8 bs = some s) : strBytes s = bs := by
  unfold fromUtf8 String.fromUTF8? at h
  split at h
  · cases h
    rfl
  · cases h

/-- A string that the key encoder accepts: it contains no NUL. -/
structure Name where
  val : String
  noNul : (0 : UInt8) ∉ strBytes val
deriving DecidableEq

/-- Refuses a string containing NUL: the terminator must be the only zero byte. -/
def Name.ofString (s : String) : Except String Name :=
  if h : (0 : UInt8) ∉ strBytes s then .ok ⟨s, h⟩ else .error "Unable to encode str"

/-- A string is its UTF-8 bytes followed by a zero. -/
def Name.encode (n : Name) : Bytes := strBytes n.val ++ [0]

def be64 (n : UInt64) : Bytes := be 8 n.toNat

def be32 (n : UInt32) : Bytes := be 4 n.toNat

@[simp] theorem length_be64 (n : UInt64) : (be64 n).length = 8 := length_be

@[simp] theorem length_be32 (n : UInt32) : (be32 n).length = 4 := length_be

theorem be64_injective {m n : UInt64} (h : be64 m = be64 n) : m = n :=
  UInt64.toNat_inj.mp (be_injective m.toNat_lt n.toNat_lt h)

theorem compare_be64 (m n : UInt64) : compare (be64 m) (be64 n) = compare m.toNat n.toNat :=
  compare_be m.toNat_lt n.toNat_lt

theorem compare_be32 (m n : UInt32) : compare (be32 m) (be32 n) = compare m.toNat n.toNat :=
  compare_be m.toNat_lt n.toNat_lt

/-- The 16 bytes that identify a node. -/
@[ext] structure NodeId where
  bytes : Bytes
  length_eq : bytes.length = 16
deriving DecidableEq

/-! ## Reading segments back

A reader returns the decoded value and the bytes it left. -/

def readExact (n : Nat) (msg : String) (bs : Bytes) : Except String (Bytes × Bytes) :=
  if n ≤ bs.length then .ok (bs.take n, bs.drop n) else .error msg

def readU8 : Bytes → Except String (UInt8 × Bytes)
  | [] => .error "Unable to decode u8"
  | b :: bs => .ok (b, bs)

/-- Consumes the bytes of a literal segment, one after the other. -/
def expect : Bytes → Bytes → Except String Bytes
  | [], bs => .ok bs
  | expected :: lit, bs => do
    let (value, rest) ← readU8 bs
    if value = expected then expect lit rest
    else .error "literal segment mismatch while decoding key"

def readU64 (bs : Bytes) : Except String (UInt64 × Bytes) := do
  let (value, rest) ← readExact 8 "Unable to decode u64" bs
  return (UInt64.ofNat (ofBe value), rest)

def readNodeId (bs : Bytes) : Except String (NodeId × Bytes) :=
  if h : 16 ≤ bs.length then .ok (⟨bs.take 16, by simpa using h⟩, bs.drop 16)
  else .error "Unable to decode byte array"

/-- Splits a byte string around its first zero. -/
def cutAtZero : Bytes → Option (Bytes × Bytes)
  | [] => none
  | b :: bs => if b = 0 then some ([], bs) else (cutAtZero bs).map fun r => (b :: r.1, r.2)

def Name.fromUtf8 (bs : Bytes) : Option Name :=
  match Myrmic.fromUtf8 bs with
  | some s => if h : (0 : UInt8) ∉ strBytes s then some ⟨s, h⟩ else none
  | none => none

/-- Reads up to the terminating zero; what stands before it must be UTF-8. -/
def readStr (bs : Bytes) : Except String (Name × Bytes) :=
  match cutAtZero bs with
  | none => .error "Unable to decode str"
  | some (before, rest) =>
    match Name.fromUtf8 before with
    | some n => .ok (n, rest)
    | none => .error "Unable to decode str"

/-! ### What was written is read back -/

theorem readExact_append (h : a.length = n) : readExact n msg (a ++ rest) = .ok (a, rest) := by
  subst h
  simp [readExact]

theorem append_of_readExact
    (h : readExact n msg bs = .ok (a, rest)) : bs = a ++ rest ∧ a.length = n := by
  unfold readExact at h
  split at h
  · cases h
    simpa using ‹n ≤ bs.length›
  · cases h

@[simp] theorem expect_append (lit rest : Bytes) : expect lit (lit ++ rest) = .ok rest := by
  induction lit with
  | nil => rfl
  | cons b lit ih => simpa [expect, readU8, bind, Except.bind] using ih

theorem append_of_expect {lit : Bytes} (h : expect lit bs = .ok rest) : bs = lit ++ rest := by
  induction lit generalizing bs with
  | nil =>
    cases h
    rfl
  | cons b lit ih =>
    cases bs with
    | nil => cases h
    | cons c bs =>
      simp only [expect, readU8, bind, Except.bind] at h
      split at h
      · next hc => rw [hc, ih h, cons_append]
      · cases h

@[simp] theorem readU64_append {n : UInt64} :
    readU64 (be64 n ++ rest) = .ok (n, rest) := by
  have hv : UInt64.ofNat (ofBe (be64 n)) = n := by
    rw [be64, ofBe_be (w := 8) n.toNat_lt, UInt64.ofNat_toNat]
  simp [readU64, readExact_append (length_be64 n), hv, bind, Except.bind, pure, Except.pure]

theorem append_of_readU64 {n : UInt64} (h : readU64 bs = .ok (n, rest)) : bs = be64 n ++ rest := by
  obtain ⟨⟨v, _⟩, hr, h⟩ := bind_eq_ok.mp h
  cases h
  obtain ⟨rfl, hl⟩ := append_of_readExact hr
  have hlt : ofBe v < 2 ^ 64 := by simpa [hl] using ofBe_lt v
  rw [be64, UInt64.toNat_ofNat_of_lt' hlt, ← hl, be_ofBe]

@[simp] theorem readNodeId_append {id : NodeId} :
    readNodeId (id.bytes ++ rest) = .ok (id, rest) := by
  have hl := id.length_eq
  rw [readNodeId, dif_pos (by simp [hl])]
  simp only [Except.ok.injEq, Prod.mk.injEq]
  exact ⟨NodeId.ext (by simp [← hl]), by simp [← hl]⟩

theorem append_of_readNodeId {id : NodeId} (h : readNodeId bs = .ok (id, rest)) :
    bs = id.bytes ++ rest := by
  unfold readNodeId at h
  split at h
  · cases h
    simp
  · cases h

theorem cutAtZero_append (ha : (0 : UInt8) ∉ a) :
    cutAtZero (a ++ 0 :: rest) = some (a, rest) := by
  induction a with
  | nil => simp [cutAtZero]
  | cons c a ih =>
    have hc : c ≠ 0 := (ne_of_not_mem_cons ha).symm
    simp [cutAtZero, hc, ih (not_mem_of_not_mem_cons ha)]

theorem append_of_cutAtZero (h : cutAtZero bs = some (a, rest)) : bs = a ++ 0 :: rest := by
  induction bs generalizing a with
  | nil => cases h
  | cons c bs ih =>
    simp only [cutAtZero] at h
    split at h
    · next hc =>
      cases h
      simp [hc]
    · obtain ⟨⟨_, _⟩, hcu, hr⟩ := Option.map_eq_some_iff.mp h
      cases hr
      simp [ih hcu]

@[simp] theorem Name.fromUtf8_strBytes (n : Name) : Name.fromUtf8 (strBytes n.val) = some n := by
  simp [Name.fromUtf8, n.noNul]

theorem Name.strBytes_of_fromUtf8 {n : Name} (h : Name.fromUtf8 bs = some n) :
    strBytes n.val = bs := by
  unfold Name.fromUtf8 at h
  split at h
  · next s hs =>
    split at h
    · cases h
      exact Myrmic.strBytes_of_fromUtf8 hs
    · cases h
  · cases h

@[simp] theorem readStr_append {n : Name} :
    readStr (n.encode ++ rest) = .ok (n, rest) := by
  have he : n.encode ++ rest = strBytes n.val ++ 0 :: rest := by simp [Name.encode]
  simp [readStr, he, cutAtZero_append n.noNul]

theorem Name.encode_append_inj {m n : Name} (h : m.encode ++ x = n.encode ++ y) :
    m = n ∧ x = y := by
  have hr := congrArg readStr h
  rw [readStr_append, readStr_append] at hr
  cases hr
  exact ⟨rfl, rfl⟩

theorem append_of_readStr {n : Name} (h : readStr bs = .ok (n, rest)) : bs = n.encode ++ rest := by
  unfold readStr at h
  split at h
  · cases h
  · next pre rest' hc =>
    split at h
    · next m hm =>
      cases h
      simp [append_of_cutAtZero hc, Name.encode, Name.strBytes_of_fromUtf8 hm]
    · cases h

/-! ## Scopes -/

def lit (cs : List Char) : Bytes := cs.map Char.toUInt8

@[simp] theorem length_lit (cs : List Char) : (lit cs).length = cs.length := length_map _

/-- The tenancy unit that splits the data space. -/
structure Scope where
  nameSpace : Name
  database : Name
  schema : Name
deriving DecidableEq

/-- The check every write makes first: a scope that cannot be encoded is refused. -/
def Scope.new (nameSpace database schema : String) : Except String Scope :=
  context "invalid scope" do
    let nameSpace ← Name.ofString nameSpace
    let database ← Name.ofString database
    let schema ← Name.ofString schema
    return ⟨nameSpace, database, schema⟩

/-- `@namespace\0*database\0*schema\0:`, the bytes every data row of the scope starts with. -/
def Scope.encode (s : Scope) : Bytes :=
  lit ['@'] ++ (s.nameSpace.encode ++ (lit ['*'] ++ (s.database.encode ++
    (lit ['*'] ++ (s.schema.encode ++ lit [':'])))))

def readScope (bs : Bytes) : Except String (Scope × Bytes) := do
  let bs ← expect (lit ['@']) bs
  let (nameSpace, bs) ← readStr bs
  let bs ← expect (lit ['*']) bs
  let (database, bs) ← readStr bs
  let bs ← expect (lit ['*']) bs
  let (schema, bs) ← readStr bs
  let bs ← expect (lit [':']) bs
  return (⟨nameSpace, database, schema⟩, bs)

@[simp] theorem readScope_append (s : Scope) (rest : Bytes) :
    readScope (s.encode ++ rest) = .ok (s, rest) := by
  simp [readScope, Scope.encode, bind, Except.bind, pure, Except.pure]

/-- A scope's encoding delimits itself: it can be cut off the front of a key in one way only. -/
theorem Scope.encode_append_inj (h : s.encode ++ x = t.encode ++ y) : s = t ∧ x = y := by
  have hr := congrArg readScope h
  rw [readScope_append, readScope_append] at hr
  cases hr
  exact ⟨rfl, rfl⟩

theorem Scope.eq_of_isPrefix {k : Bytes} (hs : s.encode <+: k) (ht : t.encode <+: k) : s = t := by
  obtain ⟨x, rfl⟩ := hs
  obtain ⟨y, hy⟩ := ht
  exact (Scope.encode_append_inj hy).1.symm

theorem append_of_readScope {s : Scope} (h : readScope bs = .ok (s, rest)) :
    bs = s.encode ++ rest := by
  simp only [readScope, bind_eq_ok] at h
  obtain ⟨_, h1, ⟨_, _⟩, h2, _, h3, ⟨_, _⟩, h4, _, h5, ⟨_, _⟩, h6, _, h7, h8⟩ := h
  cases h8
  dsimp only at h3 h5 h7
  rw [append_of_expect h1, append_of_readStr h2, append_of_expect h3, append_of_readStr h4,
    append_of_expect h5, append_of_readStr h6, append_of_expect h7]
  simp [Scope.encode]

/-! ## Sync points -/

/-- The version of a commit: the time its transaction began. -/
abbrev Version := UInt64

/-- The time a version was last re-stamped on; a commit stamps its own version. -/
abbrev Epoch := UInt64

/-- What names a sync point within its scope. -/
structure SyncPointId where
  epoch : Epoch
  version : Version
  node : NodeId
deriving DecidableEq

/-- One recorded version of a scope. -/
structure SyncPoint where
  scope : Scope
  ts : Version
  epoch : Epoch
  id : NodeId
deriving DecidableEq

def SyncPoint.asId (p : SyncPoint) : SyncPointId := ⟨p.epoch, p.ts, p.id⟩

def Scope.withSpId (s : Scope) (id : SyncPointId) : SyncPoint := ⟨s, id.version, id.epoch, id.node⟩

@[simp] theorem Scope.withSpId_asId (p : SyncPoint) : p.scope.withSpId p.asId = p := rfl

open SyncPoint

@[simp] theorem SyncPoint.asId_withSpId (s : Scope) (id : SyncPointId) :
    (s.withSpId id).asId = id := rfl

/-- `#‖scope‖sp`, the bytes every sync point of the scope starts with. -/
def Scope.syncPoint (s : Scope) : Bytes :=
  lit ['#'] ++ (s.encode ++ lit ['s', 'p'])

/-- `#‖scope‖sp‖version`, the bytes every sync point of one version starts with. -/
def Scope.syncPointAt (s : Scope) (ts : Version) : Bytes := s.syncPoint ++ be64 ts

/-- The part of a sync point's key after its scope. -/
def SyncPointId.suffix (id : SyncPointId) : Bytes :=
  be64 id.version ++ (be64 id.epoch ++ id.node.bytes)

def SyncPoint.encode (p : SyncPoint) : Bytes := p.scope.syncPoint ++ p.asId.suffix

/-- Reads a sync point; bytes left over after it are ignored. -/
def SyncPoint.decodeFromBytes (bs : Bytes) : Except String SyncPoint := do
  let bs ← expect (lit ['#']) bs
  let (scope, bs) ← readScope bs
  let bs ← expect (lit ['s', 'p']) bs
  let (ts, bs) ← readU64 bs
  let (epoch, bs) ← readU64 bs
  let (id, _) ← readNodeId bs
  return ⟨scope, ts, epoch, id⟩

@[simp] theorem SyncPoint.decodeFromBytes_append (p : SyncPoint) (rest : Bytes) :
    decodeFromBytes (p.encode ++ rest) = .ok p := by
  simp [decodeFromBytes, encode, Scope.syncPoint, SyncPointId.suffix,
    asId, bind, Except.bind, pure, Except.pure]

@[simp] theorem SyncPoint.decodeFromBytes_encode (p : SyncPoint) :
    decodeFromBytes p.encode = .ok p := by
  simpa using decodeFromBytes_append p []

/-- A key that decodes starts with the sync point it decodes to. -/
theorem SyncPoint.isPrefix_of_decodeFromBytes {p : SyncPoint}
    (h : decodeFromBytes bs = .ok p) : p.encode <+: bs := by
  simp only [decodeFromBytes, bind_eq_ok] at h
  obtain ⟨_, h1, ⟨_, _⟩, h2, _, h3, ⟨_, _⟩, h4, ⟨_, _⟩, h5, ⟨_, rest⟩, h6, h7⟩ := h
  cases h7
  dsimp only at h3 h5 h6
  rw [append_of_expect h1, append_of_readScope h2, append_of_expect h3, append_of_readU64 h4,
    append_of_readU64 h5, append_of_readNodeId h6]
  exact ⟨rest, by simp [encode, Scope.syncPoint, SyncPointId.suffix, asId]⟩

theorem SyncPoint.encode_injective {p q : SyncPoint} (h : p.encode = q.encode) : p = q := by
  have := congrArg decodeFromBytes h
  simpa using this

/-- A sync-point region delimits itself as well. -/
theorem Scope.syncPoint_append_inj (h : s.syncPoint ++ x = t.syncPoint ++ y) : s = t ∧ x = y := by
  simp only [Scope.syncPoint, append_assoc] at h
  obtain ⟨-, h⟩ := append_inj h rfl
  obtain ⟨hs, h⟩ := Scope.encode_append_inj h
  exact ⟨hs, (append_inj h rfl).2⟩

/-! ## Key ranges -/

/-- Increments the last byte that is not `0xFF`, dropping the bytes after it; the key is walked from
its end. -/
def incrementLast : List UInt8 → Option (List UInt8)
  | [] => none
  | last :: front => if last < 255 then some ((last + 1) :: front) else incrementLast front

/-- The half-open range of the keys that begin with a key. -/
def prefixToRange (key : Bytes) : Bytes × Option Bytes :=
  (key, (incrementLast key.reverse).map List.reverse)

/-- The range of a structured key, whose upper end must exist. -/
def keyRange (key : Bytes) : Except String (Bytes × Bytes) :=
  match prefixToRange key with
  | (lower, some upper) => .ok (lower, upper)
  | (_, none) => .error "key prefix has no range upper bound"

theorem incrementLast_append (xs : List UInt8) (b : UInt8) : incrementLast (xs ++ [b]) =
      match incrementLast xs with
      | some u => some (u ++ [b])
      | none => if b < 255 then some [b + 1] else none := by
  induction xs with
  | nil => simp [incrementLast]
  | cons x xs ih =>
    by_cases hx : x < 255
    · simp [incrementLast, hx]
    · simp [incrementLast, hx, ih]

theorem prefixToRange_snd (key : Bytes) : (prefixToRange key).2 = prefixUpper key := by
  induction key with
  | nil => rfl
  | cons b key ih =>
    simp only [prefixToRange] at ih
    rw [prefixToRange, reverse_cons, incrementLast_append, prefixUpper, ← ih]
    cases incrementLast key.reverse with
    | some u => simp
    | none => by_cases hb : b < 255 <;> simp [hb]

theorem keyRange_eq_ok {key lower upper : Bytes} (h : keyRange key = .ok (lower, upper)) :
    lower = key ∧ prefixUpper key = some upper := by
  have hs := prefixToRange_snd key
  unfold keyRange at h
  split at h
  · next lo hi hr =>
    cases h
    rw [hr] at hs
    exact ⟨(congrArg Prod.fst hr).symm, hs.symm⟩
  · cases h

/-- A key whose first byte is not `0xFF` has a range. -/
theorem keyRange_cons {key : Bytes} {b : UInt8} (h : b < 255) :
    ∃ upper, keyRange (b :: key) = .ok (b :: key, upper) ∧ prefixUpper (b :: key) = some upper := by
  have hu : ∃ upper, prefixUpper (b :: key) = some upper := by
    rw [prefixUpper]
    cases prefixUpper key with
    | some u => exact ⟨b :: u, rfl⟩
    | none => exact ⟨[b + 1], if_pos h⟩
  obtain ⟨upper, hu⟩ := hu
  have hs := prefixToRange_snd (b :: key)
  rw [hu] at hs
  have hr : prefixToRange (b :: key) = (b :: key, some upper) := Prod.ext rfl hs
  refine ⟨upper, ?_, hu⟩
  unfold keyRange
  rw [hr]

theorem Scope.keyRange_syncPoint (s : Scope) :
    ∃ upper, keyRange s.syncPoint = .ok (s.syncPoint, upper) ∧
      prefixUpper s.syncPoint = some upper :=
  keyRange_cons (b := '#'.toUInt8) (by decide)

theorem Scope.keyRange_syncPointAt (s : Scope) (ts : Version) :
    ∃ upper, keyRange (s.syncPointAt ts) = .ok (s.syncPointAt ts, upper) ∧
      prefixUpper (s.syncPointAt ts) = some upper :=
  keyRange_cons (b := '#'.toUInt8) (by decide)

end Myrmic
