import Myrmic.Rows

/-!
# The postcard wire format of sync point metadata

A concrete codec for evaluating the model: integers are base-128 varints with the low digits first,
an option is a tag byte, an array is its bytes, and an enumeration is its variant index.  It is an
instance of `Postcard`, so whatever is proved for every codec applies to it, and stores can be run on
concrete inputs.
-/
namespace Myrmic
open OrderedBytes
namespace Wire

/-! ## Varints -/

/-- The base-128 digits of a number, low digits first, with `fuel` bounding their count. -/
def varint : Nat → Nat → Bytes
  | 0, n => [UInt8.ofNat n]
  | fuel + 1, n =>
    if n < 128 then [UInt8.ofNat n] else UInt8.ofNat (n % 128 + 128) :: varint fuel (n / 128)

def readVarint : Bytes → Option (Nat × Bytes)
  | [] => none
  | b :: bs =>
    if b.toNat < 128 then some (b.toNat, bs)
    else (readVarint bs).map fun r => (b.toNat - 128 + 128 * r.1, r.2)

theorem readVarint_varint {fuel n : Nat} (h : n < 128 ^ (fuel + 1)) (rest : Bytes) :
    readVarint (varint fuel n ++ rest) = some (n, rest) := by
  induction fuel generalizing n with
  | zero =>
    have hn : n < 128 := by simpa using h
    simp [varint, readVarint, Nat.mod_eq_of_lt (by omega : n < 256), hn]
  | succ fuel ih =>
    by_cases hn : n < 128
    · simp [varint, readVarint, Nat.mod_eq_of_lt (by omega : n < 256), hn]
    · have hdi : n / 128 < 128 ^ (fuel + 1) := by
        rw [Nat.div_lt_iff_lt_mul (by decide)]
        rwa [pow_succ] at h
      have hd : (UInt8.ofNat (n % 128 + 128)).toNat = n % 128 + 128 := by
        rw [UInt8.toNat_ofNat']
        omega
      simp only [varint, if_neg hn, List.cons_append, readVarint, hd, ih hdi, Option.map_some,
        if_neg (by omega : ¬ n % 128 + 128 < 128)]
      simp only [Option.some.injEq, Prod.mk.injEq, and_true]
      omega

def u64 (n : UInt64) : Bytes := varint 9 n.toNat

def readU64 (bs : Bytes) : Option (UInt64 × Bytes) :=
  (readVarint bs).map fun r => (UInt64.ofNat r.1, r.2)

theorem readU64_u64 (n : UInt64) (rest : Bytes) : readU64 (u64 n ++ rest) = some (n, rest) := by
  have hlt : n.toNat < 128 ^ (9 + 1) := by
    have := n.toNat_lt
    omega
  simp [readU64, u64, readVarint_varint hlt]

def u32 (n : UInt32) : Bytes := varint 4 n.toNat

def readU32 (bs : Bytes) : Option (UInt32 × Bytes) :=
  (readVarint bs).map fun r => (UInt32.ofNat r.1, r.2)

theorem readU32_u32 (n : UInt32) (rest : Bytes) : readU32 (u32 n ++ rest) = some (n, rest) := by
  have hlt : n.toNat < 128 ^ (4 + 1) := by
    have := n.toNat_lt
    omega
  simp [readU32, u32, readVarint_varint hlt]

/-! ## Options -/

def opt {α : Type} (f : α → Bytes) : Option α → Bytes
  | none => [0]
  | some a => 1 :: f a

def readOpt {α : Type} (read : Bytes → Option (α × Bytes)) : Bytes → Option (Option α × Bytes)
  | [] => none
  | b :: bs =>
    if b = 0 then some (none, bs)
    else if b = 1 then (read bs).map fun r => (some r.1, r.2)
    else none

theorem readOpt_opt {α : Type} {f : α → Bytes} {read : Bytes → Option (α × Bytes)}
    (h : ∀ a rest, read (f a ++ rest) = some (a, rest)) (o : Option α) (rest : Bytes) :
    readOpt read (opt f o ++ rest) = some (o, rest) := by
  cases o <;> simp [opt, readOpt, h]

/-! ## Metadata -/

def node (id : NodeId) : Bytes := id.bytes

def readNode (bs : Bytes) : Option (NodeId × Bytes) := (readNodeId bs).toOption

theorem readNode_node (id : NodeId) (rest : Bytes) :
    readNode (node id ++ rest) = some (id, rest) := by
  simp [readNode, node, Except.toOption]

def pointId (id : SyncPointId) : Bytes := u64 id.epoch ++ (u64 id.version ++ node id.node)

def readPointId (bs : Bytes) : Option (SyncPointId × Bytes) := do
  let (epoch, bs) ← readU64 bs
  let (version, bs) ← readU64 bs
  let (node, bs) ← readNode bs
  return (⟨epoch, version, node⟩, bs)

theorem readPointId_pointId (id : SyncPointId) (rest : Bytes) :
    readPointId (pointId id ++ rest) = some (id, rest) := by
  simp [readPointId, pointId, readU64_u64, readNode_node]

def duration (d : Duration) : Bytes := u64 d.secs ++ u32 d.nanos

def readDuration (bs : Bytes) : Option (Duration × Bytes) := do
  let (secs, bs) ← readU64 bs
  let (nanos, bs) ← readU32 bs
  if h : nanos.toNat < 1000000000 then return (⟨secs, nanos, h⟩, bs) else none

theorem readDuration_duration (d : Duration) (rest : Bytes) :
    readDuration (duration d ++ rest) = some (d, rest) := by
  simp [readDuration, duration, readU64_u64, readU32_u32, d.nanos_lt]

def marker : SyncMarker → Bytes
  | .mutation => [0]
  | .deletion => [1]

def readMarker : Bytes → Option (SyncMarker × Bytes)
  | [] => none
  | b :: bs =>
    if b = 0 then some (.mutation, bs) else if b = 1 then some (.deletion, bs) else none

theorem readMarker_marker (m : SyncMarker) (rest : Bytes) :
    readMarker (marker m ++ rest) = some (m, rest) := by
  cases m <;> simp [readMarker, marker]

def toAllocvec (m : SyncMeta) : Bytes :=
  opt pointId m.parent ++ (opt u64 m.parentEpoch ++ (marker m.marker ++
    opt duration m.retentionPeriod))

def fromBytes (bs : Bytes) : Except String SyncMeta :=
  contextNone "unable to deser meta" do
    let (parent, bs) ← readOpt readPointId bs
    let (parentEpoch, bs) ← readOpt readU64 bs
    let (marker, bs) ← readMarker bs
    let (retentionPeriod, _) ← readOpt readDuration bs
    return ⟨parent, parentEpoch, marker, retentionPeriod⟩

theorem fromBytes_toAllocvec (m : SyncMeta) : fromBytes (toAllocvec m) = .ok m := by
  have hr := readOpt_opt readDuration_duration m.retentionPeriod []
  rw [List.append_nil] at hr
  simp [fromBytes, toAllocvec, readOpt_opt readPointId_pointId, readOpt_opt readU64_u64,
    readMarker_marker, hr, contextNone]

end Wire

instance : Postcard where
  toAllocvec := Wire.toAllocvec
  fromBytes := Wire.fromBytes
  fromBytes_toAllocvec := Wire.fromBytes_toAllocvec

/-! ## A concrete scope

Runs on fixed inputs are about one scope, a few nodes and the keys of the scope's key-value table. -/

namespace Sample

def scope : Scope :=
  ⟨⟨"test", by decide +kernel⟩, ⟨"test", by decide +kernel⟩, ⟨"test", by decide +kernel⟩⟩

def node (b : UInt8) : NodeId := ⟨List.replicate 16 b, rfl⟩

/-- What follows the scope in the key of a key-value pair with a one-letter name. -/
def kv (c : Char) : Bytes := lit ['k', 'v', c] ++ [0]

/-- The store an operation ends in. -/
def after (ks : Except String Keyspace) : Keyspace := ks.toOption.getD ∅

theorem eq_ok_after {ks : Except String Keyspace} (h : ks.toOption.isSome = true) :
    ks = .ok (after ks) := by
  cases ks with
  | ok ks => rfl
  | error e => cases h

end Sample

def nameA : Name := ⟨"a", by decide +kernel⟩

end Myrmic
