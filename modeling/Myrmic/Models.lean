import Myrmic.StoreKey

/-!
# Replication models

The data that describes one version of a scope to other nodes: the **metadata** stored under a sync
point, and the **chunk** that carries a version's rows.  A snapshot is a list of chunks.

Metadata is stored in the `postcard` format.  That codec is not part of this code base, so the model
takes it as an instance of `Postcard`, which carries the one law the store relies on: what was
written is read back.
-/
namespace Myrmic
open OrderedBytes

/-- Whether a sync point stands for rows or for their removal. -/
inductive SyncMarker where
  | mutation
  | deletion
deriving DecidableEq, Repr

/-- A span of time: whole seconds and the nanoseconds of the begun one. -/
structure Duration where
  secs : UInt64
  nanos : UInt32
  nanos_lt : nanos.toNat < 1000000000
deriving DecidableEq

def Duration.asNanos (d : Duration) : Nat := d.secs.toNat * 1000000000 + d.nanos.toNat

/-- What a store records about one sync point. -/
structure SyncMeta where
  parent : Option SyncPointId
  parentEpoch : Option Epoch
  marker : SyncMarker
  retentionPeriod : Option Duration
deriving DecidableEq

/-- One version of a scope with the rows it wrote; a missing value is an erasure. -/
structure Chunk where
  id : SyncPointId
  syncMeta : SyncMeta
  entries : List (Bytes × Option Bytes)
deriving DecidableEq

abbrev Snapshot := List Chunk

/-- The codec that sync point metadata is stored with. -/
class Postcard where
  toAllocvec : SyncMeta → Bytes
  fromBytes : Bytes → Except String SyncMeta
  fromBytes_toAllocvec : ∀ m, fromBytes (toAllocvec m) = .ok m

attribute [simp] Postcard.fromBytes_toAllocvec

end Myrmic
