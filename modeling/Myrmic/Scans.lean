import Myrmic.VersionIndex

/-!
# Point reads and scans agree

A transaction reads keys one by one, and in ranges, forwards and backwards.  A point read looks for
the newest row of its key.  A scan meets the rows of many keys and remembers one key to tell a run
of versions from the next; a backward scan meets the newest row of a run last and waits for it.

`reads_agree` says that all these reads tell one story, in every state of a store and in every open
transaction with writes of its own: **a point read returns what the newest version left, the
transaction's last own operation on a key decides what it reads there, a forward scan yields exactly
the keys whose point read succeeds, in order, and a backward scan yields the same backwards**.

It takes three conditions.  A transaction reads the newest version whatever its own timestamp is, so
its own writes only count where nothing newer is stored; clocks of other nodes may be ahead.  Runs
of versions are told apart only where no key is the beginning of another: chunks and snapshots must
carry keys of data, and the range must not have a blob together with its metadata.  `reads_disagree`
has a run for each of the first two.
-/
namespace Myrmic
open OrderedBytes VersionedCell Fallible List Stores Tx

/-! ## The scans -/

namespace Scans

def keysOf (entries : List (Except String (Bytes × Bytes))) : List (Except String Bytes) :=
  entries.map (Except.map Prod.fst)

variable (ks : Keyspace)

def prefixLatest (key : Bytes) : List (Except String Bytes) :=
  keysOf (latestEntries none (ks.prefixOf key))

def prefixLatestUntracked (key : Bytes) : List (Except String Bytes) :=
  keysOf (latestEntries none (ks.prefixOf key))

def rangeLatest (lower upper : Bytes) : List (Except String Bytes) :=
  keysOf (latestEntries none (ks.rangeOf lower upper))

def rangeLatestKv (lower upper : Bytes) : List (Except String (Bytes × Bytes)) :=
  latestEntries none (ks.rangeOf lower upper)

def rangeLatestKvUntracked (lower : Bytes) (upper : Option Bytes) :
    List (Except String (Bytes × Bytes)) :=
  latestEntries none (ks.rangeFrom lower upper)

def rangeLatestKvRev (lower upper : Bytes) : List (Except String (Bytes × Bytes)) :=
  latestEntriesRev none (ks.rangeOf lower upper).reverse

def rangeLatestKvUntrackedRev (lower : Bytes) (upper : Option Bytes) :
    List (Except String (Bytes × Bytes)) :=
  latestEntriesRev none (ks.rangeFrom lower upper).reverse

end Scans

/-- The rows a scan walks. -/
inductive ScanRange where
  | ofPrefix (key : Bytes)
  | between (lower upper : Bytes)
  | startingAt (lower : Bytes) (upper : Option Bytes)

def ScanRange.covers : ScanRange → Bytes → Bool
  | .ofPrefix key, k => key.isPrefixOf k
  | .between lower upper, k => (compare lower k).isLE && compare k upper == .lt
  | .startingAt lower upper, k => (compare lower k).isLE && upper.all fun u => compare k u == .lt

/-- The entries are those of the range: all keys of the range that a read finds, in order. -/
structure Lists (ks : Keyspace) (range : ScanRange) (L : List (Bytes × Bytes)) : Prop where
  ascending : Ascending L
  mem : ∀ k v, (k, v) ∈ L ↔
    (∃ t kind, encode k t kind ∈ ks ∧ range.covers (encode k t kind) = true) ∧
      getRaw ks k = .ok (some (k, v))

/-- **Every scan over the range yields the keys that a read finds**, and a backward scan the reverse
of what the forward scan yields. -/
def ScansAgree (ks : Keyspace) (range : ScanRange) : Prop :=
  ∃ L, Lists ks range L ∧
    match range with
    | .ofPrefix key =>
      Scans.prefixLatest ks key = (L.map Prod.fst).map .ok ∧
      Scans.prefixLatestUntracked ks key = (L.map Prod.fst).map .ok
    | .between lower upper =>
      Scans.rangeLatest ks lower upper = (L.map Prod.fst).map .ok ∧
      Scans.rangeLatestKv ks lower upper = L.map .ok ∧
      Scans.rangeLatestKvRev ks lower upper = (Scans.rangeLatestKv ks lower upper).reverse
    | .startingAt lower upper =>
      Scans.rangeLatestKvUntracked ks lower upper = L.map .ok ∧
      Scans.rangeLatestKvUntrackedRev ks lower upper =
        (Scans.rangeLatestKvUntracked ks lower upper).reverse

/-- The range holds complete user keys: each of its rows is a row of a key of data, and it covers
all rows that key can have. -/
def CompleteKeys (ks : Keyspace) (range : ScanRange) : Prop :=
  ∀ key, key ∈ ks → range.covers key = true → ∃ (loc : Location) (t : Version) (kind : KeyKind),
    key = encode loc.key t kind ∧ ∀ t' kind', range.covers (encode loc.key t' kind') = true

/-- The range does not have rows of a blob and rows of its metadata. -/
def NoBlobWithMetadata (ks : Keyspace) (range : ScanRange) : Prop :=
  ∀ s hash p t t' kind kind',
    encode (Location.data s (.blobId hash)).key t kind ∈ ks →
    encode (Location.data s (.blobMeta hash p)).key t' kind' ∈ ks →
    ¬(range.covers (encode (Location.data s (.blobId hash)).key t kind) = true ∧
      range.covers (encode (Location.data s (.blobMeta hash p)).key t' kind') = true)

/-! ## A transaction's own operations -/

inductive OwnOp where
  | put (loc : Location) (value : Bytes)
  | erase (loc : Location)

namespace OwnOp

def loc : OwnOp → Location
  | .put loc _ => loc
  | .erase loc => loc

/-- What the operation leaves to be read. -/
def result : OwnOp → Option Bytes
  | .put _ value => some value
  | .erase _ => none

def apply (tx : Tx) : OwnOp → Tx
  | .put loc value => tx.putRaw loc.key value
  | .erase loc => tx.eraseRaw loc.key

end OwnOp

/-- What the last operation on a key leaves, if there is one. -/
def lastOwn (ops : List OwnOp) (loc : Location) : Option (Option Bytes) :=
  (ops.reverse.find? fun op => op.loc = loc).map OwnOp.result

/-- **A point read returns what the newest version of the key left.** -/
def PointReads (ks : Keyspace) : Prop :=
  ∀ loc : Location, ∃ r, getRaw ks loc.key = .ok (r.map fun v => (loc.key, v)) ∧
    ReadsAt (cell ks loc.key) maxVersion r

/-- The transaction reads its own last operation on every key it has operated on. -/
def OwnReads (ks : Keyspace) (ops : List OwnOp) : Prop :=
  ∀ loc r, lastOwn ops loc = some r → getRaw ks loc.key = .ok (r.map fun v => (loc.key, v))

/-- **All reads tell one story**: point reads, the transaction's own operations and scans. -/
structure ReadsAgree (ks : Keyspace) (ops : List OwnOp) (range : ScanRange) : Prop where
  points : PointReads ks
  own : OwnReads ks ops
  scans : ScansAgree ks range

/-! ## Scans in a store that is in order -/

section Proofs
variable [Postcard] {ks : Keyspace} {range : ScanRange} {loc : Location} {t : Version}

omit [Postcard] in
theorem Location.key_injective {loc' : Location} (h : loc.key = loc'.key) : loc = loc' := by
  have hp : loc.key <+: loc'.key := h ▸ prefix_rfl
  rcases Location.eq_or_blob_of_isPrefix hp with he | ⟨s, hash, p, hb, hm⟩
  · exact he
  · rw [hb, hm] at h
    exact absurd (Scope.dataKey_injective h).2 nofun

variable (h : Tidy IsLocation ks)
include h

theorem Tidy.wholeKeys (hra : CompleteKeys ks range) (hbl : NoBlobWithMetadata ks range) :
    WholeKeys ks range.covers := by
  have hlo : ∀ {k t kind}, encode k t kind ∈ ks → range.covers (encode k t kind) = true →
      ∃ loc : Location, k = loc.key ∧ ∀ t' kind', range.covers (encode k t' kind') = true := by
    intro k t kind hin hco
    obtain ⟨loc, t', kind', hke, hal⟩ := hra _ hin hco
    obtain ⟨rfl, -, -⟩ := encode_injective hke
    exact ⟨loc, rfl, hal⟩
  refine ⟨fun key hin hco => ?_, fun hin hin' hco => ?_,
    fun {k k' t t' kind kind'} hin hin' hco hco' hpr => ?_, fun hin hco => ?_⟩
  · obtain ⟨loc, t, kind, hke, -⟩ := hra key hin hco
    exact ⟨loc.key, t, kind, hke⟩
  · obtain ⟨loc, -, hal⟩ := hlo hin hco
    exact hal _ _
  · obtain ⟨loc, rfl, -⟩ := hlo hin hco
    obtain ⟨_, rfl, -⟩ := hlo hin' hco'
    rcases Location.eq_or_blob_of_isPrefix hpr with rfl | ⟨s, hash, p, rfl, rfl⟩
    · rfl
    · exact absurd ⟨hco, hco'⟩ (hbl s hash p t t' kind kind' hin hin')
  · obtain ⟨loc, rfl, -⟩ := hlo hin hco
    exact h.wellFormed.rowsDecode loc.userKey

/-- **In a store that is in order scans agree with point reads.** -/
theorem Tidy.scansAgree (hra : CompleteKeys ks range) (hbl : NoBlobWithMetadata ks range) :
    ScansAgree ks range := by
  have hwh := h.wholeKeys hra hbl
  obtain ⟨L, hL, has, hme⟩ := hwh.latestRows_spec
  have hen : latestEntries none (ks.scan range.covers) = L.map .ok := latestEntries_of_ok hL
  have hke : Scans.keysOf (L.map .ok) = (L.map Prod.fst).map .ok := by
    rw [Scans.keysOf, map_map, map_map]
    rfl
  refine ⟨L, ⟨has, hme⟩, ?_⟩
  cases range with
  | ofPrefix key => exact ⟨(congrArg _ hen).trans hke, (congrArg _ hen).trans hke⟩
  | between lower upper => exact ⟨(congrArg _ hen).trans hke, hen, hwh.latestEntriesRev⟩
  | startingAt lower upper => exact ⟨hen, hwh.latestEntriesRev⟩

theorem Tidy.pointReads : PointReads ks := fun loc =>
  getFromRaw_spec (h.wellFormed.rowsDecode loc.userKey)

omit h

/-! ## Own operations -/

namespace OwnOp
variable {tx : Tx}

theorem sound_apply (h : tx.Sound IsLocation) (op : OwnOp) : (op.apply tx).Sound IsLocation := by
  cases op with
  | put loc v => exact (h.push (.drop _ _ _) ⟨loc, rfl⟩).push (.write _ _ _ _) ⟨loc, rfl⟩
  | erase loc => exact h.push (.write loc.key tx.ts .deletion []) ⟨loc, rfl⟩

omit [Postcard] in
theorem ts_apply (tx : Tx) (op : OwnOp) : (op.apply tx).ts = tx.ts := by
  cases op <;> rfl

theorem rowAt_view_apply {op : OwnOp} (h : t ≠ tx.ts ∨ op.loc ≠ loc) {kind : KeyKind} :
    rowAt (op.apply tx).view loc.key t kind = rowAt tx.view loc.key t kind := by
  have hne : t ≠ tx.ts ∨ op.loc.key ≠ loc.key :=
    h.imp_right fun hne he => hne (Location.key_injective he)
  cases op with
  | put loc' v =>
    rw [apply, putRaw, view_putAtRaw]
    exact rowAt_putAtRaw_of_ne loc.userKey hne
  | erase loc' =>
    rw [apply, eraseRaw, view_eraseAtRaw]
    exact rowAt_eraseAtRaw_of_ne loc.userKey hne

theorem cell_view_apply (op : OwnOp) :
    cell (op.apply tx).view op.loc.key tx.ts = some op.result := by
  cases op with
  | put loc value =>
    rw [apply, putRaw, view_putAtRaw]
    exact cell_putAtRaw_self loc.userKey
  | erase loc =>
    rw [apply, eraseRaw, view_eraseAtRaw]
    exact cell_eraseAtRaw_self loc.userKey

end OwnOp

/-- The transaction after some operations of its own. -/
def Tx.ownOps (tx : Tx) (ops : List OwnOp) : Tx := ops.foldl OwnOp.apply tx

section Ops
variable {tx : Tx} {ops : List OwnOp}

omit [Postcard] in
theorem Tx.ownOps_append (tx : Tx) (ops : List OwnOp) (op : OwnOp) :
    tx.ownOps (ops ++ [op]) = op.apply (tx.ownOps ops) := by
  rw [ownOps, foldl_append]
  rfl

theorem Tx.sound_ownOps (h : tx.Sound IsLocation) (ops : List OwnOp) :
    (tx.ownOps ops).Sound IsLocation := by
  induction ops using List.reverseRecOn with
  | nil => exact h
  | append_singleton ops op ih =>
    rw [ownOps_append]
    exact op.sound_apply ih

omit [Postcard] in
theorem Tx.ts_ownOps (tx : Tx) (ops : List OwnOp) : (tx.ownOps ops).ts = tx.ts := by
  induction ops using List.reverseRecOn with
  | nil => rfl
  | append_singleton ops op ih => rw [ownOps_append, OwnOp.ts_apply, ih]

theorem Tx.rowAt_ownOps (loc : Location) (ht : t ≠ tx.ts) (kind : KeyKind) :
    rowAt (tx.ownOps ops).view loc.key t kind = rowAt tx.view loc.key t kind := by
  induction ops using List.reverseRecOn with
  | nil => rfl
  | append_singleton ops op ih =>
    rw [ownOps_append, op.rowAt_view_apply (.inl (by rwa [ts_ownOps])), ih]

omit [Postcard] in
theorem lastOwn_append (ops : List OwnOp) (op : OwnOp) (loc : Location) :
    lastOwn (ops ++ [op]) loc = if op.loc = loc then some op.result else lastOwn ops loc := by
  rw [lastOwn, reverse_append, reverse_singleton, singleton_append, List.find?_cons]
  by_cases h : op.loc = loc
  · simp [h]
  · simp [h, lastOwn]

/-- The last operation on a key decides what the transaction's version says of it. -/
theorem Tx.cell_ownOps {r : Option Bytes} (h : lastOwn ops loc = some r) :
    cell (tx.ownOps ops).view loc.key tx.ts = some r := by
  induction ops using List.reverseRecOn with
  | nil => cases h
  | append_singleton ops op ih =>
    rw [lastOwn_append] at h
    rw [ownOps_append]
    split at h
    · next he =>
      cases h
      have hc : cell (op.apply (tx.ownOps ops)).view op.loc.key (tx.ownOps ops).ts =
          some op.result := op.cell_view_apply
      rwa [ts_ownOps, he] at hc
    · next hne =>
      rw [← ih h]
      exact cell_congr fun kind => op.rowAt_view_apply (.inr hne)

/-- **Where nothing newer is stored, the transaction reads its own last operation.** -/
theorem Tx.ownReads (h : tx.Sound IsLocation)
    (hts : ∀ op ∈ ops, ∀ t kind, encode op.loc.key t kind ∈ tx.view → t ≤ tx.ts) :
    OwnReads (tx.ownOps ops).view ops := by
  intro loc r hl
  have hv := (sound_ownOps h ops).view fun k ⟨loc, hk⟩ => hk ▸ loc.userKey
  refine getFromRaw_of_readsAt (hv.wellFormed.rowsDecode loc.userKey) ?_
  refine .newest le_maxVersion (cell_ownOps hl) fun t hlt _ => ?_
  rw [cell_eq_none_iff]
  intro kind
  rw [rowAt_ownOps loc (Ne.symm (UInt64.ne_of_lt hlt))]
  cases hr : rowAt tx.view loc.key t kind with
  | none => rfl
  | some v =>
    obtain ⟨op, hop, -⟩ := Option.map_eq_some_iff.mp hl
    have hm := mem_reverse.mp (mem_of_find?_eq_some hop)
    have hlo : op.loc = loc := by simpa using List.find?_some hop
    have hle := hts op hm t kind (hlo ▸ Store.mem_of_lookup hr)
    exact absurd hlt (UInt64.not_lt.mpr hle)

end Ops

/-- **Reads agree** in every open transaction over every state of a store whose chunks and snapshots
carry keys of data: after any own operations on keys of which nothing newer is stored, over any
range of complete keys that does not have a blob together with its metadata. -/
theorem reads_agree {st : Stores}
    (hreached : Machine.Reached Stores.step (Stores.Within IsLocation) Stores.fresh st)
    (ts : Version) (node : NodeId) (retention : Option Duration) (ops : List OwnOp)
    (range : ScanRange) (hts : ∀ op ∈ ops, ∀ t kind, encode op.loc.key t kind ∈ st.store → t ≤ ts)
    (hrange : CompleteKeys ((Tx.start st.store ts node retention).ownOps ops).view range)
    (hblob : NoBlobWithMetadata ((Tx.start st.store ts node retention).ownOps ops).view range) :
    ReadsAgree ((Tx.start st.store ts node retention).ownOps ops).view ops range := by
  have hu : ∀ k, IsLocation k → UserKey k := fun k ⟨loc, hk⟩ => hk ▸ loc.userKey
  have hst := (sound_of_reached hu (fun loc => ⟨loc, rfl⟩) hreached).store
  have hs : (start st.store ts node retention).Sound IsLocation := ⟨hst, nofun⟩
  have hv := (sound_ownOps hs ops).view hu
  exact ⟨hv.pointReads, ownReads hs hts, hv.scansAgree hrange hblob⟩

end Proofs

/-! ## Three runs -/

section Samples
open Sample

/-- A chunk arrives from a node whose clock is ahead. -/
def clockAhead : List Stores.Action :=
  [.start 0 5 (node 1) none,
    .call 0 (.insertChangeset ⟨scope, 9, 9, node 2⟩ plainMeta [((pair scope nameA).key, some [2])]),
    .commit 0]

/-- A key that sorts between two versions of another. -/
def betweenVersions : Bytes := (pair scope nameA).key ++ be64 (maxVersion - 7) ++ [255]

/-- Two versions of a key are committed, and a chunk brings the key that sorts between them. -/
def splitRun : List Stores.Action :=
  [.start 0 3 (node 1) none, .call 0 (.writeScope scope), .call 0 (.put (pair scope nameA) [1]),
    .commit 0,
    .start 1 7 (node 1) none, .call 1 (.writeScope scope), .call 1 (.put (pair scope nameA) [2]),
    .commit 1,
    .start 2 8 (node 1) none,
    .call 2 (.insertChangeset ⟨scope, 9, 9, node 2⟩ plainMeta [(betweenVersions, some [3])]),
    .commit 2]

/-- In one store the transaction's put is not read back, in another a scan yields a key twice. -/
theorem reads_disagree :
    (∃ st, Machine.Reached Stores.step (Stores.Within IsLocation) Stores.fresh st ∧
      ¬OwnReads ((Tx.start st.store 7 (node 1) none).ownOps [.put (pair scope nameA) [1]]).view
        [.put (pair scope nameA) [1]]) ∧
    (∃ st, Machine.Reached Stores.step (fun _ _ => True) Stores.fresh st ∧
      ¬ScansAgree st.store (.ofPrefix (pair scope nameA).key)) := by
  constructor
  · obtain ⟨st, hre, hrea⟩ : ∃ st, Machine.Reached step
        (Stores.Within (· = (pair scope nameA).key)) fresh st ∧
        (getRaw ((start st.store 7 (node 1) none).ownOps [.put (pair scope nameA) [1]]).view
          (pair scope nameA).key).toOption = some (some ((pair scope nameA).key, [2])) :=
      Machine.exists_reached clockAhead (by decide +kernel)
    refine ⟨st, reached_mono (fun _ hk => ⟨_, hk⟩) hre, fun how => ?_⟩
    rw [how (pair scope nameA) (some [1]) (by decide +kernel)] at hrea
    simp [Except.toOption] at hrea
  · obtain ⟨st, hre, hsc⟩ : ∃ st, Machine.Reached step (fun _ _ => True) fresh st ∧
        ¬(Scans.prefixLatest st.store (pair scope nameA).key).Pairwise
          (fun k l => compare (k.toOption.getD []) (l.toOption.getD []) = .lt) :=
      Machine.exists_reached splitRun (by decide +kernel)
    refine ⟨st, hre, fun hag => hsc ?_⟩
    obtain ⟨L, hli, hfo, -⟩ := hag
    rw [hfo, map_map, pairwise_map]
    exact hli.ascending

/-- The rows with a pair's key are complete keys without blobs, where all of them are rows of it. -/
theorem completeKeys_of_pair {ks : Keyspace} {s : Scope} {name : Name}
    (h : ((ks.prefixOf (pair s name).key).all fun row =>
      decide ((decode row.1).toOption.map (·.1) = some (pair s name).key)) = true) :
    CompleteKeys ks (.ofPrefix (pair s name).key) ∧
      NoBlobWithMetadata ks (.ofPrefix (pair s name).key) := by
  have hke : ∀ key ∈ ks, (pair s name).key <+: key →
      ∃ t kind, key = encode (pair s name).key t kind := by
    intro key hin hpr
    obtain ⟨v, hv⟩ := Store.mem_iff_exists_lookup.mp hin
    have hro := all_eq_true.mp h (key, v) (Store.mem_prefixOf.mpr ⟨hv, hpr⟩)
    cases hd : decode key with
    | error e => simp [hd, Except.toOption] at hro
    | ok d =>
      obtain ⟨k, t, kind⟩ := d
      have hk : k = (pair s name).key := by simpa [hd, Except.toOption] using hro
      exact ⟨t, kind, hk ▸ eq_encode_of_decode hd⟩
  refine ⟨fun key hin hco => ?_, fun s' hash p t t' kind kind' hin _ hco => ?_⟩
  · obtain ⟨t, kind, hk⟩ := hke key hin (List.isPrefixOf_iff_prefix.mp hco)
    exact ⟨pair s name, t, kind, hk, fun t' kind' =>
      List.isPrefixOf_iff_prefix.mpr (prefix_append _ _)⟩
  · obtain ⟨_, _, hk⟩ := hke _ hin (List.isPrefixOf_iff_prefix.mp hco.1)
    have hlo := Location.key_injective (encode_injective hk).1
    cases hlo

def onePair : List Stores.Action :=
  [.start 0 5 (node 1) none, .call 0 (.writeScope scope), .call 0 (.put (pair scope nameA) [1]),
    .commit 0]

/-- A later transaction erases the pair and puts it again; its reads agree. -/
theorem reads_agree_after_two_ops : ∃ st,
    Machine.Reached Stores.step (Stores.Within IsLocation) Stores.fresh st ∧
      ReadsAgree ((Tx.start st.store 7 (node 1) none).ownOps
        [.erase (pair scope nameA), .put (pair scope nameA) [2]]).view
        [.erase (pair scope nameA), .put (pair scope nameA) [2]]
        (.ofPrefix (pair scope nameA).key) := by
  obtain ⟨st, hre, how, hpa⟩ : ∃ st, Machine.Reached step
      (Stores.Within (· = (pair scope nameA).key)) fresh st ∧
      ((((start st.store 7 (node 1) none).ownOps [.erase (pair scope nameA),
        .put (pair scope nameA) [2]]).view.prefixOf (pair scope nameA).key).all fun row =>
          decide ((decode row.1).toOption.map (·.1) = some (pair scope nameA).key)) = true ∧
      ∀ row ∈ st.store.prefixOf (pair scope nameA).key,
        (decode row.1).toOption.map (·.2.1) = some 5 :=
    Machine.exists_reached onePair (by decide +kernel)
  have hwi : Machine.Reached step (Stores.Within IsLocation) fresh st :=
    reached_mono (fun _ hk => ⟨_, hk⟩) hre
  obtain ⟨hco, hbl⟩ := completeKeys_of_pair how
  refine ⟨st, hwi, reads_agree hwi 7 (node 1) none _ _ (fun op hop t kind hin => ?_) hco hbl⟩
  have hlo : op.loc = pair scope nameA := by
    rcases mem_cons.mp hop with rfl | hop
    · rfl
    · rw [mem_singleton.mp hop]
      rfl
  rw [hlo] at hin
  obtain ⟨v, hv⟩ := Store.mem_iff_exists_lookup.mp hin
  have hro := hpa (encode (pair scope nameA).key t kind, v)
    (Store.mem_prefixOf.mpr ⟨hv, isPrefix_encode _ _ _⟩)
  rw [decode_encode] at hro
  have ht : t = 5 := by simpa [Except.toOption] using hro
  rw [ht]
  decide

end Samples

end Myrmic
