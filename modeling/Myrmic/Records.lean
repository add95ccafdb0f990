import Myrmic.DataKeys
import Myrmic.LiveKeys

/-!
# Reading records

The reads that clients make of a scope: the keys under a prefix, the rows of a table from a cursor on,
the measurements of a time window, the paths of blobs.  All of them walk the rows of a key range and
keep the newest row of each user key, forwards or backwards; the walk is lazy, so a row that cannot be
decoded is an error only for a reader who comes that far.

`entries_of_region` says what a walk over a part of the store meets: in order, exactly the keys that a
point read finds.
-/
namespace Myrmic
open OrderedBytes Fallible

/-! ## Walking rows -/

/-- What a walk over rows yields: of each run of one user key the first row, if it is an insertion. -/
def latestEntries (prev : Option Bytes) :
    List (Bytes × Bytes) → List (Except String (Bytes × Bytes))
  | [] => []
  | (k, v) :: rows =>
    match context "unable to decode entry" (decode k) with
    | .error e => .error e :: latestEntries prev rows
    | .ok (userKey, _, kind) =>
      if prev = some userKey then latestEntries prev rows
      else
        match kind with
        | .deletion => latestEntries (some userKey) rows
        | .insertion => .ok (userKey, v) :: latestEntries (some userKey) rows

/-- The walk from the other end.  The newest row of a user key now comes last, so a row waits until
the next user key begins. -/
def latestEntriesRev (pending : Option (Bytes × Bytes × KeyKind)) :
    List (Bytes × Bytes) → List (Except String (Bytes × Bytes))
  | [] =>
    match pending with
    | some (k, v, .insertion) => [.ok (k, v)]
    | _ => []
  | (k, v) :: rows =>
    match context "unable to decode entry" (decode k) with
    | .error e => .error e :: latestEntriesRev pending rows
    | .ok (userKey, _, kind) =>
      let rest := latestEntriesRev (some (userKey, v, kind)) rows
      match pending with
      | some (fk, fv, .insertion) => if fk = userKey then rest else .ok (fk, fv) :: rest
      | _ => rest

/-- The live entries of a key range, in order. -/
def rangeLatest (ks : Keyspace) (lower : Bytes) (upper : Option Bytes) :
    List (Except String (Bytes × Bytes)) :=
  latestEntries none (ks.rangeFrom lower upper)

def rangeLatestRev (ks : Keyspace) (lower : Bytes) (upper : Option Bytes) :
    List (Except String (Bytes × Bytes)) :=
  latestEntriesRev none (ks.rangeFrom lower upper).reverse

/-! ## Reading keys back -/

def readSlice (bs : Bytes) : Except String (Bytes × Bytes) :=
  context "Unable to decode byte slice" do
    let (len, bs) ← readU64 bs
    readExact len.toNat "unexpected end of input" bs

theorem readSlice_append (id : Id) (rest : Bytes) :
    readSlice (id.encode ++ rest) = .ok (id.bytes, rest) := by
  have hs : (UInt64.ofNat id.bytes.length).toNat = id.bytes.length := by
    rw [UInt64.toNat_ofNat', Nat.mod_eq_of_lt id.short]
  have hl : id.encode = be64 (UInt64.ofNat id.bytes.length) ++ id.bytes := by
    rw [Id.encode, be64, hs]
  have he : readExact id.bytes.length "unexpected end of input" (id.bytes ++ rest) =
      .ok (id.bytes, rest) := readExact_append rfl
  rw [hl, List.append_assoc, readSlice, readU64_append]
  simp only [bind, Except.bind]
  rw [hs, he]
  rfl

def decodeUserKey (key : Bytes) : Except String Name := do
  let (_, bs) ← readScope key
  let bs ← expect (lit ['k', 'v']) bs
  exactly (← readStr bs)

def decodeEntity (key : Bytes) : Except String Bytes := do
  let (_, bs) ← readScope key
  let bs ← expect (lit ['t', 'b']) bs
  let (_, bs) ← readStr bs
  exactly (← readSlice bs)

def decodeMeasurement (key : Bytes) : Except String UInt64 := do
  let (_, bs) ← readScope key
  let bs ← expect (lit ['t', 's']) bs
  let (_, bs) ← readStr bs
  let bs ← expect (lit ['/']) bs
  exactly (← readU64 bs)

/-- The scope and hash of a blob; the only kind of hash is number 0. -/
def decodeBlobId (key : Bytes) : Except String (Scope × ByteVec 32) := do
  let (s, bs) ← readScope key
  let bs ← expect (lit ['f', 's']) bs
  let (id, bs) ← readExact 4 "Unable to decode u32" bs
  if ofBe id ≠ 0 then .error s!"unknown id: {ofBe id}"
  else
    let (hash, bs) ← contextNone "Unable to decode byte array" (takeVec 32 bs)
    exactly ((s, hash), bs)

def decodePath (key : Bytes) : Except String Name := do
  let (_, bs) ← readScope key
  let bs ← expect (lit ['f', 'n']) bs
  exactly (← readStr bs)

/-! ## Key-value pairs -/

/-- What the keys with a given beginning start with: the encoded key without its terminator. -/
def keyPrefixRaw (s : Scope) (start : Name) : Bytes :=
  (s.dataKey (.kv start)).dropLast

def keyPrefix (ks : Keyspace) (s : Scope) (start : Name) : Except String (List String) :=
  (latestEntries none (ks.prefixOf (keyPrefixRaw s start))).mapM fun entry => do
    let (key, _) ← entry
    return (← decodeUserKey key).val

def keyList (ks : Keyspace) (s : Scope) (start : Name) : Except String (List (String × Bytes)) :=
  let (lower, upper) := prefixToRange (keyPrefixRaw s start)
  (rangeLatest ks lower upper).mapM fun entry => do
    let (key, value) ← entry
    return ((← decodeUserKey key).val, value)

/-! ## Tables -/

/-- Where to start a listing from. -/
inductive Cursor where
  | after (id : Id)
  | at (id : Id)
  | skip (n : Nat)
deriving DecidableEq

inductive TbOrderBy where
  | keyAsc
  | keyDesc
deriving DecidableEq

/-- What the keys of a table's rows start with. -/
def tablePrefix (s : Scope) (table : Name) : Bytes := s.encode ++ (lit ['t', 'b'] ++ table.encode)

def maxUsize : Nat := 2 ^ 64 - 1

def tbCount (ks : Keyspace) (s : Scope) (table : Name) : Except String Nat := do
  let ids ← (latestEntries none (ks.prefixOf (tablePrefix s table))).mapM fun entry => do
    let (key, _) ← entry
    decodeEntity key
  return ids.length

/-- The rows a listing returns of what its walk meets. -/
def takeRows (skip limit : Nat) :
    List (Except String (Bytes × Bytes)) → Except String (List (Bytes × Bytes))
  | [] => .ok []
  | entry :: entries => do
    let (key, value) ← entry
    match skip with
    | skip + 1 => takeRows skip limit entries
    | 0 =>
      match limit with
      | 0 => .ok []
      | limit + 1 =>
        let id ← context "unable to decode row key" (decodeEntity key)
        let rest ← takeRows 0 limit entries
        return (id, value) :: rest

/-- The range a listing walks and how many rows it skips; `none` if nothing can follow the cursor. -/
def tbRange (s : Scope) (table : Name) (cursor : Option Cursor) (order : TbOrderBy) :
    Option (Bytes × Option Bytes × Nat) :=
  let (lo, hi) := prefixToRange (tablePrefix s table)
  match order, cursor with
  | .keyAsc, some (.at id) => some (s.dataKey (.table table id), hi, 0)
  | .keyAsc, some (.after id) =>
    match (prefixToRange (s.dataKey (.table table id))).2 with
    | some past => some (past, hi, 0)
    | none => none
  | .keyAsc, some (.skip offset) => some (lo, hi, offset)
  | .keyAsc, none => some (lo, hi, 0)
  | .keyDesc, some (.at id) =>
    match (prefixToRange (s.dataKey (.table table id))).2 with
    | some past => some (lo, some past, 0)
    | none => some (lo, hi, 0)
  | .keyDesc, some (.after id) => some (lo, some (s.dataKey (.table table id)), 0)
  | .keyDesc, some (.skip offset) => some (lo, hi, offset)
  | .keyDesc, none => some (lo, hi, 0)

def tbList (ks : Keyspace) (s : Scope) (table : Name) (cursor : Option Cursor) (limit : Option Nat)
    (order : Option TbOrderBy) : Except String (List (Bytes × Bytes)) :=
  let order := order.getD .keyAsc
  match tbRange s table cursor order with
  | none => .ok []
  | some (lower, upper, skip) =>
    let entries := match order with
      | .keyAsc => rangeLatest ks lower upper
      | .keyDesc => rangeLatestRev ks lower upper
    takeRows skip (limit.getD maxUsize) entries

/-! ## Measurements -/

inductive FieldValue where
  | i64 (value : Int)
  | u64 (value : UInt64)
  | f64 (bits : UInt64)
  | string (value : String)
  | boolean (value : Bool)
deriving DecidableEq

abbrev Tags := List (String × String)

abbrev Fields := List (String × FieldValue)

inductive TsOrderBy where
  | timestampAsc
  | timestampDesc
deriving DecidableEq

/-- The codec that the body of a measurement is stored with. -/
class BodyCodec where
  toAllocvec : Tags → Fields → Bytes
  fromBytes : Bytes → Except String (Tags × Fields)

/-- What the keys of a measurement's rows start with. -/
def measurementPrefix (s : Scope) (measurement : Name) : Bytes :=
  s.encode ++ (lit ['t', 's'] ++ (measurement.encode ++ lit ['/']))

def findMeasurement [BodyCodec] (ks : Keyspace) (s : Scope) (measurement : Name)
    (limit : Option Nat) (start stop : Option UInt64) (order : Option TsOrderBy) :
    Except String (List (Tags × Fields × UInt64)) := do
  let (prefixLower, prefixUpper) ← context "unable to encode measurement prefix"
    (keyRange (measurementPrefix s measurement))
  let bound := fun time => s.dataKey (.measurement measurement time)
  let lower := (start.map bound).getD prefixLower
  let upper := (stop.map bound).getD prefixUpper
  let entries := match order.getD .timestampDesc with
    | .timestampAsc => rangeLatest ks lower (some upper)
    | .timestampDesc => rangeLatestRev ks lower (some upper)
  (entries.take (limit.getD maxUsize)).mapM fun entry => do
    let (key, value) ← entry
    let time ← context "unable to decode measurement key" (decodeMeasurement key)
    let (tags, fields) ← context "unable to deserialise measurement body" (BodyCodec.fromBytes value)
    return (tags, fields, time)

/-! ## Paths -/

/-- The names of the paths a walk meets, up to a limit. -/
def takePaths (limit : Nat) : List (Except String (Bytes × Bytes)) → Except String (List String)
  | [] => .ok []
  | entry :: entries => do
    let (key, _) ← entry
    match limit with
    | 0 => .ok []
    | limit + 1 =>
      let path ← context "unable to decode path key" (decodePath key)
      let rest ← takePaths limit entries
      return path.val :: rest

def listPaths (ks : Keyspace) (s : Scope) (limit : Option Nat) : Except String (List String) :=
  takePaths (limit.getD maxUsize)
    (latestEntries none (ks.prefixOf (s.encode ++ lit ['f', 'n'])))

/-! ## What a walk meets -/

theorem latestEntries_of_ok {rows L : List (Bytes × Bytes)} {prev : Option Bytes}
    (h : latestRows prev rows = .ok L) : latestEntries prev rows = L.map .ok := by
  induction rows generalizing prev L with
  | nil =>
    cases h
    rfl
  | cons row rows ih =>
    obtain ⟨_, v⟩ := row
    obtain ⟨⟨userKey, t, kind⟩, hde, h⟩ := bind_eq_ok.mp h
    dsimp only at h
    simp only [latestEntries, hde]
    by_cases hpr : prev = some userKey
    · rw [if_pos hpr] at h ⊢
      exact ih h
    · rw [if_neg hpr] at h ⊢
      obtain ⟨_, hre, h⟩ := bind_eq_ok.mp h
      cases kind with
      | deletion =>
        cases h
        exact ih hre
      | insertion =>
        cases h
        rw [List.map_cons, ih hre]

/-- **A walk over a part of the store** meets exactly the keys that a point read finds, in order. -/
theorem entries_of_region {ks : Keyspace} {p : Bytes} (h : Region ks p) :
    ∃ L, latestEntries none (ks.prefixOf p) = L.map .ok ∧ Ascending L ∧
      ∀ k v, (k, v) ∈ L ↔ p <+: k ∧ getRaw ks k = .ok (some (k, v)) := by
  obtain ⟨L, hL, ha, hm⟩ := prefixLatest_spec h
  exact ⟨L, latestEntries_of_ok hL, ha, hm⟩

/-! ## Walks from the other end -/

/-- A waiting row as an entry. -/
def pendingEntry (pending : Bytes × Bytes × KeyKind) : Bytes × KeyKind × Bytes :=
  (pending.1, pending.2.2, pending.2.1)

theorem latestEntriesRev_eq {rows : List (Bytes × Bytes)}
    (hde : ∀ row ∈ rows, ∃ d, decode row.1 = .ok d) (pending : Option (Bytes × Bytes × KeyKind)) :
    latestEntriesRev pending rows = ((lastOfRuns (pending.map pendingEntry)
      (rows.map rowEntry)).filterMap liveEntry).map .ok := by
  induction rows generalizing pending with
  | nil =>
    rcases pending with _ | ⟨k, v, _ | _⟩ <;> rfl
  | cons row rows ih =>
    obtain ⟨key, v⟩ := row
    obtain ⟨⟨k, t, kind⟩, hd⟩ := hde (key, v) List.mem_cons_self
    have ih := fun pending => ih (fun row hro => hde row (List.mem_cons_of_mem _ hro)) pending
    dsimp only at hd
    have hen : rowEntry (key, v) = (k, kind, v) := by simp [rowEntry, hd]
    have hre : latestEntriesRev (some (k, v, kind)) rows = ((lastOfRuns (some (k, kind, v))
        (rows.map rowEntry)).filterMap liveEntry).map .ok := ih (some (k, v, kind))
    simp only [latestEntriesRev, hd, context_ok, hre, List.map_cons, hen]
    rcases pending with _ | ⟨fk, fv, _ | _⟩
    · rfl
    · -- a deletion that waits yields nothing, whether the run goes on or not
      simp only [Option.map_some, pendingEntry, lastOfRuns]
      split
      · rfl
      · rfl
    · simp only [Option.map_some, pendingEntry, lastOfRuns]
      split
      · rfl
      · rfl

/-- **From the other end a walk meets the same entries.** -/
theorem WholeKeys.latestEntriesRev {ks : Keyspace} {q : Bytes → Bool} (h : WholeKeys ks q) :
    latestEntriesRev none (ks.scan q).reverse = (latestEntries none (ks.scan q)).reverse := by
  rw [latestEntriesRev_eq fun row hro => h.decodes_scan row (List.mem_reverse.mp hro),
    latestEntries_of_ok (latestRows_eq h.decodes_scan none), List.map_reverse, Option.map_none,
    lastOfRuns_reverse, List.filterMap_reverse, List.map_reverse]

end Myrmic
