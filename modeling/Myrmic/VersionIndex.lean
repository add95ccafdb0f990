import Myrmic.KeySpace
import Myrmic.Stores
import Myrmic.Wire

/-!
# The version index

Every data row has an index row that lists it under its version, and per-version operations go through
the index alone: a version is served by reading what its index rows point at, and deleted by deleting
what they point at.  All of that rests on the two families of rows corresponding to each other.

Each write and each removal of a data row comes with that of its index row, so whatever transactions
interleave, a commit cannot separate the two: **the correspondence holds in every state of every run
whose chunks and snapshots carry keys of data** (`index_corresponds`).  A version is then served
without failure and with one entry for each key it touched.  That takes one more fact about keys.  A
version may have both a deletion and an insertion of a key, and the entries are told apart by comparing
each row's key with the one before; no row of another key may lie between the two.

Chunks and snapshots carry complete row keys that nothing checks.  A key that starts like an index row
makes a row of the index that points at nothing (`foreign_index_row_stops_serving`).
-/
namespace Myrmic
open OrderedBytes VersionedCell Fallible List Stores Location

/-! ## Nothing lies between the two rows of a key -/

/-- A word without zeros that is closed by a zero and followed by eight bytes is never one that starts
with those eight bytes and three zeros: the eight bytes would repeat the word, and so would the
zeros. -/
theorem not_isPrefix_of_closed {word m tail : Bytes} (hwo : (0 : UInt8) ∉ word) (hne : word ≠ [])
    (hm : m.length = 8) : ¬ m ++ [0, 0, 0] <+: word ++ 0 :: (m ++ tail) := by
  intro hpr
  obtain ⟨L, hL⟩ : ∃ L, L = word ++ 0 :: (m ++ tail) := ⟨_, rfl⟩
  rw [← hL] at hpr
  have hpo : 0 < word.length := length_pos_iff.mpr hne
  have hst : ∀ i < 8, L[i]? = m[i]? := by
    intro i hi
    obtain ⟨x, rfl⟩ := hpr
    rw [append_assoc, List.getElem?_append_left (by omega)]
  have hze : ∀ i, i = 8 ∨ i = 9 → L[i]? = some 0 := by
    intro i hi
    obtain ⟨x, rfl⟩ := hpr
    rw [append_assoc, List.getElem?_append_right (by omega), hm]
    rcases hi with rfl | rfl <;> rfl
  have hre : ∀ i < 8, L[word.length + 1 + i]? = L[i]? := by
    intro i hi
    rw [hst i hi, hL, List.getElem?_append_right (by omega),
      show word.length + 1 + i - word.length = i + 1 by omega, List.getElem?_cons_succ,
      List.getElem?_append_left (by omega)]
  -- zeros stand where the closing zero is repeated and nowhere else
  have hzer : ∀ i < word.length + 9, L[i]? = some 0 ↔ i % (word.length + 1) = word.length := by
    intro i
    induction i using Nat.strongRecOn with
    | _ i ih =>
      intro hi
      rcases Nat.lt_trichotomy i word.length with hlt | heq | hgt
      · rw [Nat.mod_eq_of_lt (by omega), hL, List.getElem?_append_left hlt]
        constructor
        · intro h
          exact absurd (mem_of_getElem? h) hwo
        · intro h
          omega
      · rw [Nat.mod_eq_of_lt (by omega), hL, List.getElem?_append_right (by omega), heq]
        simp
      · obtain ⟨j, rfl⟩ : ∃ j, i = word.length + 1 + j := ⟨i - (word.length + 1), by omega⟩
        rw [hre j (by omega), ih j (by omega) (by omega), Nat.add_mod_left]
  have h8 := (hzer 8 (by omega)).mp (hze 8 (.inl rfl))
  have h9 := (hzer 9 (by omega)).mp (hze 9 (.inr rfl))
  have hnex : 9 % (word.length + 1) = (8 % (word.length + 1) + 1) % (word.length + 1) := by
    rw [Nat.mod_add_mod]
  rw [h8, h9, Nat.mod_self] at hnex
  omega

theorem be32_deletion : be32 KeyKind.deletion.tag = [0, 0, 0] ++ [5] := by decide

theorem be32_insertion : be32 KeyKind.insertion.tag = [0, 0, 0] ++ [10] := by decide

theorem key_blobMeta (s : Scope) (hash : ByteVec 32) (p : Name) : (data s (.blobMeta hash p)).key =
      (data s (.blobId hash)).key ++ (('$'.toUInt8 :: strBytes p.val) ++ [0]) := by
  simp [key, Scope.dataKey, DataKey.rest, DataKey.tag, DataKey.fields, Name.encode, lit]

variable {loc loc' : Location}

/-- Except that a blob's key begins its metadata keys, no key of data begins another. -/
theorem Location.eq_or_blob_of_isPrefix (h : loc.key <+: loc'.key) :
    loc = loc' ∨ ∃ s hash p, loc = .data s (.blobId hash) ∧ loc' = .data s (.blobMeta hash p) := by
  obtain ⟨x, hx⟩ := h
  cases loc with
  | term hash =>
    cases loc' with
    | term hash' =>
      simp only [key, append_assoc] at hx
      have he : semHash hash ++ x = semHash hash' ++ [] := by
        rw [append_nil, append_cancel_left hx]
      obtain ⟨hsa, -⟩ := append_inj he (by simp [semHash, ByteVec.length_eq])
      exact .inl (congrArg term (semHash_injective hsa))
    | data s k =>
      have hhe := congrArg List.head? hx
      exact absurd hhe (by simp [key, semHashTag, lit, Scope.dataKey, Scope.encode]; decide)
  | data s k =>
    cases loc' with
    | term hash =>
      have hhe := congrArg List.head? hx
      exact absurd hhe (by simp [key, semHashTag, lit, Scope.dataKey, Scope.encode]; decide)
    | data s' k' =>
      simp only [key, Scope.dataKey, append_assoc] at hx
      obtain ⟨rfl, hre⟩ := Scope.encode_append_inj hx
      rcases DataKey.isPrefix_cases ⟨x, hre⟩ with rfl | ⟨hash, p, rfl, rfl⟩
      · exact .inl rfl
      · exact .inr ⟨s, hash, p, rfl, rfl⟩

/-- **Nothing lies between the two rows** that a version can have of one key. -/
theorem no_row_between (hne : loc.key ≠ loc'.key) {ts : Version} {kind : KeyKind}
    (haf : compare (encode loc.key ts .deletion) (encode loc'.key ts kind) = .lt)
    (hbe : compare (encode loc'.key ts kind) (encode loc.key ts .insertion) = .lt) : False := by
  have hpr : loc.key ++ (be64 (maxVersion - ts) ++ [0, 0, 0]) <+: encode loc'.key ts kind := by
    refine isPrefix_of_between ?_ ?_ haf hbe
    · exact ⟨[5], by simp [encode, be32_deletion]⟩
    · exact ⟨[10], by simp [encode, be32_insertion]⟩
  have hsh := (prefix_append loc.key _).trans hpr
  rcases prefix_or_prefix_of_prefix hsh (isPrefix_encode loc'.key ts kind) with hin | hin
  · rcases eq_or_blob_of_isPrefix hin with rfl | ⟨s, hash, p, rfl, rfl⟩
    · exact hne rfl
    · rw [key_blobMeta, encode, append_assoc, append_assoc, prefix_append_right_inj] at hpr
      have hwo : (0 : UInt8) ∉ '$'.toUInt8 :: strBytes p.val := by
        rw [mem_cons, not_or]
        exact ⟨by decide, p.noNul⟩
      exact not_isPrefix_of_closed hwo (by simp) (by simp) hpr
  · rcases eq_or_blob_of_isPrefix hin with rfl | ⟨s, hash, p, rfl, rfl⟩
    · exact hne rfl
    · have hle := hpr.length_le
      rw [key_blobMeta] at hle
      simp [encode] at hle

/-! ## Entries are listed once -/

/-- A key that data is stored under. -/
def IsLocation (k : Bytes) : Prop := ∃ loc : Location, k = loc.key

theorem keys_entriesOf (ks : Keyspace) (ts : Version) (prev : Option Bytes)
    (rows : List (Bytes × KeyKind)) :
    (entriesOf ks ts prev rows).map Prod.fst = (firstOfRuns prev rows).map Prod.fst := by
  rw [entriesOf_eq, map_map]
  rfl

theorem contiguous_rows {ts : Version} {rows : List (Bytes × KeyKind)}
    (has : RowsAscending ts rows) (hke : ∀ row ∈ rows, IsLocation row.1) : Contiguous rows := by
  induction rows with
  | nil => trivial
  | cons a rows ih =>
    obtain ⟨hfi, has⟩ := pairwise_cons.mp has
    refine ⟨fun x hx hkey => ?_, ih has fun row hro => hke row (mem_cons_of_mem _ hro)⟩
    cases rows with
    | nil => cases hx
    | cons b rows =>
      refine ⟨b, rows, rfl, ?_⟩
      rcases mem_cons.mp hx with rfl | hx'
      · exact hkey
      · -- the row `b` lies between two rows of one key
        have hab := hfi b mem_cons_self
        have hbx := (pairwise_cons.mp has).1 x hx'
        have hax := hfi x hx
        by_contra hne
        obtain ⟨_, hlo⟩ := hke a mem_cons_self
        obtain ⟨_, hlo'⟩ := hke b (mem_cons_of_mem _ mem_cons_self)
        obtain ⟨k, kind⟩ := a
        obtain ⟨_, kind'⟩ := x
        obtain ⟨_, _⟩ := b
        dsimp only at hkey hne hlo hlo' hab hbx hax
        subst hkey hlo hlo'
        cases kind with
        | insertion =>
          cases kind' with
          | insertion =>
            rw [compare_refl] at hax
            cases hax
          | deletion => exact compare_encode_deletion_insertion _ ts hax
        | deletion =>
          cases kind' with
          | insertion => exact no_row_between (Ne.symm hne) hab hbx
          | deletion =>
            rw [compare_refl] at hax
            cases hax

section Index
variable [Postcard] {ks : Keyspace}

/-- **A version is served** with one entry for each key of the scope that has a row at it. -/
theorem changesetFor_once (h : Tidy IsLocation ks) (p : SyncPoint) :
    ∃ es, changesetFor ks p = .ok es ∧ (es.map Prod.fst).Nodup ∧
      ∀ k o, (k, o) ∈ es ↔ p.scope.encode <+: k ∧ cell ks k p.ts = some o := by
  obtain ⟨es, hre, hde⟩ := changesetFor_describes h.wellFormed p
  obtain ⟨rows, hsc, hme, has⟩ := indexScan_spec h.wellFormed p.scope
  have hke : ∀ row ∈ rows, IsLocation row.1 := by
    intro row hro
    obtain ⟨hs, hda⟩ := (hme row.1 row.2).mp hro
    exact h.keys row.1 p.ts row.2 (UserKey.of_isPrefix hs) hda
  have hno : (es.map Prod.fst).Nodup := by
    rw [changesetFor, hsc, changesetRows_eq fun row hro => ((hme row.1 row.2).mp hro).2] at hre
    obtain rfl := Except.ok.inj hre
    rw [keys_entriesOf]
    have hst : ∀ q, none = some q → ∀ x ∈ rows, x.1 = q →
        ∃ y rows', rows = y :: rows' ∧ y.1 = q := by simp
    exact (nodup_firstOfRuns (contiguous_rows has hke) hst).1
  refine ⟨es, hre, hno, fun k o => ⟨fun hin => ?_, fun hce => ?_⟩⟩
  · refine ⟨hde.inScope _ hin, ?_⟩
    rcases hde.sound _ hin with hce | hce
    · exact hce
    · -- an erased key is listed as erased, and it is listed once
      have hin' := hde.complete k (hde.inScope _ hin) none hce
      have he := inj_on_of_nodup_map hno hin hin' rfl
      rw [(Prod.mk.inj he).2]
      exact hce
  · exact hde.complete k hce.1 o hce.2

/-! ## The correspondence -/

/-- Data rows are the rows outside the regions of the index and of sync points. -/
def isDataRow (key : Bytes) : Bool :=
  key.head? ≠ some '^'.toUInt8 && key.head? ≠ some '#'.toUInt8 && key ≠ versionIndexFlag

/-- The index lists exactly the data rows, each under its version, and every version that has a sync
point can be read back from it. -/
structure IndexCorresponds (ks : Keyspace) : Prop where
  rows : ∀ t key, versionIndexKey t key ∈ ks ↔
    key ∈ ks ∧ isDataRow key = true ∧ ∃ k kind, decode key = .ok (k, t, kind)
  served : ∀ p m, metaAt ks p = some m → ∃ entries, changesetFor ks p = .ok entries ∧
    (entries.map Prod.fst).Nodup ∧
    ∀ k o, (k, o) ∈ entries ↔ p.scope.encode <+: k ∧ cell ks k p.ts = some o

omit [Postcard] in
theorem isDataRow_encode {k : Bytes} (hk : UserKey k) (t : Version) (kind : KeyKind) :
    isDataRow (encode k t kind) = true := by
  have hh := head_encode hk t kind
  have hf : encode k t kind ≠ versionIndexFlag := by
    intro he
    rw [he] at hh
    rcases hk.head with h | h <;> rw [h] at hh <;> exact absurd hh (by decide)
  rcases hk.head with h | h <;> rw [h] at hh <;> simp [isDataRow, hh, hf] <;> decide

theorem Tidy.indexCorresponds (h : Tidy IsLocation ks) : IndexCorresponds ks where
  rows := by
    intro t key
    constructor
    · intro hin
      obtain ⟨k, t', kind, hk, hke, hda⟩ := h.wellFormed.index _ hin head_versionIndexKey
      obtain ⟨rfl, rfl⟩ := versionIndexKey_injective hke
      exact ⟨hda, isDataRow_encode hk t kind, k, kind, decode_encode⟩
    · rintro ⟨hke, hro, k, kind, hde⟩
      have hhe : key.head? = some '@'.toUInt8 ∨ key.head? = some 's'.toUInt8 := by
        rcases h.known key hke with rfl | hk | hk | hk | hk
        · simp [isDataRow] at hro
        · exact .inl hk
        · exact .inr hk
        · simp [isDataRow, hk] at hro
        · simp [isDataRow, hk] at hro
      obtain ⟨_, t', _, hk', rfl⟩ := h.wellFormed.data key hke hhe
      rw [decode_encode] at hde
      cases hde
      exact h.wellFormed.indexed k t kind hk' hke
  served := fun p _ _ => changesetFor_once h p

/-- **The index corresponds to the data rows** in every state of every run in which chunks and
snapshots only carry keys that data is stored under. -/
theorem index_corresponds {st : Stores}
    (h : Machine.Reached Stores.step (Stores.Within IsLocation) Stores.fresh st) :
    IndexCorresponds st.store := by
  have hu : ∀ k, IsLocation k → UserKey k := by
    rintro k ⟨loc, rfl⟩
    exact loc.userKey
  exact (sound_of_reached hu (fun loc => ⟨loc, rfl⟩) h).store.indexCorresponds

end Index

/-! ## Two runs -/

section Samples
open Sample

def pair (s : Scope) (key : Name) : Location := .data s (.kv key)

def nameB : Name := ⟨"b", by decide +kernel⟩

def otherScope : Scope := ⟨nameA, nameA, nameA⟩

/-- A mutation without a past. -/
def plainMeta : SyncMeta := ⟨none, none, .mutation, none⟩

/-- While a transaction puts a key, a chunk of its version arrives that erases the key; the chunk is
recorded in a transaction that began before the put was committed. -/
def interleaved : List Stores.Action :=
  [.start 0 7 (node 1) none, .call 0 (.writeScope scope), .call 0 (.put (pair scope nameA) [1]),
    .start 1 9 (node 1) none,
    .call 1 (.insertChangeset ⟨scope, 7, 8, node 2⟩ plainMeta [((pair scope nameA).key, none)]),
    .commit 0, .commit 1]

/-- Both rows of the key are there, and the version is served as one erasure. -/
theorem interleaved_index_corresponds : ∃ st,
    Machine.Reached Stores.step (Stores.Within IsLocation) Stores.fresh st ∧
      IndexCorresponds st.store ∧
      (rowAt st.store (pair scope nameA).key 7 .insertion).isSome = true ∧
      (changesetFor st.store ⟨scope, 7, 7, node 1⟩).toOption
        = some [((pair scope nameA).key, none)] := by
  -- the entries of the run have one key only
  obtain ⟨st, hr, hst⟩ : ∃ st, Machine.Reached step
      (Stores.Within (· = (pair scope nameA).key)) fresh st ∧
      (rowAt st.store (pair scope nameA).key 7 .insertion).isSome = true ∧
      (changesetFor st.store ⟨scope, 7, 7, node 1⟩).toOption
        = some [((pair scope nameA).key, none)] :=
    Machine.exists_reached interleaved (by decide +kernel)
  have hw : Machine.Reached step (Stores.Within IsLocation) fresh st :=
    reached_mono (fun _ hk => ⟨_, hk⟩) hr
  exact ⟨st, hw, index_corresponds hw, hst⟩

/-- A snapshot whose one entry has the key of an index row of another scope. -/
def foreignSnapshot : Snapshot :=
  [⟨⟨5, 5, node 2⟩, plainMeta, [(versionIndexKey 7 (pair scope nameB).key, some [])]⟩]

def foreignRestore : List Stores.Action :=
  [.start 0 7 (node 1) none, .call 0 (.writeScope scope), .call 0 (.put (pair scope nameA) [1]),
    .commit 0,
    .start 1 9 (node 1) none, .call 1 (.restoreSnapshot otherScope foreignSnapshot), .commit 1]

/-- After the snapshot is restored in one scope, a version of another one can no longer be served. -/
theorem foreign_index_row_stops_serving : ∃ st,
    Machine.Reached Stores.step (fun _ _ => True) Stores.fresh st ∧
      ¬ IndexCorresponds st.store := by
  obtain ⟨st, m, hr, hm, hn⟩ : ∃ st m, Machine.Reached step (fun _ _ => True) fresh st ∧
      metaAt st.store ⟨scope, 7, 7, node 1⟩ = some m ∧
      (changesetFor st.store ⟨scope, 7, 7, node 1⟩).toOption = none :=
    Machine.exists_reached_some foreignRestore (by decide +kernel)
  refine ⟨st, hr, fun h => ?_⟩
  obtain ⟨_, hre, -⟩ := h.served _ m hm
  rw [hre] at hn
  cases hn

end Samples

end Myrmic
