import Myrmic.Models
import Myrmic.VersionedCell

/-!
# Versioned rows

Every data row carries its version in its key: `user key ‖ (MAX − version) ‖ kind`.  Inverting the
version makes newer rows sort first, and the deletion kind sorts before the insertion kind of the
same version, so a forward scan meets the row that decides a read before any row it overrides.

Each data row has a companion row in the **version index**, `^ ‖ version ‖ data key`, which lines up
everything one version wrote to one scope in a single contiguous range.

The module models the lowest layers of a transaction (insert, erase, put, get and the listings that
collapse versions) and shows that a point read is a read of the key's versioned cell.
-/
namespace Myrmic
open OrderedBytes VersionedCell Fallible List

/-- The rows of one store. -/
abbrev Keyspace := Store Bytes

/-- The kind of a data row.  The keys are ordered, so a deletion of a version is seen before an
insertion of the same version. -/
inductive KeyKind where
  | deletion
  | insertion
deriving DecidableEq, Repr

/-- The number that ends a data key; a deletion sorts before an insertion. -/
def KeyKind.tag : KeyKind → UInt32
  | .deletion => 5
  | .insertion => 10

def KeyKind.decodeFromBytes (bs : Bytes) : Except String KeyKind :=
  if bs = be32 5 then .ok .deletion
  else if bs = be32 10 then .ok .insertion
  else .error "unable to decode kind"

def maxVersion : Version := 0xFFFFFFFFFFFFFFFF

theorem le_maxVersion {t : Version} : t ≤ maxVersion := by
  rw [UInt64.le_iff_toNat_le]
  exact Nat.le_of_lt_succ t.toNat_lt

/-- `user key ‖ (MAX − ts) ‖ kind`. -/
def encode (userKey : Bytes) (ts : Version) (kind : KeyKind) : Bytes :=
  userKey ++ (be64 (maxVersion - ts) ++ be32 kind.tag)

/-- Splits a data key into its user key, version and kind. -/
def decode (data : Bytes) : Except String (Bytes × Version × KeyKind) :=
  if data.length < 4 then .error "key too short to contain a kind tag"
  else do
    let kind ← KeyKind.decodeFromBytes (data.drop (data.length - 4))
    let data := data.take (data.length - 4)
    if data.length < 8 then .error "key too short to contain a timestamp"
    else
      let ts := UInt64.ofNat (ofBe (data.drop (data.length - 8)))
      return (data.take (data.length - 8), maxVersion - ts, kind)

/-- `^`, the tag of the version index region. -/
def versionIndexTag : UInt8 := '^'.toUInt8

/-- The row that marks the version index as built. -/
def versionIndexFlag : Bytes := lit ['!', 'v', 'i', 'd', 'x', '1']

/-- `^ ‖ ts ‖ data key`. -/
def versionIndexKey (ts : Version) (dataKey : Bytes) : Bytes :=
  versionIndexTag :: (be64 ts ++ dataKey)

/-- The range of every index row of a scope at exactly one version. -/
def versionIndexPrefix (ts : Version) (scopeRaw : Bytes) : Bytes :=
  versionIndexKey ts scopeRaw

/-- The data key an index row points at. -/
def versionIndexDataKey (indexKey : Bytes) : Except String Bytes :=
  if indexKey.length < 9 then .error "version index key too short" else .ok (indexKey.drop 9)

/-! ## Writing rows -/

/-- Writes a data row together with its index row. -/
def writeRow (ks : Keyspace) (key : Bytes) (ts : Version) (kind : KeyKind) (value : Bytes) :
    Keyspace :=
  let dataKey := encode key ts kind
  (ks.insert (versionIndexKey ts dataKey) []).insert dataKey value

/-- Writes a row without looking for a deletion of the same version. -/
def insertAtRaw (ks : Keyspace) (key value : Bytes) (ts : Version) : Keyspace :=
  writeRow ks key ts .insertion value

/-- A deletion is a row of its own. -/
def eraseAtRaw (ks : Keyspace) (key : Bytes) (ts : Version) : Keyspace :=
  writeRow ks key ts .deletion []

/-- Removes a data row together with its index row. -/
def dropRow (ks : Keyspace) (key : Bytes) (ts : Version) (kind : KeyKind) : Keyspace :=
  let dataKey := encode key ts kind
  (ks.erase dataKey).erase (versionIndexKey ts dataKey)

/-- Writes a row, first undoing a deletion the same version made. -/
def putAtRaw (ks : Keyspace) (key value : Bytes) (ts : Version) : Keyspace :=
  insertAtRaw (dropRow ks key ts .deletion) key value ts

/-! ## Reading rows -/

/-- Walks a scan for the first row of exactly this key at or below `ts`. -/
def getFromRows (key : Bytes) (ts : Version) :
    List (Bytes × Bytes) → Except String (Option (Bytes × Bytes))
  | [] => .ok none
  | (k, v) :: rows => do
    let (userKey, ukTs, kind) ← decode k
    -- the scan also meets longer user keys, and versions above the requested time
    if userKey ≠ key then getFromRows key ts rows
    else if ts < ukTs then getFromRows key ts rows
    else
      match kind with
      | .deletion => .ok none
      | .insertion => .ok (some (userKey, v))

/-- The newest row at or before a version. -/
def getFromRaw (ks : Keyspace) (key : Bytes) (ts : Version) :
    Except String (Option (Bytes × Bytes)) :=
  getFromRows key ts (ks.prefixOf key)

/-- The newest row. -/
def getRaw (ks : Keyspace) (key : Bytes) : Except String (Option (Bytes × Bytes)) :=
  getFromRaw ks key maxVersion

/-- Keeps the first row of each run of one user key, unless that row is a deletion. -/
def latestRows (prev : Option Bytes) :
    List (Bytes × Bytes) → Except String (List (Bytes × Bytes))
  | [] => .ok []
  | (k, v) :: rows => do
    let (userKey, _, kind) ← context "unable to decode entry" (decode k)
    if prev = some userKey then latestRows prev rows
    else
      let rest ← latestRows (some userKey) rows
      match kind with
      | .deletion => return rest
      | .insertion => return (userKey, v) :: rest

/-- The live user keys and values under a key. -/
def prefixLatest (ks : Keyspace) (key : Bytes) : Except String (List (Bytes × Bytes)) :=
  latestRows none (ks.prefixOf key)

/-! ## Data keys -/

theorem KeyKind.decodeFromBytes_tag (kind : KeyKind) :
    KeyKind.decodeFromBytes (be32 kind.tag) = .ok kind := by
  cases kind <;> decide

variable {kind : KeyKind} {t : Version} {t' : Version} {ks : Keyspace} {key : Bytes} {v : Bytes}
  {ts : Version}

theorem KeyKind.be32_tag_of_decodeFromBytes {bs : Bytes}
    (h : KeyKind.decodeFromBytes bs = .ok kind) : bs = be32 kind.tag := by
  unfold KeyKind.decodeFromBytes at h
  split at h
  · next hbs =>
    cases h
    exact hbs
  · split at h
    · next hbs =>
      cases h
      exact hbs
    · cases h

theorem maxVersion_sub_sub (t : Version) : maxVersion - (maxVersion - t) = t := by
  simp only [maxVersion]
  grind

@[simp] theorem decode_encode {k : Bytes} :
    decode (encode k t kind) = .ok (k, t, kind) := by
  have ha : encode k t kind = (k ++ be64 (maxVersion - t)) ++ be32 kind.tag := by
    simp [encode]
  have hl : (encode k t kind).length - 4 = (k ++ be64 (maxVersion - t)).length := by
    simp [encode]
  have hts : maxVersion - UInt64.ofNat (ofBe (be64 (maxVersion - t))) = t := by
    rw [be64, ofBe_be (w := 8) (maxVersion - t).toNat_lt, UInt64.ofNat_toNat, maxVersion_sub_sub]
  rw [decode, if_neg (by simp [encode]), hl, ha, drop_left, take_left, KeyKind.decodeFromBytes_tag]
  simp [bind, Except.bind, pure, Except.pure, hts]

/-- A key that decodes is the data key of what it decodes to. -/
theorem eq_encode_of_decode {data k : Bytes}
    (h : decode data = .ok (k, t, kind)) : data = encode k t kind := by
  unfold decode at h
  split at h
  · cases h
  · obtain ⟨kind', hki, h⟩ := bind_eq_ok.mp h
    dsimp only at h
    split at h
    · cases h
    · next hle =>
      simp only [pure, Except.pure, Except.ok.injEq, Prod.mk.injEq] at h
      obtain ⟨rfl, rfl, rfl⟩ := h
      have hta := KeyKind.be32_tag_of_decodeFromBytes hki
      generalize hfr : data.take (data.length - 4) = front at hle ⊢
      have hsp : data = front ++ be32 kind'.tag := by
        rw [← hta, ← hfr, take_append_drop]
      have hts : (front.drop (front.length - 8)).length = 8 := by simp; omega
      have hlt : ofBe (front.drop (front.length - 8)) < 2 ^ 64 := by
        simpa [hts] using ofBe_lt (front.drop (front.length - 8))
      have hbe : be64 (UInt64.ofNat (ofBe (front.drop (front.length - 8))))
          = front.drop (front.length - 8) := by
        rw [be64, UInt64.toNat_ofNat_of_lt' hlt]
        have := be_ofBe (front.drop (front.length - 8))
        rwa [hts] at this
      rw [encode, maxVersion_sub_sub, hbe, ← append_assoc, take_append_drop]
      exact hsp

theorem encode_injective {k k' : Bytes} {kind' : KeyKind}
    (h : encode k t kind = encode k' t' kind') : k = k' ∧ t = t' ∧ kind = kind' := by
  have := congrArg decode h
  simpa using this

theorem compare_maxVersion_sub (t t' : Version) :
    compare (maxVersion - t).toNat (maxVersion - t').toNat = compare t'.toNat t.toNat := by
  have ht : (maxVersion - t).toNat = 2 ^ 64 - 1 - t.toNat :=
    UInt64.toNat_sub_of_le _ _ le_maxVersion
  have ht' : (maxVersion - t').toNat = 2 ^ 64 - 1 - t'.toNat :=
    UInt64.toNat_sub_of_le _ _ le_maxVersion
  have hb := t.toNat_lt
  have hb' := t'.toNat_lt
  rw [ht, ht']
  rcases Nat.lt_trichotomy t'.toNat t.toNat with h | h | h
  · rw [Nat.compare_eq_lt.mpr h, Nat.compare_eq_lt.mpr (by omega)]
  · rw [Nat.compare_eq_eq.mpr h, Nat.compare_eq_eq.mpr (by omega)]
  · rw [Nat.compare_eq_gt.mpr h, Nat.compare_eq_gt.mpr (by omega)]

/-- Rows of one user key are ordered newest first, a deletion before an insertion. -/
theorem compare_encode (k : Bytes) (t t' : Version) (kind kind' : KeyKind) :
    compare (encode k t kind) (encode k t' kind')
      = (compare t'.toNat t.toNat).then (compare kind.tag.toNat kind'.tag.toNat) := by
  rw [encode, encode, compare_append_left, compare_append (by simp), compare_be64, compare_be32,
    compare_maxVersion_sub]

theorem versionIndexKey_injective {d d' : Bytes}
    (h : versionIndexKey t d = versionIndexKey t' d') : t = t' ∧ d = d' := by
  obtain ⟨ht, hd⟩ := append_inj (List.cons.inj h).2 (by simp)
  exact ⟨be64_injective ht, hd⟩

@[simp] theorem versionIndexDataKey_versionIndexKey (t : Version) (d : Bytes) :
    versionIndexDataKey (versionIndexKey t d) = .ok d := by
  simp [versionIndexDataKey, versionIndexKey]

theorem versionIndexPrefix_isPrefix {p d : Bytes} :
    versionIndexPrefix t p <+: versionIndexKey t' d ↔ t = t' ∧ p <+: d := by
  rw [versionIndexPrefix, versionIndexKey, versionIndexKey, cons_prefix_cons]
  constructor
  · rintro ⟨-, x, hx⟩
    rw [append_assoc] at hx
    obtain ⟨ht, hd⟩ := append_inj hx (by simp)
    exact ⟨be64_injective ht, x, hd⟩
  · rintro ⟨rfl, x, rfl⟩
    exact ⟨rfl, x, by simp⟩

theorem lookup_writeRow (ks : Keyspace) (k : Bytes) (t : Version) (kind : KeyKind) (v a : Bytes) :
    (writeRow ks k t kind v)[a]? = if encode k t kind = a then some v
      else if versionIndexKey t (encode k t kind) = a then some [] else ks[a]? := by
  simp [writeRow]

theorem lookup_dropRow (ks : Keyspace) (k : Bytes) (t : Version) (kind : KeyKind) (a : Bytes) :
    (dropRow ks k t kind)[a]? =
      if encode k t kind = a ∨ versionIndexKey t (encode k t kind) = a then none else ks[a]? := by
  simp only [dropRow, Store.lookup_erase]
  by_cases h : versionIndexKey t (encode k t kind) = a
  · simp [h]
  · by_cases h' : encode k t kind = a <;> simp [h, h']

/-! ## A point read reads the key's cell -/

/-- The row a key has at one version and kind. -/
def rowAt (ks : Keyspace) (key : Bytes) (t : Version) (kind : KeyKind) : Option Bytes :=
  ks[encode key t kind]?

/-- What the rows of a key say each version did to it: a deletion hides an insertion of the same
version. -/
def cell (ks : Keyspace) (key : Bytes) : Cell Version Bytes := fun t =>
  match rowAt ks key t .deletion with
  | some _ => some none
  | none => (rowAt ks key t .insertion).map some

theorem cell_of_deletion (h : rowAt ks key t .deletion = some v) : cell ks key t = some none := by
  simp [cell, h]

theorem cell_of_insertion
    (hd : rowAt ks key t .deletion = none) (h : rowAt ks key t .insertion = some v) :
    cell ks key t = some (some v) := by
  simp [cell, hd, h]

theorem cell_eq_none_iff : cell ks key t = none ↔ ∀ kind, rowAt ks key t kind = none := by
  constructor
  · intro h kind
    unfold cell at h
    cases hd : rowAt ks key t .deletion with
    | some v => simp [hd] at h
    | none =>
      cases kind with
      | deletion => exact hd
      | insertion => simpa [hd] using h
  · intro h
    simp [cell, h]

/-- Every row under a key can be read. -/
def RowsDecode (ks : Keyspace) (key : Bytes) : Prop :=
  ∀ k v, ks[k]? = some v → key <+: k → ∃ d, decode k = .ok d

/-- The rows a read of `key` at `ts` stops at. -/
def hit (key : Bytes) (ts : Version) (row : Bytes × Bytes) : Bool :=
  match decode row.1 with
  | .ok (userKey, t, _) => userKey = key ∧ t ≤ ts
  | .error _ => false

theorem hit_iff {row : Bytes × Bytes} :
    hit key ts row = true ↔ ∃ t kind, row.1 = encode key t kind ∧ t ≤ ts := by
  unfold hit
  constructor
  · intro h
    split at h
    · next userKey t kind hd =>
      obtain ⟨rfl, hle⟩ : userKey = key ∧ t ≤ ts := by simpa using h
      exact ⟨t, kind, eq_encode_of_decode hd, hle⟩
    · cases h
  · rintro ⟨t, kind, hr, hle⟩
    simp [hr, hle]

/-- What a read returns for the row it stopped at. -/
def answer (key : Bytes) (row : Bytes × Bytes) : Option (Bytes × Bytes) :=
  match decode row.1 with
  | .ok (_, _, .insertion) => some (key, row.2)
  | _ => none

theorem getFromRows_eq {rows : List (Bytes × Bytes)}
    (hde : ∀ row ∈ rows, ∃ d, decode row.1 = .ok d) :
    getFromRows key ts rows = .ok ((rows.find? (hit key ts)).bind (answer key)) := by
  induction rows with
  | nil => rfl
  | cons row rows ih =>
    obtain ⟨k, v⟩ := row
    obtain ⟨⟨userKey, t, kind⟩, hd⟩ := hde (k, v) mem_cons_self
    have ih := ih fun row hr => hde row (mem_cons_of_mem _ hr)
    dsimp only at hd
    simp only [getFromRows, hd, bind, Except.bind]
    by_cases hk : userKey = key
    · by_cases hts : t ≤ ts
      · have hh : hit key ts (k, v) = true := by simp [hit, hd, hk, hts]
        rw [List.find?_cons_of_pos hh, if_neg (by simpa using hk), if_neg (by grind)]
        cases kind <;> simp [answer, hd, hk]
      · have hm : ¬ hit key ts (k, v) = true := by simp [hit, hd, hts]
        rw [List.find?_cons_of_neg hm, if_neg (by simpa using hk), if_pos (by grind), ih]
    · have hm : ¬ hit key ts (k, v) = true := by simp [hit, hd, hk]
      rw [List.find?_cons_of_neg hm, if_pos hk, ih]

theorem isPrefix_encode (key : Bytes) (t : Version) (kind : KeyKind) : key <+: encode key t kind :=
  ⟨_, rfl⟩

theorem compare_encode_lt_of_newer (h : t < t')
    {kind' : KeyKind} : compare (encode key t' kind') (encode key t kind) = .lt := by
  rw [compare_encode, Nat.compare_eq_lt.mpr (UInt64.lt_iff_toNat_lt.mp h)]
  rfl

/-- **Point reads.**  When the rows under a key decode, a read returns what the newest version at or
below the bound left in the key's cell. -/
theorem getFromRaw_spec (hde : RowsDecode ks key) :
    ∃ r, getFromRaw ks key ts = .ok (r.map fun v => (key, v)) ∧ ReadsAt (cell ks key) ts r := by
  have hal : ∀ row ∈ ks.prefixOf key, ∃ d, decode row.1 = .ok d := by
    intro row hro
    obtain ⟨hge, hpr⟩ := Store.mem_prefixOf.mp hro
    exact hde row.1 row.2 hge hpr
  have hli : ∀ {t kind v}, rowAt ks key t kind = some v →
      (encode key t kind, v) ∈ ks.prefixOf key := fun hro =>
    Store.mem_prefixOf.mpr ⟨hro, isPrefix_encode _ _ _⟩
  rw [getFromRaw, getFromRows_eq hal]
  cases hfi : (ks.prefixOf key).find? (hit key ts) with
  | none =>
    refine ⟨none, rfl, .absent fun t ht => cell_eq_none_iff.mpr fun kind => ?_⟩
    cases hro : rowAt ks key t kind with
    | none => rfl
    | some v =>
      have := List.find?_eq_none.mp hfi _ (hli hro)
      exact absurd (hit_iff.mpr ⟨t, kind, rfl, ht⟩) this
  | some row =>
    obtain ⟨t, kind, hke, hle⟩ := hit_iff.mp (List.find?_some hfi)
    have hge : rowAt ks key t kind = some row.2 := by
      have := (Store.mem_prefixOf.mp (mem_of_find?_eq_some hfi)).1
      rwa [hke] at this
    -- every other visible row comes later in the scan
    have hla : ∀ {t' kind' v'}, rowAt ks key t' kind' = some v' → t' ≤ ts →
        compare (encode key t' kind') (encode key t kind) ≠ .lt := by
      intro t' kind' v' hro ht' hlt
      rcases (Store.ascending_scan _).lt_of_find?_eq_some hfi (hli hro)
        (hit_iff.mpr ⟨t', kind', rfl, ht'⟩) with heq | hgt
      · rw [← hke, ← heq, compare_refl] at hlt
        cases hlt
      · rw [hke] at hgt
        rw [Std.OrientedCmp.gt_of_lt hgt] at hlt
        cases hlt
    have hne : ∀ t', t < t' → t' ≤ ts → cell ks key t' = none := by
      intro t' hlt ht'
      refine cell_eq_none_iff.mpr fun kind' => ?_
      cases hro : rowAt ks key t' kind' with
      | none => rfl
      | some v' => exact absurd (compare_encode_lt_of_newer hlt) (hla hro ht')
    cases kind with
    | deletion =>
      refine ⟨none, ?_, .newest hle (cell_of_deletion hge) hne⟩
      simp [answer, hke]
    | insertion =>
      have hdel : rowAt ks key t .deletion = none := by
        cases hro : rowAt ks key t .deletion with
        | none => rfl
        | some v' =>
          refine absurd ?_ (hla hro hle)
          rw [compare_encode, Nat.compare_eq_eq.mpr rfl]
          rfl
      refine ⟨some row.2, ?_, .newest hle (cell_of_insertion hdel hge) hne⟩
      simp [answer, hke]

theorem getFromRaw_of_readsAt (hd : RowsDecode ks key)
    {r : Option Bytes} (hr : ReadsAt (cell ks key) ts r) :
    getFromRaw ks key ts = .ok (r.map fun v => (key, v)) := by
  obtain ⟨_, hg, hr'⟩ := getFromRaw_spec hd
  rw [hg, hr.unique hr']

end Myrmic
