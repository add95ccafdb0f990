import Myrmic.Snapshot

/-!
# Well-formed stores

A store that only its own operations have written is made of four kinds of rows, told apart by their
first byte: data rows (`@` for a scope's rows, `s` for term lookups), index rows (`^`), sync points
(`#`) and the flag row.  `WellFormed` says that each row is what its first byte promises and that
**the index and the data rows correspond**: a data row has its index row and an index row points at a
data row that is there.

On such a store the operations have simple pointwise meanings.  `rowAt` and `metaAt` are the two
lookups the meanings are stated with, and every primitive below says what it does to both and that it
keeps the store well formed; nothing after this module looks at raw bytes to reason about a run.
-/
namespace Myrmic
open OrderedBytes VersionedCell Fallible Store

/-! ## The regions of the key space -/

/-- A key that data is stored under: a key of some scope, or a term lookup. -/
def UserKey (k : Bytes) : Prop := (∃ s : Scope, s.encode <+: k) ∨ semHashTag <+: k

theorem UserKey.of_scope {s : Scope} {rest : Bytes} : UserKey (s.encode ++ rest) :=
  .inl ⟨s, rest, rfl⟩

variable {s : Scope} {k : Bytes}

theorem UserKey.of_isPrefix (h : s.encode <+: k) : UserKey k := .inl ⟨s, h⟩

theorem UserKey.semHash (rest : Bytes) : UserKey (semHashTag ++ rest) := .inr ⟨rest, rfl⟩

theorem UserKey.head (h : UserKey k) : k.head? = some '@'.toUInt8 ∨ k.head? = some 's'.toUInt8 := by
  rcases h with ⟨s, x, rfl⟩ | ⟨x, rfl⟩
  · exact .inl rfl
  · exact .inr rfl

theorem head_encode (h : UserKey k) (t : Version) (kind : KeyKind) :
    (encode k t kind).head? = k.head? := by
  rcases h with ⟨s, x, rfl⟩ | ⟨x, rfl⟩ <;> rfl

theorem head_versionIndexKey {t : Version} {d : Bytes} :
    (versionIndexKey t d).head? = some '^'.toUInt8 := rfl

theorem head_syncPoint {p : SyncPoint} : p.encode.head? = some '#'.toUInt8 := rfl

theorem encode_ne_versionIndexKey (h : UserKey k) {t t' : Version} {kind : KeyKind}
    {d : Bytes} : encode k t kind ≠ versionIndexKey t' d := by
  intro he
  have hh := congrArg List.head? he
  rw [head_encode h, head_versionIndexKey] at hh
  rcases h.head with h' | h' <;> rw [h'] at hh <;> revert hh <;> decide

theorem encode_ne_syncPoint (h : UserKey k) {t : Version} {kind : KeyKind}
    {p : SyncPoint} : encode k t kind ≠ p.encode := by
  intro he
  have hh := congrArg List.head? he
  rw [head_encode h, head_syncPoint] at hh
  rcases h.head with h' | h' <;> rw [h'] at hh <;> revert hh <;> decide

theorem versionIndexKey_ne_syncPoint {t : Version} {d : Bytes} {p : SyncPoint} :
    versionIndexKey t d ≠ p.encode := by
  intro he
  have hh := congrArg List.head? he
  rw [head_versionIndexKey, head_syncPoint] at hh
  revert hh
  decide

/-- Only keys that start with `@` lie in a scope. -/
theorem not_isPrefix_of_head {c : UInt8} (h : k.head? = some c)
    (hc : c ≠ '@'.toUInt8) : ¬ s.encode <+: k := by
  rintro ⟨x, rfl⟩
  exact hc (Option.some.inj h).symm

theorem isPrefix_encode_iff (h : UserKey k) {t : Version} {kind : KeyKind} :
    s.encode <+: encode k t kind ↔ s.encode <+: k := by
  constructor
  · intro hs
    rcases h with ⟨_, hs'⟩ | ⟨x, rfl⟩
    · have := Scope.eq_of_isPrefix hs (hs'.trans (isPrefix_encode k t kind))
      exact this ▸ hs'
    · exact absurd hs (not_isPrefix_of_head (c := 's'.toUInt8) rfl (by decide))
  · exact fun hs => hs.trans (isPrefix_encode k t kind)

variable [Postcard] {ks : Keyspace} {k k' : Bytes} {t t' : Version} {kind kind' : KeyKind}
  {v : Bytes} {a : Bytes}

/-- The metadata that is stored at a sync point, if it can be read. -/
def metaAt (ks : Keyspace) (p : SyncPoint) : Option SyncMeta :=
  ks[p.encode]?.bind fun v => (Postcard.fromBytes v).toOption

/-- Every row is what its first byte promises, and the index corresponds to the data rows. -/
structure WellFormed (ks : Keyspace) : Prop where
  data : ∀ key, key ∈ ks → key.head? = some '@'.toUInt8 ∨ key.head? = some 's'.toUInt8 →
    ∃ k t kind, UserKey k ∧ key = encode k t kind
  index : ∀ key, key ∈ ks → key.head? = some '^'.toUInt8 →
    ∃ k t kind, UserKey k ∧ key = versionIndexKey t (encode k t kind) ∧ encode k t kind ∈ ks
  indexed : ∀ k t kind, UserKey k → encode k t kind ∈ ks →
    versionIndexKey t (encode k t kind) ∈ ks
  points : ∀ key v, ks[key]? = some v → key.head? = some '#'.toUInt8 →
    ∃ p m, key = SyncPoint.encode p ∧ Postcard.fromBytes v = .ok m

theorem wellFormed_empty : WellFormed ∅ where
  data := by simp
  index := by simp
  indexed := by simp
  points := by simp

/-- The rows under a user key decode, so point reads of it are reads of its cell. -/
theorem WellFormed.rowsDecode (h : WellFormed ks) (hk : UserKey k) : RowsDecode ks k := by
  intro key v hg hp
  have hh : key.head? = some '@'.toUInt8 ∨ key.head? = some 's'.toUInt8 := by
    obtain ⟨x, rfl⟩ := hp
    rcases hk with ⟨s, y, rfl⟩ | ⟨y, rfl⟩
    · exact .inl rfl
    · exact .inr rfl
  obtain ⟨k', t, kind, -, rfl⟩ := h.data key (mem_of_lookup hg) hh
  exact ⟨_, decode_encode⟩

/-! ## Data rows -/

omit [Postcard] in
theorem rowAt_writeRow (hk' : UserKey k') : rowAt (writeRow ks k t kind v) k' t' kind' =
      if k = k' ∧ t = t' ∧ kind = kind' then some v else rowAt ks k' t' kind' := by
  rw [rowAt, lookup_writeRow, if_neg (encode_ne_versionIndexKey hk').symm]
  by_cases he : encode k t kind = encode k' t' kind'
  · rw [if_pos he, if_pos (encode_injective he)]
  · rw [if_neg he, if_neg]
    · rfl
    · rintro ⟨rfl, rfl, rfl⟩
      exact he rfl

omit [Postcard] in
theorem rowAt_dropRow (hk' : UserKey k') : rowAt (dropRow ks k t kind) k' t' kind' =
      if k = k' ∧ t = t' ∧ kind = kind' then none else rowAt ks k' t' kind' := by
  rw [rowAt, lookup_dropRow]
  by_cases he : encode k t kind = encode k' t' kind'
  · rw [if_pos (.inl he), if_pos (encode_injective he)]
  · rw [if_neg, if_neg]
    · rfl
    · rintro ⟨rfl, rfl, rfl⟩
      exact he rfl
    · rintro (h | h)
      · exact he h
      · exact encode_ne_versionIndexKey hk' h.symm

theorem metaAt_writeRow (hk : UserKey k) {p : SyncPoint} :
    metaAt (writeRow ks k t kind v) p = metaAt ks p := by
  rw [metaAt, lookup_writeRow, if_neg (encode_ne_syncPoint hk),
    if_neg versionIndexKey_ne_syncPoint]
  rfl

theorem metaAt_dropRow (hk : UserKey k) {p : SyncPoint} :
    metaAt (dropRow ks k t kind) p = metaAt ks p := by
  rw [metaAt, lookup_dropRow, if_neg]
  · rfl
  · exact not_or.mpr ⟨encode_ne_syncPoint hk, versionIndexKey_ne_syncPoint⟩

omit [Postcard] in
theorem mem_writeRow : a ∈ writeRow ks k t kind v ↔
      a = encode k t kind ∨ a = versionIndexKey t (encode k t kind) ∨ a ∈ ks := by
  rw [writeRow, mem_insert, mem_insert]

omit [Postcard] in
theorem mem_dropRow : a ∈ dropRow ks k t kind ↔
      a ≠ encode k t kind ∧ a ≠ versionIndexKey t (encode k t kind) ∧ a ∈ ks := by
  rw [dropRow, mem_erase, mem_erase, and_left_comm]

variable (h : WellFormed ks)
include h

theorem WellFormed.writeRow (hk : UserKey k) : WellFormed (writeRow ks k t kind v) where
  data := by
    intro key hme hhe
    rcases mem_writeRow.mp hme with rfl | rfl | hme
    · exact ⟨k, t, kind, hk, rfl⟩
    · rw [head_versionIndexKey] at hhe
      exact absurd hhe (by decide)
    · exact h.data key hme hhe
  index := by
    intro key hme hhe
    rcases mem_writeRow.mp hme with rfl | rfl | hme
    · rw [head_encode hk] at hhe
      rcases hk.head with h' | h' <;> rw [h'] at hhe <;> exact absurd hhe (by decide)
    · exact ⟨k, t, kind, hk, rfl, mem_writeRow.mpr (.inl rfl)⟩
    · obtain ⟨k', t', kind', hk', hke, hda⟩ := h.index key hme hhe
      exact ⟨k', t', kind', hk', hke, mem_writeRow.mpr (.inr (.inr hda))⟩
  indexed := by
    intro k' t' kind' hk' hme
    rcases mem_writeRow.mp hme with he | he | hme
    · obtain ⟨rfl, rfl, rfl⟩ := encode_injective he
      exact mem_writeRow.mpr (.inr (.inl rfl))
    · exact absurd he (encode_ne_versionIndexKey hk')
    · exact mem_writeRow.mpr (.inr (.inr (h.indexed k' t' kind' hk' hme)))
  points := by
    intro key v' hge hhe
    rw [lookup_writeRow] at hge
    split at hge
    · next he =>
      rw [← he, head_encode hk] at hhe
      rcases hk.head with h' | h' <;> rw [h'] at hhe <;> exact absurd hhe (by decide)
    · split at hge
      · next he =>
        rw [← he, head_versionIndexKey] at hhe
        exact absurd hhe (by decide)
      · exact h.points key v' hge hhe

/-- Removing rows keeps a store well formed if data rows go together with their index rows. -/
theorem WellFormed.of_lookup {ks' : Keyspace}
    (hs : ∀ (a : Bytes) v, ks'[a]? = some v → ks[a]? = some v)
    (hi : ∀ k t kind, UserKey k → encode k t kind ∈ ks → versionIndexKey t (encode k t kind) ∈ ks →
      (encode k t kind ∈ ks' ↔ versionIndexKey t (encode k t kind) ∈ ks')) : WellFormed ks' := by
  have hme : ∀ {a}, a ∈ ks' → a ∈ ks := by
    intro a ha
    obtain ⟨v, hv⟩ := mem_iff_exists_lookup.mp ha
    exact mem_of_lookup (hs a v hv)
  constructor
  · exact fun key hke => h.data key (hme hke)
  · intro key hke hhe
    obtain ⟨k, t, kind, hk, rfl, hda⟩ := h.index key (hme hke) hhe
    exact ⟨k, t, kind, hk, rfl, (hi k t kind hk hda (hme hke)).mpr hke⟩
  · intro k t kind hk hke
    have hda := hme hke
    exact (hi k t kind hk hda (h.indexed k t kind hk hda)).mp hke
  · exact fun key v hge => h.points key v (hs key v hge)

theorem WellFormed.dropRow (hk : UserKey k) : WellFormed (dropRow ks k t kind) := by
  refine h.of_lookup (fun a v hv => ?_) fun k' t' kind' hk' hda hid => ?_
  · rw [lookup_dropRow] at hv
    split at hv
    · cases hv
    · exact hv
  · rw [mem_dropRow, mem_dropRow]
    constructor
    · rintro ⟨hne, -⟩
      exact ⟨(encode_ne_versionIndexKey hk).symm,
        fun he => hne (versionIndexKey_injective he).2, hid⟩
    · rintro ⟨-, hne, -⟩
      refine ⟨fun he => ?_, encode_ne_versionIndexKey hk', hda⟩
      obtain ⟨rfl, rfl, rfl⟩ := encode_injective he
      exact hne rfl

/-! ## Sync points -/

omit h in
theorem rowAt_insertPoint (hk : UserKey k) {p : SyncPoint} {sm : SyncMeta} :
    rowAt (insertPoint ks p sm) k t kind = rowAt ks k t kind := by
  rw [rowAt, insertPoint, lookup_insert, if_neg (encode_ne_syncPoint hk).symm]
  rfl

omit h in
theorem metaAt_insertPoint (p q : SyncPoint) (sm : SyncMeta) :
    metaAt (insertPoint ks p sm) q = if p = q then some sm else metaAt ks q := by
  rw [metaAt, insertPoint, lookup_insert]
  by_cases he : p = q
  · simp [he, Except.toOption]
  · rw [if_neg he, if_neg fun h => he (SyncPoint.encode_injective h)]
    rfl

theorem WellFormed.insertPoint (p : SyncPoint) (sm : SyncMeta) :
    WellFormed (insertPoint ks p sm) := by
  have hme : ∀ {a}, a ∈ Myrmic.insertPoint ks p sm ↔ a = p.encode ∨ a ∈ ks := mem_insert
  have hpo : ∀ {a} (c : UInt8), c ≠ '#'.toUInt8 → a.head? = some c → a ≠ p.encode := by
    rintro a c hc hhe rfl
    rw [head_syncPoint] at hhe
    exact hc (Option.some.inj hhe).symm
  constructor
  · intro key hke hhe
    refine h.data key ((hme.mp hke).resolve_left ?_) hhe
    rcases hhe with hhe | hhe <;> exact hpo _ (by decide) hhe
  · intro key hke hhe
    obtain ⟨k, t, kind, hk, hke, hda⟩ :=
      h.index key ((hme.mp hke).resolve_left (hpo _ (by decide) hhe)) hhe
    exact ⟨k, t, kind, hk, hke, hme.mpr (.inr hda)⟩
  · intro k t kind hk hke
    exact hme.mpr (.inr (h.indexed k t kind hk
      ((hme.mp hke).resolve_left (encode_ne_syncPoint hk))))
  · intro key v' hge hhe
    rw [Myrmic.insertPoint, lookup_insert] at hge
    split at hge
    · next he =>
      cases hge
      exact ⟨p, sm, he.symm, Postcard.fromBytes_toAllocvec sm⟩
    · exact h.points key v' hge hhe

omit h in
omit [Postcard] in
theorem rowAt_erasePoint (hk : UserKey k) (p : SyncPoint) :
    rowAt (ks.erase p.encode) k t kind = rowAt ks k t kind := by
  rw [rowAt, lookup_erase, if_neg (encode_ne_syncPoint hk).symm]
  rfl

omit h in
theorem metaAt_erasePoint (p q : SyncPoint) :
    metaAt (ks.erase p.encode) q = if p = q then none else metaAt ks q := by
  rw [metaAt, lookup_erase]
  by_cases he : p = q
  · simp [he]
  · rw [if_neg he, if_neg fun h => he (SyncPoint.encode_injective h)]
    rfl

theorem WellFormed.erasePoint (p : SyncPoint) : WellFormed (ks.erase p.encode) := by
  refine h.of_lookup (fun a v hv => ?_) fun k t kind hk hda hid => ?_
  · rw [lookup_erase] at hv
    split at hv
    · cases hv
    · exact hv
  · rw [mem_erase, mem_erase]
    exact iff_of_true ⟨encode_ne_syncPoint hk, hda⟩ ⟨versionIndexKey_ne_syncPoint, hid⟩

/-! ## Deleting a version -/

/-- **Deleting a version of a scope** removes the scope's rows at that version and leaves every other
row and every sync point. -/
theorem deleteScopeAtVersion_spec (s : Scope) (ts : Version) :
    ∃ ks', deleteScopeAtVersion ks s ts = .ok ks' ∧ WellFormed ks' ∧
      (∀ p, metaAt ks' p = metaAt ks p) ∧ ∀ k t kind, UserKey k →
        rowAt ks' k t kind = if s.encode <+: k ∧ t = ts then none else rowAt ks k t kind := by
  obtain ⟨n, ks', hde, hlo⟩ := deleteVersionRows_spec ks s.encode ts
  have hind : ∀ {k t kind}, UserKey k → versionIndexKey ts (encode k t kind) ∈ ks →
      t = ts ∧ encode k t kind ∈ ks := by
    intro k t kind hk hme
    obtain ⟨_, _, _, -, hkey, hda⟩ := h.index _ hme head_versionIndexKey
    obtain ⟨rfl, he⟩ := versionIndexKey_injective hkey
    obtain ⟨rfl, rfl, rfl⟩ := encode_injective he
    exact ⟨rfl, hda⟩
  have hno : ∀ {k t kind}, UserKey k → ¬ versionIndexPrefix ts s.encode <+: encode k t kind := by
    intro k t kind hk hpr
    obtain ⟨d, he, -⟩ := exists_of_versionIndexPrefix hpr
    exact encode_ne_versionIndexKey hk he
  have hpo : ∀ p : SyncPoint, ks'[p.encode]? = ks[p.encode]? := by
    intro p
    rw [hlo, if_neg]
    rintro (⟨hs, -⟩ | hpr)
    · exact not_isPrefix_of_head head_syncPoint (by decide) hs
    · obtain ⟨d, he, -⟩ := exists_of_versionIndexPrefix hpr
      exact versionIndexKey_ne_syncPoint he.symm
  have hro : ∀ k t kind, UserKey k →
      rowAt ks' k t kind = if s.encode <+: k ∧ t = ts then none else rowAt ks k t kind := by
    intro k t kind hk
    rw [rowAt, hlo]
    by_cases hin : s.encode <+: k ∧ t = ts
    · obtain ⟨hs, rfl⟩ := hin
      rw [if_pos (show s.encode <+: k ∧ t = t from ⟨hs, rfl⟩)]
      cases hge : ks[encode k t kind]? with
      | none => split <;> rfl
      | some v =>
        have hme := h.indexed k t kind hk (mem_of_lookup hge)
        rw [if_pos (.inl ⟨(isPrefix_encode_iff hk).mpr hs, hme⟩)]
    · rw [if_neg hin, if_neg]
      · rfl
      · rintro (⟨hs, hme⟩ | hpr)
        · exact hin ⟨(isPrefix_encode_iff hk).mp hs, (hind hk hme).1⟩
        · exact hno hk hpr
  have hme : ∀ a, a ∈ ks' ↔ a ∈ ks ∧
      ¬ ((s.encode <+: a ∧ versionIndexKey ts a ∈ ks) ∨ versionIndexPrefix ts s.encode <+: a) := by
    intro a
    rw [mem_iff_exists_lookup, mem_iff_exists_lookup, hlo]
    split <;> simp_all
  refine ⟨ks', by simp [deleteScopeAtVersion, hde, bind, Except.bind, pure, Except.pure], ?_,
    fun p => by rw [metaAt, hpo]; rfl, hro⟩
  refine h.of_lookup (fun a v hv => ?_) fun k t kind hk hda hid => ?_
  · rw [hlo] at hv
    split at hv
    · cases hv
    · exact hv
  · rw [hme, hme]
    constructor
    · rintro ⟨-, hke⟩
      refine ⟨hid, ?_⟩
      rintro (⟨hs, -⟩ | hpr)
      · exact not_isPrefix_of_head head_versionIndexKey (by decide) hs
      · obtain ⟨rfl, hs⟩ := versionIndexPrefix_isPrefix.mp hpr
        exact hke (.inl ⟨hs, hid⟩)
    · rintro ⟨-, hke⟩
      refine ⟨hda, ?_⟩
      rintro (⟨hs, hid⟩ | hpr)
      · obtain ⟨rfl, -⟩ := hind hk hid
        exact hke (.inr (versionIndexPrefix_isPrefix.mpr ⟨rfl, hs⟩))
      · exact hno hk hpr

theorem deleteChunk_spec (p : SyncPoint) :
    ∃ ks', deleteChunk ks p = .ok ks' ∧ WellFormed ks' ∧ (∀ q, metaAt ks' q = metaAt ks q) ∧
      ∀ k t kind, UserKey k → rowAt ks' k t kind =
        if p.scope.encode <+: k ∧ t = p.ts then none else rowAt ks k t kind :=
  deleteScopeAtVersion_spec h p.scope p.ts

theorem forgetChunk_spec (p : SyncPoint) : ∃ ks', forgetChunk ks p = .ok ks' ∧ WellFormed ks' ∧
      (∀ q, metaAt ks' q = if p = q then none else metaAt ks q) ∧
      ∀ k t kind, UserKey k → rowAt ks' k t kind =
        if p.scope.encode <+: k ∧ t = p.ts then none else rowAt ks k t kind := by
  obtain ⟨ks₁, hd, hwf, hm, hr⟩ := deleteChunk_spec h p
  refine ⟨ks₁.erase p.encode, ?_, hwf.erasePoint p, fun q => ?_, fun k t kind hk => ?_⟩
  · simp [forgetChunk, hd, bind, Except.bind, pure, Except.pure]
  · rw [metaAt_erasePoint, hm]
  · rw [rowAt_erasePoint hk, hr k t kind hk]

end Myrmic
