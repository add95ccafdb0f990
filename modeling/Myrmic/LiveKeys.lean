import Myrmic.Rows

/-!
# Listings of live keys

A listing walks the rows under a prefix and keeps, of each run of rows with one user key, the first: a
live value if it is an insertion, nothing if it is a deletion.  That works because **versions of one
key lie next to each other**, which needs that no user key under the prefix is the beginning of another
one; otherwise the rows of the longer key lie between the versions of the shorter one.

`WholeKeys` says that some rows are such a part of a store, and `Region` that the rows under a prefix
are.  There **a listing has exactly the keys that a point read finds, each once and in order**
(`WholeKeys.latestRows_spec`, `prefixLatest_spec`).
-/
namespace Myrmic
open OrderedBytes VersionedCell Fallible Store

/-- A part of the store where every row is a row of a user key of that part, and where no user key is
the beginning of another. -/
structure Region (ks : Keyspace) (p : Bytes) : Prop where
  decodes : ∀ key, key ∈ ks → p <+: key → ∃ k t kind, key = encode k t kind ∧ p <+: k
  free : ∀ {k k' t t' kind kind'}, encode k t kind ∈ ks → encode k' t' kind' ∈ ks → p <+: k →
    p <+: k' → k <+: k' → k = k'

variable {ks ks' : Keyspace} {p : Bytes} {rows : List (Bytes × Bytes)} {k : Bytes} {t : Version}
  {kind : KeyKind} {q : Bytes → Bool}

/-! ## Listings as runs -/

/-- The user key, kind and value of a row. -/
def rowEntry (row : Bytes × Bytes) : Bytes × KeyKind × Bytes :=
  match decode row.1 with
  | .ok (k, _, kind) => (k, kind, row.2)
  | .error _ => (row.1, .deletion, row.2)

def liveEntry : Bytes × KeyKind × Bytes → Option (Bytes × Bytes)
  | (k, .insertion, v) => some (k, v)
  | (_, .deletion, _) => none

theorem latestRows_eq (hde : ∀ row ∈ rows, ∃ d, decode row.1 = .ok d) (prev : Option Bytes) :
    latestRows prev rows = .ok ((firstOfRuns prev (rows.map rowEntry)).filterMap liveEntry) := by
  induction rows generalizing prev with
  | nil => rfl
  | cons row rows ih =>
    obtain ⟨key, v⟩ := row
    obtain ⟨⟨k, t, kind⟩, hd⟩ := hde (key, v) List.mem_cons_self
    have ih := fun prev => ih (fun row hr => hde row (List.mem_cons_of_mem _ hr)) prev
    dsimp only at hd
    have he : rowEntry (key, v) = (k, kind, v) := by simp [rowEntry, hd]
    simp only [latestRows, hd, context_ok, bind, Except.bind, List.map_cons, he, firstOfRuns]
    by_cases hp : prev = some k
    · rw [if_pos hp, if_pos hp, ih]
    · rw [if_neg hp, if_neg hp, ih]
      cases kind <;> rfl

theorem liveEntry_eq_some {e : Bytes × KeyKind × Bytes} {x : Bytes × Bytes} :
    liveEntry e = some x ↔ e = (x.1, .insertion, x.2) := by
  obtain ⟨k, kind, v⟩ := e
  obtain ⟨_, _⟩ := x
  cases kind <;> simp [liveEntry]

/-! ## Parts of a store -/

/-- A part of the store, given by a test on row keys, that has all rows of each user key it has a row
of, and where no user key is the beginning of another. -/
structure WholeKeys (ks : Keyspace) (q : Bytes → Bool) : Prop where
  decodes : ∀ key, key ∈ ks → q key = true → ∃ k t kind, key = encode k t kind
  whole : ∀ {k t kind t' kind'}, encode k t kind ∈ ks → encode k t' kind' ∈ ks →
    q (encode k t kind) = true → q (encode k t' kind') = true
  free : ∀ {k k' t t' kind kind'}, encode k t kind ∈ ks → encode k' t' kind' ∈ ks →
    q (encode k t kind) = true → q (encode k' t' kind') = true → k <+: k' → k = k'
  reads : ∀ {k t kind}, encode k t kind ∈ ks → q (encode k t kind) = true → RowsDecode ks k

/-- The first row of a user key is the row a read stops at. -/
theorem find?_rowEntry (hde : ∀ row ∈ rows, ∃ d, decode row.1 = .ok d)
    (k : Bytes) : (rows.map rowEntry).find? (fun e => e.1 == k) =
      (rows.find? (hit k maxVersion)).map rowEntry := by
  rw [List.find?_map]
  congr 1
  induction rows with
  | nil => rfl
  | cons row rows ih =>
    obtain ⟨⟨_, t, _⟩, hd⟩ := hde row List.mem_cons_self
    have ih := ih fun row hr => hde row (List.mem_cons_of_mem _ hr)
    have hs : (Function.comp (fun e : Bytes × KeyKind × Bytes => e.1 == k) rowEntry) row =
        hit k maxVersion row := by
      simp [Function.comp, rowEntry, hit, hd, le_maxVersion, beq_eq_decide]
    rw [List.find?_cons, List.find?_cons, hs, ih]

namespace WholeKeys
variable {q : Bytes → Bool} (h : WholeKeys ks q)
include h

theorem decodes_row {row : Bytes × Bytes} (hr : row ∈ ks.scan q) :
    ∃ k t kind, row.1 = encode k t kind ∧ encode k t kind ∈ ks ∧ q (encode k t kind) = true := by
  obtain ⟨hg, hq⟩ := mem_scan.mp hr
  have hm := mem_of_lookup hg
  obtain ⟨k, t, kind, hk⟩ := h.decodes row.1 hm hq
  exact ⟨k, t, kind, hk, hk ▸ hm, hk ▸ hq⟩

theorem decodes_scan : ∀ row ∈ ks.scan q, ∃ d, decode row.1 = .ok d := by
  intro row hr
  obtain ⟨k, t, kind, hk, -⟩ := h.decodes_row hr
  exact ⟨(k, t, kind), by rw [hk, decode_encode]⟩

/-- The user keys of such a part never go down along its rows. -/
theorem pairwise_keys : ((ks.scan q).map rowEntry).Pairwise fun a b => compare a.1 b.1 ≠ .gt := by
  have has : Ascending (ks.scan q) := ascending_scan _
  refine List.pairwise_map.mpr (List.Pairwise.imp_of_mem (fun {a b} ha hb hlt => ?_) has)
  obtain ⟨k, t, _, hka, hin, hk⟩ := h.decodes_row ha
  obtain ⟨k', _, _, hkb, hin', hk'⟩ := h.decodes_row hb
  have hea : (rowEntry a).1 = k := by simp [rowEntry, hka]
  have heb : (rowEntry b).1 = k' := by simp [rowEntry, hkb]
  rw [hea, heb]
  intro hgt
  have hne : k ≠ k' := by
    rintro rfl
    rw [compare_refl] at hgt
    cases hgt
  rw [hka, hkb, encode, encode, compare_append_of_not_isPrefix
    (fun hp => hne (h.free hin hin' hk hk' hp))
    (fun hp => hne (h.free hin' hin hk' hk hp).symm), hgt] at hlt
  cases hlt

/-- The rows of a user key can be looked for from the start of the part. -/
theorem getRaw_eq (hin : encode k t kind ∈ ks) (hq : q (encode k t kind) = true) :
    getRaw ks k = .ok (((ks.scan q).find? (hit k maxVersion)).bind (answer k)) := by
  have hal : ∀ row ∈ ks.prefixOf k, ∃ d, decode row.1 = .ok d := by
    intro row hr
    obtain ⟨hg, hp⟩ := mem_prefixOf.mp hr
    exact h.reads hin hq row.1 row.2 hg hp
  have ha : Ascending (ks.prefixOf k) := ascending_scan _
  have ha' : Ascending (ks.scan q) := ascending_scan _
  rw [getRaw, getFromRaw, getFromRows_eq hal, ha.find?_congr ha' fun row hh => ?_]
  obtain ⟨t', kind', hr, -⟩ := hit_iff.mp hh
  rw [mem_prefixOf, mem_scan]
  constructor
  · rintro ⟨hg, -⟩
    refine ⟨hg, ?_⟩
    have hm := mem_of_lookup hg
    rw [hr] at hm ⊢
    exact h.whole hin hm hq
  · rintro ⟨hg, -⟩
    exact ⟨hg, hr ▸ isPrefix_encode k t' kind'⟩

/-- **Listings.**  A listing of such a part has exactly the keys that a read finds, each once and in
order. -/
theorem latestRows_spec :
    ∃ L, latestRows none (ks.scan q) = .ok L ∧ Ascending L ∧ ∀ k v, (k, v) ∈ L ↔
      (∃ t kind, encode k t kind ∈ ks ∧ q (encode k t kind) = true) ∧
        getRaw ks k = .ok (some (k, v)) := by
  have hde := h.decodes_scan
  have hst : ∀ q', (none : Option Bytes) = some q' →
      ∀ x ∈ (ks.scan q).map rowEntry, compare q' x.1 ≠ .gt := nofun
  obtain ⟨has, hme⟩ := firstOfRuns_spec h.pairwise_keys hst
  refine ⟨_, latestRows_eq hde none, ?_, fun k v => ?_⟩
  · refine List.Pairwise.filterMap liveEntry (fun a b hab x hx y hy => ?_) has
    rw [liveEntry_eq_some.mp hx, liveEntry_eq_some.mp hy] at hab
    exact hab
  · simp only [List.mem_filterMap, liveEntry_eq_some, exists_eq_right, hme, find?_rowEntry hde,
      ne_eq, reduceCtorEq, not_false_eq_true, true_and, Option.map_eq_some_iff]
    constructor
    · rintro ⟨row, hfi, hen⟩
      obtain ⟨k', t, kind, hke, hin, hk'⟩ := h.decodes_row (List.mem_of_find?_eq_some hfi)
      have hpa : (k', kind, row.2) = (k, .insertion, v) := by
        rw [← hen]
        simp [rowEntry, hke]
      obtain ⟨rfl, rfl, rfl⟩ := Prod.mk.inj hpa |>.imp_right Prod.mk.inj
      refine ⟨⟨t, _, hin, hk'⟩, ?_⟩
      rw [h.getRaw_eq hin hk', hfi]
      simp [answer, hke]
    · rintro ⟨⟨t, kind, hin, hq⟩, hge⟩
      rw [h.getRaw_eq hin hq] at hge
      obtain ⟨row, hfi, han⟩ := Option.bind_eq_some_iff.mp (Except.ok.inj hge)
      refine ⟨row, hfi, ?_⟩
      obtain ⟨_, kind', hke, -⟩ := hit_iff.mp (List.find?_some hfi)
      cases kind' with
      | deletion => simp [answer, hke] at han
      | insertion =>
        simp only [answer, hke, decode_encode, Option.some.injEq, Prod.mk.injEq, true_and] at han
        simp [rowEntry, hke, han]

end WholeKeys

theorem exists_row_of_getRaw {v : Bytes} (hd : RowsDecode ks k)
    (h : getRaw ks k = .ok (some (k, v))) : ∃ t kind, encode k t kind ∈ ks := by
  obtain ⟨r, hr, hce⟩ := getFromRaw_spec hd
  rw [← getRaw, h] at hr
  cases r with
  | none => cases hr
  | some v' =>
    obtain _ | @⟨t, _, -, hc, -⟩ := hce
    have hs : cell ks k t ≠ none := by
      rw [hc]
      exact Option.some_ne_none _
    obtain ⟨kind, hk⟩ := not_forall.mp (mt cell_eq_none_iff.mpr hs)
    obtain ⟨_, hv⟩ := Option.ne_none_iff_exists'.mp hk
    exact ⟨t, kind, mem_of_lookup hv⟩

/-! ## Regions -/

namespace Region

theorem rowsDecode (h : Region ks p) (hk : p <+: k) : RowsDecode ks k := by
  intro key v hg hp
  obtain ⟨k', t, kind, rfl, -⟩ := h.decodes key (mem_of_lookup hg) (hk.trans hp)
  exact ⟨_, decode_encode⟩

/-- A row of a region is a row of a user key of the region. -/
theorem isPrefix_of_row (h : Region ks p)
    (hin : encode k t kind ∈ ks) (hp : p <+: encode k t kind) : p <+: k := by
  obtain ⟨_, _, _, hke, hk'⟩ := h.decodes _ hin hp
  rw [(encode_injective hke).1]
  exact hk'

theorem wholeKeys (h : Region ks p) : WholeKeys ks fun key => p.isPrefixOf key := by
  have hpr : ∀ {k t kind}, encode k t kind ∈ ks → p.isPrefixOf (encode k t kind) = true → p <+: k :=
    fun hin hp => h.isPrefix_of_row hin (List.isPrefixOf_iff_prefix.mp hp)
  refine ⟨fun key hin hp => ?_, fun hin _ hp => ?_, fun hin hin' hp hp' =>
    h.free hin hin' (hpr hin hp) (hpr hin' hp'), fun hin hp => h.rowsDecode (hpr hin hp)⟩
  · obtain ⟨k, t, kind, hk, -⟩ := h.decodes key hin (List.isPrefixOf_iff_prefix.mp hp)
    exact ⟨k, t, kind, hk⟩
  · exact List.isPrefixOf_iff_prefix.mpr ((hpr hin hp).trans (isPrefix_encode _ _ _))

end Region

/-- In a region a listing has exactly the keys that a read finds. -/
theorem prefixLatest_spec (h : Region ks p) : ∃ L, prefixLatest ks p = .ok L ∧ Ascending L ∧
    ∀ k v, (k, v) ∈ L ↔ p <+: k ∧ getRaw ks k = .ok (some (k, v)) := by
  obtain ⟨L, hL, ha, hm⟩ := h.wholeKeys.latestRows_spec
  refine ⟨L, hL, ha, fun k v => (hm k v).trans ⟨?_, ?_⟩⟩
  · rintro ⟨⟨t, kind, hin, hp⟩, hg⟩
    exact ⟨h.isPrefix_of_row hin (List.isPrefixOf_iff_prefix.mp hp), hg⟩
  · rintro ⟨hk, hg⟩
    obtain ⟨t, kind, hin⟩ := exists_row_of_getRaw (h.rowsDecode hk) hg
    exact ⟨⟨t, kind, hin, List.isPrefixOf_iff_prefix.mpr (hk.trans (isPrefix_encode _ _ _))⟩, hg⟩

end Myrmic
