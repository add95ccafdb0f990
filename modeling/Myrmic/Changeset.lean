import Myrmic.Listing

/-!
# Changesets

The changeset of a version is how the version travels: it is read from one store's index and applied,
entry by entry, to another.  `Describes` says what a list of entries tells about a version: for each
key of the scope, what the version did to it.  The two halves of the transfer are then

* `changesetFor_describes`: a well-formed store's changeset describes the store's own cells at that
  version, and
* `cell_applyEntries`: applying entries that describe a version, to a store that held nothing of it
  or already agreed with it, leaves exactly those cells.
-/
namespace Myrmic
open OrderedBytes VersionedCell Fallible List Store UserKey

/-- What a version did to each key. -/
abbrev Effect := Bytes → Option (Option Bytes)

/-- The entries tell what the effect did to the keys of a scope.  An insertion of a key the version
also erased may be listed as well; it is overridden. -/
structure Describes (s : Scope) (entries : List (Bytes × Option Bytes)) (effect : Effect) : Prop where
  inScope : ∀ e ∈ entries, s.encode <+: e.1
  sound : ∀ e ∈ entries, effect e.1 = some e.2 ∨ effect e.1 = some none
  complete : ∀ k, s.encode <+: k → ∀ o, effect k = some o → (k, o) ∈ entries

variable {k : Bytes} {ks : Keyspace} {ts : Version} {rows : List (Bytes × KeyKind)}
  {prev : Option Bytes} {kind : KeyKind}

theorem Describes.unique {s : Scope} {es : List (Bytes × Option Bytes)} {eff effect' : Effect}
    (h : Describes s es eff) (h' : Describes s es effect')
    (hk : s.encode <+: k) : eff k = effect' k := by
  cases hef : eff k with
  | none =>
    cases hef' : effect' k with
    | none => rfl
    | some o =>
      rcases h.sound _ (h'.complete k hk o hef') with he | he <;> rw [hef] at he <;> cases he
  | some o =>
    rcases h'.sound _ (h.complete k hk o hef) with he | he
    · exact he.symm
    · -- an erased key is listed as erased
      rcases h.sound _ (h'.complete k hk none he) with hn | hn <;> rw [he, ← hef, hn]

/-! ## The rows of a version in index order -/

/-- The index row of a data row, as the scan of its version meets it. -/
def indexKeyOf (ts : Version) (row : Bytes × KeyKind) : Bytes :=
  versionIndexKey ts (encode row.1 ts row.2)

/-- The order in which the scan of a version meets its rows. -/
def RowsAscending (ts : Version) (rows : List (Bytes × KeyKind)) : Prop :=
  rows.Pairwise fun a b => compare (encode a.1 ts a.2) (encode b.1 ts b.2) = .lt

theorem exists_map_eq {α β : Type} {g : β → α} {l : List α} (h : ∀ a ∈ l, ∃ b, a = g b) :
    ∃ l' : List β, l = l'.map g := by
  induction l with
  | nil => exact ⟨[], rfl⟩
  | cons a l ih =>
    obtain ⟨b, rfl⟩ := h a mem_cons_self
    obtain ⟨l', rfl⟩ := ih fun a' ha' => h a' (mem_cons_of_mem _ ha')
    exact ⟨b :: l', rfl⟩

theorem compare_versionIndexKey (ts : Version) (d d' : Bytes) :
    compare (versionIndexKey ts d) (versionIndexKey ts d') = compare d d' := by
  rw [show versionIndexKey ts d = (versionIndexTag :: be64 ts) ++ d from rfl,
    show versionIndexKey ts d' = (versionIndexTag :: be64 ts) ++ d' from rfl, compare_append_left]

/-- The index scan of a version of a scope meets exactly the scope's rows at that version. -/
theorem indexScan_spec [Postcard] (h : WellFormed ks) (s : Scope) :
    ∃ rows : List (Bytes × KeyKind),
      (ks.prefixOf (versionIndexPrefix ts s.encode)).map Prod.fst = rows.map (indexKeyOf ts) ∧
      (∀ k kind, (k, kind) ∈ rows ↔ s.encode <+: k ∧ encode k ts kind ∈ ks) ∧
      RowsAscending ts rows := by
  have hke : ∀ a ∈ (ks.prefixOf (versionIndexPrefix ts s.encode)).map Prod.fst,
      ∃ row : Bytes × KeyKind, a = indexKeyOf ts row ∧ s.encode <+: row.1 ∧
        encode row.1 ts row.2 ∈ ks := by
    intro a ha
    obtain ⟨kv, hkv, rfl⟩ := mem_map.mp ha
    obtain ⟨hge, hpr⟩ := mem_prefixOf.mp hkv
    obtain ⟨d, hd, hs⟩ := exists_of_versionIndexPrefix hpr
    obtain ⟨k, t, kind, hk, hik, hda⟩ := h.index kv.1 (mem_of_lookup hge) (by
      rw [hd]
      rfl)
    obtain ⟨rfl, rfl⟩ := versionIndexKey_injective (hd.symm.trans hik)
    exact ⟨(k, kind), hik, (isPrefix_encode_iff hk).mp hs, hda⟩
  obtain ⟨rows, hro⟩ := exists_map_eq fun a ha => (hke a ha).imp fun _ hr => hr.1
  refine ⟨rows, hro, fun k kind => ?_, ?_⟩
  · constructor
    · intro hme
      have ha : indexKeyOf ts (k, kind) ∈ rows.map (indexKeyOf ts) := mem_map_of_mem hme
      rw [← hro] at ha
      obtain ⟨row, hrow, hs, hda⟩ := hke _ ha
      obtain ⟨hkk, -, hki⟩ := encode_injective (versionIndexKey_injective hrow).2
      dsimp only at hkk hki
      rw [hkk, hki]
      exact ⟨hs, hda⟩
    · rintro ⟨hs, hda⟩
      have hk := of_isPrefix hs
      obtain ⟨v, hv⟩ := mem_iff_exists_lookup.mp (h.indexed k ts kind hk hda)
      have ha : indexKeyOf ts (k, kind) ∈
          (ks.prefixOf (versionIndexPrefix ts s.encode)).map Prod.fst :=
        mem_map.mpr ⟨(indexKeyOf ts (k, kind), v), mem_prefixOf.mpr ⟨hv,
          versionIndexPrefix_isPrefix.mpr ⟨rfl, (isPrefix_encode_iff hk).mpr hs⟩⟩, rfl⟩
      rw [hro] at ha
      obtain ⟨row, hrow, he⟩ := mem_map.mp ha
      obtain ⟨hkk, -, hki⟩ := encode_injective (versionIndexKey_injective he).2
      dsimp only at hkk hki
      rwa [← hkk, ← hki]
  · have has : ((ks.prefixOf (versionIndexPrefix ts s.encode)).map Prod.fst).Pairwise
        fun a b => compare a b = .lt := pairwise_map.mpr (ascending_scan _)
    rw [hro, pairwise_map] at has
    exact has.imp fun hlt => by rwa [indexKeyOf, indexKeyOf, compare_versionIndexKey] at hlt

/-! ## Reading a changeset -/

/-- The value an entry carries for a row. -/
def rowValue (ks : Keyspace) (ts : Version) (row : Bytes × KeyKind) : Option Bytes :=
  match row.2 with
  | .insertion => rowAt ks row.1 ts .insertion
  | .deletion => none

/-- The entries read from rows in index order: one per run of one user key. -/
def entriesOf (ks : Keyspace) (ts : Version) (prev : Option Bytes) :
    List (Bytes × KeyKind) → List (Bytes × Option Bytes)
  | [] => []
  | row :: rows =>
    if prev = some row.1 then entriesOf ks ts prev rows
    else (row.1, rowValue ks ts row) :: entriesOf ks ts (some row.1) rows

theorem entriesOf_eq (ks : Keyspace) (ts : Version) (prev : Option Bytes)
    (rows : List (Bytes × KeyKind)) : entriesOf ks ts prev rows =
      (firstOfRuns prev rows).map fun row => (row.1, rowValue ks ts row) := by
  induction rows generalizing prev with
  | nil => rfl
  | cons row rows ih =>
    rw [entriesOf, firstOfRuns, ih, ih]
    split <;> rfl

theorem changesetRows_eq (hr : ∀ row ∈ rows, encode row.1 ts row.2 ∈ ks) (prev : Option Bytes) :
    changesetRows ks prev (rows.map (indexKeyOf ts)) = .ok (entriesOf ks ts prev rows) := by
  induction rows generalizing prev with
  | nil => rfl
  | cons row rows ih =>
    obtain ⟨k, kind⟩ := row
    have ih := ih fun row hro => hr row (mem_cons_of_mem _ hro)
    obtain ⟨v, hv⟩ := mem_iff_exists_lookup.mp (hr (k, kind) mem_cons_self)
    rw [map_cons, changesetRows, indexKeyOf, versionIndexDataKey_versionIndexKey]
    simp only [bind, Except.bind, decode_encode, entriesOf]
    split
    · exact ih _
    · cases kind with
      | insertion =>
        dsimp only at hv
        simp [hv, contextNone, ih, pure, Except.pure, rowAt, rowValue]
      | deletion => simp [ih, pure, Except.pure, rowValue]

theorem mem_entriesOf {e : Bytes × Option Bytes} (h : e ∈ entriesOf ks ts prev rows) :
    ((e.1, KeyKind.deletion) ∈ rows ∧ e.2 = none) ∨
      ((e.1, KeyKind.insertion) ∈ rows ∧ e.2 = rowAt ks e.1 ts .insertion) := by
  rw [entriesOf_eq] at h
  obtain ⟨⟨k, kind⟩, hro, rfl⟩ := mem_map.mp h
  have hin := (firstOfRuns_sublist prev rows).subset hro
  cases kind with
  | deletion => exact .inl ⟨hin, rfl⟩
  | insertion => exact .inr ⟨hin, rfl⟩

theorem compare_encode_deletion_insertion (k : Bytes) (ts : Version) :
    compare (encode k ts .insertion) (encode k ts .deletion) ≠ .lt := by
  rw [compare_encode, Nat.compare_eq_eq.mpr rfl]
  decide

/-- The deciding row of each key is listed: a deletion always, an insertion unless the version also
erased the key. -/
theorem mem_entriesOf_of_decides (has : RowsAscending ts rows)
    (hme : (k, kind) ∈ rows) (hpr : prev ≠ some k)
    (hde : kind = .insertion → (k, KeyKind.deletion) ∉ rows) :
    (k, rowValue ks ts (k, kind)) ∈ entriesOf ks ts prev rows := by
  induction rows generalizing prev with
  | nil => cases hme
  | cons row rows ih =>
    obtain ⟨k₁, kind₁⟩ := row
    obtain ⟨hfi, has⟩ := pairwise_cons.mp has
    rcases mem_cons.mp hme with he | hme
    · cases he
      simp only [entriesOf, if_neg hpr]
      exact mem_cons_self
    · -- an earlier row of the same key would be its deletion, which decides instead
      have hne : k₁ ≠ k := by
        rintro rfl
        have hlt := hfi (k₁, kind) hme
        cases kind with
        | deletion =>
          cases kind₁ with
          | deletion =>
            rw [compare_refl] at hlt
            cases hlt
          | insertion => exact compare_encode_deletion_insertion k₁ ts hlt
        | insertion =>
          cases kind₁ with
          | deletion => exact hde rfl mem_cons_self
          | insertion =>
            rw [compare_refl] at hlt
            cases hlt
      have hde' : kind = .insertion → (k, KeyKind.deletion) ∉ rows :=
        fun hk hd => hde hk (mem_cons_of_mem _ hd)
      simp only [entriesOf]
      split
      · exact ih has hme hpr hde'
      · exact mem_cons_of_mem _ (ih has hme (by simpa using hne) hde')

/-- **Reading.**  On a well-formed store the changeset of a version is read without failure and
describes the store's cells at that version. -/
theorem changesetFor_describes [Postcard] (h : WellFormed ks) (p : SyncPoint) :
    ∃ es, changesetFor ks p = .ok es ∧
      Describes p.scope es fun k => cell ks k p.ts := by
  obtain ⟨rows, hsc, hme, has⟩ := indexScan_spec h p.scope
  have hpr : ∀ row ∈ rows, encode row.1 p.ts row.2 ∈ ks := fun row hro =>
    ((hme row.1 row.2).mp hro).2
  refine ⟨entriesOf ks p.ts none rows, ?_, ?_, ?_, ?_⟩
  · rw [changesetFor, hsc, changesetRows_eq hpr]
  · intro e he
    rcases mem_entriesOf he with ⟨hro, -⟩ | ⟨hro, -⟩ <;> exact ((hme _ _).mp hro).1
  · intro e he
    rcases mem_entriesOf he with ⟨hro, ho⟩ | ⟨hro, ho⟩
    · obtain ⟨v, hv⟩ := mem_iff_exists_lookup.mp (hpr _ hro)
      exact .inr (cell_of_deletion hv)
    · obtain ⟨v, hv⟩ := mem_iff_exists_lookup.mp (hpr _ hro)
      cases hde : rowAt ks e.1 p.ts .deletion with
      | some w => exact .inr (cell_of_deletion hde)
      | none =>
        have hv : rowAt ks e.1 p.ts .insertion = some v := hv
        rw [ho, hv]
        exact .inl (cell_of_insertion hde hv)
  · intro k hk o ho
    cases hde : rowAt ks k p.ts .deletion with
    | some v =>
      rw [cell_of_deletion hde] at ho
      cases ho
      exact mem_entriesOf_of_decides has ((hme k .deletion).mpr ⟨hk, mem_of_lookup hde⟩)
        (by simp) (by simp)
    | none =>
      cases hin : rowAt ks k p.ts .insertion with
      | none => simp [cell, hde, hin] at ho
      | some v =>
        rw [cell_of_insertion hde hin] at ho
        cases ho
        have hno : (k, KeyKind.deletion) ∉ rows := by
          intro hro
          obtain ⟨w, hw⟩ := mem_iff_exists_lookup.mp (hpr _ hro)
          have hw : rowAt ks k p.ts .deletion = some w := hw
          rw [hde] at hw
          cases hw
        have hli : (k, rowAt ks k p.ts .insertion) ∈ entriesOf ks p.ts none rows :=
          mem_entriesOf_of_decides has ((hme k .insertion).mpr ⟨hk, mem_of_lookup hin⟩)
            (by simp) fun _ => hno
        rwa [hin] at hli

/-! ## Applying a changeset -/

/-- The kind of row an entry is written as. -/
def kindOf (o : Option Bytes) : KeyKind := if o.isSome then .insertion else .deletion

theorem applyEntry_eq (ts : Version) (ks : Keyspace) (e : Bytes × Option Bytes) :
    applyEntry ts ks e = writeRow ks e.1 ts (kindOf e.2) (e.2.getD []) := by
  obtain ⟨k, o⟩ := e
  cases o <;> rfl

variable {ks : Keyspace} {s : Scope} {ts : Version} {es : List (Bytes × Option Bytes)}

theorem wellFormed_applyEntries [Postcard] (h : WellFormed ks)
    (hin : ∀ e ∈ es, s.encode <+: e.1) : WellFormed (es.foldl (applyEntry ts) ks) := by
  induction es generalizing ks with
  | nil => exact h
  | cons e es ih =>
    rw [foldl_cons, applyEntry_eq]
    exact ih (h.writeRow (of_isPrefix (hin e mem_cons_self)))
      fun e' he' => hin e' (mem_cons_of_mem _ he')

theorem metaAt_applyEntries [Postcard] (hin : ∀ e ∈ es, s.encode <+: e.1) (p : SyncPoint) :
    metaAt (es.foldl (applyEntry ts) ks) p = metaAt ks p := by
  induction es generalizing ks with
  | nil => rfl
  | cons e es ih =>
    rw [foldl_cons, ih fun e' he' => hin e' (mem_cons_of_mem _ he'), applyEntry_eq,
      metaAt_writeRow (of_isPrefix (hin e mem_cons_self))]

theorem rowAt_applyEntries_of_not_written {t : Version}
    (hk : UserKey k) (hn : t = ts → ∀ e ∈ es, e.1 = k → kindOf e.2 ≠ kind) :
    rowAt (es.foldl (applyEntry ts) ks) k t kind = rowAt ks k t kind := by
  induction es generalizing ks with
  | nil => rfl
  | cons e es ih =>
    rw [foldl_cons, ih fun ht e' he' => hn ht e' (mem_cons_of_mem _ he'), applyEntry_eq,
      rowAt_writeRow hk, if_neg]
    rintro ⟨he, ht, hki⟩
    exact hn ht.symm e mem_cons_self he hki

/-- A row that some entry writes holds what one of the entries that write it says. -/
theorem rowAt_applyEntries_of_written (ks : Keyspace) (ts : Version) (hk : UserKey k)
    (hw : ∃ e ∈ es, e.1 = k ∧ kindOf e.2 = kind) : ∃ e ∈ es, e.1 = k ∧ kindOf e.2 = kind ∧
      rowAt (es.foldl (applyEntry ts) ks) k ts kind = some (e.2.getD []) := by
  induction es generalizing ks with
  | nil =>
    obtain ⟨e, he, -⟩ := hw
    cases he
  | cons e es ih =>
    rw [foldl_cons]
    by_cases hl : ∃ e ∈ es, e.1 = k ∧ kindOf e.2 = kind
    · obtain ⟨e', he', hr⟩ := ih _ hl
      exact ⟨e', mem_cons_of_mem _ he', hr⟩
    · obtain ⟨e', he', hke, hki⟩ := hw
      obtain rfl : e' = e := by
        rcases mem_cons.mp he' with he | he
        · exact he
        · exact absurd ⟨e', he, hke, hki⟩ hl
      refine ⟨e', mem_cons_self, hke, hki, ?_⟩
      rw [rowAt_applyEntries_of_not_written hk fun _ e he hek hkk => hl ⟨e, he, hek, hkk⟩,
        applyEntry_eq, rowAt_writeRow hk, if_pos ⟨hke, rfl, hki⟩]

/-- **Applying.**  Entries that describe a version, applied to a store that held nothing of it or
agreed with it, leave exactly the cells they describe. -/
theorem cell_applyEntries {eff : Effect} (hde : Describes s es eff)
    (hba : ∀ k, s.encode <+: k → cell ks k ts = none ∨ cell ks k ts = eff k)
    (hk : s.encode <+: k) : cell (es.foldl (applyEntry ts) ks) k ts = eff k := by
  have hus := of_isPrefix hk
  by_cases her : eff k = some none
  · -- the version erased the key: its deletion is listed and hides everything else
    obtain ⟨e, -, -, -, hro⟩ := rowAt_applyEntries_of_written ks ts hus
      ⟨(k, none), hde.complete k hk none her, rfl, rfl⟩
    rw [her]
    exact cell_of_deletion hro
  · have hno : ∀ e ∈ es, e.1 = k → kindOf e.2 ≠ .deletion := by
      rintro ⟨_, o⟩ he rfl hki
      cases o with
      | none => rcases hde.sound _ he with h | h <;> exact her h
      | some v => simp [kindOf] at hki
    have hbas : rowAt ks k ts .deletion = none := by
      cases hdel : rowAt ks k ts .deletion with
      | none => rfl
      | some v =>
        rcases hba k hk with h | h
        · rw [cell_of_deletion hdel] at h
          cases h
        · exact absurd (h.symm.trans (cell_of_deletion hdel)) her
    have hdel : rowAt (es.foldl (applyEntry ts) ks) k ts .deletion = none := by
      rw [rowAt_applyEntries_of_not_written hus fun _ => hno, hbas]
    cases hef : eff k with
    | none =>
      have hnon : ∀ e ∈ es, e.1 ≠ k := by
        rintro e he rfl
        rcases hde.sound e he with h | h <;> rw [hef] at h <;> cases h
      have hba := hba k hk
      rw [hef, or_self] at hba
      rw [cell_eq_none_iff] at hba ⊢
      intro kind
      rw [rowAt_applyEntries_of_not_written hus fun _ e he hek => absurd hek (hnon e he)]
      exact hba kind
    | some o =>
      cases o with
      | none => exact absurd hef her
      | some v =>
        obtain ⟨e, he, rfl, hki, hro⟩ := rowAt_applyEntries_of_written ks ts hus
          ⟨(k, some v), hde.complete k hk _ hef, rfl, rfl⟩
        have hva : e.2 = some v := by
          rcases hde.sound e he with h | h
          · rw [hef] at h
            exact (Option.some.inj h).symm
          · rw [hef] at h
            cases h
        rw [hva] at hro
        exact cell_of_insertion hdel hro

/-! ## Reading a changeset back -/

def rowOf (e : Bytes × Option Bytes) : Bytes × KeyKind := (e.1, kindOf e.2)

variable (hr : ∀ row ∈ rows, encode row.1 ts row.2 ∈ ks) {ks' : Keyspace}
include hr

/-- The rows that the entries of a changeset are written as are the ones they were read from. -/
theorem rowOf_entriesOf (prev : Option Bytes) :
    (entriesOf ks ts prev rows).map rowOf = firstOfRuns prev rows := by
  rw [entriesOf_eq, map_map]
  refine (map_congr_left fun row hro => ?_).trans (map_id _)
  obtain ⟨k, kind⟩ := row
  have hin := hr _ ((firstOfRuns_sublist prev rows).subset hro)
  obtain ⟨v, hv⟩ := mem_iff_exists_lookup.mp hin
  cases kind with
  | insertion =>
    have hv : rowAt ks k ts .insertion = some v := hv
    simp [rowOf, rowValue, kindOf, hv]
  | deletion => simp [rowOf, rowValue, kindOf]

/-- Reading the rows of a changeset's entries gives the entries again. -/
theorem entriesOf_rowOf (prev : Option Bytes)
    (hv : ∀ e ∈ entriesOf ks ts prev rows, rowValue ks' ts (rowOf e) = e.2) :
    entriesOf ks' ts prev ((entriesOf ks ts prev rows).map rowOf) = entriesOf ks ts prev rows := by
  have hf : firstOfRuns prev ((entriesOf ks ts prev rows).map rowOf) =
      (entriesOf ks ts prev rows).map rowOf := by
    rw [rowOf_entriesOf hr, firstOfRuns_idem]
  rw [entriesOf_eq ks', hf, map_map]
  refine (map_congr_left fun e he => ?_).trans (map_id _)
  exact Prod.ext rfl (hv e he)

omit hr

theorem RowsAscending.eq_of_mem_iff {rows' : List (Bytes × KeyKind)}
    (h : RowsAscending ts rows) (h' : RowsAscending ts rows')
    (hm : ∀ row, row ∈ rows ↔ row ∈ rows') : rows = rows' :=
  eq_of_sorted (f := fun row : Bytes × KeyKind => encode row.1 ts row.2) h h' hm

theorem entriesOf_congr (prev : Option Bytes)
    (h : ∀ row ∈ rows, rowValue ks' ts row = rowValue ks ts row) :
    entriesOf ks' ts prev rows = entriesOf ks ts prev rows := by
  rw [entriesOf_eq, entriesOf_eq]
  exact map_congr_left fun row hro => by rw [h row ((firstOfRuns_sublist prev rows).subset hro)]

theorem changesetFor_congr [Postcard] {p : SyncPoint} (h : WellFormed ks)
    (h' : WellFormed ks') (hro : ∀ k kind, p.scope.encode <+: k →
      rowAt ks' k p.ts kind = rowAt ks k p.ts kind) : changesetFor ks' p = changesetFor ks p := by
  obtain ⟨rows, hsc, hme, has⟩ := indexScan_spec h p.scope
  obtain ⟨rows', hsc', hme', has'⟩ := indexScan_spec h' p.scope
  have hif : ∀ row, row ∈ rows' ↔ row ∈ rows := by
    rintro ⟨k, kind⟩
    rw [hme, hme']
    refine and_congr_right fun hk => ?_
    rw [mem_iff_exists_lookup, mem_iff_exists_lookup]
    exact exists_congr fun v => by
      have := hro k kind hk
      rw [rowAt, rowAt] at this
      rw [this]
  obtain rfl := has'.eq_of_mem_iff has hif
  rw [changesetFor, changesetFor, hsc, hsc',
    changesetRows_eq fun row hrow => ((hme row.1 row.2).mp hrow).2,
    changesetRows_eq fun row hrow => ((hme' row.1 row.2).mp hrow).2]
  refine congrArg _ (entriesOf_congr none fun row hrow => ?_)
  obtain ⟨k, kind⟩ := row
  cases kind with
  | deletion => rfl
  | insertion => exact hro k .insertion ((hme k .insertion).mp hrow).1

/-- **Reading back.**  A store whose rows at a version are those a changeset leaves, over rows that
are among the changeset's own, reads the very same changeset. -/
theorem changesetFor_reread [Postcard] (base : Keyspace) {p p' : SyncPoint}
    (h : WellFormed ks) (h' : WellFormed ks') (hsa : p'.SameVersion p)
    (hre : changesetFor ks p = .ok es)
    (hba : ∀ k kind, p.scope.encode <+: k → rowAt base k p.ts kind ≠ none →
      (k, kind) ∈ es.map rowOf)
    (hro : ∀ k kind, p.scope.encode <+: k → rowAt ks' k p.ts kind =
      rowAt (es.foldl (applyEntry p.ts) base) k p.ts kind) :
    changesetFor ks' p' = .ok es := by
  obtain ⟨hts, hsco⟩ := hsa
  obtain ⟨rows, hsc, hme, has⟩ := indexScan_spec h p.scope
  obtain ⟨rows', hsc', hme', has'⟩ := indexScan_spec h' p.scope
  have hpr : ∀ row ∈ rows, encode row.1 p.ts row.2 ∈ ks := fun row hrow =>
    ((hme row.1 row.2).mp hrow).2
  have hpr' : ∀ row ∈ rows', encode row.1 p.ts row.2 ∈ ks' := fun row hrow =>
    ((hme' row.1 row.2).mp hrow).2
  rw [changesetFor, hsc, changesetRows_eq hpr] at hre
  obtain rfl := Except.ok.inj hre
  have hsu : ((entriesOf ks p.ts none rows).map rowOf).Sublist rows := by
    rw [rowOf_entriesOf hpr]
    exact firstOfRuns_sublist none rows
  -- the rows present afterwards are those of the entries
  have hif : ∀ row, row ∈ rows' ↔ row ∈ (entriesOf ks p.ts none rows).map rowOf := by
    rintro ⟨k, kind⟩
    rw [hme']
    constructor
    · rintro ⟨hk, hin⟩
      obtain ⟨v, hv⟩ := mem_iff_exists_lookup.mp hin
      have hv : rowAt ks' k p.ts kind = some v := hv
      by_contra hno
      rw [hro k kind hk, rowAt_applyEntries_of_not_written (of_isPrefix hk)] at hv
      · exact hno (hba k kind hk (by rw [hv]; simp))
      · intro _ e he hek hki
        exact hno (mem_map.mpr ⟨e, he, by rw [rowOf, hek, hki]⟩)
    · intro hin
      have hk := ((hme k kind).mp (hsu.subset hin)).1
      obtain ⟨e, he, hrow⟩ := mem_map.mp hin
      obtain ⟨e', -, -, -, hwr⟩ := rowAt_applyEntries_of_written base p.ts
        (of_isPrefix hk) ⟨e, he, congrArg Prod.fst hrow, congrArg Prod.snd hrow⟩
      exact ⟨hk, mem_of_lookup ((hro k kind hk).trans hwr)⟩
  have heq := has'.eq_of_mem_iff (has.sublist hsu) hif
  -- and each holds the value of its entry
  have hval : ∀ e ∈ entriesOf ks p.ts none rows, rowValue ks' p.ts (rowOf e) = e.2 := by
    rintro ⟨k, o⟩ he
    cases o with
    | none => rfl
    | some v =>
      have hk := ((hme _ _).mp (hsu.subset (mem_map_of_mem he))).1
      have hen : ∃ e ∈ entriesOf ks p.ts none rows, e.1 = k ∧ kindOf e.2 = .insertion :=
        ⟨(k, some v), he, rfl, rfl⟩
      obtain ⟨e', he', hke, hki, hwr⟩ :=
        rowAt_applyEntries_of_written base p.ts (of_isPrefix hk) hen
      have hso : ∀ {e : Bytes × Option Bytes}, e ∈ entriesOf ks p.ts none rows → e.1 = k →
          kindOf e.2 = .insertion → e.2 = rowAt ks k p.ts .insertion := by
        intro e he hek hki
        rcases mem_entriesOf he with ⟨-, ho⟩ | ⟨-, ho⟩
        · rw [ho] at hki
          cases hki
        · rw [ho, hek]
      have hva : e'.2 = some v := (hso he' hke hki).trans (hso he rfl rfl).symm
      rw [hva] at hwr
      exact (hro k .insertion hk).trans hwr
  rw [changesetFor, hts, hsco, hsc', changesetRows_eq hpr', heq, entriesOf_rowOf hpr none hval]

end Myrmic
