import Myrmic.Operations
import Myrmic.Records

/-!
# The rows of a table

The rows of a table lie under keys made of the table's name and the row's id, the id's length before
its bytes, so that no row's key is the beginning of another's.  A table is therefore a list of rows in
the order of their ids, and everything the store does with tables is an operation on that list: counting
is its length, **a listing, up or down, has the rows from its cursor on** (`tbCount_eq`, `tbList_eq`),
and **writing rows with new ids adds exactly those rows** (`IsTable.putRows`).
-/
namespace Myrmic
open OrderedBytes VersionedCell Fallible List

/-- The order of ids in keys: shorter ids first. -/
def Id.Before (a b : Id) : Prop := compare a.encode b.encode = .lt

instance decidableIdBefore (a b : Id) : Decidable (a.Before b) := inferInstanceAs (Decidable (_ = _))

variable {a : Id} {b : Id} {c : Id}

theorem Id.Before.trans (h : a.Before b) (h' : b.Before c) : a.Before c :=
  Std.TransCmp.lt_trans h h'

theorem Id.not_before_self (a : Id) : ¬a.Before a := by
  intro h
  rw [Id.Before, compare_refl] at h
  cases h

theorem Id.encode_injective (h : a.encode = b.encode) : a = b := by
  have ha : a.encode ++ [] = b.encode ++ [] := by rw [h]
  exact (Id.encode_append_inj ha).1

theorem Id.before_or_eq_or (a b : Id) : a.Before b ∨ a = b ∨ b.Before a := by
  cases h : compare a.encode b.encode with
  | lt => exact .inl h
  | eq => exact .inr (.inl (Id.encode_injective (Std.LawfulEqCmp.eq_of_compare h)))
  | gt => exact .inr (.inr (Std.OrientedCmp.lt_of_gt h))

section Table
variable (s : Scope) (table : Name)

/-- The key of a row. -/
def rowKey (id : Id) : Bytes := s.dataKey (.table table id)

theorem rowKey_eq (id : Id) : rowKey s table id = tablePrefix s table ++ id.encode := by
  simp [rowKey, Scope.dataKey, DataKey.rest, DataKey.tag, DataKey.fields, tablePrefix]

theorem tablePrefix_isPrefix (id : Id) : tablePrefix s table <+: rowKey s table id :=
  ⟨id.encode, (rowKey_eq s table id).symm⟩

variable {s table} {ks : Keyspace} {id : Id} {rows : List (Id × Bytes)}

theorem rowKey_isPrefix (h : rowKey s table a <+: rowKey s table b) : a = b := by
  obtain ⟨x, hx⟩ := h
  rw [rowKey_eq, rowKey_eq, append_assoc, append_cancel_left_eq] at hx
  have ha : a.encode ++ x = b.encode ++ [] := by rw [hx, append_nil]
  exact (Id.encode_append_inj ha).1

theorem rowKey_injective (h : rowKey s table a = rowKey s table b) : a = b :=
  rowKey_isPrefix ⟨[], by rw [append_nil, h]⟩

theorem compare_rowKey (a b : Id) :
    compare (rowKey s table a) (rowKey s table b) = compare a.encode b.encode := by
  rw [rowKey_eq, rowKey_eq, compare_append_left]

theorem decodeEntity_append (rest : Bytes) :
    decodeEntity (s.encode ++ (lit ['t', 'b'] ++ (table.encode ++ rest))) =
      readSlice rest >>= exactly := by
  rw [decodeEntity, readScope_append]
  simp only [bind, Except.bind]
  rw [expect_append]
  dsimp only
  rw [readStr_append]

theorem decodeEntity_rowKey (id : Id) : decodeEntity (rowKey s table id) = .ok id.bytes := by
  have hk : rowKey s table id = s.encode ++ (lit ['t', 'b'] ++ (table.encode ++ id.encode)) := by
    rw [rowKey_eq, tablePrefix, append_assoc, append_assoc]
  rw [hk, decodeEntity_append, ← append_nil id.encode, readSlice_append]
  rfl

variable (s table) in
/-- The part of the store where the table is holds rows of the table only. -/
def TableInOrder (ks : Keyspace) : Prop :=
  ∀ key, key ∈ ks → tablePrefix s table <+: key →
    ∃ id t kind, key = encode (rowKey s table id) t kind

theorem TableInOrder.region (h : TableInOrder s table ks) : Region ks (tablePrefix s table) := by
  have hr : ∀ {k t kind}, encode k t kind ∈ ks → tablePrefix s table <+: k →
      ∃ id, k = rowKey s table id := by
    intro k t kind hm hk
    obtain ⟨id, _, _, he⟩ := h _ hm (hk.trans (isPrefix_encode k t kind))
    exact ⟨id, (encode_injective he).1⟩
  refine ⟨fun key hm hk => ?_, fun hm hm' hk hk' hp => ?_⟩
  · obtain ⟨id, t, kind, he⟩ := h key hm hk
    exact ⟨_, t, kind, he, tablePrefix_isPrefix s table id⟩
  · obtain ⟨id, rfl⟩ := hr hm hk
    obtain ⟨_, rfl⟩ := hr hm' hk'
    rw [rowKey_isPrefix hp]

/-! ## A table as a list -/

variable (s table) in
/-- What a row is stored as. -/
def rowEntryOf (row : Id × Bytes) : Bytes × Bytes := (rowKey s table row.1, row.2)

variable (s table) in
/-- The rows of the table, in order. -/
structure IsTable (ks : Keyspace) (rows : List (Id × Bytes)) : Prop where
  walk : latestEntries none (ks.prefixOf (tablePrefix s table)) =
    (rows.map (rowEntryOf s table)).map .ok
  sorted : rows.Pairwise fun a b => a.1.Before b.1
  mem : ∀ id v, (id, v) ∈ rows ↔
    getRaw ks (rowKey s table id) = .ok (some (rowKey s table id, v))

theorem rowEntryOf_injective {a b : Id × Bytes} (h : rowEntryOf s table a = rowEntryOf s table b) :
    a = b := by
  obtain ⟨hk, hv⟩ := Prod.mk.inj h
  exact Prod.ext (rowKey_injective hk) hv

variable (s table) in
theorem mem_rows_iff {v : Bytes} :
    (rowKey s table id, v) ∈ rows.map (rowEntryOf s table) ↔ (id, v) ∈ rows := by
  constructor
  · intro h
    obtain ⟨row, hr, he⟩ := mem_map.mp h
    have he : rowEntryOf s table row = rowEntryOf s table (id, v) := he
    exact rowEntryOf_injective he ▸ hr
  · exact mem_map_of_mem (f := rowEntryOf s table)

theorem sorted_rows_iff :
    Ascending (rows.map (rowEntryOf s table)) ↔ rows.Pairwise fun a b => a.1.Before b.1 := by
  rw [Ascending, pairwise_map]
  refine ⟨List.Pairwise.imp fun h => ?_, List.Pairwise.imp fun h => ?_⟩
  · exact (compare_rowKey _ _).symm.trans h
  · exact (compare_rowKey _ _).trans h

/-- What a read finds in the part of the store where the table is, is a row. -/
theorem TableInOrder.exists_id (h : TableInOrder s table ks) {k v : Bytes}
    (hk : tablePrefix s table <+: k) (hg : getRaw ks k = .ok (some (k, v))) :
    ∃ id, k = rowKey s table id := by
  obtain ⟨t, kind, hin⟩ := exists_row_of_getRaw (h.region.rowsDecode hk) hg
  obtain ⟨id, _, _, he⟩ := h _ hin (hk.trans (isPrefix_encode k t kind))
  exact ⟨id, (encode_injective he).1⟩

theorem TableInOrder.exists_isTable (h : TableInOrder s table ks) :
    ∃ rows, IsTable s table ks rows := by
  obtain ⟨L, hw, ha, hm⟩ := entries_of_region h.region
  have hke : ∀ e ∈ L, ∃ row, e = rowEntryOf s table row := by
    intro e he
    obtain ⟨hk, hg⟩ := (hm e.1 e.2).mp he
    obtain ⟨id, hid⟩ := h.exists_id hk hg
    exact ⟨(id, e.2), Prod.ext hid rfl⟩
  obtain ⟨rows, rfl⟩ := exists_map_eq hke
  refine ⟨rows, hw, sorted_rows_iff.mp ha, fun id v => ?_⟩
  rw [← mem_rows_iff s table, hm]
  exact and_iff_right (tablePrefix_isPrefix s table id)

/-! ## Counting and listing -/

/-- What a listing returns of a row. -/
def listed (row : Id × Bytes) : Bytes × Bytes := (row.1.bytes, row.2)

variable {rows : List (Id × Bytes)} {q : Bytes → Bool} {p : Id → Prop}

variable (s table) in
theorem mapM_ids (rows : List (Id × Bytes)) :
    ((rows.map (rowEntryOf s table)).map .ok).mapM (fun e => do
      let (key, _) ← e
      decodeEntity key) = (.ok (rows.map fun row => row.1.bytes) : Except String (List Bytes)) := by
  induction rows with
  | nil => rfl
  | cons row rows ih =>
    exact mapM_cons_eq_ok.mpr ⟨row.1.bytes, _, decodeEntity_rowKey row.1, ih, rfl⟩

theorem tbCount_eq (h : IsTable s table ks rows) : tbCount ks s table = .ok rows.length := by
  rw [tbCount, h.walk, mapM_ids]
  simp [bind, Except.bind, pure, Except.pure]

theorem takeRows_eq (skip limit : Nat) :
    takeRows skip limit ((rows.map (rowEntryOf s table)).map .ok) =
      .ok (((rows.drop skip).take limit).map listed) := by
  induction rows generalizing skip limit with
  | nil => simp [takeRows]
  | cons row rows ih =>
    cases skip with
    | succ skip => exact ih skip limit
    | zero =>
      cases limit with
      | zero => rfl
      | succ limit =>
        have hr := ih 0 limit
        have hid : decodeEntity (rowEntryOf s table row).1 = .ok row.1.bytes :=
          decodeEntity_rowKey row.1
        simp only [map_cons, takeRows, bind, Except.bind, hid, context_ok, hr]
        rfl

/-! ## Where a listing starts and stops -/

/-- A row's key, whatever follows it, is not below the key of another row exactly if its id is not. -/
theorem isLE_rowKey_append (c id : Id) (x : Bytes) :
    (compare (rowKey s table c) (rowKey s table id ++ x)).isLE = true ↔ id = c ∨ c.Before id := by
  by_cases hne : id = c
  · subst hne
    exact iff_of_true ((isPrefix_iff_range _ _).mp (prefix_append _ _)).1 (.inl rfl)
  · have hno : ∀ {a b : Id}, a ≠ b → ¬rowKey s table a <+: rowKey s table b :=
      fun hne hp => hne (rowKey_isPrefix hp)
    have hap := compare_append_of_not_isPrefix (hno (Ne.symm hne)) (hno hne) [] x
    rw [append_nil, compare_rowKey] at hap
    rw [hap, or_iff_right hne, Ordering.isLE_iff_eq_lt_or_eq_eq]
    exact or_iff_left fun he => hne (Id.encode_injective (Std.LawfulEqCmp.eq_of_compare he)).symm

variable (s table) in
/-- A position in the part of the store where the table is that has the rows with `p` behind it and the
others before it. -/
structure Cuts (bound : Bytes) (p : Id → Prop) : Prop where
  start : (compare (tablePrefix s table) bound).isLE = true
  stop : ∀ y, compare y bound = .lt →
    ∀ u, prefixUpper (tablePrefix s table) = some u → compare y u = .lt
  rows : ∀ id x, (compare bound (rowKey s table id ++ x)).isLE = true ↔ p id

theorem lt_of_tablePrefix {key : Bytes} (h : tablePrefix s table <+: key) :
    ∀ u, prefixUpper (tablePrefix s table) = some u → compare key u = .lt :=
  ((isPrefix_iff_range _ _).mp h).2

theorem isLE_of_tablePrefix {key : Bytes} (h : tablePrefix s table <+: key) :
    (compare (tablePrefix s table) key).isLE = true := ((isPrefix_iff_range _ _).mp h).1

theorem tablePrefix_isPrefix_append (id : Id) (x : Bytes) :
    tablePrefix s table <+: rowKey s table id ++ x :=
  (tablePrefix_isPrefix s table id).trans (prefix_append _ _)

variable (s table) in
theorem cuts_start : Cuts s table (tablePrefix s table) fun _ => True where
  start := isLE_of_tablePrefix prefix_rfl
  stop _ hy u hu := Std.TransCmp.lt_trans hy (lt_of_tablePrefix prefix_rfl u hu)
  rows id x := iff_of_true (isLE_of_tablePrefix (tablePrefix_isPrefix_append id x)) trivial

theorem cuts_row (c : Id) : Cuts s table (rowKey s table c) fun id => id = c ∨ c.Before id where
  start := isLE_of_tablePrefix (tablePrefix_isPrefix s table c)
  stop _ hy u hu := Std.TransCmp.lt_trans hy (lt_of_tablePrefix (tablePrefix_isPrefix s table c) u hu)
  rows := isLE_rowKey_append c

/-- The first key after a row has the rows of larger ids behind it. -/
theorem cuts_past {past : Bytes} (hpa : prefixUpper (rowKey s table c) = some past) :
    Cuts s table past c.Before := by
  have hle := isLE_prefixUpper hpa
  refine ⟨?_, fun y hy u hu => ?_, fun id x => ?_⟩
  · have hpp := ((hle past).mp (by simp)).1
    exact Std.TransCmp.isLE_trans (isLE_of_tablePrefix (tablePrefix_isPrefix s table c)) hpp
  · -- below the position is what the row's key begins, which is in the table's part, and what is less
    by_cases hp : rowKey s table c <+: y
    · exact lt_of_tablePrefix ((tablePrefix_isPrefix s table c).trans hp) u hu
    · have hlt : ¬(compare past y).isLE = true := fun h => (isLE_iff_not_lt _ _).mp h hy
      rw [hle, not_and_not_right] at hlt
      have hbe : compare y (rowKey s table c) = .lt := by
        rw [isLE_iff_not_lt, Decidable.not_imp_comm] at hlt
        exact hlt hp
      exact Std.TransCmp.lt_trans hbe (lt_of_tablePrefix (tablePrefix_isPrefix s table c) u hu)
  · rw [hle, isLE_rowKey_append]
    constructor
    · rintro ⟨rfl | hb, hp⟩
      · exact absurd (prefix_append _ _) hp
      · exact hb
    · refine fun hb => ⟨.inr hb, ?_⟩
      rintro ⟨y, hy⟩
      rw [rowKey_eq, rowKey_eq, append_assoc, append_assoc, append_cancel_left_eq] at hy
      rw [(Id.encode_append_inj hy).1] at hb
      exact Id.not_before_self _ hb

theorem wholeKeys_of_rows (hks : TableInOrder s table ks)
    (hin : ∀ key, q key = true → tablePrefix s table <+: key)
    (hq : ∀ id x, q (rowKey s table id ++ x) = true ↔ p id) : WholeKeys ks q := by
  have hr : ∀ {k t kind}, encode k t kind ∈ ks → q (encode k t kind) = true →
      ∃ id, k = rowKey s table id := by
    intro k t kind hm hk
    obtain ⟨id, _, _, he⟩ := hks _ hm (hin _ hk)
    exact ⟨id, (encode_injective he).1⟩
  refine ⟨fun key hm hk => ?_, fun hm _ hk => ?_, fun hm hm' hk hk' hp => ?_, fun hm hk => ?_⟩
  · obtain ⟨id, t, kind, he⟩ := hks key hm (hin key hk)
    exact ⟨_, t, kind, he⟩
  · obtain ⟨id, rfl⟩ := hr hm hk
    exact (hq id _).mpr ((hq id _).mp hk)
  · obtain ⟨id, rfl⟩ := hr hm hk
    obtain ⟨_, rfl⟩ := hr hm' hk'
    rw [rowKey_isPrefix hp]
  · obtain ⟨id, rfl⟩ := hr hm hk
    exact hks.region.rowsDecode (tablePrefix_isPrefix s table id)

variable [DecidablePred p] {ks' : Keyspace} {key : Bytes} {new : List (Id × Bytes)} {bound : Bytes}

/-- **A walk over the rows with `p` meets those, in either direction.** -/
theorem entries_of_rows (hks : TableInOrder s table ks) (h : IsTable s table ks rows)
    (hin : ∀ key, q key = true → tablePrefix s table <+: key)
    (hq : ∀ id x, q (rowKey s table id ++ x) = true ↔ p id) :
    latestEntries none (ks.scan q) =
        ((rows.filter fun row => p row.1).map (rowEntryOf s table)).map .ok ∧
      latestEntriesRev none (ks.scan q).reverse =
        ((rows.reverse.filter fun row => p row.1).map (rowEntryOf s table)).map .ok := by
  have hwh := wholeKeys_of_rows hks hin hq
  obtain ⟨L, hwa, has, hme⟩ := hwh.latestRows_spec
  have hL : L = (rows.filter fun row => p row.1).map (rowEntryOf s table) := by
    refine has.eq_of_mem_iff (sorted_rows_iff.mpr (h.sorted.filter _)) fun ⟨k, v⟩ => ?_
    rw [hme]
    constructor
    · rintro ⟨⟨t, kind, hm, hk⟩, hge⟩
      obtain ⟨id, _, _, he⟩ := hks _ hm (hin _ hk)
      obtain rfl := (encode_injective he).1
      exact (mem_rows_iff s table).mpr (mem_filter.mpr
        ⟨(h.mem id v).mpr hge, decide_eq_true ((hq id _).mp hk)⟩)
    · intro hro
      obtain ⟨row, hro', he⟩ := mem_map.mp hro
      cases he
      obtain ⟨hro', hp⟩ := mem_filter.mp hro'
      have hge := (h.mem row.1 row.2).mp hro'
      obtain ⟨t, kind, hm⟩ := exists_row_of_getRaw
        (hks.region.rowsDecode (tablePrefix_isPrefix s table row.1)) hge
      exact ⟨⟨t, kind, hm, (hq row.1 _).mpr (of_decide_eq_true hp)⟩, hge⟩
  rw [hwh.latestEntriesRev, latestEntries_of_ok hwa, hL, filter_reverse, ← map_reverse, ← map_reverse]
  exact ⟨rfl, rfl⟩

/-- A walk from a position on. -/
theorem Cuts.entries_from (hb : Cuts s table bound p) (hks : TableInOrder s table ks)
    (h : IsTable s table ks rows) :
    rangeLatest ks bound (prefixUpper (tablePrefix s table)) =
        ((rows.filter fun row => p row.1).map (rowEntryOf s table)).map .ok ∧
      rangeLatestRev ks bound (prefixUpper (tablePrefix s table)) =
        ((rows.reverse.filter fun row => p row.1).map (rowEntryOf s table)).map .ok := by
  refine entries_of_rows hks h (fun key hk => ?_) fun id x => ?_
  · rw [Bool.and_eq_true, Option.all_eq_true] at hk
    refine (isPrefix_iff_range _ _).mpr ⟨Std.TransCmp.isLE_trans hb.start hk.1, fun u hu => ?_⟩
    exact eq_of_beq (hk.2 u hu)
  · rw [Bool.and_eq_true, hb.rows, and_iff_left_iff_imp, Option.all_eq_true]
    exact fun _ u hu => beq_iff_eq.mpr (lt_of_tablePrefix (tablePrefix_isPrefix_append id x) u hu)

/-- A walk down from a position. -/
theorem Cuts.entries_below (hb : Cuts s table bound p) (hks : TableInOrder s table ks)
    (h : IsTable s table ks rows) :
    rangeLatestRev ks (tablePrefix s table) (some bound) =
      ((rows.reverse.filter fun row => ¬p row.1).map (rowEntryOf s table)).map .ok := by
  refine (entries_of_rows hks h (p := fun id => ¬p id) (fun key hk => ?_) fun id x => ?_).2
  · rw [Bool.and_eq_true, Option.all_some, beq_iff_eq] at hk
    exact (isPrefix_iff_range _ _).mpr ⟨hk.1, hb.stop key hk.2⟩
  · rw [Bool.and_eq_true, Option.all_some, beq_iff_eq, ← hb.rows id x, isLE_iff_not_lt bound,
      not_not]
    exact and_iff_right (isLE_of_tablePrefix (tablePrefix_isPrefix_append id x))

/-! ## Listings -/

/-- In the order of a listing. -/
def TbOrderBy.Precedes : TbOrderBy → Id → Id → Prop
  | .keyAsc, a, b => a.Before b
  | .keyDesc, a, b => b.Before a

instance decidablePrecedes (order : TbOrderBy) (a b : Id) : Decidable (order.Precedes a b) :=
  match order with
  | .keyAsc => decidableIdBefore a b
  | .keyDesc => decidableIdBefore b a

/-- Rows in the order of a listing. -/
def TbOrderBy.ordered {α : Type} (rows : List α) : TbOrderBy → List α
  | .keyAsc => rows
  | .keyDesc => rows.reverse

/-- What there is to list from a cursor, of rows in the order of the listing. -/
def rowsFromCursor (order : TbOrderBy) (rows : List (Id × Bytes)) :
    Option Cursor → List (Id × Bytes)
  | none => rows
  | some (.at c) => rows.filter fun row => row.1 = c ∨ order.Precedes c row.1
  | some (.after c) => rows.filter fun row => order.Precedes c row.1
  | some (.skip n) => rows.drop n

theorem TbOrderBy.not_precedes_cycle (order : TbOrderBy) (h : order.Precedes a b) :
    ¬order.Precedes b a := by
  intro h'
  cases order with
  | keyAsc => exact a.not_before_self (h.trans h')
  | keyDesc => exact a.not_before_self (h'.trans h)

/-- The rows after a row are those behind it. -/
theorem filter_precedes (order : TbOrderBy) {front back : List (Id × Bytes)} {row : Id × Bytes}
    (h : (front ++ row :: back).Pairwise fun a b => order.Precedes a.1 b.1) :
    (front ++ row :: back).filter (fun row' => order.Precedes row.1 row'.1) = back := by
  obtain ⟨-, hb, hc⟩ := pairwise_append.mp h
  obtain ⟨hro, -⟩ := pairwise_cons.mp hb
  have hfr : ∀ row' ∈ front, ¬decide (order.Precedes row.1 row'.1) = true := by
    intro row' hr hp
    exact order.not_precedes_cycle (hc row' hr row mem_cons_self) (of_decide_eq_true hp)
  have hse : ¬decide (order.Precedes row.1 row.1) = true := fun hp =>
    order.not_precedes_cycle (of_decide_eq_true hp) (of_decide_eq_true hp)
  rw [filter_append, filter_eq_nil_iff.mpr hfr, nil_append, filter_cons, if_neg hse, filter_eq_self]
  exact fun row' hr => decide_eq_true (hro row' hr)

theorem exists_past (id : Id) : ∃ past, prefixUpper (rowKey s table id) = some past := by
  obtain ⟨upper, -, hu⟩ : ∃ upper, keyRange (rowKey s table id) =
      .ok (rowKey s table id, upper) ∧ prefixUpper (rowKey s table id) = some upper :=
    keyRange_cons (b := '@'.toUInt8) (by decide)
  exact ⟨upper, hu⟩

theorem Id.not_before_iff : ¬a.Before b ↔ b = a ∨ b.Before a := by
  constructor
  · intro h
    rcases a.before_or_eq_or b with hb | rfl | hb
    · exact absurd hb h
    · exact .inl rfl
    · exact .inr hb
  · rintro (rfl | h) hb
    · exact Id.not_before_self _ hb
    · exact Id.not_before_self _ (hb.trans h)

theorem tbList_of_range (order : TbOrderBy) (cursor : Option Cursor) {lower : Bytes}
    {upper : Option Bytes} {skip : Nat} (hr : tbRange s table cursor order = some (lower, upper, skip))
    (hw : (match order with
      | .keyAsc => rangeLatest ks lower upper
      | .keyDesc => rangeLatestRev ks lower upper) = (rows.map (rowEntryOf s table)).map .ok)
    (limit : Option Nat) : tbList ks s table cursor limit (some order) =
      .ok (((rows.drop skip).take (limit.getD maxUsize)).map listed) := by
  cases order <;> simp only [tbList, Option.getD_some, hr, hw, takeRows_eq]

/-- **A listing has the next rows from its cursor on**, whether the table has a row of the cursor's id
or not. -/
theorem tbList_eq (hks : TableInOrder s table ks) (h : IsTable s table ks rows)
    (cursor : Option Cursor) {limit : Option Nat} (order : TbOrderBy) :
    tbList ks s table cursor limit (some order) =
      .ok (((rowsFromCursor order (order.ordered rows) cursor).take
        (limit.getD maxUsize)).map listed) := by
  have hup := prefixToRange_snd (tablePrefix s table)
  have hfi : ∀ L : List (Id × Bytes), (L.filter fun _ => True) = L :=
    fun L => filter_eq_self.mpr fun _ _ => rfl
  have hall := (cuts_start s table).entries_from hks h
  rw [hfi, hfi, ← hup] at hall
  have hpas : ∀ c : Id, ∃ past, (prefixToRange (s.dataKey (.table table c))).2 = some past ∧
      Cuts s table past c.Before := by
    intro c
    obtain ⟨past, hpa⟩ := exists_past c
    exact ⟨past, (prefixToRange_snd _).trans hpa, cuts_past hpa⟩
  cases order with
  | keyAsc =>
    rcases cursor with _ | c | c | n
    · exact tbList_of_range .keyAsc none rfl hall.1 limit
    · obtain ⟨past, hpa, hcu⟩ := hpas c
      have hw := hcu.entries_from hks h
      rw [← hup] at hw
      have hr : tbRange s table (some (.after c)) .keyAsc =
          some (past, (prefixToRange (tablePrefix s table)).2, 0) := by
        simp only [tbRange, hpa]
      exact tbList_of_range .keyAsc _ hr hw.1 limit
    · have hw := (cuts_row c).entries_from hks h
      rw [← hup] at hw
      exact tbList_of_range .keyAsc (some (.at c)) rfl hw.1 limit
    · exact tbList_of_range .keyAsc (some (.skip n)) rfl hall.1 limit
  | keyDesc =>
    rcases cursor with _ | c | c | n
    · exact tbList_of_range .keyDesc none rfl hall.2 limit
    · have hw := (cuts_row c).entries_below hks h
      have hno : ∀ id : Id, ¬(id = c ∨ c.Before id) ↔ id.Before c := by
        intro id
        rw [eq_comm, ← Id.not_before_iff, not_not]
      simp only [hno] at hw
      exact tbList_of_range .keyDesc (some (.after c)) rfl hw limit
    · obtain ⟨past, hpa, hcu⟩ := hpas c
      have hw := hcu.entries_below hks h
      simp only [Id.not_before_iff] at hw
      have hr : tbRange s table (some (.at c)) .keyDesc =
          some (tablePrefix s table, some past, 0) := by
        simp only [tbRange, hpa]
        rfl
      exact tbList_of_range .keyDesc _ hr hw limit
    · exact tbList_of_range .keyDesc (some (.skip n)) rfl hall.2 limit

/-! ## Adding rows -/

/-- What does not touch the part of the store where the table is leaves the table. -/
theorem IsTable.congr (h : IsTable s table ks rows)
    (hs : ∀ key, tablePrefix s table <+: key → ks'[key]? = ks[key]?) :
    IsTable s table ks' rows := by
  refine ⟨?_, h.sorted, fun id v => ?_⟩
  · rw [Store.prefixOf_congr hs]
    exact h.walk
  · rw [h.mem, getRaw, getFromRaw, getRaw, getFromRaw, Store.prefixOf_congr fun key hk =>
      hs key ((tablePrefix_isPrefix s table id).trans hk)]

theorem TableInOrder.congr (h : TableInOrder s table ks)
    (hs : ∀ key, tablePrefix s table <+: key → ks'[key]? = ks[key]?) :
    TableInOrder s table ks' := by
  intro key hm hk
  refine h key ?_ hk
  rw [Store.mem_iff_exists_lookup] at hm ⊢
  rwa [hs key hk] at hm

/-- A key of the table's part is no index row. -/
theorem versionIndexKey_ne_of_isPrefix (hk : tablePrefix s table <+: key)
    (t : Version) (d : Bytes) : versionIndexKey t d ≠ key := by
  rintro rfl
  obtain ⟨x, hx⟩ := hk
  have hh : (tablePrefix s table ++ x).head? = some '@'.toUInt8 := rfl
  rw [hx, head_versionIndexKey] at hh
  cases hh

variable (s table) in
/-- The store has no row of the id, not even a deleted one. -/
def NoRow (ks : Keyspace) (id : Id) : Prop := ∀ t kind, encode (rowKey s table id) t kind ∉ ks

theorem TableInOrder.putAtRaw (h : TableInOrder s table ks) (id : Id) (v : Bytes) (ts : Version) :
    TableInOrder s table (putAtRaw ks (rowKey s table id) v ts) := by
  intro key hm hk
  rw [Myrmic.putAtRaw, insertAtRaw, mem_writeRow, mem_dropRow] at hm
  rcases hm with he | he | hm
  · exact ⟨id, ts, .insertion, he⟩
  · exact absurd he.symm (versionIndexKey_ne_of_isPrefix hk ts _)
  · exact h key hm.2.2 hk

theorem userKey_rowKey (id : Id) : UserKey (rowKey s table id) := .of_scope

/-- A put leaves the rows of other ids. -/
theorem rowAt_putAtRaw_id (hne : id ≠ a) {v : Bytes} {ts t : Version} {kind : KeyKind} :
    rowAt (putAtRaw ks (rowKey s table id) v ts) (rowKey s table a) t kind =
      rowAt ks (rowKey s table a) t kind :=
  rowAt_putAtRaw_of_ne (userKey_rowKey a) (.inr fun he => hne (rowKey_injective he))

theorem NoRow.putAtRaw (h : NoRow s table ks a) (hne : id ≠ a) (v : Bytes)
    (ts : Version) : NoRow s table (Myrmic.putAtRaw ks (rowKey s table id) v ts) a := by
  intro t kind hm
  obtain ⟨_, hv⟩ := Store.mem_iff_exists_lookup.mp hm
  exact h t kind (Store.mem_of_lookup ((rowAt_putAtRaw_id hne).symm.trans hv))

/-- A new row is read back. -/
theorem getRaw_putAtRaw (hks : TableInOrder s table ks) (hid : NoRow s table ks id)
    (v : Bytes) (ts : Version) : getRaw (putAtRaw ks (rowKey s table id) v ts) (rowKey s table id) =
      .ok (some (rowKey s table id, v)) := by
  refine getFromRaw_of_readsAt (r := some v)
    ((hks.putAtRaw id v ts).region.rowsDecode (tablePrefix_isPrefix s table id))
    (.newest le_maxVersion (cell_putAtRaw_self (userKey_rowKey id)) fun t hlt _ => ?_)
  refine cell_eq_none_iff.mpr fun kind => ?_
  rw [rowAt_putAtRaw_of_ne (userKey_rowKey id) (.inl (UInt64.ne_of_lt hlt).symm)]
  cases hr : rowAt ks (rowKey s table id) t kind with
  | none => rfl
  | some w => exact absurd (Store.mem_of_lookup hr) (hid t kind)

theorem nodup_of_sorted (h : rows.Pairwise fun a b => a.1.Before b.1) : rows.Nodup := by
  refine List.Pairwise.imp (fun {a b} hlt => ?_) h
  rintro rfl
  exact Id.not_before_self _ hlt

variable (h : IsTable s table ks rows)
include h

/-- A row that the store does not have is not in the table. -/
theorem NoRow.not_mem (hks : TableInOrder s table ks) (hid : NoRow s table ks id) (v : Bytes) :
    (id, v) ∉ rows := by
  intro hm
  obtain ⟨t, kind, hin⟩ := exists_row_of_getRaw
    (hks.region.rowsDecode (tablePrefix_isPrefix s table id)) ((h.mem id v).mp hm)
  exact hid t kind hin

/-- **A put with a new id adds the row.** -/
theorem IsTable.putAtRaw (hks : TableInOrder s table ks) (hid : NoRow s table ks id) (v : Bytes)
    (ts : Version) :
    ∃ rows', IsTable s table (putAtRaw ks (rowKey s table id) v ts) rows' ∧
      rows'.Perm (rows ++ [(id, v)]) := by
  obtain ⟨rows', h'⟩ := (hks.putAtRaw id v ts).exists_isTable
  refine ⟨rows', h', ?_⟩
  have hno : (rows ++ [(id, v)]).Nodup := by
    refine (nodup_of_sorted h.sorted).append (nodup_singleton _) ?_
    intro row hro hro'
    rw [mem_singleton.mp hro'] at hro
    exact hid.not_mem h hks v hro
  refine (perm_ext_iff_of_nodup (nodup_of_sorted h'.sorted) hno).mpr fun ⟨a, w⟩ => ?_
  rw [h'.mem, mem_append, mem_singleton]
  by_cases hne : id = a
  · subst hne
    rw [getRaw_putAtRaw hks hid]
    constructor
    · intro he
      cases he
      exact .inr rfl
    · rintro (hme | he)
      · exact absurd hme (hid.not_mem h hks w)
      · cases he
        rfl
  · have hsa : getRaw (Myrmic.putAtRaw ks (rowKey s table id) v ts) (rowKey s table a) =
        getRaw ks (rowKey s table a) := by
      have hk := tablePrefix_isPrefix s table a
      obtain ⟨r, hr, hre⟩ := getFromRaw_spec (hks.region.rowsDecode hk)
      rw [getRaw, getRaw, hr]
      exact getFromRaw_of_readsAt ((hks.putAtRaw id v ts).region.rowsDecode hk)
        (hre.congr fun t _ => (cell_congr fun kind => rowAt_putAtRaw_id hne).symm)
    rw [hsa, ← h.mem]
    refine (or_iff_left fun he => hne ?_).symm
    cases he
    rfl

variable (s table) in
/-- Writes rows at one version. -/
def putRows (ts : Version) (ks : Keyspace) (rows : List (Id × Bytes)) : Keyspace :=
  rows.foldl (fun ks row => putAtRaw ks (rowKey s table row.1) row.2 ts) ks

/-- **Writing rows with new ids adds exactly those rows.** -/
theorem IsTable.putRows (hks : TableInOrder s table ks) (hn : (new.map Prod.fst).Nodup)
    (hi : ∀ row ∈ new, NoRow s table ks row.1) (ts : Version) :
    TableInOrder s table (putRows s table ts ks new) ∧
      ∃ rows', IsTable s table (putRows s table ts ks new) rows' ∧ rows'.Perm (rows ++ new) := by
  induction new generalizing ks rows with
  | nil => exact ⟨hks, rows, h, by rw [append_nil]⟩
  | cons row new ih =>
    obtain ⟨hr, hn⟩ := nodup_cons.mp hn
    obtain ⟨_, h₁, hp₁⟩ := h.putAtRaw hks (hi row mem_cons_self) row.2 ts
    have hi₁ : ∀ row' ∈ new,
        NoRow s table (Myrmic.putAtRaw ks (rowKey s table row.1) row.2 ts) row'.1 := by
      intro row' hr'
      refine (hi row' (mem_cons_of_mem _ hr')).putAtRaw (fun he => hr ?_) row.2 ts
      rw [he]
      exact mem_map_of_mem hr'
    obtain ⟨hks', rows', h', hp⟩ := ih h₁ (hks.putAtRaw row.1 row.2 ts) hn hi₁
    refine ⟨hks', rows', h', hp.trans ?_⟩
    rw [← singleton_append, ← append_assoc]
    exact hp₁.append_right new

omit h

theorem NoRow.putRows (h : NoRow s table ks a) (ha : a ∉ new.map Prod.fst) (ts : Version) :
    NoRow s table (Myrmic.putRows s table ts ks new) a := by
  induction new generalizing ks with
  | nil => exact h
  | cons row new ih =>
    rw [map_cons, mem_cons, not_or] at ha
    obtain ⟨hne, hr⟩ := ha
    exact ih (h.putAtRaw (Ne.symm hne) row.2 ts) hr

theorem NoRow.congr (h : NoRow s table ks a)
    (hs : ∀ key, tablePrefix s table <+: key → ks'[key]? = ks[key]?) : NoRow s table ks' a := by
  intro t kind hm
  refine h t kind ?_
  rw [Store.mem_iff_exists_lookup] at hm ⊢
  rwa [hs _ ((tablePrefix_isPrefix s table a).trans (isPrefix_encode _ _ _))] at hm

/-- Rows that are added behind some rows leave those where they are. -/
theorem eq_append_of_perm {passed ahead rows' : List (Id × Bytes)}
    (hso : (passed ++ ahead).Pairwise fun a b => a.1.Before b.1)
    (hso' : rows'.Pairwise fun a b => a.1.Before b.1)
    (hpe : rows'.Perm (passed ++ ahead ++ new))
    (hbe : ∀ a ∈ passed, ∀ b ∈ new, a.1.Before b.1) :
    ∃ ahead', rows' = passed ++ ahead' ∧ ahead'.Perm (ahead ++ new) := by
  obtain ⟨hpa, -, hcr⟩ := pairwise_append.mp hso
  have hme : ∀ x, x ∈ rows' ↔ x ∈ passed ∨ x ∈ ahead ++ new := by
    intro x
    rw [hpe.mem_iff, append_assoc, mem_append]
  have hno := nodup_of_sorted hso'
  have hal : (passed ++ (ahead ++ new)).Nodup := by
    rw [← append_assoc]
    exact hpe.nodup_iff.mp hno
  obtain ⟨-, hre, hdi⟩ := nodup_append.mp hal
  let ahead' := rows'.filter fun x => x ∉ passed
  have hah : ∀ x, x ∈ ahead' ↔ x ∈ ahead ++ new := by
    intro x
    simp only [ahead', mem_filter, hme, decide_eq_true_eq]
    constructor
    · rintro ⟨hx | hx, hnot⟩
      · exact absurd hx hnot
      · exact hx
    · exact fun hx => ⟨.inr hx, fun hx' => hdi x hx' x hx rfl⟩
  refine ⟨ahead', ?_, (perm_ext_iff_of_nodup (hno.filter _) hre).mpr hah⟩
  have hso'' : (passed ++ ahead').Pairwise fun a b => a.1.Before b.1 := by
    refine pairwise_append.mpr ⟨hpa, hso'.filter _, fun a ha b hb => ?_⟩
    rcases mem_append.mp ((hah b).mp hb) with hb | hb
    · exact hcr a ha b hb
    · exact hbe a ha b hb
  refine eq_of_sorted (f := fun row : Id × Bytes => row.1.encode) hso' hso'' fun x => ?_
  exact (hme x).trans ((or_congr_right (hah x).symm).trans mem_append.symm)

end Table

end Myrmic
