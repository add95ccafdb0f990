import Myrmic.Tables
import Myrmic.Wire

/-!
# Paging through a table

A client reads a table page by page: it asks for `n` rows, and as long as it gets that many it asks for
those after the last id it has seen.  A listing has the rows from its cursor on (`tbList_eq`), so the
pages are consecutive pieces of the table in the order of the listing, and **the client sees every row
once and in order** (`table_paging`).  The id in a cursor need not be in the table.
-/
namespace Myrmic
open OrderedBytes Fallible List

/-- Follows the pages of `n` rows from a cursor to the first shorter one; the fuel bounds their number. -/
def followPages (ks : Keyspace) (s : Scope) (table : Name) (order : TbOrderBy) (n : Nat) :
    Nat → Option Cursor → Except String (List (Bytes × Bytes))
  | 0, _ => .error "out of fuel"
  | fuel + 1, cursor => do
    let page ← tbList ks s table cursor (some n) (some order)
    if page.length < n then return page
    else
      let last ← Id.ofBytes (page.getLastD ([], [])).1
      let rest ← followPages ks s table order n fuel (some (.after last))
      return page ++ rest

variable {ks : Keyspace} {s : Scope} {table : Name} {rows : List (Id × Bytes)} {n : Nat}

theorem TbOrderBy.pairwise_ordered (order : TbOrderBy)
    (h : rows.Pairwise fun a b => a.1.Before b.1) :
    (order.ordered rows).Pairwise fun a b => order.Precedes a.1 b.1 := by
  cases order with
  | keyAsc => exact h
  | keyDesc => exact pairwise_reverse.mpr h

/-- **Following the pages lists what is behind the cursor.** -/
theorem followPages_eq (hks : TableInOrder s table ks) (h : IsTable s table ks rows)
    (order : TbOrderBy) (hn : 1 ≤ n) {front back : List (Id × Bytes)} {cursor : Option Cursor}
    (hro : order.ordered rows = front ++ back)
    (hcu : rowsFromCursor order (order.ordered rows) cursor = back) {fuel : Nat}
    (hf : back.length < fuel) :
    followPages ks s table order n fuel cursor = .ok (back.map listed) := by
  induction fuel generalizing front back cursor with
  | zero => exact absurd hf (Nat.not_lt_zero _)
  | succ fuel ih =>
    have hpa : tbList ks s table cursor (some n) (some order) = .ok ((back.take n).map listed) := by
      rw [tbList_eq hks h, hcu]
      rfl
    refine bind_eq_ok.mpr ⟨_, hpa, ?_⟩
    rw [length_map, length_take]
    by_cases hle : back.length < n
    · rw [if_pos (by omega), take_of_length_le hle.le]
      rfl
    · rw [if_neg (by omega)]
      -- the page is full, and its last row is where the next one starts
      obtain ⟨page, row, hpg⟩ : ∃ page row, back.take n = page ++ [row] := by
        refine (eq_nil_or_concat' _).resolve_left fun hni => ?_
        have hle := congrArg length hni
        rw [length_take, length_nil] at hle
        omega
      have hne : order.ordered rows = front ++ page ++ [row] ++ back.drop n := by
        rw [hro, append_assoc front, ← hpg, append_assoc, take_append_drop]
      have hcu : rowsFromCursor order (order.ordered rows) (some (.after row.1)) = back.drop n := by
        have hpr := order.pairwise_ordered h.sorted
        rw [hne, append_assoc _ [row], singleton_append] at hpr
        rw [hne, append_assoc _ [row], singleton_append]
        exact filter_precedes order hpr
      have hre := ih hne hcu (by rw [length_drop]; omega)
      have hla : ((page ++ [row]).map listed).getLastD ([], []) = listed row := by simp
      rw [hpg, hla]
      refine bind_eq_ok.mpr ⟨row.1, Id.ofBytes_bytes _, bind_eq_ok.mpr ⟨_, hre, ?_⟩⟩
      rw [← map_append, ← hpg, take_append_drop]
      rfl

/-- **Paging visits every live row once and in order**, and a listing has exactly the rows at, behind or
a number of rows after its cursor. -/
theorem table_paging (hks : TableInOrder s table ks) (order : TbOrderBy) (hn : 1 ≤ n) :
    ∃ rows : List (Id × Bytes), (∀ id v, (id, v) ∈ rows ↔
        getRaw ks (rowKey s table id) = .ok (some (rowKey s table id, v))) ∧
      rows.Pairwise (fun a b => order.Precedes a.1 b.1) ∧
      (∀ fuel, rows.length < fuel →
        followPages ks s table order n fuel none = .ok (rows.map listed)) ∧
      ∀ cursor limit, tbList ks s table cursor limit (some order) =
        .ok (((rowsFromCursor order rows cursor).take (limit.getD maxUsize)).map listed) := by
  obtain ⟨rows, h⟩ := hks.exists_isTable
  refine ⟨order.ordered rows, fun id v => ?_, order.pairwise_ordered h.sorted,
    fun fuel hf => followPages_eq hks h order hn (nil_append _).symm rfl hf,
    fun cursor limit => tbList_eq hks h cursor order⟩
  rw [← h.mem]
  cases order with
  | keyAsc => rfl
  | keyDesc => exact mem_reverse

/-- Two rows, read one by one from the last. -/
theorem table_paging_backwards : ∃ ks, TableInOrder Sample.scope nameA ks ∧
    followPages ks Sample.scope nameA .keyDesc 1 3 none = .ok [([2], [20]), ([1], [10])] ∧
    ∃ rows : List (Id × Bytes), rows.Pairwise (fun a b => b.1.Before a.1) ∧
      followPages ks Sample.scope nameA .keyDesc 1 (rows.length + 1) none =
        .ok (rows.map listed) := by
  have he : TableInOrder Sample.scope nameA ∅ := fun key hm _ => by simp at hm
  have hks := (he.putAtRaw ⟨[1], by decide⟩ [10] 1).putAtRaw ⟨[2], by decide⟩ [20] 1
  obtain ⟨rows, -, hpr, hfo, -⟩ := table_paging hks .keyDesc (Nat.le_refl 1)
  exact ⟨_, hks, by decide +kernel, rows, hpr, hfo _ (Nat.lt_succ_self _)⟩

end Myrmic
