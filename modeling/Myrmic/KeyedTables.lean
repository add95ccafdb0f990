import Mathlib.Data.Set.Finite.Lemmas

/-!
# Tables kept as lists

A table is a list of rows; a function names the key of a row.  To put a row is to drop the rows under
its key and to append it, so that what is in a table after a write is said by membership alone.

Where the rows under one key carry a rank, `latest` are the rows that no row under the same key
outranks.
-/
namespace KeyedTables
open List
variable {α κ : Type} [DecidableEq κ] (key : α → κ)

/-- Writes a row in place of what is under its key. -/
def put (a : α) (rows : List α) : List α := rows.filter (fun b => key b ≠ key a) ++ [a]

def erase (k : κ) (rows : List α) : List α := rows.filter fun b => key b ≠ k

def lookup (k : κ) (rows : List α) : Option α := rows.find? fun b => key b = k

variable {key} {a b : α} {k : κ} {rows : List α} {k' : κ}

@[simp] theorem mem_put : b ∈ put key a rows ↔ (b ∈ rows ∧ key b ≠ key a) ∨ b = a := by
  simp [put]

@[simp] theorem mem_erase : b ∈ erase key k rows ↔ b ∈ rows ∧ key b ≠ k := by
  simp [erase]

theorem mem_of_lookup (h : lookup key k rows = some a) : a ∈ rows ∧ key a = k := by
  refine ⟨mem_of_find?_eq_some h, ?_⟩
  simpa using List.find?_some h

theorem lookup_eq_none : lookup key k rows = none ↔ ∀ a ∈ rows, key a ≠ k := by
  simp [lookup]

theorem nodup_erase (h : (rows.map key).Nodup) : ((erase key k rows).map key).Nodup :=
  h.sublist (filter_sublist.map _)

theorem nodup_put (h : (rows.map key).Nodup) : ((put key a rows).map key).Nodup := by
  simp only [put, map_append, map_cons, map_nil]
  refine nodup_append.mpr ⟨nodup_erase h, nodup_singleton _, ?_⟩
  intro k hk k' hk'
  obtain ⟨b, hb, rfl⟩ := mem_map.mp hk
  rw [mem_singleton.mp hk']
  simpa using (mem_filter.mp hb).2

theorem lookup_put_self : lookup key (key a) (put key a rows) = some a := by
  have hn : (rows.filter fun b => key b ≠ key a).find? (fun b => key b = key a) = none := by
    rw [List.find?_eq_none]
    intro b hb
    simpa using (mem_filter.mp hb).2
  have hl : [a].find? (fun b => key b = key a) = some a := by simp
  simp only [lookup, put, List.find?_append, hn, hl, Option.none_or]

theorem lookup_erase_self : lookup key k (erase key k rows) = none := by
  simp [lookup, erase]

theorem lookup_erase_of_ne (h : k' ≠ k) :
    lookup key k' (erase key k rows) = lookup key k' rows := by
  simp only [lookup, erase]
  rw [List.find?_filter]
  congr 1
  funext b
  by_cases hb : key b = k'
  · simp [hb, h]
  · simp [hb]

theorem lookup_put_of_ne (h : k' ≠ key a) :
    lookup key k' (put key a rows) = lookup key k' rows := by
  have hl : [a].find? (fun b => key b = k') = none := by simp [h.symm]
  have hr : (rows.filter fun b => key b ≠ key a).find? (fun b => key b = k') =
      rows.find? fun b => key b = k' := lookup_erase_of_ne h
  simp only [lookup, put, List.find?_append, hr, hl, Option.or_none]

variable {ρ : Type} [LinearOrder ρ] (rank : α → ρ)

/-- The rows that none under the same key outranks. -/
def latest (key : α → κ) (rank : α → ρ) (rows : List α) : List α :=
  rows.filter fun a => rows.all fun b => key b ≠ key a ∨ rank b ≤ rank a

variable {rank}

theorem mem_latest :
    a ∈ latest key rank rows ↔ a ∈ rows ∧ ∀ b ∈ rows, key b = key a → rank b ≤ rank a := by
  simp only [latest, mem_filter, all_eq_true, decide_eq_true_eq]
  refine and_congr_right fun _ => forall₂_congr fun b _ => ?_
  constructor
  · rintro (h | h) heq
    · exact absurd heq h
    · exact h
  · intro h
    by_cases heq : key b = key a
    · exact .inr (h heq)
    · exact .inl heq

theorem exists_latest (ha : a ∈ rows) : ∃ b ∈ latest key rank rows, key b = key a := by
  have hf : {b | b ∈ rows ∧ key b = key a}.Finite := (finite_toSet rows).subset fun b hb => hb.1
  obtain ⟨b, ⟨hb, hk⟩, hm⟩ := Set.exists_max_image _ rank hf ⟨a, ha, rfl⟩
  exact ⟨b, mem_latest.mpr ⟨hb, fun c hc hs => hm c ⟨hc, hs.trans hk⟩⟩, hk⟩

end KeyedTables
