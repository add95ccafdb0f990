import Myrmic.OrderedBytes
import Mathlib.Data.List.Induction

/-!
# An ordered key-value store and its scans

The store is a finite map from byte strings to values that can be walked in key order.  A scan is
the ascending list of the entries whose key satisfies a test; prefix scans and range scans are the
two tests a client uses.  What a proof about a client needs is collected here once:

* **membership**: an entry is listed iff the map holds it and the test accepts its key;
* **order**: a scan is strictly ascending, so it is determined by its members, and the first
  accepted entry is the least one;
* **frame**: a scan does not see a change at a key its test refuses.
-/
namespace OrderedBytes
open List

/-- A finite map from byte strings to values, walked in lexicographic key order. -/
abbrev Store (β : Type) := Std.ExtTreeMap Bytes β compare

/-- A list of entries in strictly ascending key order. -/
def Ascending {β : Type} (l : List (Bytes × β)) : Prop :=
  l.Pairwise fun a b => compare a.1 b.1 = .lt

variable {keep : Bytes → Bool} {p : Bytes}
namespace Store
variable {β : Type} {m m' : Store β} {k a : Bytes} {v : β} {kv : Bytes × β}

@[simp] theorem lookup_insert : (m.insert k v)[a]? = if k = a then some v else m[a]? := by
  rw [Std.ExtTreeMap.getElem?_insert]
  simp only [Std.LawfulEqCmp.compare_eq_iff_eq]

@[simp] theorem lookup_erase : (m.erase k)[a]? = if k = a then none else m[a]? := by
  rw [Std.ExtTreeMap.getElem?_erase]
  simp only [Std.LawfulEqCmp.compare_eq_iff_eq]

theorem mem_iff_exists_lookup : k ∈ m ↔ ∃ v, m[k]? = some v := by
  rw [Std.ExtTreeMap.mem_iff_isSome_getElem?, Option.isSome_iff_exists]

theorem mem_insert : a ∈ m.insert k v ↔ a = k ∨ a ∈ m := by
  rw [Std.ExtTreeMap.mem_insert, Std.LawfulEqCmp.compare_eq_iff_eq, eq_comm]

theorem mem_erase : a ∈ m.erase k ↔ a ≠ k ∧ a ∈ m := by
  rw [Std.ExtTreeMap.mem_erase, Ne, Std.LawfulEqCmp.compare_eq_iff_eq, eq_comm]

theorem mem_of_lookup (h : m[k]? = some v) : k ∈ m := mem_iff_exists_lookup.mpr ⟨v, h⟩

/-! ## Scans -/

/-- The entries whose key passes a test, in ascending key order. -/
def scan (m : Store β) (keep : Bytes → Bool) : List (Bytes × β) :=
  m.toList.filter fun kv => keep kv.1

/-- The entries whose key starts with `p`. -/
def prefixOf (m : Store β) (p : Bytes) : List (Bytes × β) :=
  scan m fun k => p.isPrefixOf k

/-- The entries whose key lies in the half-open interval from `lower` to `upper`. -/
def rangeOf (m : Store β) (lower upper : Bytes) : List (Bytes × β) :=
  scan m fun k => (compare lower k).isLE && compare k upper == .lt

/-- The entries from `lower` on, below `upper` if there is one. -/
def rangeFrom (m : Store β) (lower : Bytes) (upper : Option Bytes) : List (Bytes × β) :=
  scan m fun k => (compare lower k).isLE && upper.all fun u => compare k u == .lt

theorem mem_scan : kv ∈ scan m keep ↔ m[kv.1]? = some kv.2 ∧ keep kv.1 = true := by
  rw [scan, mem_filter, ← Std.ExtTreeMap.mem_toList_iff_getElem?_eq_some]

theorem mem_prefixOf : kv ∈ prefixOf m p ↔ m[kv.1]? = some kv.2 ∧ p <+: kv.1 := by
  rw [prefixOf, mem_scan, List.isPrefixOf_iff_prefix]

theorem ascending_scan (keep : Bytes → Bool) : Ascending (scan m keep) := by
  have h : Ascending m.toList := Std.ExtTreeMap.ordered_keys_toList
  exact List.Pairwise.sublist filter_sublist h

/-- Over the interval of a prefix, a range scan is the prefix scan. -/
theorem rangeOf_eq_prefixOf {u : Bytes} (hu : prefixUpper p = some u) :
    rangeOf m p u = prefixOf m p := by
  refine filter_congr fun kv _ => ?_
  rw [Bool.eq_iff_iff, Bool.and_eq_true, beq_iff_eq, List.isPrefixOf_iff_prefix, isPrefix_iff_range]
  simp [hu]

end Store

/-! ## Ascending lists -/

/-- A list in the order of keys is determined by its members. -/
theorem eq_of_sorted {α : Type} {f : α → Bytes} {l l' : List α}
    (h : l.Pairwise fun a b => compare (f a) (f b) = .lt)
    (h' : l'.Pairwise fun a b => compare (f a) (f b) = .lt) (hm : ∀ x, x ∈ l ↔ x ∈ l') :
    l = l' := by
  have : Std.Asymm fun a b => compare (f a) (f b) = .lt := ⟨fun a b hab hba => by
    rw [Std.OrientedCmp.gt_of_lt hba] at hab
    cases hab⟩
  exact h.eq_of_mem_iff h' hm

namespace Ascending
variable {β : Type} {l l' : List (Bytes × β)} {x y : Bytes × β} {p : Bytes × β → Bool}

theorem eq_of_mem_iff (h : Ascending l) (h' : Ascending l') (hm : ∀ x, x ∈ l ↔ x ∈ l') :
    l = l' := eq_of_sorted (f := Prod.fst) h h' hm

/-- Every other accepted entry of an ascending list comes after the first accepted one. -/
theorem lt_of_find?_eq_some (h : Ascending l) (hx : l.find? p = some x)
    (hy : y ∈ l) (hp : p y = true) : y = x ∨ compare x.1 y.1 = .lt := by
  rw [← head?_filter] at hx
  obtain ⟨l', hl⟩ := head?_eq_some_iff.mp hx
  have hf : Ascending (l.filter p) := List.Pairwise.filter p h
  have hm := mem_filter.mpr ⟨hy, hp⟩
  rw [hl] at hf hm
  rcases mem_cons.mp hm with rfl | hm
  · exact .inl rfl
  · exact .inr ((pairwise_cons.mp hf).1 y hm)

/-- Ascending lists with the same accepted entries have the same first accepted entry. -/
theorem find?_congr (h : Ascending l) (h' : Ascending l')
    (hm : ∀ x, p x = true → (x ∈ l ↔ x ∈ l')) : l.find? p = l'.find? p := by
  have hf : l.filter p = l'.filter p := by
    refine eq_of_mem_iff (List.Pairwise.filter p h) (List.Pairwise.filter p h') fun x => ?_
    rw [mem_filter, mem_filter]
    exact and_congr_left (hm x)
  rw [← head?_filter, ← head?_filter, hf]

end Ascending
namespace Store
variable {β : Type} {m m' : Store β}

/-- **Frame.**  Stores that agree on the accepted keys have the same scan. -/
theorem scan_congr (h : ∀ k, keep k = true → m[k]? = m'[k]?) : scan m keep = scan m' keep := by
  refine (ascending_scan keep).eq_of_mem_iff (ascending_scan keep) fun x => ?_
  rw [mem_scan, mem_scan]
  exact and_congr_left fun hk => by rw [h x.1 hk]

theorem prefixOf_congr (h : ∀ k, p <+: k → m[k]? = m'[k]?) : prefixOf m p = prefixOf m' p :=
  scan_congr fun k hk => h k (List.isPrefixOf_iff_prefix.mp hk)

end Store

/-! ## Runs of one key -/

section Runs
variable {β : Type} {l : List (Bytes × β)} {prev : Option Bytes}

/-- Keeps the first entry of each run of entries with one key; `prev` is the key before the list. -/
def firstOfRuns (prev : Option Bytes) : List (Bytes × β) → List (Bytes × β)
  | [] => []
  | x :: l => if prev = some x.1 then firstOfRuns prev l else x :: firstOfRuns (some x.1) l

theorem firstOfRuns_sublist (prev : Option Bytes) (l : List (Bytes × β)) :
    (firstOfRuns prev l).Sublist l := by
  induction l generalizing prev with
  | nil => exact List.Sublist.refl _
  | cons x l ih =>
    rw [firstOfRuns]
    split
    · exact (ih prev).cons x
    · exact (ih _).cons_cons x

theorem firstOfRuns_idem (prev : Option Bytes) (l : List (Bytes × β)) :
    firstOfRuns prev (firstOfRuns prev l) = firstOfRuns prev l := by
  induction l generalizing prev with
  | nil => rfl
  | cons x l ih =>
    rw [firstOfRuns]
    split
    · exact ih prev
    · next h => rw [firstOfRuns, if_neg h, ih]

/-- **When the keys never go down** there is one run for each key, and its first entry is kept. -/
theorem firstOfRuns_spec (h : l.Pairwise fun a b => compare a.1 b.1 ≠ .gt)
    (hpr : ∀ p, prev = some p → ∀ x ∈ l, compare p x.1 ≠ .gt) :
    Ascending (firstOfRuns prev l) ∧ ∀ x, x ∈ firstOfRuns prev l ↔
      prev ≠ some x.1 ∧ l.find? (fun y => y.1 == x.1) = some x := by
  induction l generalizing prev with
  | nil => exact ⟨List.Pairwise.nil, by simp [firstOfRuns]⟩
  | cons a l ih =>
    obtain ⟨ha, hl⟩ := pairwise_cons.mp h
    by_cases hru : prev = some a.1
    · obtain ⟨has, hme⟩ := ih hl fun p hp x hx => hpr p hp x (mem_cons_of_mem _ hx)
      rw [firstOfRuns, if_pos hru]
      refine ⟨has, fun x => (hme x).trans (and_congr_right fun hne => ?_)⟩
      have hsk : (a.1 == x.1) = false := by
        simpa using fun he : a.1 = x.1 => hne (he ▸ hru)
      rw [List.find?_cons_of_neg (by simp [hsk])]
    · obtain ⟨has, hme⟩ := ih hl fun p hp x hx => Option.some.inj hp ▸ ha x hx
      -- the keys after a new key are all greater than it
      have hgr : ∀ x ∈ firstOfRuns (some a.1) l, compare a.1 x.1 = .lt := by
        intro x hx
        obtain ⟨hne, hfi⟩ := (hme x).mp hx
        have hle := ha x (mem_of_find?_eq_some hfi)
        cases hc : compare a.1 x.1 with
        | lt => rfl
        | eq => exact absurd (congrArg some (Std.LawfulEqCmp.eq_of_compare hc)) hne
        | gt => exact absurd hc hle
      rw [firstOfRuns, if_neg hru]
      refine ⟨pairwise_cons.mpr ⟨hgr, has⟩, fun x => ?_⟩
      by_cases hx : a.1 = x.1
      · rw [List.find?_cons_of_pos (by simp [hx]), mem_cons]
        constructor
        · rintro (rfl | hin)
          · exact ⟨hru, rfl⟩
          · exact absurd (congrArg some hx) ((hme x).mp hin).1
        · rintro ⟨-, he⟩
          exact .inl (Option.some.inj he).symm
      · rw [List.find?_cons_of_neg (by simpa using hx), mem_cons]
        have hne : some a.1 ≠ some x.1 := fun he => hx (Option.some.inj he)
        constructor
        · rintro (rfl | hin)
          · exact absurd rfl hx
          · obtain ⟨-, hfi⟩ := (hme x).mp hin
            refine ⟨fun hp => ?_, hfi⟩
            -- a key before the list that is not the first key does not come back
            have hlt := hgr x hin
            have hge := hpr _ hp a mem_cons_self
            exact hge (Std.OrientedCmp.gt_of_lt hlt)
        · rintro ⟨-, hfi⟩
          exact .inr ((hme x).mpr ⟨hne, hfi⟩)

/-- Keeps the last entry of each run; `pending` is the entry before the list. -/
def lastOfRuns (pending : Option (Bytes × β)) : List (Bytes × β) → List (Bytes × β)
  | [] => pending.toList
  | x :: l =>
    match pending with
    | none => lastOfRuns (some x) l
    | some y => if y.1 = x.1 then lastOfRuns (some x) l else y :: lastOfRuns (some x) l

theorem firstOfRuns_append_pair (prev : Option Bytes) (l : List (Bytes × β)) (x y : Bytes × β) :
    firstOfRuns prev (l ++ [x] ++ [y]) =
      firstOfRuns prev (l ++ [x]) ++ if x.1 = y.1 then [] else [y] := by
  induction l generalizing prev with
  | nil =>
    simp only [nil_append, singleton_append, firstOfRuns]
    by_cases hx : prev = some x.1
    · rw [if_pos hx, if_pos hx, hx]
      simp
    · rw [if_neg hx, if_neg hx]
      simp
  | cons a l ih =>
    simp only [cons_append, firstOfRuns]
    split
    · exact ih prev
    · rw [ih, cons_append]

/-- From the other end the first entries of the runs are the last ones. -/
theorem lastOfRuns_reverse (l : List (Bytes × β)) :
    lastOfRuns none l.reverse = (firstOfRuns none l).reverse := by
  have hp : ∀ (l : List (Bytes × β)) (y : Bytes × β),
      lastOfRuns (some y) l.reverse = (firstOfRuns none (l ++ [y])).reverse := by
    intro l
    induction l using List.reverseRecOn with
    | nil => exact fun y => rfl
    | append_singleton l x ih =>
      intro y
      rw [reverse_append, reverse_singleton, singleton_append, lastOfRuns, ih,
        firstOfRuns_append_pair]
      by_cases hxy : x.1 = y.1
      · rw [if_pos hxy.symm, if_pos hxy, append_nil]
      · rw [if_neg (Ne.symm hxy), if_neg hxy, reverse_append, reverse_singleton, singleton_append]
  rcases eq_nil_or_concat l with rfl | ⟨l, x, rfl⟩
  · rfl
  · rw [concat_eq_append, reverse_append, reverse_singleton, singleton_append, lastOfRuns]
    exact hp l x

/-- Entries with one key stand next to each other. -/
def Contiguous : List (Bytes × β) → Prop
  | [] => True
  | a :: l => (∀ x ∈ l, x.1 = a.1 → ∃ y l', l = y :: l' ∧ y.1 = a.1) ∧ Contiguous l

/-- **When entries with one key stand together** each key is kept once. -/
theorem nodup_firstOfRuns (h : Contiguous l)
    (hpr : ∀ p, prev = some p → ∀ x ∈ l, x.1 = p → ∃ y l', l = y :: l' ∧ y.1 = p) :
    ((firstOfRuns prev l).map Prod.fst).Nodup ∧ ∀ x ∈ firstOfRuns prev l, prev ≠ some x.1 := by
  induction l generalizing prev with
  | nil => simp [firstOfRuns]
  | cons a l ih =>
    obtain ⟨ha, hl⟩ := h
    by_cases hru : prev = some a.1
    · rw [firstOfRuns, if_pos hru]
      refine ih hl fun p hp x hx hke => ?_
      have hpa : a.1 = p := Option.some.inj (hru.symm.trans hp)
      exact hpa ▸ ha x hx (hke.trans hpa.symm)
    · -- the key before the list does not come back, since the list starts with another one
      have hgo : ∀ x ∈ l, prev ≠ some x.1 := by
        intro x hx hp
        obtain ⟨y, l', he, hy⟩ := hpr x.1 hp x (mem_cons_of_mem _ hx) rfl
        cases he
        exact hru (hy.symm ▸ hp)
      have hfi : ∀ p, some a.1 = some p → ∀ x ∈ l, x.1 = p → ∃ y l', l = y :: l' ∧ y.1 = p := by
        intro p hp x hx hke
        cases hp
        exact ha x hx hke
      obtain ⟨hno, hne⟩ := ih hl hfi
      have hsu : ∀ x ∈ firstOfRuns (some a.1) l, x ∈ l := by
        intro x hx
        exact (firstOfRuns_sublist (some a.1) l).subset hx
      rw [firstOfRuns, if_neg hru]
      constructor
      · refine nodup_cons.mpr ⟨fun hin => ?_, hno⟩
        obtain ⟨x, hx, hke⟩ := mem_map.mp hin
        exact hne x hx (congrArg some hke.symm)
      · exact forall_mem_cons.mpr ⟨hru, fun x hx => hgo x (hsu x hx)⟩

end Runs

end OrderedBytes
