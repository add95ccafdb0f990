import Mathlib.Data.List.Sort

/-!
# Serial orders of multi-version transactions

A transaction reads, puts and deletes keys, and its reads are recorded with what they returned.  A
sequence of operations **fits** a map when every recorded read is what the map holds at that point.
In a multi-version store the transactions carry timestamps, and the value of a key is what the newest
timestamp left there, in whatever order the transactions committed.

The results say when the timestamps are a serial order: **if each read returns the transaction's own
last write or what the newest earlier timestamp left, then running the transactions by timestamp fits**
(`fits_of_timely`), and ends in the newest value of every key (`run_of_newest`).
-/
namespace TimestampOrder
open List

/-- An operation of a transaction; a read carries what it returned. -/
inductive Op (K α : Type) where
  | get (k : K) (r : Option α)
  | put (k : K) (a : α)
  | delete (k : K)
deriving DecidableEq

variable {V K α : Type} [DecidableEq K] {k : K} {ops : List (Op K α)} {m : K → Option α}

def Op.write (k : K) : Op K α → Option (Option α)
  | .get _ _ => none
  | .put k' a => if k' = k then some (some a) else none
  | .delete k' => if k' = k then some none else none

/-- What the last write of some operations left under a key. -/
def lastWrite (k : K) : List (Op K α) → Option (Option α)
  | [] => none
  | op :: ops => (lastWrite k ops).or (op.write k)

def Op.apply (m : K → Option α) (op : Op K α) : K → Option α := fun k => (op.write k).getD (m k)

/-- The map that operations end in. -/
def run (m : K → Option α) (ops : List (Op K α)) : K → Option α := ops.foldl Op.apply m

/-- Every read of the operations returned what the map held at that point. -/
def Fits : (K → Option α) → List (Op K α) → Prop
  | _, [] => True
  | m, op :: ops => (∀ k r, op = .get k r → m k = r) ∧ Fits (op.apply m) ops

/-! ## Running operations -/

theorem lastWrite_append (k : K) (ops ops' : List (Op K α)) :
    lastWrite k (ops ++ ops') = (lastWrite k ops').or (lastWrite k ops) := by
  induction ops with
  | nil => simp [lastWrite]
  | cons op ops ih => rw [cons_append, lastWrite, lastWrite, ih, Option.or_assoc]

theorem exists_write_of_lastWrite (h : lastWrite k ops ≠ none) : ∃ op ∈ ops, op.write k ≠ none := by
  induction ops with
  | nil => exact absurd rfl h
  | cons op ops ih =>
    by_cases hops : lastWrite k ops = none
    · refine ⟨op, mem_cons_self, fun hop => h ?_⟩
      rw [lastWrite, hops, hop]
      rfl
    · obtain ⟨op', hm, hop'⟩ := ih hops
      exact ⟨op', mem_cons_of_mem _ hm, hop'⟩

theorem run_eq (m : K → Option α) (ops : List (Op K α)) (k : K) :
    run m ops k = (lastWrite k ops).getD (m k) := by
  induction ops generalizing m with
  | nil => rfl
  | cons op ops ih =>
    have hc : run m (op :: ops) k = run (op.apply m) ops k := rfl
    rw [hc, ih, lastWrite, Op.apply]
    cases lastWrite k ops <;> simp

theorem run_append (m : K → Option α) (ops ops' : List (Op K α)) :
    run m (ops ++ ops') = run (run m ops) ops' := foldl_append ..

theorem fits_append {ops' : List (Op K α)} :
    Fits m (ops ++ ops') ↔ Fits m ops ∧ Fits (run m ops) ops' := by
  induction ops generalizing m with
  | nil => simp [Fits, run]
  | cons op ops ih => rw [cons_append, Fits, Fits, ih, and_assoc]; rfl

/-- Operations fit when each of their reads does, after the operations before it. -/
theorem fits_iff : Fits m ops ↔ ∀ pre k r after, ops = pre ++ .get k r :: after →
      (lastWrite k pre).getD (m k) = r := by
  constructor
  · rintro h pre k r after rfl
    rw [← run_eq]
    exact (fits_append.mp h).2.1 k r rfl
  · intro h
    induction ops generalizing m with
    | nil => trivial
    | cons op ops ih =>
      refine ⟨fun k r he => h [] k r ops (by rw [he]; rfl), ih fun pre k r after he => ?_⟩
      have hr := h (op :: pre) k r after (by rw [he]; rfl)
      rw [lastWrite] at hr
      rw [← hr, Op.apply]
      cases lastWrite k pre <;> simp

/-! ## Transactions with timestamps -/

structure Txn (V K α : Type) where
  ts : V
  ops : List (Op K α)

/-- The transactions' operations, one transaction after the other. -/
def serial (txns : List (Txn V K α)) : List (Op K α) := txns.flatMap Txn.ops

variable [LT V] {P : Txn V K α → Prop} {r : Option α} {Q : Txn V K α → Prop}
  {txns : List (Txn V K α)} {ts : V}

/-- Among the transactions with a property, the newest write to the key left `r`. -/
def Newest (P : Txn V K α → Prop) (k : K) (r : Option α) : Prop :=
  (∃ U, P U ∧ lastWrite k U.ops = some r ∧ ∀ U', P U' → U.ts < U'.ts → lastWrite k U'.ops = none) ∨
    r = none ∧ ∀ U, P U → lastWrite k U.ops = none

/-- Every read of a transaction returned its own last write or what the newest earlier one left. -/
def Timely (P : Txn V K α → Prop) (T : Txn V K α) : Prop :=
  ∀ before k r after, T.ops = before ++ .get k r :: after → lastWrite k before = some r ∨
    lastWrite k before = none ∧ Newest (fun U => P U ∧ U.ts < T.ts) k r

theorem Newest.mono (h : Newest P k r)
    (hPQ : ∀ U, P U → Q U) (hne : ∀ U, Q U → P U ∨ lastWrite k U.ops = none) : Newest Q k r := by
  rcases h with ⟨U, hU, hw, hn⟩ | ⟨hr, hno⟩
  · refine .inl ⟨U, hPQ U hU, hw, fun U' hU' hlt => ?_⟩
    exact (hne U' hU').elim (fun hP => hn U' hP hlt) id
  · exact .inr ⟨hr, fun U hU => (hne U hU).elim (hno U) id⟩

theorem Timely.mono {T : Txn V K α} (h : Timely P T)
    (hPQ : ∀ U, P U → Q U) (hne : ∀ U, Q U → U.ts < T.ts → ∀ k r, .get k r ∈ T.ops →
      P U ∨ lastWrite k U.ops = none) : Timely Q T := by
  intro pre k r after hops
  have hm : .get k r ∈ T.ops := by rw [hops]; simp
  refine (h pre k r after hops).imp id fun ⟨hno, hn⟩ => ⟨hno, hn.mono ?_ ?_⟩
  · exact fun U hU => ⟨hPQ U hU.1, hU.2⟩
  · exact fun U hU => (hne U hU.1 hU.2 k r hm).imp (fun hP => ⟨hP, hU.2⟩) id

theorem Timely.get (h : Timely P ⟨ts, ops⟩) (hr : lastWrite k ops = some r ∨
      lastWrite k ops = none ∧ Newest (fun U => P U ∧ U.ts < ts) k r) :
    Timely P ⟨ts, ops ++ [.get k r]⟩ := by
  intro pre k' r' after hops
  rcases eq_nil_or_concat after with rfl | ⟨after, _, rfl⟩
  · obtain ⟨rfl, he⟩ := append_inj' hops rfl
    cases he
    exact hr
  · rw [concat_eq_append, ← cons_append, ← append_assoc] at hops
    exact h pre k' r' after (append_inj' hops rfl).1

theorem Timely.write (h : Timely P ⟨ts, ops⟩) {op : Op K α} (hop : ∀ k r, op ≠ .get k r) :
    Timely P ⟨ts, ops ++ [op]⟩ := by
  intro pre k r after hops
  rcases eq_nil_or_concat after with rfl | ⟨after, _, rfl⟩
  · exact absurd (List.cons.inj (append_inj' hops rfl).2).1 (hop k r)
  · rw [concat_eq_append, ← cons_append, ← append_assoc] at hops
    exact h pre k r after (append_inj' hops rfl).1

omit [LT V] in
theorem lastWrite_serial_of_none
    (h : ∀ U ∈ txns, lastWrite k U.ops = none) : lastWrite k (serial txns) = none := by
  induction txns with
  | nil => rfl
  | cons T txns ih =>
    have hc : serial (T :: txns) = T.ops ++ serial txns := flatMap_cons ..
    rw [hc, lastWrite_append, ih fun U hU => h U (mem_cons_of_mem _ hU), h T mem_cons_self]
    rfl

/-- **Running transactions by timestamp** ends in the newest value of a key. -/
theorem run_of_newest (hs : txns.Pairwise fun T U => T.ts < U.ts)
    (h : Newest (· ∈ txns) k r) : run (fun _ => none) (serial txns) k = r := by
  rw [run_eq]
  rcases h with ⟨U, hU, hw, hn⟩ | ⟨rfl, hno⟩
  · obtain ⟨pre, post, rfl⟩ := append_of_mem hU
    have hsp : serial (pre ++ U :: post) = serial pre ++ (U.ops ++ serial post) := by
      simp [serial]
    have hp : lastWrite k (serial post) = none := by
      refine lastWrite_serial_of_none fun U' hU' => hn U' (by simp [hU']) ?_
      exact (pairwise_cons.mp (pairwise_append.mp hs).2.1).1 U' hU'
    rw [hsp, lastWrite_append, lastWrite_append, hp, hw]
    rfl
  · rw [lastWrite_serial_of_none fun U hU => hno U hU]
    rfl

variable [LE V] [Std.IsLinearOrder V] [Std.LawfulOrderLT V]

/-- **The timestamps are a serial order** of transactions whose reads are timely. -/
theorem fits_of_timely (hso : txns.Pairwise fun T U => T.ts < U.ts)
    (h : ∀ T ∈ txns, Timely (· ∈ txns) T) : Fits (fun _ => none) (serial txns) := by
  -- the transactions before a point have run, and the others are all newer
  suffices hgo : ∀ pre post, pre ++ post = txns → Fits (run (fun _ => none) (serial pre))
      (serial post) from hgo [] txns rfl
  intro pre post
  induction post generalizing pre with
  | nil => exact fun _ => trivial
  | cons T post ih =>
    intro he
    have hse : serial (T :: post) = T.ops ++ serial post := flatMap_cons ..
    have hpr : serial (pre ++ [T]) = serial pre ++ T.ops := by simp [serial]
    have hT : T ∈ txns := by simp [← he]
    have hsp := hso
    rw [← he] at hsp
    obtain ⟨hbe, haf, hcr⟩ := pairwise_append.mp hsp
    have hea : ∀ U, U ∈ txns ∧ U.ts < T.ts ↔ U ∈ pre := by
      intro U
      constructor
      · rintro ⟨hU, _⟩
        rw [← he] at hU
        rcases mem_append.mp hU with hU | hU
        · exact hU
        · rcases mem_cons.mp hU with rfl | hU
          · grind
          · have hgt := (pairwise_cons.mp haf).1 U hU
            grind
      · exact fun hU => ⟨by simp [← he, hU], hcr U hU T mem_cons_self⟩
    rw [hse, fits_append, ← run_append, ← hpr]
    refine ⟨fits_iff.mpr fun before k r after hops => ?_, ih (pre ++ [T]) (by simp [he])⟩
    rcases h T hT before k r after hops with how | ⟨hno, hne⟩
    · rw [how]
      rfl
    · simp only [hea] at hne
      rw [hno, Option.getD_none]
      exact run_of_newest hbe hne

theorem exists_sorted [DecidableLE V] {T : Type} {ts : T → V} {txns : List T}
    (hd : txns.Pairwise fun a b => ts a ≠ ts b) :
    ∃ order : List T, order.Perm txns ∧ order.Pairwise fun a b => ts a < ts b := by
  have hp := mergeSort_perm txns fun a b => decide (ts a ≤ ts b)
  have hle : (txns.mergeSort fun a b => decide (ts a ≤ ts b)).Pairwise fun a b =>
      decide (ts a ≤ ts b) = true :=
    pairwise_mergeSort (fun a b c => by grind) (fun a b => by grind) txns
  refine ⟨_, hp, ?_⟩
  have hne := hp.symm.pairwise hd fun {a b} h he => h he.symm
  refine hle.imp₂ (fun a b hab hn => ?_) hne
  have hab : ts a ≤ ts b := of_decide_eq_true hab
  grind

end TimestampOrder
