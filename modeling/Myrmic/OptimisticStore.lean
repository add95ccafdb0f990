import Mathlib.Data.List.Dedup
import Myrmic.Dialogs
import Myrmic.Machine

/-!
# Optimistic transactions on versioned rows

A store is the list of its commits, the newest first.  A commit has the timestamp that its transaction
took **when it began**, and the value of a row is the one with the latest timestamp, whenever it was
committed; so the write of a transaction that commits late can be shadowed from the start.

A transaction reads the store as it was when it began, with its own writes over it.  The rows that it
reads one by one are **tracked**: its commit is refused when a commit since it began has written one of
them.  Listings are not tracked, and writes are blind.

Clients hold a dialog with their transaction and commit when it has ended.  Since a transaction sees
nothing of what others commit, only the order of the beginnings and commits matters: **what a
transaction commits is what its dialog does on the store it began with** (`commit_cases`).  A statement
about every run is then one about single commits (`reached_built`).
-/
namespace OptimisticStore
open Dialogs List Function
variable {κ β : Type} [DecidableEq κ]

/-! ## Commits and rows -/

/-- What a transaction wrote, the latest write of a row first; a row without a value is deleted. -/
structure Commit (κ β : Type) where
  ts : Nat
  writes : List (κ × Option β)

namespace Commit

/-- What a commit makes of a row. -/
def write (c : Commit κ β) (k : κ) : Option (Option β) :=
  (c.writes.find? fun w => w.1 = k).map Prod.snd

def Writes (c : Commit κ β) (k : κ) : Prop := k ∈ c.writes.map Prod.fst

instance instDecidableWrites (c : Commit κ β) (k : κ) : Decidable (c.Writes k) :=
  inferInstanceAs (Decidable (k ∈ c.writes.map Prod.fst))

variable {c : Commit κ β} {k : κ}

theorem write_eq_none (h : ¬ c.Writes k) : c.write k = none := by
  have hn : (c.writes.find? fun w => w.1 = k) = none := by
    rw [List.find?_eq_none]
    intro w hw heq
    exact h (mem_map.mpr ⟨w, hw, of_decide_eq_true heq⟩)
  simp [write, hn]

theorem exists_write (h : c.Writes k) : ∃ w, c.write k = some w := by
  obtain ⟨w, hw, heq⟩ := mem_map.mp h
  cases hf : c.writes.find? fun w => w.1 = k with
  | none =>
    rw [List.find?_eq_none] at hf
    exact absurd (decide_eq_true heq) (hf w hw)
  | some found => exact ⟨found.2, by simp [write, hf]⟩

end Commit

/-- The write with the latest timestamp, whenever it was committed. -/
def version : List (Commit κ β) → κ → Option (Nat × Option β)
  | [], _ => none
  | c :: log, k =>
    match c.write k, version log k with
    | none, older => older
    | some w, none => some (c.ts, w)
    | some w, some older => if c.ts < older.1 then some older else some (c.ts, w)

/-- What is read of a row. -/
def value (log : List (Commit κ β)) (k : κ) : Option β := (version log k).bind Prod.snd

/-- The rows that have been written. -/
def keys (log : List (Commit κ β)) : List κ := (log.flatMap fun c => c.writes.map Prod.fst).dedup

def rows (log : List (Commit κ β)) : List (κ × β) :=
  (keys log).filterMap fun k => (value log k).map fun v => (k, v)

/-- No commit of a list writes the row. -/
def Untouched (log : List (Commit κ β)) (k : κ) : Prop := ∀ c ∈ log, ¬ c.Writes k

section Rows
variable {c : Commit κ β} {log newer base : List (Commit κ β)} {k : κ} {w : Option β}

theorem version_cons_of_not_writes (h : ¬ c.Writes k) : version (c :: log) k = version log k := by
  simp [version, Commit.write_eq_none h]

theorem value_cons_of_not_writes (h : ¬ c.Writes k) : value (c :: log) k = value log k := by
  simp [value, version_cons_of_not_writes h]

theorem version_append_of_untouched (h : Untouched newer k) :
    version (newer ++ base) k = version base k := by
  induction newer with
  | nil => rfl
  | cons c newer ih =>
    obtain ⟨hc, hn⟩ := forall_mem_cons.mp h
    exact (version_cons_of_not_writes hc).trans (ih hn)

theorem value_append_of_untouched (h : Untouched newer k) :
    value (newer ++ base) k = value base k := by
  simp [value, version_append_of_untouched h]

theorem exists_of_version {v : Nat × Option β} (h : version log k = some v) :
    ∃ c ∈ log, c.ts = v.1 ∧ c.Writes k := by
  induction log with
  | nil => cases h
  | cons c log ih =>
    by_cases hwr : c.Writes k
    · obtain ⟨w, hw⟩ := Commit.exists_write hwr
      simp only [version, hw] at h
      cases hve : version log k with
      | none =>
        rw [hve] at h
        cases h
        exact ⟨c, mem_cons_self, rfl, hwr⟩
      | some older =>
        rw [hve] at h
        simp only at h
        split at h
        · cases h
          obtain ⟨c', hc', hts, hk⟩ := ih hve
          exact ⟨c', mem_cons_of_mem _ hc', hts, hk⟩
        · cases h
          exact ⟨c, mem_cons_self, rfl, hwr⟩
    · rw [version_cons_of_not_writes hwr] at h
      obtain ⟨c', hc', hts, hk⟩ := ih h
      exact ⟨c', mem_cons_of_mem _ hc', hts, hk⟩

/-- A write shows unless a later version is there. -/
theorem value_cons_of_latest (hw : c.write k = some w) (h : ∀ v ∈ version log k, v.1 < c.ts) :
    value (c :: log) k = w := by
  cases hv : version log k with
  | none => simp [value, version, hw, hv]
  | some older =>
    have hlt : ¬ c.ts < older.1 := Nat.not_lt.mpr (Nat.le_of_lt (h older hv))
    simp [value, version, hw, hv, hlt]

/-- A write shows, or it is shadowed and changes nothing. -/
theorem value_cons_cases (hw : c.write k = some w) :
    value (c :: log) k = w ∨ value (c :: log) k = value log k := by
  cases hv : version log k with
  | none => exact .inl (by simp [value, version, hw, hv])
  | some older =>
    by_cases hlt : c.ts < older.1
    · exact .inr (by simp [value, version, hw, hv, hlt])
    · exact .inl (by simp [value, version, hw, hv, hlt])

/-- A deletion never makes a row appear. -/
theorem value_of_value_cons_delete (hw : c.write k = some none) {v : β}
    (h : value (c :: log) k = some v) : value log k = some v := by
  rcases value_cons_cases hw with hn | hold
  · rw [h] at hn
    cases hn
  · rw [← hold]
    exact h

theorem mem_keys_of_value {v : β} (h : value log k = some v) : k ∈ keys log := by
  obtain ⟨_, hv, -⟩ := Option.bind_eq_some_iff.mp h
  obtain ⟨c, hc, -, hw⟩ := exists_of_version hv
  exact mem_dedup.mpr (mem_flatMap.mpr ⟨c, hc, hw⟩)

theorem mem_rows {v : β} : (k, v) ∈ rows log ↔ value log k = some v := by
  constructor
  · intro h
    obtain ⟨_, -, hk'⟩ := mem_filterMap.mp h
    obtain ⟨_, hv', heq⟩ := Option.map_eq_some_iff.mp hk'
    cases heq
    exact hv'
  · intro h
    exact mem_filterMap.mpr ⟨k, mem_keys_of_value h, by simp [h]⟩

end Rows

/-! ## Transactions -/

/-- An open transaction: the store it began with, its own writes, and the rows it has read. -/
structure Tx (κ β : Type) where
  ts : Nat
  base : List (Commit κ β)
  own : List (κ × Option β)
  tracked : List κ

namespace Tx

def start (ts : Nat) (base : List (Commit κ β)) : Tx κ β := ⟨ts, base, [], []⟩

/-- What a transaction commits. -/
def commit (tx : Tx κ β) : Commit κ β := ⟨tx.ts, tx.own⟩

/-- What a transaction sees: the store it began with, under its own writes. -/
def view (tx : Tx κ β) : List (Commit κ β) := tx.commit :: tx.base

/-- Reads a row; the read is tracked. -/
def get (tx : Tx κ β) (k : κ) : Option β × Tx κ β :=
  (value tx.view k, { tx with tracked := k :: tx.tracked })

def put (tx : Tx κ β) (k : κ) (v : β) : Tx κ β := { tx with own := (k, some v) :: tx.own }

def erase (tx : Tx κ β) (k : κ) : Tx κ β := { tx with own := (k, none) :: tx.own }

variable {tx : Tx κ β} {k : κ} {v : β}

/-- Puts or erases a row. -/
def write (tx : Tx κ β) (k : κ) (w : Option β) : Tx κ β := { tx with own := (k, w) :: tx.own }

/-- A write shows in the view of a transaction that began after every commit. -/
theorem value_view_write (h : ∀ c ∈ tx.base, c.ts < tx.ts) (w : Option β) :
    value (tx.write k w).view k = w := by
  refine value_cons_of_latest (by simp [commit, write, Commit.write]) fun v hv => ?_
  obtain ⟨c, hc, hts, -⟩ := exists_of_version hv
  exact hts ▸ h c hc

theorem value_view_write_of_ne {k' : κ} (hne : k' ≠ k) (w : Option β) :
    value (tx.write k w).view k' = value tx.view k' := by
  have hw : Commit.write ⟨tx.ts, (k, w) :: tx.own⟩ k' = tx.commit.write k' := by
    simp [commit, Commit.write, hne.symm]
  simp only [value, view, write, commit, version, hw]

@[simp] theorem value_view_start (ts : Nat) (base : List (Commit κ β)) :
    value (start ts base).view k = value base k :=
  value_cons_of_not_writes not_mem_nil

end Tx

/-! ## Sessions -/

section Sessions
variable {Op Ans ε Call : Type} {Result : Call → Type}
  (serve : Tx κ β → Op → Ans × Tx κ β) (program : (call : Call) → Dialog Op Ans ε (Result call))

/-- How a dialog has ended, if it has. -/
def ended {α : Type} : Dialog Op Ans ε α → Option (Except ε α)
  | .done a => some (.ok a)
  | .fail e => some (.error e)
  | .send _ _ => none

omit [DecidableEq κ] in
theorem run_of_ended {α : Type} {serve : Tx κ β → Op → Ans × Tx κ β} {dialog : Dialog Op Ans ε α}
    {r : Except ε α} (h : ended dialog = some r) : dialog.run serve tx = (r, tx) := by
  cases dialog with
  | send op next => cases h
  | _ =>
    cases h
    rfl

/-- A call on its way: its transaction, and what is left of its dialog. -/
structure Session (κ β Op Ans ε : Type) {Call : Type} (Result : Call → Type) where
  call : Call
  tx : Tx κ β
  rest : Dialog Op Ans ε (Result call)

/-- A store with the calls that are on their way. -/
structure Db (κ β Op Ans ε : Type) {Call : Type} (Result : Call → Type) where
  log : List (Commit κ β)
  clock : Nat
  sessions : Nat → Option (Session κ β Op Ans ε Result)

inductive Action (Call : Type) where
  /-- A call begins its transaction. -/
  | begin (i : Nat) (call : Call)
  /-- A call sends its next request. -/
  | request (i : Nat)
  /-- A call whose dialog has ended commits. -/
  | commit (i : Nat)
  /-- A call is given up. -/
  | drop (i : Nat)

namespace Db

def start : Db κ β Op Ans ε Result := ⟨[], 0, fun _ => none⟩

def set (st : Db κ β Op Ans ε Result) (i : Nat) (s : Option (Session κ β Op Ans ε Result)) :
    Db κ β Op Ans ε Result :=
  { st with sessions := update st.sessions i s }

/-- The commits since the transaction began. -/
def since (st : Db κ β Op Ans ε Result) (tx : Tx κ β) : List (Commit κ β) :=
  st.log.take (st.log.length - tx.base.length)

/-- A commit since the transaction began has written a row that it has read. -/
def Conflicts (st : Db κ β Op Ans ε Result) (tx : Tx κ β) : Prop :=
  ∃ k ∈ tx.tracked, ∃ c ∈ st.since tx, c.Writes k

instance instDecidableConflicts (st : Db κ β Op Ans ε Result) (tx : Tx κ β) :
    Decidable (st.Conflicts tx) :=
  inferInstanceAs (Decidable (∃ k ∈ tx.tracked, ∃ c ∈ st.since tx, c.Writes k))

/-- One step.  A commit that conflicts is refused and ends its call. -/
def step (st : Db κ β Op Ans ε Result) : Action Call → Option (Db κ β Op Ans ε Result)
  | .begin i call =>
    match st.sessions i with
    | some _ => none
    | none =>
      some { st.set i (some ⟨call, Tx.start st.clock st.log, program call⟩) with
        clock := st.clock + 1 }
  | .request i =>
    match st.sessions i with
    | some ⟨call, tx, .send op next⟩ =>
      some (st.set i (some ⟨call, (serve tx op).2, next (serve tx op).1⟩))
    | _ => none
  | .commit i =>
    match st.sessions i with
    | some s =>
      if (ended s.rest).isNone then none
      else if st.Conflicts s.tx then some (st.set i none)
      else some { st.set i none with log := s.tx.commit :: st.log }
    | none => none
  | .drop i =>
    match st.sessions i with
    | some _ => some (st.set i none)
    | none => none

end Db

/-! ## What a commit is -/

/-- Requests leave the transaction the one it is. -/
def Lawful : Prop := ∀ tx op, (serve tx op).2.ts = tx.ts ∧ (serve tx op).2.base = tx.base

/-- **What is known of a transaction when it commits**: its call has done on the store it began with what
the call's program does, everything in that store is older, and nothing it has read was written since. -/
structure Finished (call : Call) (r : Except ε (Result call)) (tx : Tx κ β)
    (newer : List (Commit κ β)) : Prop where
  run : (program call).run serve (Tx.start tx.ts tx.base) = (r, tx)
  later : ∀ c ∈ tx.base, c.ts < tx.ts
  untouched : ∀ k ∈ tx.tracked, Untouched newer k

variable {serve program} {st st' : Db κ β Op Ans ε Result}
  {allowed : Db κ β Op Ans ε Result → Action Call → Prop}
  {good : Commit κ β → List (Commit κ β) → Prop}

/-- A session does what its program does on the store it began with. -/
structure Session.Honest (serve : Tx κ β → Op → Ans × Tx κ β)
    (program : (call : Call) → Dialog Op Ans ε (Result call)) (s : Session κ β Op Ans ε Result)
    (st : Db κ β Op Ans ε Result) : Prop where
  base : ∃ newer, st.log = newer ++ s.tx.base
  later : ∀ c ∈ s.tx.base, c.ts < s.tx.ts
  early : s.tx.ts < st.clock
  run : s.rest.run serve s.tx = (program s.call).run serve (Tx.start s.tx.ts s.tx.base)

/-- Commits are older than the clock, and sessions are where their dialogs lead from their stores. -/
structure Db.Sound (serve : Tx κ β → Op → Ans × Tx κ β)
    (program : (call : Call) → Dialog Op Ans ε (Result call)) (st : Db κ β Op Ans ε Result) :
    Prop where
  early : ∀ c ∈ st.log, c.ts < st.clock
  honest : ∀ {i s}, st.sessions i = some s → s.Honest serve program st

namespace Db

variable {i : Nat} {act : Action Call}

omit [DecidableEq κ] in
theorem Sound.set (h : st.Sound serve program) {s : Option (Session κ β Op Ans ε Result)}
    (hs : ∀ s' ∈ s, s'.Honest serve program st) : (st.set i s).Sound serve program := by
  refine ⟨h.early, ?_⟩
  intro j s' hs'
  by_cases hj : j = i
  · subst hj
    have hsa : update st.sessions j s j = some s' := hs'
    rw [update_self] at hsa
    obtain ⟨hb, hl, he, hr⟩ := hs s' hsa
    exact ⟨hb, hl, he, hr⟩
  · have hold : update st.sessions i s j = some s' := hs'
    rw [update_of_ne hj] at hold
    obtain ⟨hb, hl, he, hr⟩ := h.honest hold
    exact ⟨hb, hl, he, hr⟩

/-- **What a commit step does**: it is refused, or it adds to the log what the call's program does on the
store the call began with. -/
theorem commit_cases (h : st.Sound serve program)
    (hst : st.step serve program (.commit i) = some st') :
    ∃ call tx rest r newer, st.sessions i = some ⟨call, tx, rest⟩ ∧ ended rest = some r ∧
      st.log = newer ++ tx.base ∧ ((st.Conflicts tx ∧ st' = st.set i none) ∨
        (Finished serve program call r tx newer ∧
          st' = { st.set i none with log := tx.commit :: st.log })) := by
  simp only [step] at hst
  split at hst
  · next s hse =>
    obtain ⟨⟨newer, hne⟩, hla, -, hru⟩ := h.honest hse
    cases hen : ended s.rest with
    | none => simp [hen] at hst
    | some r =>
      refine ⟨s.call, s.tx, s.rest, r, newer, hse, hen, hne, ?_⟩
      simp only [hen, Option.isNone_some, Bool.false_eq_true, if_false] at hst
      split at hst
      · next hco => exact .inl ⟨hco, (Option.some.inj hst).symm⟩
      · next hco =>
        refine .inr ⟨⟨?_, hla, ?_⟩, (Option.some.inj hst).symm⟩
        · exact hru.symm.trans (run_of_ended hen)
        · intro k hk c hc hwr
          exact hco ⟨k, hk, c, by simpa [since, hne] using hc, hwr⟩
  · cases hst

theorem step_log (hst : st.step serve program act = some st')
    (h : ∀ i, act ≠ .commit i) : st'.log = st.log := by
  cases act with
  | commit i => exact absurd rfl (h i)
  | _ =>
    simp only [step] at hst
    split at hst <;> cases hst
    rfl

variable (serve program) in
/-- The call of a session has ended with a result, and its commit goes through. -/
def Commits (st : Db κ β Op Ans ε Result) (i : Nat) (call : Call) (r : Except ε (Result call))
    (st' : Db κ β Op Ans ε Result) : Prop :=
  ∃ tx rest, st.sessions i = some ⟨call, tx, rest⟩ ∧ ended rest = some r ∧
    st.step serve program (.commit i) = some st' ∧ st'.log = tx.commit :: st.log

theorem Commits.finished {call : Call} {r : Except ε (Result call)}
    (hc : st.Commits serve program i call r st') (h : st.Sound serve program) :
    ∃ tx newer, st.log = newer ++ tx.base ∧ st'.log = tx.commit :: st.log ∧
      Finished serve program call r tx newer := by
  obtain ⟨tx, _, hs, he, hst, hl⟩ := hc
  obtain ⟨_, _, _, _, newer, hs', he', hn, hste⟩ := commit_cases h hst
  rw [hs] at hs'
  cases hs'
  rw [he] at he'
  cases he'
  rcases hste with ⟨-, rfl⟩ | ⟨hf, -⟩
  · exact absurd (congrArg List.length hl) (by simp [set])
  · exact ⟨tx, newer, hn, hl, hf⟩

/-- A step leaves the log, or it is a commit that goes through. -/
theorem step_cases (h : st.Sound serve program) (hst : st.step serve program act = some st') :
    st'.log = st.log ∨ ∃ i call r, st.Commits serve program i call r st' := by
  by_cases hc : ∃ i, act = .commit i
  · obtain ⟨i, rfl⟩ := hc
    obtain ⟨call, tx, rest, r, _, hs, he, -, hste⟩ := commit_cases h hst
    rcases hste with ⟨-, rfl⟩ | ⟨-, rfl⟩
    · exact .inl rfl
    · exact .inr ⟨i, call, r, tx, rest, hs, he, hst, rfl⟩
  · exact .inl (step_log hst fun i heq => hc ⟨i, heq⟩)

theorem Sound.step (hlaw : Lawful serve) (h : st.Sound serve program)
    (hst : st.step serve program act = some st') : st'.Sound serve program := by
  have hen : ∀ i, (st.set i none).Sound serve program := fun i => h.set nofun
  revert hst
  fun_cases Db.step serve program st act <;> rintro ⟨⟩
  · next i call _ =>
    have hso : Db.Sound serve program { st with clock := st.clock + 1 } := by
      refine ⟨fun c hc => Nat.lt_succ_of_lt (h.early c hc), fun hs => ?_⟩
      obtain ⟨hba, hla, hea, hru⟩ := h.honest hs
      exact ⟨hba, hla, Nat.lt_succ_of_lt hea, hru⟩
    refine hso.set (i := i) ?_
    rintro s ⟨⟩
    exact ⟨⟨[], rfl⟩, h.early, Nat.lt_succ_self _, rfl⟩
  · next call tx op next hse =>
    obtain ⟨hba, hla, hea, hru⟩ := h.honest hse
    obtain ⟨hts, hke⟩ := hlaw tx op
    refine h.set ?_
    rintro s ⟨⟩
    refine ⟨?_, ?_, ?_, ?_⟩
    · simpa only [hke] using hba
    · simpa only [hke, hts] using hla
    · simpa only [hts] using hea
    · simp only [hke, hts]
      exact hru
  · exact hen _
  · next s hse _ _ =>
    obtain ⟨-, -, hea, -⟩ := h.honest hse
    have hgr : Db.Sound serve program { st with log := s.tx.commit :: st.log } := by
      refine ⟨forall_mem_cons.mpr ⟨hea, h.early⟩, fun hs => ?_⟩
      obtain ⟨⟨newer', hne'⟩, hla, hea, hru⟩ := h.honest hs
      exact ⟨⟨s.tx.commit :: newer', by rw [hne']; rfl⟩, hla, hea, hru⟩
    exact hgr.set nofun
  · exact hen _

omit [DecidableEq κ] in
theorem sound_start : (start : Db κ β Op Ans ε Result).Sound serve program :=
  ⟨fun _ hc => absurd hc not_mem_nil, fun hs => nomatch hs⟩

theorem reached_sound (hl : Lawful serve)
    (h : Machine.Reached (step serve program) allowed start st) : st.Sound serve program :=
  h.holds sound_start fun h _ hst => h.step hl hst

end Db

/-! ## Logs built of commits -/

/-- Every commit of the log is good for what was there before it. -/
inductive Built (good : Commit κ β → List (Commit κ β) → Prop) : List (Commit κ β) → Prop
  | nil : Built good []
  | cons {c : Commit κ β} {log : List (Commit κ β)} : Built good log → good c log →
      Built good (c :: log)

omit [DecidableEq κ] in
theorem Built.of_append
    {newer base : List (Commit κ β)} (h : Built good (newer ++ base)) : Built good base := by
  induction newer with
  | nil => exact h
  | cons c newer ih =>
    cases h with
    | cons h _ => exact ih h

omit [DecidableEq κ] in
theorem Built.forall_mem {P : Commit κ β → Prop}
    {log : List (Commit κ β)} (h : Built good log) (hg : ∀ c log, good c log → P c) :
    ∀ c ∈ log, P c := by
  induction h with
  | nil => exact fun _ hc => absurd hc not_mem_nil
  | cons _ hc ih => exact forall_mem_cons.mpr ⟨hg _ _ hc, ih⟩

/-- **From single commits to runs.**  If every commit that a run can make is good for a log of good
commits, then so is the log of every state reached. -/
theorem reached_built (hl : Lawful serve)
    (hg : ∀ {st : Db κ β Op Ans ε Result} {i call tx rest r newer},
      allowed st (.commit i) → st.sessions i = some ⟨call, tx, rest⟩ → st.log = newer ++ tx.base →
      Finished serve program call r tx newer → Built good st.log → good tx.commit st.log)
    (h : Machine.Reached (Db.step serve program) allowed Db.start st) : Built good st.log := by
  have hbo : st.Sound serve program ∧ Built good st.log := by
    refine h.holds (P := fun st => st.Sound serve program ∧ Built good st.log)
      ⟨Db.sound_start, .nil⟩ ?_
    rintro st st' act ⟨hs, hb⟩ ha hst
    refine ⟨hs.step hl hst, ?_⟩
    by_cases hc : ∃ i, act = .commit i
    · obtain ⟨i, rfl⟩ := hc
      obtain ⟨call, tx, rest, r, newer, hse, -, hn, hste⟩ := Db.commit_cases hs hst
      rcases hste with ⟨-, rfl⟩ | ⟨hf, rfl⟩
      · exact hb
      · exact .cons hb (hg ha hse hn hf hb)
    · rw [Db.step_log hst fun i heq => hc ⟨i, heq⟩]
      exact hb
  exact hbo.2

end Sessions

end OptimisticStore
