import Mathlib.Data.List.MinMax
import Mathlib.Data.List.Count

/-!
# Greedy assignment

Jobs are assigned to places one after another.  Every job has its options, and goes to the option that
carries the least load so far; a **limited** place takes one job at most and is closed once it carries
something.  A choice is never revisited, so the assignment can fail although another one exists.

`place_single` bounds what a limited place gets, and `exists_place` says when the assignment cannot fail:
when every job has an unlimited option, or more options than there are options that carry something and
jobs before it that share an option with it.
-/
namespace GreedyAssignment
open List Function
variable {Job Place : Type} [DecidableEq Place] (limited : Place → Bool)

def bump (load : Place → Nat) (p : Place) : Place → Nat := update load p (load p + 1)

/-- A place that can take another job. -/
def isOpen (load : Place → Nat) (p : Place) : Bool := !(limited p && decide (1 ≤ load p))

/-- The open option with the least load, the earliest of them. -/
def leastLoaded (options : List Place) (load : Place → Nat) : Option Place :=
  (options.filter (isOpen limited load)).argmin load

def place (load : Place → Nat) : List (Job × List Place) → Option (List (Job × Place))
  | [] => some []
  | (job, options) :: jobs =>
    match leastLoaded limited options load with
    | none => none
    | some p => (place (bump load p) jobs).map ((job, p) :: ·)

variable {limited} {load : Place → Nat} {jobs : List (Job × List Place)}
  {asg : List (Job × Place)} {opts : List Place} {p : Place}

omit [DecidableEq Place] in
theorem mem_of_leastLoaded (h : leastLoaded limited opts load = some p) :
    p ∈ opts ∧ isOpen limited load p = true :=
  mem_filter.mp (argmin_mem h)

omit [DecidableEq Place] in
theorem exists_leastLoaded (h : ∃ p ∈ opts, isOpen limited load p = true) :
    ∃ p, leastLoaded limited opts load = some p := by
  obtain ⟨p, hp, ho⟩ := h
  refine Option.ne_none_iff_exists'.mp fun hn => ?_
  rw [leastLoaded, argmin_eq_none, filter_eq_nil_iff] at hn
  exact hn p hp ho

theorem place_cons {job : Job} (h : place limited load ((job, opts) :: jobs) = some asg) :
    ∃ p rest, leastLoaded limited opts load = some p ∧
      place limited (bump load p) jobs = some rest ∧ asg = (job, p) :: rest := by
  simp only [place] at h
  split at h
  · cases h
  · next p hp =>
    obtain ⟨rest, hr, rfl⟩ := Option.map_eq_some_iff.mp h
    exact ⟨p, rest, hp, hr, rfl⟩

variable (h : place limited load jobs = some asg)
include h

theorem place_fst : asg.map Prod.fst = jobs.map Prod.fst := by
  induction jobs generalizing load asg with
  | nil =>
    cases h
    rfl
  | cons job jobs ih =>
    obtain ⟨p, _, -, hr, rfl⟩ := place_cons h
    rw [map_cons, map_cons, ih hr]

theorem place_mem : ∀ a ∈ asg, ∃ opts, (a.1, opts) ∈ jobs ∧ a.2 ∈ opts := by
  induction jobs generalizing load asg with
  | nil =>
    cases h
    exact fun a ha => (not_mem_nil ha).elim
  | cons job jobs ih =>
    obtain ⟨p, _, hp, hr, rfl⟩ := place_cons h
    intro a ha
    rcases mem_cons.mp ha with rfl | ha
    · exact ⟨job.2, mem_cons_self, (mem_of_leastLoaded hp).1⟩
    · obtain ⟨opts, hm, hin⟩ := ih hr a ha
      exact ⟨opts, mem_cons_of_mem _ hm, hin⟩

/-- **A limited place gets one job at most, and none if it carries something already.** -/
theorem place_single (hli : limited p = true) :
    (asg.map Prod.snd).count p + load p ≤ max 1 (load p) := by
  induction jobs generalizing load asg with
  | nil =>
    cases h
    simp
  | cons job jobs ih =>
    obtain ⟨q, _, hq, hre, rfl⟩ := place_cons h
    have hih := ih hre
    rw [map_cons]
    by_cases hpq : q = p
    · subst hpq
      have hop := (mem_of_leastLoaded hq).2
      have hem : load q = 0 := by
        simp only [isOpen, hli, Bool.true_and, Bool.not_eq_true', decide_eq_false_iff_not] at hop
        omega
      rw [bump, update_self, hem] at hih
      rw [count_cons_self, hem]
      omega
    · rw [bump, update_of_ne (Ne.symm hpq)] at hih
      rw [count_cons_of_ne hpq]
      exact hih

omit h

/-! ## Rivals -/

/-- The options that carry something. -/
def busy (load : Place → Nat) (options : List Place) : Nat := options.countP fun p => 1 ≤ load p

/-- Two jobs share an option. -/
def shares (options options' : List Place) : Bool := options.any fun p => p ∈ options'

theorem busy_bump (hn : opts.Nodup) :
    busy (bump load p) opts ≤ busy load opts + if p ∈ opts then 1 else 0 := by
  unfold busy
  induction opts with
  | nil => simp
  | cons q opts ih =>
    obtain ⟨hf, hn⟩ := nodup_cons.mp hn
    have hr := ih hn
    rw [countP_cons, countP_cons]
    by_cases hqp : q = p
    · subst hqp
      rw [if_neg hf] at hr
      rw [if_pos mem_cons_self]
      split <;> split <;> omega
    · have hs : bump load p q = load q := update_of_ne hqp _ _
      have hm : p ∈ q :: opts ↔ p ∈ opts := by
        rw [mem_cons, or_iff_right (Ne.symm hqp)]
      simp only [hs, hm]
      omega

omit [DecidableEq Place] in
/-- A job with more options than are busy has an open one. -/
theorem exists_open (h : busy load opts < opts.length) :
    ∃ p ∈ opts, isOpen limited load p = true := by
  unfold busy at h
  by_contra hn
  have ha : ∀ p ∈ opts, decide (1 ≤ load p) = true := by
    intro p hp
    by_contra hl
    refine hn ⟨p, hp, ?_⟩
    rw [isOpen, Bool.eq_false_iff.mpr hl, Bool.and_false, Bool.not_false]
  rw [countP_eq_length.mpr ha] at h
  omega

/-- **The assignment cannot fail** if every job has an unlimited option, or more options than there are
busy options and jobs before it that share an option with it. -/
theorem exists_place (hno : ∀ job ∈ jobs, job.2.Nodup)
    (h : ∀ pre job after, jobs = pre ++ job :: after → (∃ p ∈ job.2, limited p = false) ∨
        busy load job.2 + pre.countP (fun other => shares other.2 job.2) < job.2.length) :
    ∃ asg, place limited load jobs = some asg := by
  induction jobs generalizing load with
  | nil => exact ⟨[], rfl⟩
  | cons job jobs ih =>
    obtain ⟨j, opts⟩ := job
    have hop : ∃ p ∈ opts, isOpen limited load p = true := by
      rcases h [] (j, opts) jobs rfl with ⟨p, hp, hun⟩ | hfe
      · exact ⟨p, hp, by rw [isOpen, hun, Bool.false_and, Bool.not_false]⟩
      · exact exists_open hfe
    obtain ⟨p, hp⟩ := exists_leastLoaded hop
    have hme := (mem_of_leastLoaded hp).1
    have hih : ∃ rest, place limited (bump load p) jobs = some rest := by
      refine ih (fun job hjo => hno job (.tail _ hjo)) ?_
      rintro pre job after rfl
      rcases h ((j, opts) :: pre) job after rfl with hun | hfe
      · exact .inl hun
      · right
        have hbu : busy (bump load p) job.2 ≤ busy load job.2 + if p ∈ job.2 then 1 else 0 :=
          busy_bump (hno job (by simp))
        rw [countP_cons] at hfe
        by_cases hin : p ∈ job.2
        · -- the place that was taken is an option of the later job, so the two jobs are rivals
          have hsh : shares opts job.2 = true := any_eq_true.mpr ⟨p, hme, decide_eq_true hin⟩
          rw [if_pos hin] at hbu
          rw [if_pos hsh] at hfe
          omega
        · rw [if_neg hin] at hbu
          omega
    obtain ⟨rest, hre⟩ := hih
    refine ⟨(j, p) :: rest, ?_⟩
    simp only [place, hp, hre, Option.map_some]

end GreedyAssignment
