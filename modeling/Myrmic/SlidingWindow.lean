import Mathlib.Data.List.Basic
import Mathlib.Data.List.TakeWhile

/-!
# Sliding windows over attempts

A limiter counts the attempts of the last `window` units of time and asks for `delay` units between
two attempts.  It keeps the moments of attempts in a queue, oldest first, from whose front it drops
what has left the window.  A latest attempt can be taken back.

`Tracks` says what the queue is worth: it is the end of the **whole history** of attempts, and what
is missing from it is outside the window and beyond the delay, then and at every later moment.  Under
it the queue answers both questions as the history would (`Tracks.within_eq`, `Tracks.waited`).
-/
namespace SlidingWindow
open List
variable {window delay now : Nat} {hist queue : List Nat}

/-- The moments that are not older than the window. -/
def within (window now : Nat) (times : List Nat) : List Nat :=
  times.filter fun t => now - t ≤ window

/-- The queue without what has left the window. -/
def prune (window now : Nat) (queue : List Nat) : List Nat :=
  queue.dropWhile fun t => window < now - t

/-- The delay has passed since the last moment, if there is one. -/
def waited (delay now : Nat) (times : List Nat) : Bool :=
  times.getLast?.all fun last => delay ≤ now - last

/-- **The queue stands for the history.** -/
structure Tracks (window delay : Nat) (history queue : List Nat) (now : Nat) : Prop where
  ordered : history.Pairwise (· ≤ ·)
  past : ∀ t ∈ history, t ≤ now
  dropped : ∃ old, history = old ++ queue ∧ ∀ t ∈ old, window < now - t ∧ delay ≤ now - t

theorem Tracks.nil : Tracks window delay [] [] now := ⟨.nil, nofun, [], rfl, nofun⟩

theorem Tracks.later {now' : Nat} (h : Tracks window delay hist queue now) (hle : now ≤ now') :
    Tracks window delay hist queue now' := by
  obtain ⟨old, hold, ha⟩ := h.dropped
  refine ⟨h.ordered, fun t ht => (h.past t ht).trans hle, old, hold, fun t ht => ?_⟩
  have ha := ha t ht
  omega

/-- In an ordered queue the moments at the front are the old ones. -/
theorem prune_eq_within (h : queue.Pairwise (· ≤ ·)) :
    prune window now queue = within window now queue := by
  unfold prune within
  induction queue with
  | nil => rfl
  | cons t queue ih =>
    rw [pairwise_cons] at h
    by_cases ht : window < now - t
    · rw [dropWhile_cons_of_pos (by simpa using ht), ih h.2,
        filter_cons_of_neg (by simp only [decide_eq_true_eq]; omega)]
    · have hr : ∀ t' ∈ t :: queue, now - t' ≤ window := by
        intro t' ht'
        rcases mem_cons.mp ht' with rfl | ht'
        · omega
        · have := h.1 t' ht'
          omega
      rw [dropWhile_cons_of_neg (by simpa using ht), filter_eq_self.mpr]
      simpa using hr

variable (h : Tracks window delay hist queue now)
include h

/-- What the queue has in the window is what the history has in it. -/
theorem Tracks.within_eq : within window now hist = prune window now queue := by
  obtain ⟨old, rfl, ha⟩ := h.dropped
  have hold : within window now old = [] := by
    refine filter_eq_nil_iff.mpr fun t ht => ?_
    have ha := ha t ht
    simp only [decide_eq_true_eq]
    omega
  rw [prune_eq_within (pairwise_append.mp h.ordered).2.1]
  unfold within at hold ⊢
  rw [filter_append, hold, nil_append]

/-- If the queue says that the delay has passed, then it has passed since the last attempt. -/
theorem Tracks.waited (hw : waited delay now queue = true) : waited delay now hist = true := by
  obtain ⟨_, rfl, ha⟩ := h.dropped
  unfold SlidingWindow.waited at hw ⊢
  rw [List.getLast?_append]
  cases hl : queue.getLast? with
  | some last => simpa [hl] using hw
  | none =>
    rw [Option.none_or, Option.all_eq_true_iff_get]
    intro hs
    have hm := mem_of_getLast? (Option.some_get hs).symm
    exact decide_eq_true (ha _ hm).2

/-- Pruning once the delay has passed forgets nothing that still counts. -/
theorem Tracks.prune (hwa : SlidingWindow.waited delay now queue = true) :
    Tracks window delay hist (prune window now queue) now := by
  obtain ⟨old, rfl, hag⟩ := h.dropped
  have hor := (pairwise_append.mp h.ordered).2.1
  refine ⟨h.ordered, h.past, old ++ queue.takeWhile fun t => window < now - t, ?_, ?_⟩
  · rw [append_assoc, SlidingWindow.prune, takeWhile_append_dropWhile]
  · intro t ht
    rcases mem_append.mp ht with ht | ht
    · exact hag t ht
    · have hold : window < now - t := by
        simpa using mem_takeWhile_imp ht
      have hme : t ∈ queue := (List.takeWhile_prefix _).subset ht
      obtain ⟨last, hla⟩ : ∃ last, queue.getLast? = some last :=
        ⟨_, List.getLast?_eq_some_getLast (ne_nil_of_mem hme)⟩
      -- the queue is ordered, so what is pruned is at least as old as the last attempt
      have hle : t ≤ last := by
        obtain ⟨_, rfl⟩ := List.getLast?_eq_some_iff.mp hla
        rcases mem_append.mp hme with hme | hme
        · exact (pairwise_append.mp hor).2.2 t hme last (mem_singleton_self last)
        · exact (mem_singleton.mp hme).le
      have hde : delay ≤ now - last := by
        simpa [SlidingWindow.waited, hla] using hwa
      exact ⟨hold, by omega⟩

theorem Tracks.push : Tracks window delay (hist ++ [now]) (queue ++ [now]) now := by
  obtain ⟨old, hold, ha⟩ := h.dropped
  refine ⟨?_, forall_mem_append.mpr ⟨h.past, forall_mem_singleton.mpr le_rfl⟩, old,
    by rw [hold, append_assoc], ha⟩
  refine pairwise_append.mpr ⟨h.ordered, pairwise_singleton _ _, fun t ht t' ht' => ?_⟩
  rw [mem_singleton.mp ht']
  exact h.past t ht

end SlidingWindow
