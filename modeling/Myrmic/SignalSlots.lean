import Myrmic.OrderedBytes
import Mathlib.Data.List.Induction
import Mathlib.Data.List.InsertIdx

/-!
# Slots between drivers and cells

A board's drivers and its cells exchange values through slots.  An **event slot** queues events and drops
the oldest one when it is full.  A cell takes the event out of the queue before it is written to the cell's
buffer, so a buffer that is too small loses it: the events come out in order and complete **exactly if every
take of an event has room for it** (`events_in_order_iff`).

A **retained slot** holds the last value and the millisecond of its writing.  The task that drives an outlet
takes a command for new if its stamp is: the outlet follows the commands **exactly if no two commands of one
millisecond are found, the first by a tick whose apply succeeds** (`StampsTell`, `outlet_follows_iff`).
-/
namespace Myrmic
open OrderedBytes List
namespace SignalLayer
variable {T : Type}

/-! ## Event slots -/

/-- Why no event was taken. -/
inductive TapError where
  | bufferTooSmall
  | empty

def eventCapacity : Nat := 8

/-- The events that wait, the oldest one first. -/
structure EventSlot (T : Type) where
  queue : List T
  bounded : queue.length ≤ eventCapacity

namespace EventSlot

def new : EventSlot T := ⟨[], Nat.zero_le _⟩

/-- A full slot drops its oldest event. -/
def emit (slot : EventSlot T) (val : T) : EventSlot T where
  queue := (if slot.queue.length = eventCapacity then slot.queue.tail else slot.queue) ++ [val]
  bounded := by
    have hb := slot.bounded
    split
    · next hf => simp [hf, eventCapacity]
    · rw [length_append, length_singleton]
      omega

/-- The oldest event leaves the slot. -/
def take : EventSlot T → Option (T × EventSlot T)
  | ⟨[], _⟩ => none
  | ⟨val :: rest, hb⟩ => some (val, ⟨rest, Nat.le_of_succ_le hb⟩)

/-- Takes the oldest event and writes it to a buffer of a given size. -/
def takeBytes (toBytes : T → Bytes) (slot : EventSlot T) (buf : Nat) :
    Except TapError Bytes × EventSlot T :=
  match slot.take with
  | none => (.error .empty, slot)
  | some (val, rest) =>
    if (toBytes val).length ≤ buf then (.ok (toBytes val), rest) else (.error .bufferTooSmall, rest)

end EventSlot

/-- What is done with an event slot. -/
inductive TapCall (T : Type) where
  | emit (val : T)
  | take (buf : Nat)

/-- A slot with what its takes returned and the events that were not overwritten. -/
structure Tap (T : Type) where
  slot : EventSlot T
  returned : List Bytes
  kept : List T

namespace Tap

def start : Tap T := ⟨.new, [], []⟩

variable (toBytes : T → Bytes)

def step (tap : Tap T) : TapCall T → Tap T
  | .emit val => { tap with
      slot := tap.slot.emit val
      -- a full slot loses the oldest event that was not returned
      kept := (if tap.slot.queue.length = eventCapacity then tap.kept.eraseIdx tap.returned.length
        else tap.kept) ++ [val] }
  | .take buf =>
    match tap.slot.takeBytes toBytes buf with
    | (.ok bytes, slot) => { tap with slot := slot, returned := tap.returned ++ [bytes] }
    | (.error _, slot) => { tap with slot := slot }

def run (calls : List (TapCall T)) : Tap T := calls.foldl (step toBytes) start

/-- What was returned and what waits are the events that were not overwritten, in order. -/
def InOrder (tap : Tap T) : Prop :=
  tap.returned ++ tap.slot.queue.map toBytes = tap.kept.map toBytes

/-- A take has room for the event that it finds. -/
def HasRoom (tap : Tap T) : TapCall T → Prop
  | .emit _ => True
  | .take buf => ∀ val ∈ tap.slot.queue.head?, (toBytes val).length ≤ buf

variable {toBytes} {tap : Tap T}

theorem InOrder.emit (h : tap.InOrder toBytes) (val : T) :
    (tap.step toBytes (.emit val)).InOrder toBytes := by
  simp only [InOrder, step, EventSlot.emit] at h ⊢
  split
  · next hf =>
    have hk := congrArg (eraseIdx · tap.returned.length) h
    rw [eraseIdx_append_of_length_le (Nat.le_refl _), Nat.sub_self, eraseIdx_zero] at hk
    rw [map_append, map_append, ← eraseIdx_map, ← hk, append_assoc, map_tail]
  · rw [map_append, map_append, ← h, append_assoc]

theorem inOrder_take_iff (h : tap.InOrder toBytes) {buf : Nat} :
    (tap.step toBytes (.take buf)).InOrder toBytes ↔ tap.HasRoom toBytes (.take buf) := by
  obtain ⟨⟨queue, hb⟩, returned, kept⟩ := tap
  cases queue with
  | nil => simpa [step, EventSlot.takeBytes, EventSlot.take, HasRoom] using h
  | cons val rest =>
    have hl := congrArg length h
    by_cases hr : (toBytes val).length ≤ buf
    · simpa [step, EventSlot.takeBytes, EventSlot.take, HasRoom, hr, InOrder] using h
    · simp only [step, EventSlot.takeBytes, EventSlot.take, hr, if_false, HasRoom, head?_cons,
        Option.mem_def, Option.some.injEq, forall_eq', iff_false]
      intro hn
      have hl' := congrArg length hn
      simp only [length_append, length_map, length_cons] at hl hl'
      omega

theorem inOrder_step_iff (h : tap.InOrder toBytes) (call : TapCall T) :
    (tap.step toBytes call).InOrder toBytes ↔ tap.HasRoom toBytes call := by
  cases call with
  | emit val => exact iff_of_true (h.emit val) trivial
  | take buf => exact inOrder_take_iff h

/-- **Events come out in order and complete, at all times, if and only if every take has room** for the
event that it finds. -/
theorem events_in_order_iff (toBytes : T → Bytes) (calls : List (TapCall T)) :
    (∀ done, done <+: calls → (run toBytes done).InOrder toBytes) ↔
      ∀ done call, done ++ [call] <+: calls → (run toBytes done).HasRoom toBytes call := by
  have hst : ∀ done call, run toBytes (done ++ [call]) = (run toBytes done).step toBytes call :=
    fun done call => by rw [run, foldl_append, ← run, foldl_cons, foldl_nil]
  constructor
  · intro h done call hc
    rw [← inOrder_step_iff (h done ((prefix_append ..).trans hc)), ← hst]
    exact h _ hc
  · intro h done
    induction done using reverseRecOn with
    | nil => exact fun _ => rfl
    | append_singleton done call ih =>
      intro hc
      rw [hst, inOrder_step_iff (ih ((prefix_append ..).trans hc))]
      exact h done call hc

/-- An event of one byte, and a buffer without room for it. -/
theorem short_buffer_loses_event :
    ¬∀ done, done <+: [TapCall.emit [1], .take 0] → (run id done).InOrder (T := Bytes) id := by
  intro h
  have hl := congrArg length (h _ (prefix_refl _))
  revert hl
  decide

end Tap

/-! ## The sink task of an outlet -/

/-- The last value, with its time stamp. -/
abbrev RetainedSlot (T : Type) := Option (Nat × T)

/-- An outlet and its task: `lastTs` is what the task remembers, `applied` the command that the driver
applied last, with its stamp. -/
structure Outlet (T : Type) where
  clock : Nat
  slot : RetainedSlot T
  lastTs : Option Nat
  applied : RetainedSlot T

/-- Time passes, a command is written, or the sink task ticks. -/
inductive OutletAction (T : Type) where
  | wait (millis : Nat)
  | write (cmd : T)
  /-- A tick of the task; `ok` is whether an apply succeeds. -/
  | tick (ok : Bool)

namespace Outlet

def start : Outlet T := ⟨0, none, none, none⟩

/-- The task compares the stamps of commands and not the commands. -/
def step (st : Outlet T) : OutletAction T → Outlet T
  | .wait millis => { st with clock := st.clock + millis }
  | .write cmd => { st with slot := some (st.clock, cmd) }
  | .tick ok =>
    match st.slot with
    | none => st
    | some (ts, cmd) =>
      if st.lastTs ≠ some ts then
        if ok then { st with lastTs := some ts, applied := some (ts, cmd) } else st
      else st

def run (acts : List (OutletAction T)) : Outlet T := acts.foldl step start

/-- A tick without a failed apply leaves the command in the slot as the one applied last. -/
def Follows (st : Outlet T) : OutletAction T → Prop
  | .tick ok => ∀ ts cmd, st.slot = some (ts, cmd) → (st.lastTs ≠ some ts → ok = true) →
      (st.step (.tick ok)).applied.map Prod.snd = some cmd
  | _ => True

/-! ### What the actions say -/

/-- The milliseconds that pass during some actions. -/
def millis (acts : List (OutletAction T)) : Nat :=
  (acts.map fun
    | .wait millis => millis
    | _ => 0).sum

/-- The last command that the actions write, with the millisecond of its writing. -/
def LastWritten (acts : List (OutletAction T)) (ts : Nat) (cmd : T) : Prop :=
  ∃ before after, acts = before ++ .write cmd :: after ∧ millis before = ts ∧
    ∀ later, .write later ∉ after

/-- **The stamps tell the commands apart**: when a tick whose apply succeeds finds a command, no later
tick finds another one that was written in the same millisecond. -/
def StampsTell (acts : List (OutletAction T)) : Prop :=
  ∀ done done' ok ts cmd cmd', done ++ [.tick true] <+: done' → done' ++ [.tick ok] <+: acts →
    LastWritten done ts cmd → LastWritten done' ts cmd' → cmd = cmd'

section Actions
variable {acts rest done : List (OutletAction T)} {act : OutletAction T} {ts : Nat} {cmd cmd' : T}

theorem run_snoc : run (acts ++ [act]) = (run acts).step act := by
  rw [run, foldl_append, ← run, foldl_cons, foldl_nil]

theorem lastWritten_write : LastWritten (acts ++ [.write cmd']) ts cmd ↔
    millis acts = ts ∧ cmd' = cmd := by
  constructor
  · rintro ⟨before, after, he, hts, hno⟩
    rcases eq_nil_or_concat after with rfl | ⟨_, last, rfl⟩
    · obtain ⟨rfl, hw⟩ := append_inj' he rfl
      cases hw
      exact ⟨hts, rfl⟩
    · rw [concat_eq_append, ← cons_append, ← append_assoc] at he
      obtain ⟨-, hw⟩ := append_inj' he rfl
      cases hw
      exact absurd (by simp) (hno cmd')
  · rintro ⟨hts, rfl⟩
    exact ⟨acts, [], rfl, hts, nofun⟩

theorem lastWritten_other (h : ∀ c, act ≠ .write c) :
    LastWritten (acts ++ [act]) ts cmd ↔ LastWritten acts ts cmd := by
  constructor
  · rintro ⟨before, after, he, hts, hno⟩
    rcases eq_nil_or_concat after with rfl | ⟨after, last, rfl⟩
    · obtain ⟨-, hw⟩ := append_inj' he rfl
      cases hw
      exact absurd rfl (h cmd)
    · rw [concat_eq_append, ← cons_append, ← append_assoc] at he
      obtain ⟨rfl, -⟩ := append_inj' he rfl
      exact ⟨before, after, rfl, hts, fun c hc => hno c (by simp [hc])⟩
  · rintro ⟨before, after, rfl, hts, hno⟩
    refine ⟨before, after ++ [act], by simp, hts, fun c hc => ?_⟩
    rcases mem_append.mp hc with hc | hc
    · exact hno c hc
    · exact h c (mem_singleton.mp hc).symm

theorem LastWritten.le_millis (h : LastWritten acts ts cmd) : ts ≤ millis acts := by
  obtain ⟨before, after, rfl, rfl, -⟩ := h
  simp [millis]

/-- Stamps only grow. -/
theorem LastWritten.later (h : LastWritten done ts cmd) (rest : List (OutletAction T)) :
    ∃ ts' cmd', LastWritten (done ++ rest) ts' cmd' ∧ ts ≤ ts' := by
  induction rest using reverseRecOn with
  | nil => exact ⟨ts, cmd, by rwa [append_nil], le_rfl⟩
  | append_singleton rest act ih =>
    obtain ⟨ts', cmd', hl, hle⟩ := ih
    rw [← append_assoc]
    cases act with
    | write c => exact ⟨_, c, lastWritten_write.mpr ⟨rfl, rfl⟩, hle.trans hl.le_millis⟩
    | wait | tick => exact ⟨ts', cmd', (lastWritten_other nofun).mpr hl, hle⟩

theorem clock_run : (run acts).clock = millis acts := by
  induction acts using reverseRecOn with
  | nil => rfl
  | append_singleton acts act ih =>
    rw [run_snoc, millis, map_append, sum_append, ← millis, ← ih]
    fun_cases step (run acts) act <;> simp

/-- The slot holds the last command that was written. -/
theorem slot_run : (run acts).slot = some (ts, cmd) ↔ LastWritten acts ts cmd := by
  induction acts using reverseRecOn with
  | nil => exact iff_of_false nofun (by rintro ⟨_, _, he, -⟩; simp at he)
  | append_singleton acts act ih =>
    have hs : (∀ c, act ≠ .write c) → ((run acts).step act).slot = (run acts).slot := by
      intro h
      fun_cases step (run acts) act <;> first | rfl | exact absurd rfl (h _)
    rw [run_snoc]
    cases act with
    | write c => simp [step, lastWritten_write, clock_run]
    | wait | tick => rw [hs nofun, lastWritten_other nofun, ih]

theorem lastTs_run : (run acts).lastTs = (run acts).applied.map Prod.fst := by
  induction acts using reverseRecOn with
  | nil => rfl
  | append_singleton acts act ih =>
    rw [run_snoc]
    fun_cases step (run acts) act <;> first | rfl | exact ih

/-- What was applied last was found by a tick whose apply succeeded. -/
theorem applied_run (h : (run acts).applied = some (ts, cmd)) :
    ∃ done, done ++ [.tick true] <+: acts ∧ LastWritten done ts cmd := by
  induction acts using reverseRecOn with
  | nil => cases h
  | append_singleton acts act ih =>
    have hold : (run acts).applied = some (ts, cmd) →
        ∃ done, done ++ [.tick true] <+: acts ++ [act] ∧ LastWritten done ts cmd := by
      intro ha
      obtain ⟨done, hd, hl⟩ := ih ha
      exact ⟨done, hd.trans (prefix_append ..), hl⟩
    rw [run_snoc] at h
    revert h
    fun_cases step (run acts) act <;> intro h <;> first | exact hold h | skip
    next hs _ =>
      -- this is the tick that applied it
      cases h
      exact ⟨acts, prefix_refl _, slot_run.mp hs⟩

/-- **Once a command was applied, those with its stamp are taken for it.** -/
theorem LastWritten.stays (h : LastWritten done ts cmd)
    (hl : LastWritten (done ++ [.tick true] ++ rest) ts cmd') :
    (run (done ++ [.tick true] ++ rest)).lastTs = some ts ∧
      (run (done ++ [.tick true] ++ rest)).applied = (run (done ++ [.tick true])).applied := by
  induction rest using reverseRecOn generalizing cmd' with
  | nil =>
    rw [append_nil, run_snoc]
    by_cases hts : (run done).lastTs = some ts <;> simp [step, slot_run.mpr h, hts]
  | append_singleton rest act ih =>
    rw [← append_assoc] at hl ⊢
    rw [run_snoc]
    cases act with
    | wait => exact ih ((lastWritten_other nofun).mp hl)
    | write c =>
      -- the command before it has a stamp between the two, so the same one
      obtain ⟨hm, -⟩ := lastWritten_write.mp hl
      have hd : LastWritten (done ++ [.tick true]) ts cmd := (lastWritten_other nofun).mpr h
      obtain ⟨ts', cmd'', hl', hle⟩ := hd.later rest
      have hle' := hl'.le_millis
      have hts : ts' = ts := by omega
      subst hts
      exact ih hl'
    | tick ok =>
      have hl' := (lastWritten_other nofun).mp hl
      obtain ⟨hts, ha⟩ := ih hl'
      simp only [step, slot_run.mpr hl', hts, ne_eq, not_true_eq_false, if_false]
      exact ⟨trivial, ha⟩

end Actions

/-- **An outlet follows its commands if and only if the stamps tell them apart.** -/
theorem outlet_follows_iff (acts : List (OutletAction T)) :
    (∀ done act, done ++ [act] <+: acts → (run done).Follows act) ↔ StampsTell acts := by
  constructor
  · intro h done done' ok ts cmd cmd' hd hd' hl hl'
    obtain ⟨rest, rfl⟩ := hd
    have hf := h done (.tick true) (((prefix_append _ rest).trans (prefix_append ..)).trans hd') ts
      cmd (slot_run.mpr hl) fun _ => rfl
    obtain ⟨hts, ha⟩ := hl.stays hl'
    have hf' := h _ (.tick ok) hd' ts cmd' (slot_run.mpr hl') (absurd hts)
    simp only [step, slot_run.mpr hl', hts, ne_eq, not_true_eq_false, if_false, ha] at hf'
    rw [run_snoc, hf] at hf'
    exact Option.some.inj hf'
  · intro h done act hp
    cases act with
    | wait | write => trivial
    | tick ok =>
      intro ts cmd hs hok
      by_cases hts : (run done).lastTs = some ts
      · -- nothing is applied, so what was applied under this stamp is looked at
        obtain ⟨⟨_, old⟩, ha, rfl⟩ := Option.map_eq_some_iff.mp (lastTs_run ▸ hts)
        obtain ⟨done₀, hd, hl⟩ := applied_run ha
        have heq := h done₀ done ok _ old cmd hd hp hl (slot_run.mp hs)
        simp [step, hs, hts, ha, heq]
      · simp [step, hs, hts, hok hts]

/-- Two commands in one millisecond, with a tick between them. -/
theorem same_stamp_ignored : ¬∀ done act, done ++ [act] <+:
    [OutletAction.write true, .tick true, .write false, .tick true] → (run done).Follows act := by
  intro h
  have hf := h [.write true, .tick true, .write false] (.tick true) (prefix_refl _) 0 false rfl
    (by decide)
  cases hf

end Outlet
end SignalLayer
end Myrmic
