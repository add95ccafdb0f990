import Myrmic.Machine
import Myrmic.StoreKey
import Mathlib.Data.Finset.Card

/-!
# Receiving commands

A cell's commands are rows of its mailbox table.  Reading does not remove a row: a command is handed
out with a receipt, and its holder removes the row and reports a **settlement** through a channel.  A
read is answered by any replica, so a row may be missing from one view and back in the next, and only
`Dispatched` keeps a command in work from being handed out again: it remembers the ids that are
**outstanding**, for `outstandingTimeout`, and those that were **consumed**, for `consumedMemory` and at
most `consumedCapacity` of them.

`Mailbox` is the stream with everything around it: the read under way, taken apart at each wait, the
channel, the clock, and the receipts and reports so far.  Settlements arrive at any time.

An id is stamped when its batch is read, not when it is handed out, and a settlement names only the id.
So a command that waited in the batch is handed out again too early
(`queued_stamp_redelivers`), and a late report settles a later hand-out of the same command.  **If
no read finds a command timed out that was handed out less than the timeout ago, and every receipt
reports once, within the timeout of its command's read, then a command in work is not handed out twice**
(`command_not_handed_out_twice`).
-/
namespace Myrmic
open OrderedBytes Machine List Function

/-! ## Dispatched ids -/

abbrev MsgId := Bytes

/-- What became of a command. -/
inductive Settlement where
  | consumed
  | retry
deriving DecidableEq

/-- How long a dispatched command is left alone, in nanoseconds. -/
def outstandingTimeout : Nat := 30 * 1000000000

/-- How long a consumed id is remembered, in nanoseconds. -/
def consumedMemory : Nat := 30 * 1000000000

/-- How many consumed ids are remembered. -/
def consumedCapacity : Nat := 8192

/-- How many windows past the first one a read walks over suppressed rows. -/
def suppressedWindows : Nat := 4

/-- The ids a read must not hand out; the consumed ones oldest first. -/
structure Dispatched where
  outstanding : MsgId → Option Nat
  consumed : List (MsgId × Nat)
  consumedIds : Finset MsgId

namespace Dispatched

def empty : Dispatched := ⟨fun _ => none, [], ∅⟩

/-- A command that is out, or was consumed lately, is not handed out again. -/
def suppresses (d : Dispatched) (id : MsgId) (now : Nat) : Bool :=
  decide (id ∈ d.consumedIds) ||
    (d.outstanding id).any fun since => decide (now - since < outstandingTimeout)

def dispatch (d : Dispatched) (id : MsgId) (now : Nat) : Dispatched :=
  { d with outstanding := update d.outstanding id (some now) }

/-- A consumed command is remembered for a while. -/
def settle (d : Dispatched) (id : MsgId) (settlement : Settlement) (now : Nat) : Dispatched :=
  let d := { d with outstanding := update d.outstanding id none }
  if settlement = .consumed ∧ id ∉ d.consumedIds then
    { d with consumed := d.consumed ++ [(id, now)], consumedIds := insert id d.consumedIds }
  else d

/-- Forgets consumed ids from the front: the old ones, and those beyond the capacity. -/
def pruneConsumed (now : Nat) : List (MsgId × Nat) → Finset MsgId → List (MsgId × Nat) × Finset MsgId
  | [], ids => ([], ids)
  | (id, since) :: rest, ids =>
    if rest.length + 1 ≤ consumedCapacity ∧ now - since < consumedMemory then
      ((id, since) :: rest, ids)
    else pruneConsumed now rest (ids.erase id)

/-- Forgets what is too old to be suppressed. -/
def prune (d : Dispatched) (now : Nat) : Dispatched :=
  let (consumed, consumedIds) := pruneConsumed now d.consumed d.consumedIds
  { outstanding := fun id =>
      (d.outstanding id).filter fun since => decide (now - since < outstandingTimeout)
    consumed := consumed
    consumedIds := consumedIds }

/-- Applies every outcome reported since the last read, and forgets what is old. -/
def takeSettlements (d : Dispatched) (settled : List (MsgId × Settlement)) (now : Nat) : Dispatched :=
  (settled.foldl (fun d report => d.settle report.1 report.2 now) d).prune now

end Dispatched
section Dispatched
variable {d : Dispatched} {id : MsgId} {now : Nat}
namespace Dispatched

theorem suppresses_eq_false_iff : d.suppresses id now = false ↔
    id ∉ d.consumedIds ∧ ∀ since, d.outstanding id = some since → outstandingTimeout ≤ now - since := by
  cases hd : d.outstanding id <;> simp [suppresses, hd]

/-- The consumed ids are those of the list, each once. -/
structure Listed (d : Dispatched) : Prop where
  ids : d.consumedIds = (d.consumed.map Prod.fst).toFinset
  nodup : (d.consumed.map Prod.fst).Nodup

theorem Listed.settle (h : d.Listed) (id : MsgId) (stl : Settlement) (now : Nat) :
    (d.settle id stl now).Listed := by
  simp only [Dispatched.settle]
  split
  · next hn =>
    have hid : id ∉ d.consumed.map Prod.fst := by
      rw [← mem_toFinset, ← h.ids]
      exact hn.2
    refine ⟨?_, ?_⟩
    · ext x
      simp [h.ids]
    · rw [map_append]
      exact concat_eq_append ▸ Nodup.concat hid h.nodup
  · exact { h with }

/-- The ids of the consumed settlements of a list of reports. -/
def consumedOf (settled : List (MsgId × Settlement)) : List MsgId :=
  (settled.filter fun report => report.2 = .consumed).map Prod.fst

variable {settled : List (MsgId × Settlement)}

theorem mem_of_mem_consumedOf (h : id ∈ consumedOf settled) : id ∈ settled.map Prod.fst := by
  obtain ⟨_, hr, rfl⟩ := mem_map.mp h
  exact mem_map_of_mem (mem_filter.mp hr).1

theorem consumedOf_cons (rep : MsgId × Settlement) (settled : List (MsgId × Settlement)) :
    consumedOf (rep :: settled) = consumedOf [rep] ++ consumedOf settled := by
  cases hc : decide (rep.2 = .consumed) <;> simp [consumedOf, hc]

theorem settle_of_notMem {rep : MsgId × Settlement} (h : rep.1 ∉ d.consumedIds) :
    d.settle rep.1 rep.2 now = ⟨update d.outstanding rep.1 none,
      d.consumed ++ (consumedOf [rep]).map (·, now), d.consumedIds ∪ (consumedOf [rep]).toFinset⟩ := by
  by_cases hc : rep.2 = .consumed
  · simp [settle, consumedOf, hc, h]
  · simp [settle, consumedOf, hc]

/-- Taking settlements of different ids, none consumed before: each id stops being outstanding, and the
consumed ones are listed in their order. -/
theorem settleAll_eq (now : Nat)
    (hno : (settled.map Prod.fst).Nodup) (hne : ∀ id ∈ settled.map Prod.fst, id ∉ d.consumedIds) :
    settled.foldl (fun d rep => d.settle rep.1 rep.2 now) d =
      ⟨fun id => if id ∈ settled.map Prod.fst then none else d.outstanding id,
        d.consumed ++ (consumedOf settled).map (·, now),
        d.consumedIds ∪ (consumedOf settled).toFinset⟩ := by
  induction settled generalizing d with
  | nil => simp [consumedOf]
  | cons rep settled ih =>
    obtain ⟨hfi, hno⟩ := nodup_cons.mp hno
    have hin : ∀ x ∈ consumedOf [rep], x = rep.1 := fun x hx => by
      simpa using mem_of_mem_consumedOf hx
    rw [foldl_cons, settle_of_notMem (hne rep.1 mem_cons_self), ih hno, consumedOf_cons rep settled]
    · congr 1
      · funext x
        simp only [update_apply, map_cons, mem_cons]
        grind
      · rw [map_append, append_assoc]
      · rw [toFinset_append, Finset.union_assoc]
    · intro x hx hu
      rcases Finset.mem_union.mp hu with hu | hu
      · exact hne x (mem_cons_of_mem _ hx) hu
      · exact hfi (hin x (mem_toFinset.mp hu) ▸ hx)

/-- What pruning forgets is the front of the list: entries that are old, or that have as many behind
them as the memory holds. -/
theorem pruneConsumed_spec (now : Nat) (consumed : List (MsgId × Nat)) (ids : Finset MsgId) :
    ∃ dropped, consumed = dropped ++ (pruneConsumed now consumed ids).1 ∧
      (∀ pre id since behind, dropped = pre ++ (id, since) :: behind →
        consumedCapacity ≤ (behind ++ (pruneConsumed now consumed ids).1).length ∨
          since + consumedMemory ≤ now) ∧
      (pruneConsumed now consumed ids).2 = ids \ (dropped.map Prod.fst).toFinset := by
  induction consumed generalizing ids with
  | nil => exact ⟨[], rfl, by simp, by simp [pruneConsumed]⟩
  | cons e rest ih =>
    obtain ⟨id, since⟩ := e
    simp only [pruneConsumed]
    split
    · exact ⟨[], rfl, by simp, by simp⟩
    · next hdr =>
      obtain ⟨dropped, hli, hre, hid⟩ := ih (ids.erase id)
      refine ⟨(id, since) :: dropped, by rw [cons_append, ← hli], ?_, ?_⟩
      · intro pre id' since' behind heq
        cases pre with
        | nil =>
          obtain ⟨⟨rfl, rfl⟩, rfl⟩ := heq
          rw [← hli]
          by_cases hro : rest.length + 1 ≤ consumedCapacity
          · right
            have hpo : 0 < consumedMemory := by decide
            omega
          · left
            omega
        | cons first pre =>
          simp only [cons_append, List.cons.injEq] at heq
          exact hre pre id' since' behind heq.2
      · rw [hid]
        ext x
        simp only [Finset.mem_sdiff, Finset.mem_erase, map_cons, toFinset_cons,
          Finset.mem_insert, not_or]
        tauto

theorem Listed.prune (h : d.Listed) (now : Nat) : (d.prune now).Listed := by
  obtain ⟨_, hl, -, hi⟩ := pruneConsumed_spec now d.consumed d.consumedIds
  have hn := h.nodup
  rw [hl, map_append] at hn
  obtain ⟨-, hk, ha⟩ := nodup_append.mp hn
  refine ⟨?_, hk⟩
  ext x
  change x ∈ (pruneConsumed now d.consumed d.consumedIds).2 ↔ x ∈ List.toFinset
    ((pruneConsumed now d.consumed d.consumedIds).1.map Prod.fst)
  have hin : x ∈ d.consumedIds ↔ x ∈ d.consumed.map Prod.fst := by rw [h.ids, mem_toFinset]
  rw [hi, Finset.mem_sdiff, hin, mem_toFinset, mem_toFinset]
  constructor
  · rintro ⟨hin, hno⟩
    rw [hl, map_append] at hin
    exact (mem_append.mp hin).resolve_left hno
  · intro hin
    refine ⟨?_, fun hd => ha x hd x hin rfl⟩
    rw [hl, map_append]
    exact mem_append_right _ hin

theorem Listed.settleAll (h : d.Listed) (settled : List (MsgId × Settlement)) (now : Nat) :
    (settled.foldl (fun d rep => d.settle rep.1 rep.2 now) d).Listed := by
  induction settled generalizing d with
  | nil => exact h
  | cons rep settled ih => exact ih (h.settle rep.1 rep.2 now)

/-- **Taking the settlements** of a read. -/
theorem takeSettlements_spec (now : Nat)
    (hno : (settled.map Prod.fst).Nodup) (hne : ∀ id ∈ settled.map Prod.fst, id ∉ d.consumedIds) :
    (∀ id, (d.takeSettlements settled now).outstanding id = if id ∈ settled.map Prod.fst then none
      else (d.outstanding id).filter fun since => decide (now - since < outstandingTimeout)) ∧
    (∀ id ∈ (d.takeSettlements settled now).consumedIds,
      id ∈ d.consumedIds ∨ id ∈ consumedOf settled) ∧
    ∃ dropped, d.consumed ++ (consumedOf settled).map (·, now) =
        dropped ++ (d.takeSettlements settled now).consumed ∧
      ∀ pre id since behind, dropped = pre ++ (id, since) :: behind →
        consumedCapacity ≤ (behind ++ (d.takeSettlements settled now).consumed).length ∨
          since + consumedMemory ≤ now := by
  rw [takeSettlements, settleAll_eq now hno hne]
  obtain ⟨dropped, hdr, hre, hpr⟩ := pruneConsumed_spec now
    (d.consumed ++ (consumedOf settled).map (·, now))
    (d.consumedIds ∪ (consumedOf settled).toFinset)
  refine ⟨fun id => ?_, fun id hid => ?_, dropped, hdr, hre⟩
  · simp only [prune]
    split <;> rfl
  · simp only [prune, hpr, Finset.mem_sdiff, Finset.mem_union, mem_toFinset] at hid
    exact hid.1

end Dispatched
end Dispatched

/-! ## The stream and its receipts -/

/-- Where a read is: waiting for a window of rows, or queueing them. -/
inductive ReadPlace where
  | peeking
  | queueing (rows : List (MsgId × Bytes)) (full : Bool) (last : Option MsgId)

/-- A read of the mailbox that is on its way. -/
structure Read where
  now : Nat
  window : Nat
  cursor : Option MsgId
  queued : List MsgId
  place : ReadPlace

/-- A command handed out: when it was queued, and when `next` returned it. -/
structure Handout where
  number : Nat
  id : MsgId
  queuedAt : Nat
  handedAt : Nat
deriving DecidableEq

/-- An outcome: a receipt's settlement, or the removal of an undecodable message. -/
inductive Report where
  | settled (receipt : Handout) (settlement : Settlement) (time : Nat)
  | deadLettered (id : MsgId)
deriving DecidableEq

/-- A command stream, its channel and the clock.  `handouts` and `reports` are bookkeeping, the last
one first. -/
structure Mailbox (Command : Type) where
  queued : List (MsgId × Command)
  dispatched : Dispatched
  settled : List (MsgId × Settlement)
  read : Option Read
  clock : Nat
  handouts : List Handout
  reports : List Report

/-- The steps of reads, of hand-outs and of reports. -/
inductive MailboxAction where
  | tick (elapsed : Nat)
  /-- `next` returns a queued command. -/
  | handOut
  /-- `next` finds nothing queued and starts a read. -/
  | beginRead
  /-- The answer to a peek. -/
  | peeked (rows : List (MsgId × Bytes))
  | peekFails
  /-- The next row of a window; `deadLettered` is whether moving it away, if need be, succeeds. -/
  | queueRow (deadLettered : Bool)
  | windowDone
  | settle (receipt : Handout) (settlement : Settlement)

namespace Mailbox
variable {Command : Type}

def start : Mailbox Command := ⟨[], .empty, [], none, 0, [], []⟩

/-- Queues a row that is not suppressed, or moves it to the dead letters. -/
def queueRow (decode : Bytes → Option Command) (st : Mailbox Command) (read : Read)
    (row : MsgId × Bytes) (deadLettered : Bool) : Mailbox Command :=
  if st.dispatched.suppresses row.1 read.now then { st with read := some read }
  else
    match decode row.2 with
    | some command =>
      { st with
        dispatched := st.dispatched.dispatch row.1 read.now
        queued := st.queued ++ [(row.1, command)]
        read := some { read with queued := row.1 :: read.queued } }
    | none =>
      if deadLettered then
        { st with
          dispatched := st.dispatched.settle row.1 .consumed read.now
          reports := .deadLettered row.1 :: st.reports
          read := some read }
      else { st with read := some read }

def step (decode : Bytes → Option Command) (batchSize : Nat) (st : Mailbox Command) :
    MailboxAction → Option (Mailbox Command)
  | .tick elapsed => some { st with clock := st.clock + elapsed }
  | .handOut =>
    match st.read, st.queued with
    | none, (id, _) :: queued =>
      let receipt : Handout :=
        ⟨st.handouts.length, id, (st.dispatched.outstanding id).getD st.clock, st.clock⟩
      some { st with queued := queued, handouts := receipt :: st.handouts }
    | _, _ => none
  | .beginRead =>
    match st.read, st.queued with
    | none, [] =>
      some { st with
        dispatched := st.dispatched.takeSettlements st.settled st.clock
        settled := []
        read := some ⟨st.clock, 0, none, [], .peeking⟩ }
    | _, _ => none
  | .peeked rows =>
    match st.read with
    | some ⟨now, window, cursor, queued, .peeking⟩ =>
      let place := ReadPlace.queueing rows (rows.length = batchSize) (rows.getLast?.map Prod.fst)
      some { st with read := some ⟨now, window, cursor, queued, place⟩ }
    | _ => none
  | .peekFails =>
    match st.read with
    | some ⟨_, _, _, _, .peeking⟩ => some { st with read := none }
    | _ => none
  | .queueRow deadLettered =>
    match st.read with
    | some ⟨now, window, cursor, queued, .queueing (row :: rows) full last⟩ =>
      some (st.queueRow decode ⟨now, window, cursor, queued, .queueing rows full last⟩ row
        deadLettered)
    | _ => none
  | .windowDone =>
    match st.read with
    | some ⟨now, window, _, queued, .queueing [] full last⟩ =>
      -- walks on only over full windows in which every row was suppressed
      if queued = [] ∧ full ∧ window < suppressedWindows ∧ last.isSome then
        some { st with read := some ⟨now, window + 1, last, queued, .peeking⟩ }
      else some { st with read := none }
    | _ => none
  | .settle receipt settlement =>
    if receipt ∈ st.handouts then
      some { st with
        settled := st.settled ++ [(receipt.id, settlement)]
        reports := .settled receipt settlement st.clock :: st.reports }
    else none

/-! ## What must not be handed out -/

def reported (st : Mailbox Command) (receipt : Handout) : Bool :=
  st.reports.any fun
    | .settled r _ _ => decide (r = receipt)
    | .deadLettered _ => false

end Mailbox

def Report.consumes : Report → Option MsgId
  | .settled receipt .consumed _ => some receipt.id
  | .settled _ .retry _ => none
  | .deadLettered id => some id

/-- The commands that were reported as consumed. -/
def consumedIn (reports : List Report) : Finset MsgId := (reports.filterMap Report.consumes).toFinset

theorem consumedIn_cons {rep : Report} {reports : List Report} :
    consumedIn reports ⊆ consumedIn (rep :: reports) := by
  intro id hid
  simp only [consumedIn, mem_toFinset] at hid ⊢
  exact mem_filterMap.mpr ((mem_filterMap.mp hid).imp fun r hr => ⟨mem_cons_of_mem _ hr.1, hr.2⟩)

variable {id : MsgId}

theorem mem_consumedIn_cons {rep : Report} (h : rep.consumes = some id)
    (reports : List Report) : id ∈ consumedIn (rep :: reports) := by
  simp [consumedIn, h]

namespace Mailbox
variable {Command : Type} {decode : Bytes → Option Command} {batchSize : Nat}
  {st st' : Mailbox Command} {time : Nat}

/-- **A command may be handed out** now: every hand-out of it within the timeout is settled, and if it
was settled as consumed within the memory, more than the capacity were consumed since. -/
structure MayHandOut (st : Mailbox Command) (id : MsgId) : Prop where
  settled : ∀ receipt ∈ st.handouts, receipt.id = id →
    st.clock < receipt.handedAt + outstandingTimeout → st.reported receipt = true
  consumed : ∀ {later receipt time earlier},
    st.reports = later ++ .settled receipt .consumed time :: earlier → receipt.id = id →
    st.clock < time + consumedMemory →
    consumedCapacity < (consumedIn (later ++ [.settled receipt .consumed time])).card

/-- No read starts while an unsettled command, read `outstandingTimeout` ago, was handed out less than
that ago; and a receipt reports once, within `outstandingTimeout` of the read of its command. -/
def Timely (st : Mailbox Command) : MailboxAction → Prop
  | .beginRead => ∀ receipt ∈ st.handouts, st.reported receipt = false →
      receipt.queuedAt + outstandingTimeout ≤ st.clock →
      receipt.handedAt + outstandingTimeout ≤ st.clock
  | .settle receipt _ =>
      st.reported receipt = false ∧ st.clock < receipt.queuedAt + outstandingTimeout
  | _ => True

instance (st : Mailbox Command) : ∀ action, Decidable (st.Timely action)
  | .beginRead => inferInstanceAs (Decidable (∀ receipt ∈ st.handouts, st.reported receipt = false →
      receipt.queuedAt + outstandingTimeout ≤ st.clock →
      receipt.handedAt + outstandingTimeout ≤ st.clock))
  | .settle receipt _ => inferInstanceAs (Decidable (st.reported receipt = false ∧
      st.clock < receipt.queuedAt + outstandingTimeout))
  | .tick _ | .handOut | .peeked _ | .peekFails | .queueRow _ | .windowDone =>
    inferInstanceAs (Decidable True)

/-- The hand-out no longer counts as being in work. -/
def Expired (st : Mailbox Command) (receipt : Handout) : Prop :=
  receipt.handedAt + outstandingTimeout ≤ st.clock

/-- The hand-out is the last one of its command, and the command is kept from being handed out. -/
structure Held (st : Mailbox Command) (receipt : Handout) : Prop where
  outstanding : st.dispatched.outstanding receipt.id = some receipt.queuedAt
  notQueued : receipt.id ∉ st.queued.map Prod.fst
  latest : ∀ other ∈ st.handouts, other.id = receipt.id → other.number ≤ receipt.number
  suppressed : ∀ read, st.read = some read → read.now < receipt.queuedAt + outstandingTimeout

/-- The id is remembered as consumed, or its report is in the channel, and whatever is behind it was
consumed since. -/
def InLine (st : Mailbox Command) (since : Finset MsgId) (id : MsgId) (time : Nat) : Prop :=
  (∃ before stamp behind, st.dispatched.consumed = before ++ (id, stamp) :: behind ∧ time ≤ stamp ∧
    ∀ x ∈ behind.map Prod.fst ++ Dispatched.consumedOf st.settled, x ∈ since) ∨
  ∃ before behind, Dispatched.consumedOf st.settled = before ++ id :: behind ∧ ∀ x ∈ behind, x ∈ since

theorem InLine.grow {st st' : Mailbox Command} {since since' : Finset MsgId}
    {listed : List (MsgId × Nat)} {pending : List MsgId} (h : st.InLine since id time)
    (hs : since ⊆ since') (hli : st'.dispatched.consumed = st.dispatched.consumed ++ listed)
    (hp : Dispatched.consumedOf st'.settled = Dispatched.consumedOf st.settled ++ pending)
    (hn : ∀ x ∈ listed.map Prod.fst ++ pending, x ∈ since') : st'.InLine since' id time := by
  rcases h with ⟨pre, stamp, behind, hl, hst, hb⟩ | ⟨pre, behind, hl, hb⟩
  · refine .inl ⟨pre, stamp, behind ++ listed, by rw [hli, hl]; simp, hst, ?_⟩
    intro x hx
    simp only [hp, map_append, mem_append] at hx hn hb
    rcases hx with (hx | hx) | hx | hx
    · exact hs (hb x (.inl hx))
    · exact hn x (.inl hx)
    · exact hs (hb x (.inr hx))
    · exact hn x (.inr hx)
  · refine .inr ⟨pre, behind ++ pending, by rw [hp, hl]; simp, fun x hx => ?_⟩
    rcases mem_append.mp hx with hx | hx
    · exact hs (hb x hx)
    · exact hn x (mem_append_right _ hx)

/-- **The invariant** of a mailbox. -/
structure Sound (st : Mailbox Command) : Prop where
  listed : st.dispatched.Listed
  numbered : ∀ receipt ∈ st.handouts, receipt.number < st.handouts.length
  distinct : ∀ receipt ∈ st.handouts, ∀ other ∈ st.handouts, receipt.number = other.number →
    receipt = other
  times : ∀ receipt ∈ st.handouts, receipt.queuedAt ≤ receipt.handedAt
  reading : ∀ read, st.read = some read → read.now ≤ st.clock
  queued : ∀ id ∈ st.queued.map Prod.fst, id ∉ st.dispatched.consumedIds ∧
    ∃ since ≤ st.clock, st.dispatched.outstanding id = some since ∧
      ∀ read, st.read = some read → since = read.now
  nodup : (st.queued.map Prod.fst).Nodup
  held : ∀ receipt ∈ st.handouts, st.reported receipt = false → st.Expired receipt ∨ st.Held receipt
  pending : ∀ id ∈ st.settled.map Prod.fst, id ∉ st.queued.map Prod.fst ∧
    id ∉ st.dispatched.consumedIds ∧
    (∀ receipt ∈ st.handouts, receipt.id = id → st.reported receipt = false → st.Expired receipt) ∧
    ∃ since, st.dispatched.outstanding id = some since ∧
      ∀ read, st.read = some read → read.now < since + outstandingTimeout
  pendingNodup : (st.settled.map Prod.fst).Nodup
  consumed : ∀ id ∈ st.dispatched.consumedIds, ∀ receipt ∈ st.handouts, receipt.id = id →
    st.reported receipt = false → st.Expired receipt
  line : ∀ {later receipt time earlier},
    st.reports = later ++ .settled receipt .consumed time :: earlier → time ≤ st.clock ∧
    (time + consumedMemory ≤ st.clock ∨
      consumedCapacity < (consumedIn (later ++ [.settled receipt .consumed time])).card ∨
      st.InLine (consumedIn (later ++ [.settled receipt .consumed time])) receipt.id time)

theorem Sound.mayHandOut {st : Mailbox Command} (h : st.Sound)
    (hid : id ∈ st.queued.map Prod.fst) : st.MayHandOut id where
  settled receipt hre heq hr := by
    by_contra hn
    rcases h.held receipt hre (Bool.not_eq_true _ ▸ hn) with he | hh
    · exact absurd hr (Nat.not_lt.mpr he)
    · exact hh.notQueued (heq ▸ hid)
  consumed {later receipt time earlier} hrep heq hr := by
    rcases (h.line hrep).2 with hold | hm | hli
    · exact absurd hr (Nat.not_lt.mpr hold)
    · exact hm
    · exfalso
      rcases hli with ⟨pre, _, behind, hl, -, -⟩ | ⟨pre, behind, hl, -⟩
      · refine (h.queued id hid).1 ?_
        rw [h.listed.ids, hl, ← heq]
        simp
      · refine (h.pending id ?_).1 hid
        refine Dispatched.mem_of_mem_consumedOf ?_
        rw [hl, ← heq]
        simp

/-! ## Steps -/

theorem sound_start : (start : Mailbox Command).Sound where
  listed := ⟨rfl, nodup_nil⟩
  numbered := nofun
  distinct := nofun
  times := nofun
  reading := nofun
  queued := nofun
  nodup := nodup_nil
  held := nofun
  pending := nofun
  pendingNodup := nodup_nil
  consumed := nofun
  line hr := by simp [start] at hr

namespace Sound
variable {st : Mailbox Command}

theorem tick (h : st.Sound) (dt : Nat) : Sound { st with clock := st.clock + dt } where
  __ := h
  reading read hre := Nat.le_add_right_of_le (h.reading read hre)
  queued id hid := by
    obtain ⟨hn, since, hs, hou⟩ := h.queued id hid
    exact ⟨hn, since, Nat.le_add_right_of_le hs, hou⟩
  held rcpt hr ho := by
    rcases h.held rcpt hr ho with he | hh
    · exact .inl (Nat.le_add_right_of_le he)
    · exact .inr { hh with }
  pending id hid := by
    obtain ⟨hq, hn, he, hou⟩ := h.pending id hid
    exact ⟨hq, hn, fun rcpt hr heq ho => Nat.le_add_right_of_le (he rcpt hr heq ho), hou⟩
  consumed id hid rcpt hr heq ho := Nat.le_add_right_of_le (h.consumed id hid rcpt hr heq ho)
  line hrep := by
    obtain ⟨ht, hl⟩ := h.line hrep
    exact ⟨Nat.le_add_right_of_le ht, hl.imp_left Nat.le_add_right_of_le⟩

theorem setRead (h : st.Sound) {read' : Option Read}
    (hre : ∀ r', read' = some r' → ∃ r, st.read = some r ∧ r.now = r'.now) :
    Sound { st with read := read' } where
  __ := h
  reading r' hr' := by
    obtain ⟨r, hr, hno⟩ := hre r' hr'
    exact hno ▸ h.reading r hr
  queued id hid := by
    obtain ⟨hne, since, hsi, hou, hno⟩ := h.queued id hid
    refine ⟨hne, since, hsi, hou, fun r' hr' => ?_⟩
    obtain ⟨r, hr, heq⟩ := hre r' hr'
    exact (hno r hr).trans heq
  held receipt hrec hop := by
    rcases h.held receipt hrec hop with hex | hhe
    · exact .inl hex
    · refine .inr ⟨hhe.outstanding, hhe.notQueued, hhe.latest, fun r' hr' => ?_⟩
      obtain ⟨r, hr, heq⟩ := hre r' hr'
      exact heq ▸ hhe.suppressed r hr
  pending id hid := by
    obtain ⟨hqu, hne, hex, since, hou, hno⟩ := h.pending id hid
    refine ⟨hqu, hne, hex, since, hou, fun r' hr' => ?_⟩
    obtain ⟨r, hr, heq⟩ := hre r' hr'
    exact heq ▸ hno r hr

section Open
variable {read : Read} {id : MsgId}

/-- What a read does not suppress is not queued, not in the channel, and in nobody's work. -/
theorem not_suppressed (h : st.Sound) (hr : st.read = some read)
    (ho : st.dispatched.suppresses id read.now = false) :
    id ∉ st.queued.map Prod.fst ∧ id ∉ st.settled.map Prod.fst ∧ id ∉ st.dispatched.consumedIds ∧
    ∀ rcpt ∈ st.handouts, rcpt.id = id → st.reported rcpt = false → st.Expired rcpt := by
  obtain ⟨hne, hold⟩ := Dispatched.suppresses_eq_false_iff.mp ho
  have hp : 0 < outstandingTimeout := by decide
  refine ⟨fun hid => ?_, fun hid => ?_, hne, fun rcpt hre heq hu => ?_⟩
  · obtain ⟨-, since, -, hou, hn⟩ := h.queued id hid
    have ha := hold since hou
    rw [hn read hr] at ha
    omega
  · obtain ⟨-, -, -, since, hou, hn⟩ := h.pending id hid
    have ha := hold since hou
    have hl := hn read hr
    omega
  · rcases h.held rcpt hre hu with he | hh
    · exact he
    · have ha := hold rcpt.queuedAt (heq ▸ hh.outstanding)
      have hl := hh.suppressed read hr
      omega

theorem dispatch (h : st.Sound) (hre : st.read = some read)
    (hop : st.dispatched.suppresses id read.now = false) (cmd : Command) : Sound { st with
      dispatched := st.dispatched.dispatch id read.now
      queued := st.queued ++ [(id, cmd)] } := by
  obtain ⟨hqu, hset, hnew, hex⟩ := h.not_suppressed hre hop
  have hou : ∀ x, x ≠ id → (st.dispatched.dispatch id read.now).outstanding x =
      st.dispatched.outstanding x := fun x hx => update_of_ne hx _ _
  have hse : (st.dispatched.dispatch id read.now).outstanding id = some read.now := update_self ..
  have hme : ∀ x, x ∈ (st.queued ++ [(id, cmd)]).map Prod.fst ↔
      x ∈ st.queued.map Prod.fst ∨ x = id := by simp
  refine ⟨{ h.listed with }, h.numbered, h.distinct, h.times, h.reading, ?_, ?_, ?_, ?_,
    h.pendingNodup, h.consumed, h.line⟩
  · intro x hx
    rcases (hme x).mp hx with hx | rfl
    · obtain ⟨hxn, since, hsi, hxo, hno⟩ := h.queued x hx
      exact ⟨hxn, since, hsi, (hou x fun he => hqu (he ▸ hx)).trans hxo, hno⟩
    · refine ⟨hnew, read.now, h.reading read hre, hse, fun r hr => ?_⟩
      rw [hre] at hr
      cases hr
      rfl
  · rw [map_append]
    exact concat_eq_append ▸ Nodup.concat hqu h.nodup
  · intro rcpt hrec hun
    by_cases heq : rcpt.id = id
    · exact .inl (hex rcpt hrec heq hun)
    · refine (h.held rcpt hrec hun).imp_right fun hhe =>
        ⟨(hou _ heq).trans hhe.outstanding, fun hin => ?_, hhe.latest, hhe.suppressed⟩
      exact ((hme _).mp hin).elim hhe.notQueued heq
  · intro x hx
    obtain ⟨hxq, hxn, hxe, since, hxo, hno⟩ := h.pending x hx
    have hne : x ≠ id := fun he => hset (he ▸ hx)
    exact ⟨fun hin => ((hme x).mp hin).elim hxq hne, hxn, hxe, since, (hou x hne).trans hxo, hno⟩

theorem deadLetter (h : st.Sound) (hrea : st.read = some read)
    (hop : st.dispatched.suppresses id read.now = false) : Sound { st with
      dispatched := st.dispatched.settle id .consumed read.now
      reports := .deadLettered id :: st.reports } := by
  obtain ⟨hqu, hset, hnew, hex⟩ := h.not_suppressed hrea hop
  have hse : st.dispatched.settle id .consumed read.now = ⟨update st.dispatched.outstanding id none,
        st.dispatched.consumed ++ [(id, read.now)], insert id st.dispatched.consumedIds⟩ := by
    simp [Dispatched.settle, hnew]
  have hou : ∀ x, x ≠ id → (st.dispatched.settle id .consumed read.now).outstanding x =
      st.dispatched.outstanding x := by
    intro x hx
    rw [hse]
    exact update_of_ne hx _ _
  have hid : ∀ x, x ∈ (st.dispatched.settle id .consumed read.now).consumedIds ↔
      x = id ∨ x ∈ st.dispatched.consumedIds := by
    intro x
    rw [hse]
    exact Finset.mem_insert
  refine ⟨h.listed.settle id .consumed read.now, h.numbered, h.distinct, h.times, h.reading, ?_,
    h.nodup, ?_, ?_, h.pendingNodup, ?_, ?_⟩
  · intro x hx
    have hne : x ≠ id := fun he => hqu (he ▸ hx)
    obtain ⟨hxn, since, hsi, hxo, hno⟩ := h.queued x hx
    exact ⟨fun hin => ((hid x).mp hin).elim hne hxn, since, hsi, (hou x hne).trans hxo, hno⟩
  · intro rcpt hre hun
    by_cases heq : rcpt.id = id
    · exact .inl (hex rcpt hre heq hun)
    · exact (h.held rcpt hre hun).imp_right fun hhe =>
        ⟨(hou _ heq).trans hhe.outstanding, hhe.notQueued, hhe.latest, hhe.suppressed⟩
  · intro x hx
    have hne : x ≠ id := fun he => hset (he ▸ hx)
    obtain ⟨hxq, hxn, hxe, since, hxo, hno⟩ := h.pending x hx
    exact ⟨hxq, fun hin => ((hid x).mp hin).elim hne hxn, hxe, since, (hou x hne).trans hxo, hno⟩
  · intro x hx rcpt hre heq hun
    rcases (hid x).mp hx with rfl | hx
    · exact hex rcpt hre heq hun
    · exact h.consumed x hx rcpt hre heq hun
  · intro later rcpt time earlier hrep
    cases later with
    | nil => cases hrep
    | cons rep later =>
      obtain ⟨hfi, hres⟩ := List.cons.inj hrep
      subst hfi
      obtain ⟨hti, hli⟩ := h.line hres
      refine ⟨hti, hli.imp_right fun hli => ?_⟩
      rcases hli with hma | hli
      · exact .inl (hma.trans_le (Finset.card_le_card consumedIn_cons))
      · refine .inr (hli.grow consumedIn_cons (by rw [hse]) (append_nil _).symm ?_)
        intro x hx
        cases mem_singleton.mp hx
        exact mem_consumedIn_cons rfl _

end Open

variable (h : st.Sound)
include h

theorem handOut {cmd : Command} {queued : List (MsgId × Command)} (hrea : st.read = none)
    (hqu : st.queued = (id, cmd) :: queued) : Sound { st with
      queued := queued
      handouts := ⟨st.handouts.length, id, (st.dispatched.outstanding id).getD st.clock, st.clock⟩ ::
        st.handouts } := by
  have hin : id ∈ st.queued.map Prod.fst := by
    rw [hqu]
    exact mem_cons_self
  have hsu : ∀ x, x ∈ queued.map Prod.fst → x ∈ st.queued.map Prod.fst := by
    intro x hx
    rw [hqu]
    exact mem_cons_of_mem _ hx
  obtain ⟨hnew, _, hsi, hou, -⟩ := h.queued id hin
  have hno := h.nodup
  rw [hqu] at hno
  obtain ⟨hgo, hno⟩ := nodup_cons.mp hno
  -- the new receipt's command is neither in the channel nor consumed
  have hot : ∀ {P : Handout → Prop} {x : MsgId}, x ≠ id →
      (∀ rcpt ∈ st.handouts, rcpt.id = x → P rcpt) →
      ∀ rcpt ∈ (⟨st.handouts.length, id, (st.dispatched.outstanding id).getD st.clock, st.clock⟩ :
        Handout) :: st.handouts, rcpt.id = x → P rcpt := by
    exact fun hne hal => forall_mem_cons.mpr ⟨fun heq => absurd heq.symm hne, hal⟩
  refine ⟨h.listed, ?_, ?_, ?_, h.reading, fun x hx => h.queued x (hsu x hx), hno, ?_, ?_,
    h.pendingNodup, ?_, h.line⟩
  · exact forall_mem_cons.mpr
      ⟨Nat.lt_succ_self _, fun rcpt hre => Nat.lt_succ_of_lt (h.numbered rcpt hre)⟩
  · intro rcpt hre other hot heq
    rcases mem_cons.mp hre with rfl | hre <;> rcases mem_cons.mp hot with rfl | hot
    · rfl
    · exact absurd heq.symm (h.numbered other hot).ne
    · exact absurd heq (h.numbered rcpt hre).ne
    · exact h.distinct rcpt hre other hot heq
  · intro rcpt hre
    rcases mem_cons.mp hre with rfl | hre
    · rw [hou]
      exact hsi
    · exact h.times rcpt hre
  · intro rcpt hre hun
    rcases mem_cons.mp hre with rfl | hre
    · refine .inr ⟨?_, hgo, ?_, fun read hr => ?_⟩
      · rw [hou]
        rfl
      · exact forall_mem_cons.mpr ⟨fun _ => le_rfl, fun other hot _ => (h.numbered other hot).le⟩
      · rw [show st.read = some read from hr] at hrea
        cases hrea
    · refine (h.held rcpt hre hun).imp_right fun hhe =>
        ⟨hhe.outstanding, fun hx => hhe.notQueued (hsu _ hx), ?_, hhe.suppressed⟩
      exact hot (fun he => hhe.notQueued (he ▸ hin)) hhe.latest
  · intro x hx
    obtain ⟨hxq, hxn, hxe, hxo⟩ := h.pending x hx
    exact ⟨fun hin' => hxq (hsu x hin'), hxn, hot (fun he => hxq (he ▸ hin)) hxe, hxo⟩
  · intro x hx
    exact hot (fun he => hnew (he ▸ hx)) (h.consumed x hx)

theorem settle {rcpt : Handout} (hre : rcpt ∈ st.handouts) (hfi : st.reported rcpt = false)
    (hint : st.clock < rcpt.queuedAt + outstandingTimeout) (stl : Settlement) : Sound { st with
      settled := st.settled ++ [(rcpt.id, stl)]
      reports := .settled rcpt stl st.clock :: st.reports } := by
  have hliv : ¬ st.Expired rcpt := by
    have htim := h.times rcpt hre
    unfold Expired
    omega
  have hhe : st.Held rcpt := (h.held rcpt hre hfi).resolve_left hliv
  have hrep : ∀ other : Handout, reported { st with
      settled := st.settled ++ [(rcpt.id, stl)]
      reports := .settled rcpt stl st.clock :: st.reports } other = false →
      rcpt ≠ other ∧ st.reported other = false := by
    intro other hot
    simpa [reported] using hot
  have hme : ∀ x, x ∈ (st.settled ++ [(rcpt.id, stl)]).map Prod.fst ↔
      x ∈ st.settled.map Prod.fst ∨ x = rcpt.id := by simp
  refine ⟨h.listed, h.numbered, h.distinct, h.times, h.reading, h.queued, h.nodup, ?_, ?_, ?_, ?_, ?_⟩
  · intro other hot hun
    exact (h.held other hot (hrep other hun).2).imp_right fun hhe' => { hhe' with }
  · intro x hx
    rcases (hme x).mp hx with hx | rfl
    · obtain ⟨hxq, hxn, hxe, hxo⟩ := h.pending x hx
      exact ⟨hxq, hxn, fun other hot heq hun => hxe other hot heq (hrep other hun).2, hxo⟩
    · refine ⟨hhe.notQueued, fun hin => hliv (h.consumed _ hin rcpt hre rfl hfi), ?_,
        rcpt.queuedAt, hhe.outstanding, hhe.suppressed⟩
      intro other hot heq hun
      obtain ⟨hne, hop⟩ := hrep other hun
      refine (h.held other hot hop).resolve_right fun hhe' => hne ?_
      -- both would be the last hand-out
      exact h.distinct rcpt hre other hot
        (Nat.le_antisymm (hhe'.latest rcpt hre heq.symm) (hhe.latest other hot heq))
  · rw [map_append]
    refine concat_eq_append ▸ Nodup.concat (fun hin => ?_) h.pendingNodup
    exact hliv ((h.pending _ hin).2.2.1 rcpt hre rfl hfi)
  · intro x hx other hot heq hun
    exact h.consumed x hx other hot heq (hrep other hun).2
  · intro later receipt' time earlier hrepo
    cases later with
    | nil =>
      obtain ⟨hfi, -⟩ := List.cons.inj hrepo
      cases hfi
      refine ⟨le_rfl, .inr (.inr (.inr ⟨Dispatched.consumedOf st.settled, [], ?_, by simp⟩))⟩
      simp [Dispatched.consumedOf]
    | cons rep later =>
      obtain ⟨hfi, hres⟩ := List.cons.inj hrepo
      subst hfi
      obtain ⟨hti, hli⟩ := h.line hres
      have hla : ∀ x ∈ Dispatched.consumedOf [(rcpt.id, stl)],
          x ∈ consumedIn (.settled rcpt stl st.clock ::
            (later ++ [.settled receipt' .consumed time])) := by
        intro x hx
        cases stl with
        | consumed =>
          cases mem_singleton.mp hx
          exact mem_consumedIn_cons rfl _
        | retry => cases hx
      refine ⟨hti, hli.imp_right fun hli => ?_⟩
      rcases hli with hma | hli
      · exact .inl (hma.trans_le (Finset.card_le_card consumedIn_cons))
      · exact .inr (hli.grow consumedIn_cons (append_nil _).symm
          (by simp [Dispatched.consumedOf]) hla)

/-- Where a consumed id is after the settlements are taken: still listed, or rightly forgotten. -/
theorem line_beginRead {since : Finset MsgId} (hid : id ∈ since) (hti : time ≤ st.clock)
    (hlin : st.InLine since id time) :
    time + consumedMemory ≤ st.clock ∨ consumedCapacity < since.card ∨
      ∃ pre stamp behind, (st.dispatched.takeSettlements st.settled st.clock).consumed =
        pre ++ (id, stamp) :: behind ∧ time ≤ stamp ∧ ∀ x ∈ behind.map Prod.fst, x ∈ since := by
  obtain ⟨-, -, _, hlis, hre⟩ := Dispatched.takeSettlements_spec st.clock h.pendingNodup
    fun x hx => (h.pending x hx).2.1
  have hli : ((st.dispatched.consumed ++
      (Dispatched.consumedOf st.settled).map (·, st.clock)).map Prod.fst).Nodup := by
    have hal := (h.listed.settleAll st.settled st.clock).nodup
    rwa [Dispatched.settleAll_eq st.clock h.pendingNodup fun x hx => (h.pending x hx).2.1] at hal
  -- before anything is forgotten the id is in one line with what came after it
  obtain ⟨pre, stamp, behind, hwh, hst, hbe⟩ : ∃ pre stamp behind,
      st.dispatched.consumed ++ (Dispatched.consumedOf st.settled).map (·, st.clock) =
        pre ++ (id, stamp) :: behind ∧ time ≤ stamp ∧ ∀ x ∈ behind.map Prod.fst, x ∈ since := by
    rcases hlin with ⟨pre, stamp, behind, hco, hst, hbe⟩ | ⟨pre, behind, hpe, hbe⟩
    · refine ⟨pre, stamp, behind ++ (Dispatched.consumedOf st.settled).map (·, st.clock), ?_,
        hst, fun x hx => hbe x ?_⟩
      · rw [hco]
        simp
      · simpa using hx
    · refine ⟨st.dispatched.consumed ++ pre.map (·, st.clock), st.clock, behind.map (·, st.clock),
        ?_, hti, fun x hx => hbe x ?_⟩
      · rw [hpe]
        simp
      · simpa using hx
  rw [hwh] at hlis hli
  rcases append_eq_append_iff.mp hlis with ⟨front, hdr, hta⟩ | ⟨front, _, hta⟩
  · cases front with
    | nil => exact .inr (.inr ⟨[], stamp, behind, by simpa using hta.symm, hst, hbe⟩)
    | cons e front =>
      obtain ⟨rfl, hres⟩ := List.cons.inj hta
      rcases hre pre id stamp front hdr with hfu | hold
      · right; left
        rw [show front ++ _ = behind from hres.symm] at hfu
        rw [map_append, map_cons] at hli
        obtain ⟨hou, hno⟩ := nodup_cons.mp (nodup_append.mp hli).2.1
        -- the id and all those behind it were consumed since
        have hca : (insert id (behind.map Prod.fst).toFinset).card ≤ since.card := by
          refine Finset.card_le_card fun x hx => ?_
          rcases Finset.mem_insert.mp hx with rfl | hx
          · exact hid
          · exact hbe x (mem_toFinset.mp hx)
        rw [Finset.card_insert_of_notMem (by simpa using hou), toFinset_card_of_nodup hno,
          length_map] at hca
        omega
      · exact .inl ((Nat.add_le_add_right hst _).trans hold)
  · exact .inr (.inr ⟨front, stamp, behind, hta, hst, hbe⟩)

theorem beginRead (hqu : st.queued = []) (htim : st.Timely .beginRead) : Sound { st with
      dispatched := st.dispatched.takeSettlements st.settled st.clock
      settled := []
      read := some ⟨st.clock, 0, none, [], .peeking⟩ } := by
  have hne : ∀ x ∈ st.settled.map Prod.fst, x ∉ st.dispatched.consumedIds :=
    fun x hx => (h.pending x hx).2.1
  obtain ⟨hou, hids, -⟩ := Dispatched.takeSettlements_spec st.clock h.pendingNodup hne
  refine ⟨(h.listed.settleAll st.settled st.clock).prune st.clock, h.numbered, h.distinct, h.times,
    ?_, ?_, h.nodup, ?_, nofun, nodup_nil, ?_, ?_⟩
  · rintro read ⟨⟩
    exact le_rfl
  · intro x hx
    rw [hqu] at hx
    cases hx
  · intro rcpt hre hun
    rcases h.held rcpt hre hun with hex | hhe
    · exact .inl hex
    · by_cases hpe : rcpt.id ∈ st.settled.map Prod.fst
      · exact .inl ((h.pending _ hpe).2.2.1 rcpt hre rfl hun)
      · by_cases hag : st.clock - rcpt.queuedAt < outstandingTimeout
        · refine .inr ⟨?_, hhe.notQueued, hhe.latest, ?_⟩
          · rw [hou, if_neg hpe, hhe.outstanding]
            exact Option.filter_eq_some_iff.mpr ⟨rfl, decide_eq_true hag⟩
          · rintro read ⟨⟩
            change st.clock < _
            omega
        · have hpo : 0 < outstandingTimeout := by decide
          exact .inl (htim rcpt hre hun (by omega))
  · intro x hx rcpt hre heq hun
    rcases hids x hx with hx | hx
    · exact h.consumed x hx rcpt hre heq hun
    · exact (h.pending x (Dispatched.mem_of_mem_consumedOf hx)).2.2.1 rcpt hre heq hun
  · intro later rcpt time earlier hrep
    obtain ⟨hti, hli⟩ := h.line hrep
    refine ⟨hti, ?_⟩
    rcases hli with hold | hma | hli
    · exact .inl hold
    · exact .inr (.inl hma)
    · have hid : rcpt.id ∈ consumedIn (later ++ [.settled rcpt .consumed time]) := by
        simp [consumedIn, Report.consumes]
      rcases h.line_beginRead hid hti hli with hold | hma | ⟨pre, stamp, behind, hlis, hst, hbe⟩
      · exact .inl hold
      · exact .inr (.inl hma)
      · refine .inr (.inr (.inl ⟨pre, stamp, behind, hlis, hst, fun x hx => ?_⟩))
        simp only [Dispatched.consumedOf, filter_nil, map_nil, append_nil] at hx
        exact hbe x hx

theorem queueRow {read : Read} (hr : ∃ r, st.read = some r ∧ r.now = read.now)
    (decode : Bytes → Option Command) (row : MsgId × Bytes) (deadLettered : Bool) :
    Sound (st.queueRow decode read row deadLettered) := by
  have hn : Sound { st with read := some read } := h.setRead (by
    rintro r' ⟨⟩
    exact hr)
  unfold Mailbox.queueRow
  split
  · exact hn
  · next ho =>
    have ho : st.dispatched.suppresses row.1 read.now = false := by simpa using ho
    split
    · next cmd _ =>
      exact (hn.dispatch rfl ho cmd).setRead (by
        rintro r' ⟨⟩
        exact ⟨read, rfl, rfl⟩)
    · split
      · exact hn.deadLetter rfl ho
      · exact hn

theorem step {decode : Bytes → Option Command} {batchSize : Nat} {act : MailboxAction}
    {st' : Mailbox Command} (hti : st.Timely act) (hst : st.step decode batchSize act = some st') :
    st'.Sound := by
  revert hst
  fun_cases Mailbox.step decode batchSize st act <;> rintro ⟨⟩
  · exact h.tick _
  · next hqu hre _ => exact h.handOut hre hqu
  · next hqu _ => exact h.beginRead hqu hti
  · next hre _ => exact h.setRead (by rintro r' ⟨⟩; exact ⟨_, hre, rfl⟩)
  · exact h.setRead nofun
  · next hre => exact h.queueRow (by exact ⟨_, hre, rfl⟩) decode _ _
  · next hre _ => exact h.setRead (by rintro r' ⟨⟩; exact ⟨_, hre, rfl⟩)
  · exact h.setRead nofun
  · next hrec => exact h.settle hrec hti.1 hti.2 _

end Sound

theorem sound_of_reached (h : Reached (step decode batchSize) Timely start st) : st.Sound :=
  h.holds sound_start fun hst ht hs => hst.step ht hs

/-- **A command in work is not handed out twice**, in every run whose reads and reports are timely. -/
theorem command_not_handed_out_twice (h : Reached (step decode batchSize) Timely start st)
    (hstep : st.step decode batchSize .handOut = some st') :
    ∃ receipt, st'.handouts = receipt :: st.handouts ∧ st.MayHandOut receipt.id := by
  simp only [step] at hstep
  split at hstep
  · next id command queued hr hq =>
    cases hstep
    refine ⟨_, rfl, (sound_of_reached h).mayHandOut ?_⟩
    rw [hq]
    exact mem_cons_self
  · cases hstep

end Mailbox

/-! ## Two commands in one batch -/

namespace Mailbox

def sampleRead : List MailboxAction :=
  [.beginRead, .peeked [([1], []), ([2], [])], .queueRow false, .queueRow false, .windowDone]

/-- A read that finds only the second command. -/
def sampleReread : List MailboxAction :=
  [.beginRead, .peeked [([2], [])], .queueRow false, .windowDone]

/-- Both commands are handed out and only the first one is settled.  A read after 20 seconds passes over
the second; one after 30 seconds takes it up again, and it is handed out once more, which is allowed as
its timeout has passed. -/
theorem batch_is_handed_out : ∃ st st', Reached (step some 2) Timely start st ∧
    st.step some 2 .handOut = some st' ∧
    ⟨1, [2], 0, 0⟩ ∈ st.handouts ∧ st.reported ⟨1, [2], 0, 0⟩ = false ∧
    ∃ receipt, st'.handouts = receipt :: st.handouts ∧ receipt.id = [2] ∧
      st.MayHandOut receipt.id := by
  obtain ⟨st, st', hr, hst', hn, hold, hu⟩ : ∃ st st', Reached (step some 2) Timely start st ∧
      st.step some 2 .handOut = some st' ∧
      st'.handouts.head? = some ⟨2, [2], 30000000000, 30000000000⟩ ∧
      ⟨1, [2], 0, 0⟩ ∈ st.handouts ∧ st.reported ⟨1, [2], 0, 0⟩ = false :=
    exists_reached_some (sampleRead ++ [.handOut, .settle ⟨0, [1], 0, 0⟩ .consumed, .handOut,
      .tick (20 * 1000000000)] ++ sampleReread ++ [.tick (10 * 1000000000)] ++ sampleReread)
      (by decide +kernel)
  obtain ⟨receipt, hre, hmay⟩ := command_not_handed_out_twice hr hst'
  rw [hre] at hn
  cases hn
  exact ⟨st, st', hr, hst', hold, hu, _, hre, rfl, hmay⟩

/-- The second command of a batch is handed out 29 seconds after the batch was read.  A second later the
next read takes it for abandoned, and it is handed out again. -/
theorem queued_stamp_redelivers : ∃ st st' receipt,
    Reached (step some 2) (fun _ _ => True) start st ∧
    st.step some 2 .handOut = some st' ∧ st'.handouts = receipt :: st.handouts ∧
    ¬ st.MayHandOut receipt.id := by
  obtain ⟨st, st', hr, hst', hn, hold, hc, hu⟩ : ∃ st st',
      Reached (step some 2) (fun _ _ => True) start st ∧ st.step some 2 .handOut = some st' ∧
      st'.handouts = ⟨2, [2], 30000000000, 30000000000⟩ :: st.handouts ∧
      ⟨1, [2], 0, 29000000000⟩ ∈ st.handouts ∧ st.clock = 30000000000 ∧
      st.reported ⟨1, [2], 0, 29000000000⟩ = false :=
    exists_reached_some (sampleRead ++ [.handOut, .settle ⟨0, [1], 0, 0⟩ .consumed,
      .tick (29 * 1000000000), .handOut, .tick 1000000000] ++ sampleRead) (by decide +kernel)
  refine ⟨st, st', _, hr, hst', hn, fun h => ?_⟩
  rw [h.settled _ hold rfl (by rw [hc]; decide)] at hu
  cases hu

end Mailbox

end Myrmic
