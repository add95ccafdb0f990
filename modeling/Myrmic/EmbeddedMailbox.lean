import Myrmic.Cells

/-!
# The mailbox of an embedded cell

A board reads the command at the head of a cell's mailbox and leaves it there.  A row that cannot be
decoded would block the mailbox forever, so it is discarded, in a transaction of its own, and the head is
read again.  The discard may fail, or not be visible yet when the head is read again; its result is only
logged.  So the reading goes on **exactly until as many discards have taken effect as undecodable rows
are ahead of the first command**, or a read fails (`mailbox_read_ends_iff`).
-/
namespace Myrmic
open OrderedBytes List
namespace EmbeddedMailbox

/-- A command as it is stored. -/
structure MailboxCommand where
  cmd : String
  payload : Option Bytes
  sender : Option Sri
deriving DecidableEq

/-- A command for the runtime, with the row that it removes when the command is handled. -/
structure CommandMessage where
  command : String
  payload : Option Bytes
  sender : Option Sri
  msgId : Bytes
deriving DecidableEq

def CommandMessage.of (msgId : Bytes) (command : MailboxCommand) : CommandMessage :=
  ⟨command.cmd, command.payload, command.sender, msgId⟩

/-- What the swarm does to a read of the mailbox: whether the `n`-th read of the head fails, and whether
the row it gave is gone when the head is read for the next time. -/
structure Link where
  fails : Nat → Bool
  discarded : Nat → Bool

/-- The link from the next read on. -/
def Link.later (link : Link) : Link :=
  ⟨fun n => link.fails (n + 1), fun n => link.discarded (n + 1)⟩

/-- The discards that take effect before a read. -/
def Link.discards (link : Link) (n : Nat) : Nat := (List.range n).countP link.discarded

/-- The head of the rows, which is left in place. -/
def readHead (link : Link) (rows : List (Bytes × Bytes)) : Option (Bytes × Bytes) :=
  if link.fails 0 then none else rows.head?

variable (decode : Bytes → Option MailboxCommand)

def nextCommand : Nat → Link → List (Bytes × Bytes) → Option (Option CommandMessage)
  | 0, _, _ => none
  | fuel + 1, link, rows =>
    match readHead link rows with
    | none => some none
    | some (msgId, payload) =>
      match decode payload with
      | some command => some (some (.of msgId command))
      | none => nextCommand fuel link.later (if link.discarded 0 then rows.tail else rows)

/-- The first row that can be decoded. -/
def firstCommand (rows : List (Bytes × Bytes)) : Option CommandMessage :=
  rows.findSome? fun row => (decode row.2).map (.of row.1)

/-- The number of rows ahead of it. -/
def blocking (rows : List (Bytes × Bytes)) : Nat :=
  (rows.takeWhile fun row => (decode row.2).isNone).length

/-- The reading ends with the first command, or because a read failed. -/
def ReadEnds (link : Link) (rows : List (Bytes × Bytes)) : Prop :=
  ∃ fuel out, nextCommand decode fuel link rows = some out ∧
    (out = firstCommand decode rows ∨ out = none ∧ ∃ n, link.fails n = true)

variable {decode} {link : Link} {rows rest : List (Bytes × Bytes)} {row : Bytes × Bytes} {fuel n : Nat}
  {out : Option CommandMessage}

theorem Link.discards_succ :
    link.discards (n + 1) = link.later.discards n + if link.discarded 0 then 1 else 0 := by
  rw [discards, range_succ_eq_map, countP_cons, countP_map]
  rfl

theorem readHead_eq_some (h : readHead link rows = some row) : ∃ rest, rows = row :: rest := by
  rw [readHead] at h
  split at h
  · cases h
  · exact head?_eq_some_iff.mp h

theorem readHead_eq_none (h : readHead link rows = none) : link.fails 0 = true ∨ rows = [] := by
  rw [readHead] at h
  split at h
  · next hf => exact .inl hf
  · exact .inr (head?_eq_none_iff.mp h)

theorem blocking_cons (h : decode row.2 = none) :
    blocking decode (row :: rest) = blocking decode rest + 1 := by
  rw [blocking, takeWhile_cons_of_pos (by rw [h]; rfl), length_cons, blocking]

theorem nextCommand_result (h : nextCommand decode fuel link rows = some out) :
    out = firstCommand decode rows ∨ out = none ∧ ∃ n, link.fails n = true := by
  induction fuel generalizing link rows with
  | zero => cases h
  | succ fuel ih =>
    rw [nextCommand] at h
    split at h
    · next hr =>
      cases h
      rcases readHead_eq_none hr with hf | rfl
      · exact .inr ⟨rfl, 0, hf⟩
      · exact .inl rfl
    · next msgId payload hr =>
      obtain ⟨rest, rfl⟩ := readHead_eq_some hr
      split at h
      · next command hd =>
        cases h
        left
        simp [firstCommand, hd]
      · next hd =>
        rcases ih h with hout | ⟨hout, n, hf⟩
        · left
          rw [hout]
          split <;> simp [firstCommand, hd]
        · exact .inr ⟨hout, n + 1, hf⟩

/-- The rounds after which a reading ends. -/
theorem nextCommand_ends_iff : (∃ out, nextCommand decode fuel link rows = some out) ↔
    ∃ n < fuel, link.fails n = true ∨ blocking decode rows ≤ link.discards n := by
  induction fuel generalizing link rows with
  | zero => simp [nextCommand]
  | succ fuel ih =>
    rw [Nat.exists_lt_succ_left, nextCommand]
    split
    · next hr =>
      refine iff_of_true ⟨none, rfl⟩ (.inl ?_)
      rcases readHead_eq_none hr with hf | rfl
      · exact .inl hf
      · exact .inr (Nat.zero_le _)
    · next msgId payload hr =>
      obtain ⟨rest, rfl⟩ := readHead_eq_some hr
      split
      · next command hd => exact iff_of_true ⟨_, rfl⟩ (.inl (.inr (by simp [blocking, hd])))
      · next hd =>
        have hf : link.fails 0 ≠ true := fun hf => by simp [readHead, hf] at hr
        have hb : blocking decode ((msgId, payload) :: rest) = blocking decode rest + 1 :=
          blocking_cons hd
        rw [ih, hb, or_iff_right (by simp [hf, Link.discards])]
        refine exists_congr fun n => and_congr_right fun _ => or_congr Iff.rfl ?_
        -- a row that is gone is one row and one discard less
        rw [Link.discards_succ]
        by_cases hdi : link.discarded 0 = true
        · rw [if_pos hdi, if_pos hdi, tail_cons, Nat.add_le_add_iff_right]
        · rw [if_neg hdi, if_neg hdi, hb]
          exact Iff.rfl

/-- **The reading of the mailbox ends if and only if a read fails or enough discards take effect.** -/
theorem mailbox_read_ends_iff (decode : Bytes → Option MailboxCommand) (link : Link)
    (rows : List (Bytes × Bytes)) : ReadEnds decode link rows ↔
      ∃ n, link.fails n = true ∨ blocking decode rows ≤ link.discards n := by
  constructor
  · rintro ⟨fuel, out, h, -⟩
    obtain ⟨n, -, hn⟩ := nextCommand_ends_iff.mp ⟨out, h⟩
    exact ⟨n, hn⟩
  · rintro ⟨n, h⟩
    obtain ⟨out, ho⟩ := nextCommand_ends_iff.mpr ⟨n, Nat.lt_succ_self n, h⟩
    exact ⟨n + 1, out, ho, nextCommand_result ho⟩

/-- One row that cannot be decoded, and discards that never take effect. -/
theorem undecodable_head_read_forever :
    ¬ReadEnds (fun _ => none) ⟨fun _ => false, fun _ => false⟩ [([0], [])] := by
  rintro ⟨fuel, out, h, -⟩
  obtain ⟨n, -, hf | hb⟩ := nextCommand_ends_iff.mp ⟨out, h⟩
  · cases hf
  · simp [blocking, Link.discards] at hb

end EmbeddedMailbox

end Myrmic
