import Myrmic.Machine

/-!
# Messages for a cell that is gone

An embedded node runs one cell at a time.  Commands, events and timers send **messages** for it to a
channel.  The **pump** takes a message from the channel, looks at the flag that asks the cell to
terminate, and puts the message into a queue with one place.  The **runtime** starts a cell and hands it
what is in the queue; when the cell is to go, or could not be started, it empties the channel and the
queue.

The pump's look and its send are two steps.  A message that the pump holds while the queue is emptied is
put there afterwards, and the next cell gets it.  And after the channel was emptied a message for the
cell that went may still arrive: the service that forwards commands learns of the end of a cell only
later, and takes up a cell that could not be started.  `held_message_misdelivered` has both.  **If the
queue is found empty only while the pump holds nothing, and messages arrive only for the cell that is
there and before its channel is emptied, no cell handles a message for an earlier one**
(`messages_stay_with_cell`).
-/
namespace Myrmic.CellPump
open Machine

/-- The cell that a message is for: the number of its start. -/
abbrev Addressee := Nat

/-- Where the pump is with a message. -/
inductive Pump where
  | idle
  | holding (msg : Addressee)
  /-- The flag was not set; the send may block. -/
  | sending (msg : Addressee)
deriving DecidableEq

/-- What the runtime's thread does. -/
inductive Phase where
  | waitForModule
  | initWithModule
  | waitForCellMessage
  | receiving
  | discardCellLeftovers
  | drainCellMessages
deriving DecidableEq

/-- The buffers between the services and the cell, and the runtime. -/
structure State where
  terminate : Bool
  /-- The messages in the channel, the oldest one first. -/
  channel : List Addressee
  pump : Pump
  queue : Option Addressee
  phase : Phase
  /-- How many cells were started. -/
  cell : Nat
  /-- The messages that were handled, each with the cell that handled it. -/
  handled : List (Nat × Addressee)

def State.initial : State := ⟨false, [], .idle, none, .waitForModule, 0, []⟩

/-- The steps of the services, of the pump and of the runtime's thread. -/
inductive Action where
  /-- A message is sent to the channel. -/
  | arrive (msg : Addressee)
  | pumpReceive
  | pumpCheck
  | pumpSend
  | terminateModule
  | start
  | initialised (ok : Bool)
  | check
  | receive
  | clear
  | drain

/-- The pump and the runtime's thread may be preempted between any two steps. -/
def step (st : State) : Action → Option State
  | .arrive msg => some { st with channel := st.channel ++ [msg] }
  | .pumpReceive =>
    match st.pump, st.channel with
    | .idle, msg :: rest => some { st with channel := rest, pump := .holding msg }
    | _, _ => none
  | .pumpCheck =>
    match st.pump with
    | .holding msg => some { st with pump := if st.terminate then .idle else .sending msg }
    | _ => none
  | .pumpSend =>
    match st.pump, st.queue with
    | .sending msg, none => some { st with pump := .idle, queue := some msg }
    -- the send times out
    | .sending msg, some _ => some { st with pump := .holding msg }
    | _, _ => none
  | .terminateModule => some { st with terminate := true }
  | .start =>
    if st.phase = .waitForModule then
      some { st with phase := .initWithModule, cell := st.cell + 1, terminate := false }
    else none
  | .initialised ok =>
    if st.phase = .initWithModule then
      some { st with phase := if ok then .waitForCellMessage else .discardCellLeftovers }
    else none
  | .check =>
    if st.phase = .waitForCellMessage then
      some { st with phase := if st.terminate then .discardCellLeftovers else .receiving }
    else none
  | .receive =>
    if st.phase = .receiving then
      match st.queue with
      | some msg => some { st with
          queue := none, phase := .waitForCellMessage, handled := (st.cell, msg) :: st.handled }
      | none => some { st with phase := if st.terminate then .discardCellLeftovers else .receiving }
    else none
  | .clear =>
    if st.phase = .discardCellLeftovers then
      some { st with channel := [], phase := .drainCellMessages }
    else none
  | .drain =>
    if st.phase = .drainCellMessages then
      match st.queue with
      | some _ => some { st with queue := none }
      | none => some { st with phase := .waitForModule }
    else none

/-- The queue is found empty only while the pump holds nothing. -/
def DrainsAll (st : State) : Action → Prop
  | .drain => st.queue = none → st.pump = .idle
  | _ => True

/-- A message arrives only for the cell that is there, and before its channel is emptied. -/
def ArrivesInTime (st : State) : Action → Prop
  | .arrive msg => msg = st.cell ∧ st.phase ≠ .waitForModule ∧ st.phase ≠ .drainCellMessages
  | _ => True

/-- **The condition on a step**; each half excludes one way for a message to stay behind. -/
def Clean (st : State) (action : Action) : Prop := DrainsAll st action ∧ ArrivesInTime st action

instance (st : State) (action : Action) : Decidable (DrainsAll st action) := by
  unfold DrainsAll
  split <;> infer_instance

instance (st : State) (action : Action) : Decidable (ArrivesInTime st action) := by
  unfold ArrivesInTime
  split <;> infer_instance

instance (st : State) (action : Action) : Decidable (Clean st action) :=
  inferInstanceAs (Decidable (_ ∧ _))

/-! ## What is on its way -/

/-- The message is in the channel, with the pump or in the queue. -/
def State.OnWay (st : State) (msg : Addressee) : Prop :=
  msg ∈ st.channel ∨ st.pump = .holding msg ∨ st.pump = .sending msg ∨ st.queue = some msg

/-- What is on its way is for the cell that is there, the channel stays empty once it was emptied, and
every cell has handled its own. -/
structure Sound (st : State) : Prop where
  onWay : ∀ msg, st.OnWay msg → msg = st.cell ∧ st.phase ≠ .waitForModule
  emptied : st.phase = .drainCellMessages → st.channel = []
  handled : ∀ e ∈ st.handled, e.2 = e.1

variable {st st' : State} {act : Action}

/-- A step of the pump or of the queue takes nothing up that was not on its way. -/
theorem Sound.keep (h : Sound st) (ho : ∀ msg, st'.OnWay msg → st.OnWay msg)
    (hc : st'.cell = st.cell) (hp : st'.phase = st.phase) (hch : st.channel = [] → st'.channel = [])
    (hh : st'.handled = st.handled) : Sound st' :=
  ⟨fun msg hm => hc ▸ hp ▸ h.onWay msg (ho msg hm), fun hd => hch (h.emptied (hp ▸ hd)),
    hh ▸ h.handled⟩

/-- A step of the runtime's thread between two phases of one cell moves no message. -/
theorem Sound.enter (h : Sound st) {phase : Phase} (hw : phase ≠ .waitForModule)
    (hd : phase ≠ .drainCellMessages) : Sound { st with phase := phase } :=
  ⟨fun msg hm => ⟨(h.onWay msg hm).1, hw⟩, fun hp => absurd hp hd, h.handled⟩

theorem Sound.step (h : Sound st) (hal : Clean st act) (hst : step st act = some st') :
    Sound st' := by
  revert hst
  fun_cases CellPump.step st act <;> rintro ⟨⟩
  case case1 msg =>
    obtain ⟨hcell, hwait, hdrain⟩ : msg = st.cell ∧ _ := hal.2
    refine ⟨fun other hot => ?_, fun hd => absurd hd hdrain, h.handled⟩
    rcases hot with hot | hot
    · rcases List.mem_append.mp hot with hot | hot
      · exact h.onWay other (.inl hot)
      · exact ⟨(List.mem_singleton.mp hot).trans hcell, hwait⟩
    · exact h.onWay other (.inr hot)
  case case2 msg rest hch hpu =>
    refine h.keep (fun other hot => ?_) rfl rfl (fun he => ?_) rfl
    · rw [State.OnWay, hch]
      rcases hot with hot | hot | hot | hot
      · exact .inl (List.mem_cons_of_mem _ hot)
      · cases hot
        exact .inl List.mem_cons_self
      · cases hot
      · exact .inr (.inr (.inr hot))
    · rw [hch] at he
      cases he
  case case4 msg hpu =>
    refine h.keep (fun other hot => ?_) rfl rfl id rfl
    rcases hot with hot | hot | hot | hot
    · exact .inl hot
    · dsimp only at hot
      split at hot <;> cases hot
    · dsimp only at hot
      split at hot <;> cases hot
      exact .inr (.inl hpu)
    · exact .inr (.inr (.inr hot))
  case case6 msg hqu hpu =>
    refine h.keep (fun other hot => ?_) rfl rfl id rfl
    rcases hot with hot | hot | hot | hot
    · exact .inl hot
    · cases hot
    · cases hot
    · cases hot
      exact .inr (.inr (.inl hpu))
  case case7 msg _ hqu hpu =>
    refine h.keep (fun other hot => ?_) rfl rfl id rfl
    rcases hot with hot | hot | hot | hot
    · exact .inl hot
    · cases hot
      exact .inr (.inr (.inl hpu))
    · cases hot
    · exact .inr (.inr (.inr hot))
  case case9 => exact h.keep (fun _ hms => hms) rfl rfl id rfl
  case case10 hph => exact ⟨fun msg hms => absurd hph (h.onWay msg hms).2, nofun, h.handled⟩
  case case12 hph | case14 hph => exact h.enter (by split <;> nofun) (by split <;> nofun)
  case case16 hph msg hqu =>
    refine ⟨fun other hot => ?_, nofun, fun e he => ?_⟩
    · have hbe : st.OnWay other := hot.imp_right fun hot => hot.imp_right fun hot => hot.imp_right nofun
      exact ⟨(h.onWay other hbe).1, nofun⟩
    · rcases List.mem_cons.mp he with rfl | he
      · exact (h.onWay msg (.inr (.inr (.inr hqu)))).1
      · exact h.handled e he
  case case17 => exact h.enter (by split <;> nofun) (by split <;> nofun)
  case case19 =>
    refine ⟨fun msg hms => ?_, fun _ => rfl, h.handled⟩
    rcases hms with hms | hms
    · cases hms
    · exact ⟨(h.onWay msg (.inr hms)).1, nofun⟩
  case case21 =>
    refine h.keep (fun _ hms => ?_) rfl rfl id rfl
    exact hms.imp_right fun hms => hms.imp_right fun hms => hms.imp_right nofun
  case case22 hph hqu =>
    -- nothing is left anywhere
    have hpu : st.pump = .idle := hal.1 hqu
    refine ⟨fun msg hms => ?_, nofun, h.handled⟩
    simp [State.OnWay, hpu, hqu, h.emptied hph] at hms

/-- **No cell handles a message that is for an earlier one**, in every state of a run in which the queue
is found empty only while the pump holds nothing and messages arrive in time. -/
theorem messages_stay_with_cell (h : Reached step Clean .initial st) :
    ∀ e ∈ st.handled, ¬e.2 < e.1 := by
  have hs : Sound st := h.holds
    ⟨fun _ hm => by simp [State.OnWay, State.initial] at hm, nofun, nofun⟩ Sound.step
  intro e he hlt
  rw [hs.handled e he] at hlt
  exact Nat.lt_irrefl _ hlt

/-- A cell gets a message and goes with another one under way, and the next cell gets its own. -/
theorem next_cell_gets_own : ∃ st, Reached step Clean .initial st ∧
    st.handled = [(2, 2), (1, 1)] ∧ ∀ e ∈ st.handled, ¬e.2 < e.1 := by
  have hr : ∃ st, Reached step Clean .initial st ∧ st.handled = [(2, 2), (1, 1)] := exists_reached
    [.start, .initialised true, .arrive 1, .pumpReceive, .pumpCheck, .pumpSend, .check, .receive,
      .arrive 1, .arrive 1, .pumpReceive, .pumpCheck, .terminateModule, .check, .pumpSend, .clear,
      .drain, .drain, .start, .initialised true, .arrive 2, .pumpReceive, .pumpCheck, .pumpSend,
      .check, .receive] (by decide +kernel)
  obtain ⟨st, h, hh⟩ := hr
  exact ⟨st, h, hh, messages_stay_with_cell h⟩

/-- **Two ways for a message to reach the next cell.**  The pump has seen the flag not set when the
first cell is told to terminate, and sends after the queue was emptied.  Or the first cell could not be
started, and a command for it arrives after its channel was emptied. -/
theorem held_message_misdelivered :
    (∃ st, Reached step ArrivesInTime .initial st ∧ st.handled = [(2, 1)]) ∧
    ∃ st, Reached step DrainsAll .initial st ∧ st.handled = [(2, 1)] :=
  ⟨exists_reached
    [.start, .initialised true, .arrive 1, .pumpReceive, .pumpCheck, .terminateModule, .check, .clear,
      .drain, .pumpSend, .start, .initialised true, .check, .receive] (by decide +kernel),
    exists_reached
    [.start, .initialised false, .clear, .drain, .arrive 1, .start, .pumpReceive, .pumpCheck, .pumpSend,
      .initialised true, .check, .receive] (by decide +kernel)⟩

end Myrmic.CellPump
