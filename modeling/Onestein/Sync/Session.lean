import Onestein.Sync.Peer
import Onestein.Sync.Records

/-!
# One opportunity to send

The caller says what it shares, what the peer has offered and what time it is; `plan` decides
what to send and updates the state it acted on, entry by entry.

## Main definitions

* `plan` — what goes out, and what the state becomes.
* `Shared.sent`, `Shared.gone`, `Shared.offered` — what one entry contributes.
* `Shared.after` — an entry after it was acted on.

## Main results

* `planLoop_eq`, `plan_eq` — what goes out, and what the entries become.
-/

namespace Onestein.Sync

/-- How a device spends one opportunity to send. -/
inductive Mode where
  /-- Offer first, send what is requested. -/
  | interactive
  /-- Send without offering. -/
  | batch
  /-- Send without offering and without waiting for the backoff. -/
  | eager
  deriving DecidableEq

/-- One message this device shares with the peer; the message itself may be gone. -/
structure Shared where
  id : MessageId
  state : PeerMessageState
  message : Option SignedMessage
  deriving DecidableEq

/-- What is collected on the way through the shared messages. -/
structure Gathered where
  acks : List MessageId := []
  unavailable : List MessageId := []
  offers : List MessageId := []
  messages : List SyncRecord := []

/-- Eager mode ignores the backoff and resends. -/
def Shared.ready (mode : Mode) (nowMs : UInt64) (entry : Shared) : Bool :=
  mode = .eager || entry.state.readyToSend nowMs

def Shared.send (mode : Mode) (entry : Shared) : Bool :=
  let wanted := entry.state.requested
  match mode with
  | .interactive => wanted
  | .batch | .eager => wanted || !entry.state.seen

/-- What is not sent may still be offered. -/
def Shared.offerable (mode : Mode) (entry : Shared) : Bool :=
  mode = .interactive && !entry.state.seen

/-- An acknowledgement that is owed goes out. -/
def acknowledge (gathered : Gathered) (entry : Shared) : Gathered × Shared :=
  if entry.state.ackPending then
    ({ gathered with acks := gathered.acks ++ [entry.id] },
      { entry with state := entry.state.onAcknowledged })
  else (gathered, entry)

/-- What is sent or offered now is collected, and its backoff starts. -/
def sendOrOffer (mode : Mode) (nowMs transportLatencyMs : UInt64) (gathered : Gathered)
    (entry : Shared) : Gathered × Shared :=
  if !entry.ready mode nowMs then (gathered, entry)
  else if entry.send mode then
    let gathered := match entry.message with
      | some message => { gathered with messages := gathered.messages ++ [.message message] }
      -- Shared and gone: the answer is a record rather than silence.
      | none => { gathered with unavailable := gathered.unavailable ++ [entry.id] }
    (gathered, { entry with state := entry.state.onSent nowMs transportLatencyMs })
  else if entry.offerable mode then
    ({ gathered with offers := gathered.offers ++ [entry.id] },
      { entry with state := entry.state.onSent nowMs transportLatencyMs })
  else (gathered, entry)

/-- The body of the loop: what is collected from one entry, and the entry afterwards. -/
def planEntry (mode : Mode) (nowMs transportLatencyMs : UInt64) (gathered : Gathered)
    (entry : Shared) : Gathered × Shared :=
  let (gathered, entry) := acknowledge gathered entry
  sendOrOffer mode nowMs transportLatencyMs gathered entry

def planLoop (mode : Mode) (nowMs transportLatencyMs : UInt64) :
    Gathered → List Shared → Gathered × List Shared
  | gathered, [] => (gathered, [])
  | gathered, entry :: rest =>
    let (gathered, entry) := planEntry mode nowMs transportLatencyMs gathered entry
    let (gathered, rest) := planLoop mode nowMs transportLatencyMs gathered rest
    (gathered, entry :: rest)

/-- An identifier record, unless there is nothing to say. -/
def unlessEmpty (record : List MessageId → SyncRecord) (ids : List MessageId) : List SyncRecord :=
  if ids.isEmpty then [] else [record ids]

/-- The records of what was collected. Nothing empty goes out. -/
def Gathered.records (gathered : Gathered) (offeredByPeer : List MessageId) : List SyncRecord :=
  unlessEmpty .ack gathered.acks ++ (unlessEmpty .request offeredByPeer ++
    (unlessEmpty .unavailable gathered.unavailable ++ (gathered.messages ++
      unlessEmpty .offer gathered.offers)))

/-- Decides what to send now, and what the states become. -/
def plan (mode : Mode) (nowMs transportLatencyMs : UInt64) (shared : List Shared)
    (offeredByPeer : List MessageId) : List Shared × List SyncRecord :=
  let (gathered, shared) := planLoop mode nowMs transportLatencyMs {} shared
  (shared, gathered.records offeredByPeer)

/-! ## Entry by entry -/

/-- The message an entry sends. -/
def Shared.sent (mode : Mode) (nowMs : UInt64) (entry : Shared) : Option SignedMessage :=
  if entry.ready mode nowMs && entry.send mode then entry.message else none

/-- Whether an entry would be sent, but its message is gone. -/
def Shared.gone (mode : Mode) (nowMs : UInt64) (entry : Shared) : Bool :=
  entry.ready mode nowMs && entry.send mode && entry.message.isNone

/-- Whether an entry is offered. -/
def Shared.offered (mode : Mode) (nowMs : UInt64) (entry : Shared) : Bool :=
  entry.ready mode nowMs && !entry.send mode && entry.offerable mode

/-- Whether anything but an acknowledgement goes out for an entry. -/
def Shared.acts (mode : Mode) (nowMs : UInt64) (entry : Shared) : Bool :=
  entry.ready mode nowMs && (entry.send mode || entry.offerable mode)

/-- An entry after it was acted on. -/
def Shared.after (mode : Mode) (nowMs transportLatencyMs : UInt64) (entry : Shared) : Shared :=
  if entry.acts mode nowMs then
    { entry with state := entry.state.onAcknowledged.onSent nowMs transportLatencyMs }
  else { entry with state := entry.state.onAcknowledged }

theorem message_of_sent {mode : Mode} {nowMs : UInt64} {entry : Shared} {signed : SignedMessage}
    (h : entry.sent mode nowMs = some signed) : entry.message = some signed := by
  unfold Shared.sent at h
  split at h
  · exact h
  · cases h

/-- What acts is sent, answered for or offered. -/
theorem acts_cases {mode : Mode} {nowMs : UInt64} {entry : Shared} (h : entry.acts mode nowMs) :
    (∃ signed, entry.sent mode nowMs = some signed) ∨ entry.gone mode nowMs ∨
      entry.offered mode nowMs := by
  obtain ⟨hready, hacts⟩ := Bool.and_eq_true_iff.mp h
  by_cases hsend : entry.send mode
  · cases hmessage : entry.message with
    | some signed => exact .inl ⟨signed, by simp [Shared.sent, hready, hsend, hmessage]⟩
    | none => exact .inr (.inl (by simp [Shared.gone, hready, hsend, hmessage]))
  · exact .inr (.inr (by simpa [Shared.offered, hready, hsend] using hacts))

/-- No acknowledgement is owed afterwards. -/
@[simp] theorem ackPending_after {mode : Mode} {nowMs transportLatencyMs : UInt64}
    {entry : Shared} : (entry.after mode nowMs transportLatencyMs).state.ackPending = false := by
  unfold Shared.after
  split <;> rfl

/-- One identifier, or none. -/
def onlyIf (c : Bool) (id : MessageId) : List MessageId := if c then [id] else []

variable {mode : Mode} {nowMs transportLatencyMs : UInt64} {gathered : Gathered} {entry : Shared}

theorem PeerMessageState.onAcknowledged_of_not {state : PeerMessageState}
    (h : state.ackPending = false) : state.onAcknowledged = state := by
  cases state
  simp_all [PeerMessageState.onAcknowledged]

theorem acknowledge_eq :
    acknowledge gathered entry =
      ({ gathered with acks := gathered.acks ++ onlyIf entry.state.ackPending entry.id },
        { entry with state := entry.state.onAcknowledged }) := by
  by_cases h : entry.state.ackPending
  · simp [acknowledge, onlyIf, h]
  · simp [acknowledge, onlyIf, h, PeerMessageState.onAcknowledged_of_not]

theorem sendOrOffer_eq :
    sendOrOffer mode nowMs transportLatencyMs gathered entry =
      ({ gathered with
          unavailable := gathered.unavailable ++ onlyIf (entry.gone mode nowMs) entry.id
          offers := gathered.offers ++ onlyIf (entry.offered mode nowMs) entry.id
          messages := gathered.messages ++
            ((entry.sent mode nowMs).map SyncRecord.message).toList },
        if entry.acts mode nowMs then
          { entry with state := entry.state.onSent nowMs transportLatencyMs }
        else entry) := by
  unfold sendOrOffer Shared.sent Shared.gone Shared.offered Shared.acts onlyIf
  by_cases hready : entry.ready mode nowMs
  · by_cases hsend : entry.send mode
    · cases hmessage : entry.message <;> simp [hready, hsend]
    · by_cases hoffer : entry.offerable mode <;> simp [hready, hsend, hoffer]
  · simp [hready]

/-- Being acknowledged changes nothing else that is decided of an entry. -/
theorem planEntry_eq :
    planEntry mode nowMs transportLatencyMs gathered entry =
      ({ acks := gathered.acks ++ onlyIf entry.state.ackPending entry.id
         unavailable := gathered.unavailable ++ onlyIf (entry.gone mode nowMs) entry.id
         offers := gathered.offers ++ onlyIf (entry.offered mode nowMs) entry.id
         messages := gathered.messages ++
           ((entry.sent mode nowMs).map SyncRecord.message).toList },
        entry.after mode nowMs transportLatencyMs) := by
  rw [planEntry, acknowledge_eq]
  exact sendOrOffer_eq

/-- The identifiers of the entries that satisfy a condition, in order. -/
def named (p : Shared → Bool) (shared : List Shared) : List MessageId :=
  (shared.filter p).map (·.id)

@[simp] theorem named_cons (p : Shared → Bool) (entry : Shared) (rest : List Shared) :
    named p (entry :: rest) = onlyIf (p entry) entry.id ++ named p rest := by
  by_cases h : p entry <;> simp [named, onlyIf, h]

theorem mem_named {p : Shared → Bool} {shared : List Shared} (hmem : entry ∈ shared)
    (h : p entry) : entry.id ∈ named p shared :=
  List.mem_map.mpr ⟨entry, List.mem_filter.mpr ⟨hmem, h⟩, rfl⟩

@[simp] theorem length_named (p : Shared → Bool) (shared : List Shared) :
    (named p shared).length = shared.countP p := by
  rw [named, List.length_map, List.countP_eq_length_filter]

/-- What the loop collects, and what becomes of the entries. -/
theorem planLoop_eq (shared : List Shared) :
    planLoop mode nowMs transportLatencyMs gathered shared =
      ({ acks := gathered.acks ++ named (·.state.ackPending) shared
         unavailable := gathered.unavailable ++ named (Shared.gone mode nowMs) shared
         offers := gathered.offers ++ named (Shared.offered mode nowMs) shared
         messages := gathered.messages ++
           (shared.filterMap (Shared.sent mode nowMs)).map SyncRecord.message },
        shared.map (Shared.after mode nowMs transportLatencyMs)) := by
  induction shared generalizing gathered with
  | nil => simp [planLoop, named]
  | cons entry rest ih =>
    rw [planLoop, planEntry_eq]
    dsimp only
    rw [ih]
    cases hsent : entry.sent mode nowMs <;> simp [hsent]

/-- What goes out in one opportunity, and what the entries become. -/
theorem plan_eq (shared : List Shared) (offeredByPeer : List MessageId) :
    plan mode nowMs transportLatencyMs shared offeredByPeer =
      (shared.map (Shared.after mode nowMs transportLatencyMs),
        unlessEmpty .ack (named (·.state.ackPending) shared) ++
          (unlessEmpty .request offeredByPeer ++
            (unlessEmpty .unavailable (named (Shared.gone mode nowMs) shared) ++
              ((shared.filterMap (Shared.sent mode nowMs)).map SyncRecord.message ++
                unlessEmpty .offer (named (Shared.offered mode nowMs) shared))))) := by
  rw [plan, planLoop_eq]
  rfl

/-- After a plan no acknowledgement is owed. -/
theorem ackPending_plan {shared : List Shared} {offeredByPeer : List MessageId} :
    ∀ entry ∈ (plan mode nowMs transportLatencyMs shared offeredByPeer).1,
      entry.state.ackPending = false := by
  rw [plan_eq]
  intro entry hentry
  obtain ⟨before, -, rfl⟩ := List.mem_map.mp hentry
  exact ackPending_after

theorem mem_plan {shared : List Shared} {offeredByPeer : List MessageId} {record : SyncRecord} :
    record ∈ (plan mode nowMs transportLatencyMs shared offeredByPeer).2 ↔
      record ∈ unlessEmpty .ack (named (·.state.ackPending) shared) ∨
      record ∈ unlessEmpty .request offeredByPeer ∨
      record ∈ unlessEmpty .unavailable (named (Shared.gone mode nowMs) shared) ∨
      (∃ signed, (∃ entry ∈ shared, entry.sent mode nowMs = some signed) ∧
        SyncRecord.message signed = record) ∨
      record ∈ unlessEmpty .offer (named (Shared.offered mode nowMs) shared) := by
  rw [plan_eq]
  simp only [List.mem_append, List.mem_map, List.mem_filterMap]

end Onestein.Sync
