import Onestein.Lib.Run
import Onestein.Sync.Answers
import Onestein.Sync.Authorship
import Onestein.Sync.Opportunity

/-!
# Two devices and what is between them

Two devices share messages with each other, plan when they can send, and hear what arrives. Records
may be lost, repeated, delayed and reordered. Whatever happens to them, a device never takes a
message for seen that the other one has not got, and never holds one that nobody wrote.

## Main definitions

* `hear` — what a record tells a device that receives it.
* `Exchange` and `Exchange.step` — two devices, what they have sent, and the events of a run.
* `Exchange.Sound` — that what a device believes and says about messages is so.

## Main results

* `Exchange.sound_step`, `Exchange.sound_final` — no event makes it unsound.
* `Exchange.believes_truly` — what is believed in any run.
-/

namespace Onestein.Sync

/-- One of the two devices. -/
inductive Side where
  | left
  | right
  deriving DecidableEq

def Side.other : Side → Side
  | left => right
  | right => left

@[simp] theorem Side.other_other (side : Side) : side.other.other = side := by cases side <;> rfl

section Devices

variable [Crypto.Blake2b]

/-! ## What a record tells -/

/-- What a record tells a device about one message: that the peer acknowledges it, offers or sends
it, or asks for it. The crate leaves it to its caller to note this; the fields of the state say what
each record means for them. -/
def Shared.hear (entry : Shared) : SyncRecord → Shared
  | .ack ids =>
    if entry.id ∈ ids then { entry with state := entry.state.onPeerAcked } else entry
  | .offer ids =>
    if entry.id ∈ ids then { entry with state := entry.state.onPeerOffered } else entry
  | .request ids =>
    if entry.id ∈ ids then { entry with state := entry.state.onPeerRequested } else entry
  | .message signed =>
    if signed.message.id = .ok entry.id then { entry with state := entry.state.onPeerOffered }
    else entry
  | .unavailable _ | .unknown _ => entry

/-- A message that is new to a device, with its identifier. The peer has it, as it sent it. -/
def arrived (shared : List Shared) : SyncRecord → List Shared
  | .message signed =>
    match signed.message.id with
    | .ok id =>
      if ∀ entry ∈ shared, entry.id ≠ id then
        [⟨id, PeerMessageState.new.onPeerOffered, some signed⟩]
      else []
    | .error _ => []
  | _ => []

/-- What a device shares with its peer after a record has arrived. -/
def hear (shared : List Shared) (record : SyncRecord) : List Shared :=
  shared.map (·.hear record) ++ arrived shared record

/-! ## Two devices -/

/-- What each device shares with the other one, and all it has ever sent. -/
structure Exchange where
  shared : Side → List Shared
  sent : Side → List SyncRecord

/-- What happens: an opportunity to send, the arrival of something that the other side has sent,
whether for the first time or not, or that a device no longer holds a message. -/
inductive Exchange.Event where
  | plan (side : Side) (mode : Mode) (nowMs transportLatencyMs : UInt64)
      (offeredByPeer : List MessageId)
  | arrive (side : Side) (record : SyncRecord)
  | forget (side : Side) (index : Nat)

namespace Exchange

/-- Two devices before anything was sent. -/
def start (shared : Side → List Shared) : Exchange := ⟨shared, fun _ => []⟩

/-- An event, with the records that are sent. Nothing arrives that was not sent. -/
def step (x : Exchange) : Event → Exchange × List SyncRecord
  | .plan side mode nowMs transportLatencyMs offeredByPeer =>
    let planned := Sync.plan mode nowMs transportLatencyMs (x.shared side) offeredByPeer
    (⟨Function.update x.shared side planned.1,
      Function.update x.sent side (x.sent side ++ planned.2)⟩, planned.2)
  | .arrive side record =>
    if record ∈ x.sent side.other then
      (⟨Function.update x.shared side (hear (x.shared side) record), x.sent⟩, [])
    else (x, [])
  | .forget side index =>
    (⟨Function.update x.shared side
      ((x.shared side).modify index fun entry => { entry with message := none }), x.sent⟩, [])

end Exchange

/-! ## What is believed -/

/-- A device shares a message, whether it still holds it or not. -/
def Has (shared : List Shared) (id : MessageId) : Prop := ∃ entry ∈ shared, entry.id = id

/-- Entries of messages are under the identifiers of the messages. -/
def Named (shared : List Shared) : Prop :=
  ∀ entry ∈ shared, ∀ signed, entry.message = some signed → signed.message.id = .ok entry.id

/-- What a record says about the messages of its sender is so, and the messages in it are from among
some. -/
def SyncRecord.Backed (shared : List Shared) (original : SignedMessage → Prop) : SyncRecord → Prop
  | .ack ids | .offer ids => ∀ id ∈ ids, Has shared id
  | .message signed => original signed ∧ ∃ id, signed.message.id = .ok id ∧ Has shared id
  | _ => True

/-- What a device believes of the other one is so. -/
structure Exchange.Sound (original : SignedMessage → Prop) (x : Exchange) : Prop where
  named : ∀ side, Named (x.shared side)
  held : ∀ side, ∀ entry ∈ x.shared side, ∀ signed, entry.message = some signed → original signed
  seen : ∀ side, ∀ entry ∈ x.shared side, entry.state.seen → Has (x.shared side.other) entry.id
  backed : ∀ side, ∀ record ∈ x.sent side, record.Backed (x.shared side) original

variable {entry : Shared} {shared shared' : List Shared} {record : SyncRecord} {id : MessageId}
  {original : SignedMessage → Prop} {mode : Mode} {nowMs transportLatencyMs : UInt64}
  {offeredByPeer : List MessageId} {index : Nat}

omit [Crypto.Blake2b] in
@[simp] theorem Shared.id_after : (entry.after mode nowMs transportLatencyMs).id = entry.id := by
  unfold Shared.after
  split_ifs <;> rfl

omit [Crypto.Blake2b] in
@[simp] theorem Shared.message_after :
    (entry.after mode nowMs transportLatencyMs).message = entry.message := by
  unfold Shared.after
  split_ifs <;> rfl

omit [Crypto.Blake2b] in
@[simp] theorem Shared.seen_after :
    (entry.after mode nowMs transportLatencyMs).state.seen = entry.state.seen := by
  unfold Shared.after
  split_ifs <;> rfl

@[simp] theorem Shared.id_hear : (entry.hear record).id = entry.id := by
  cases record <;> simp only [hear] <;> split_ifs <;> rfl

@[simp] theorem Shared.message_hear : (entry.hear record).message = entry.message := by
  cases record <;> simp only [hear] <;> split_ifs <;> rfl

/-- A device that hears of a message believes that the sender has it. -/
theorem Shared.seen_hear (h : (entry.hear record).state.seen) : entry.state.seen ∨
    (∃ ids, entry.id ∈ ids ∧ (record = .ack ids ∨ record = .offer ids)) ∨
      ∃ signed, record = .message signed ∧ signed.message.id = .ok entry.id := by
  cases record with
  | ack ids | offer ids =>
    by_cases hid : entry.id ∈ ids
    · exact .inr (.inl ⟨ids, hid, by simp⟩)
    · exact .inl (by simpa [hear, hid] using h)
  | request ids =>
    refine .inl ?_
    by_cases hid : entry.id ∈ ids <;>
      simpa [hear, hid, PeerMessageState.onPeerRequested] using h
  | message signed =>
    by_cases hid : signed.message.id = .ok entry.id
    · exact .inr (.inr ⟨signed, rfl, hid⟩)
    · exact .inl (by simpa [hear, hid] using h)
  | unavailable ids | unknown recordType => exact .inl h

theorem mem_arrived : entry ∈ arrived shared record ↔ ∃ signed, record = .message signed ∧
    signed.message.id = .ok entry.id ∧ ¬ Has shared entry.id ∧
      entry = ⟨entry.id, PeerMessageState.new.onPeerOffered, some signed⟩ := by
  cases record with
  | message signed =>
    rcases hid : signed.message.id with _ | id
    · simp [arrived, hid]
    · simp only [arrived, hid, Has, Except.ok.injEq, SyncRecord.message.injEq, exists_eq_left']
      constructor
      · intro h
        split_ifs at h with hnew
        · obtain rfl := List.mem_singleton.mp h
          exact ⟨rfl, fun ⟨other, hother, hsame⟩ => hnew other hother hsame, rfl⟩
        · cases h
      · rintro ⟨rfl, hnew, hentry⟩
        rw [if_pos fun other hother hsame => hnew ⟨other, hother, hsame⟩]
        exact List.mem_singleton.mpr hentry
  | ack | offer | request | unavailable | unknown => simp [arrived]

omit [Crypto.Blake2b] in
theorem has_map {f : Shared → Shared} (hf : ∀ entry, (f entry).id = entry.id) :
    Has (shared.map f) id ↔ Has shared id := by
  simp [Has, hf]

/-- What a device has it keeps having, whatever arrives. -/
theorem Has.hear (h : Has shared id) (record : SyncRecord) : Has (hear shared record) id := by
  obtain ⟨entry, hentry, hid⟩ := h
  exact ⟨entry.hear record, List.mem_append_left _ (List.mem_map_of_mem hentry), by simpa using hid⟩

omit [Crypto.Blake2b] in
theorem Has.plan (h : Has shared id) :
    Has (plan mode nowMs transportLatencyMs shared offeredByPeer).1 id := by
  rw [plan_fst]
  exact (has_map fun _ => Shared.id_after).mpr h

omit [Crypto.Blake2b] in
/-- A device that forgets a message forgets nothing about it. -/
theorem exists_of_mem_forget
    (h : entry ∈ shared.modify index fun entry => { entry with message := none }) :
    ∃ before ∈ shared, entry.id = before.id ∧ entry.state = before.state ∧
      ∀ signed, entry.message = some signed → before.message = some signed := by
  obtain ⟨i, hi⟩ := List.mem_iff_getElem?.mp h
  rw [List.getElem?_modify] at hi
  obtain ⟨before, hbefore, rfl⟩ := Option.map_eq_some_iff.mp hi
  refine ⟨before, List.mem_of_getElem? hbefore, ?_⟩
  split_ifs <;> simp

omit [Crypto.Blake2b] in
theorem Has.forget (h : Has shared id) :
    Has (shared.modify index fun entry => { entry with message := none }) id := by
  obtain ⟨entry, hentry, rfl⟩ := h
  obtain ⟨i, hi⟩ := List.mem_iff_getElem?.mp hentry
  by_cases hindex : index = i
  · exact ⟨{ entry with message := none },
      List.mem_of_getElem? (i := i) (by simp [hi, hindex]), rfl⟩
  · exact ⟨entry, List.mem_of_getElem? (i := i) (by simp [hi, hindex]), rfl⟩

theorem SyncRecord.Backed.mono (h : record.Backed shared original)
    (hmono : ∀ id, Has shared id → Has shared' id) : record.Backed shared' original := by
  cases record with
  | ack | offer => exact fun id hid => hmono id (h id hid)
  | message signed =>
    obtain ⟨horiginal, id, hid, hhas⟩ := h
    exact ⟨horiginal, id, hid, hmono id hhas⟩
  | request | unavailable | unknown => trivial

/-- Whatever is planned says what is so. -/
theorem backed_plan (hnamed : Named shared)
    (hheld : ∀ entry ∈ shared, ∀ signed, entry.message = some signed → original signed)
    (h : record ∈ (plan mode nowMs transportLatencyMs shared offeredByPeer).2) :
    record.Backed shared original := by
  have hhas (p : Shared → Bool) (id : MessageId) (hid : id ∈ named p shared) : Has shared id := by
    obtain ⟨entry, hentry, rfl⟩ := List.mem_map.mp hid
    exact ⟨entry, (List.mem_filter.mp hentry).1, rfl⟩
  simp only [mem_plan, mem_unlessEmpty_iff] at h
  obtain ⟨-, rfl⟩ | ⟨-, rfl⟩ | ⟨-, rfl⟩ | ⟨signed, ⟨entry, hentry, hsent⟩, rfl⟩ | ⟨-, rfl⟩ := h
  · exact hhas _
  · trivial
  · trivial
  · have hmessage := message_of_sent hsent
    exact ⟨hheld entry hentry signed hmessage, entry.id, hnamed entry hentry signed hmessage, entry,
      hentry, rfl⟩
  · exact hhas _

namespace Exchange

variable {x : Exchange} {side : Side}

/-- A device may come to believe and to say what is so, as long as it keeps what it has. -/
theorem Sound.update (h : x.Sound original) {next : List Shared} {records : List SyncRecord}
    (hnamed : Named next)
    (hheld : ∀ entry ∈ next, ∀ signed, entry.message = some signed → original signed)
    (hseen : ∀ entry ∈ next, entry.state.seen → Has (x.shared side.other) entry.id)
    (hmono : ∀ id, Has (x.shared side) id → Has next id)
    (hrecords : ∀ record ∈ records, record.Backed next original) :
    Sound original ⟨Function.update x.shared side next,
      Function.update x.sent side (x.sent side ++ records)⟩ := by
  have hkeeps (other : Side) (id : MessageId) (hhas : Has (x.shared other) id) :
      Has (Function.update x.shared side next other) id := by
    by_cases hside : other = side
    · subst hside
      simpa using hmono id hhas
    · simpa [Function.update_of_ne hside] using hhas
  constructor
  · intro other
    by_cases hside : other = side
    · simpa [hside] using hnamed
    · simpa [Function.update_of_ne hside] using h.named other
  · intro other
    by_cases hside : other = side
    · simpa [hside] using hheld
    · simpa [Function.update_of_ne hside] using h.held other
  · intro other entry hentry hbelieved
    refine hkeeps _ _ ?_
    by_cases hside : other = side
    · subst hside
      exact hseen entry (by simpa using hentry) hbelieved
    · simp only [Function.update_of_ne hside] at hentry
      exact h.seen other entry hentry hbelieved
  · intro other record hrecord
    by_cases hside : other = side
    · subst hside
      simp only [Function.update_self] at hrecord ⊢
      rcases List.mem_append.mp hrecord with hold | hnew
      · exact (h.backed other record hold).mono hmono
      · exact hrecords record hnew
    · simp only [Function.update_of_ne hside] at hrecord ⊢
      exact h.backed other record hrecord

theorem Sound.plan (h : x.Sound original) (mode : Mode) (nowMs transportLatencyMs : UInt64)
    (offeredByPeer : List MessageId) :
    (x.step (.plan side mode nowMs transportLatencyMs offeredByPeer)).1.Sound original := by
  have hmono (id : MessageId) (hhas : Has (x.shared side) id) :
      Has ((x.shared side).map (Shared.after mode nowMs transportLatencyMs)) id :=
    (has_map fun _ => Shared.id_after).mpr hhas
  simp only [step, plan_fst]
  refine h.update ?_ ?_ ?_ hmono fun record hrecord =>
    (backed_plan (h.named side) (h.held side) hrecord).mono hmono
  · intro entry hentry signed hmessage
    obtain ⟨before, hbefore, rfl⟩ := List.mem_map.mp hentry
    rw [Shared.id_after]
    exact h.named side before hbefore signed (by simpa using hmessage)
  · intro entry hentry signed hmessage
    obtain ⟨before, hbefore, rfl⟩ := List.mem_map.mp hentry
    exact h.held side before hbefore signed (by simpa using hmessage)
  · intro entry hentry hseen
    obtain ⟨before, hbefore, rfl⟩ := List.mem_map.mp hentry
    rw [Shared.id_after]
    exact h.seen side before hbefore (by simpa using hseen)

/-- What arrives is what the other device has said, and what it says is so. -/
theorem Sound.arrive (h : x.Sound original) (hsent : record ∈ x.sent side.other) :
    Sound original ⟨Function.update x.shared side (hear (x.shared side) record), x.sent⟩ := by
  have hbacked := h.backed side.other record hsent
  have hsplit {entry : Shared} (hentry : entry ∈ hear (x.shared side) record) :
      (∃ before ∈ x.shared side, before.hear record = entry) ∨
        ∃ signed, record = .message signed ∧ signed.message.id = .ok entry.id ∧
          entry = ⟨entry.id, PeerMessageState.new.onPeerOffered, some signed⟩ := by
    rcases List.mem_append.mp hentry with hold | hnew
    · exact .inl (List.mem_map.mp hold)
    · obtain ⟨signed, hrecord, hid, -, hentry⟩ := mem_arrived.mp hnew
      exact .inr ⟨signed, hrecord, hid, hentry⟩
  have hsender {id : MessageId} {signed : SignedMessage} (hrecord : record = .message signed)
      (hid : signed.message.id = .ok id) : original signed ∧ Has (x.shared side.other) id := by
    subst hrecord
    obtain ⟨horiginal, id', hid', hhas⟩ := hbacked
    obtain rfl := Except.ok.inj (hid.symm.trans hid')
    exact ⟨horiginal, hhas⟩
  suffices hupdate : Sound original ⟨Function.update x.shared side (hear (x.shared side) record),
      Function.update x.sent side (x.sent side ++ [])⟩ by simpa using hupdate
  refine h.update ?_ ?_ ?_ (fun id hhas => hhas.hear record) (by simp)
  · intro entry hentry signed hmessage
    rcases hsplit hentry with ⟨before, hbefore, rfl⟩ | ⟨signed', -, hid, hnew⟩
    · rw [Shared.id_hear]
      exact h.named side before hbefore signed (by simpa using hmessage)
    · rw [hnew] at hmessage
      obtain rfl := Option.some.inj hmessage
      exact hid
  · intro entry hentry signed hmessage
    rcases hsplit hentry with ⟨before, hbefore, rfl⟩ | ⟨signed', hrecord, hid, hnew⟩
    · exact h.held side before hbefore signed (by simpa using hmessage)
    · rw [hnew] at hmessage
      obtain rfl := Option.some.inj hmessage
      exact (hsender hrecord hid).1
  · intro entry hentry hseen
    rcases hsplit hentry with ⟨before, hbefore, rfl⟩ | ⟨signed, hrecord, hid, -⟩
    · rw [Shared.id_hear]
      rcases Shared.seen_hear hseen with hseen | ⟨ids, hid, rfl | rfl⟩ | ⟨signed, hrecord, hid⟩
      · exact h.seen side before hbefore hseen
      · exact hbacked _ hid
      · exact hbacked _ hid
      · exact (hsender hrecord hid).2
    · exact (hsender hrecord hid).2

theorem Sound.forget (h : x.Sound original) (index : Nat) :
    (x.step (.forget side index)).1.Sound original := by
  suffices hupdate : Sound original ⟨Function.update x.shared side ((x.shared side).modify index
      fun entry => { entry with message := none }),
      Function.update x.sent side (x.sent side ++ [])⟩ by simpa [step] using hupdate
  refine h.update ?_ ?_ ?_ (fun _ hhas => hhas.forget) (by simp)
  · intro entry hentry signed hmessage
    obtain ⟨before, hbefore, hid, -, hkept⟩ := exists_of_mem_forget hentry
    rw [hid]
    exact h.named side before hbefore signed (hkept signed hmessage)
  · intro entry hentry signed hmessage
    obtain ⟨before, hbefore, -, -, hkept⟩ := exists_of_mem_forget hentry
    exact h.held side before hbefore signed (hkept signed hmessage)
  · intro entry hentry hseen
    obtain ⟨before, hbefore, hid, hstate, -⟩ := exists_of_mem_forget hentry
    rw [hid]
    exact h.seen side before hbefore (hstate ▸ hseen)

/-- No event makes what a device believes untrue. -/
theorem sound_step (h : x.Sound original) (event : Event) : (x.step event).1.Sound original := by
  cases event with
  | plan side mode nowMs transportLatencyMs offeredByPeer => exact h.plan _ _ _ _
  | arrive side record =>
    rw [step]
    split_ifs with hsent
    · exact h.arrive hsent
    · exact h
  | forget side index => exact h.forget index

theorem sound_final (h : x.Sound original) (events : List Event) :
    (Run.final step x events).Sound original :=
  Run.invariant (I := Sound original) (fun _ event hsound => sound_step hsound event) h events

/-- A device comes to share a message when the message arrives. -/
theorem has_step {event : Event} (h : Has ((x.step event).1.shared side) id) :
    Has (x.shared side) id ∨ ∃ signed, event = .arrive side (.message signed) ∧
      .message signed ∈ x.sent side.other ∧ signed.message.id = .ok id := by
  have hother {other : Side} {next : List Shared} (hnext : Has next id → Has (x.shared other) id ∨
      ∃ signed, event = .arrive other (.message signed) ∧ .message signed ∈ x.sent other.other ∧
        signed.message.id = .ok id) (h : Has (Function.update x.shared other next side) id) :
      Has (x.shared side) id ∨ ∃ signed, event = .arrive side (.message signed) ∧
        .message signed ∈ x.sent side.other ∧ signed.message.id = .ok id := by
    by_cases hside : side = other
    · subst hside
      exact hnext (by simpa using h)
    · exact .inl (by simpa [Function.update_of_ne hside] using h)
  cases event with
  | plan other mode nowMs transportLatencyMs offeredByPeer =>
    refine hother (fun h => .inl ?_) h
    rw [plan_fst] at h
    exact (has_map fun _ => Shared.id_after).mp h
  | arrive other record =>
    rw [step] at h
    split_ifs at h with hsent
    · refine hother (fun h => ?_) h
      obtain ⟨entry, hentry, rfl⟩ := h
      rcases List.mem_append.mp hentry with hold | hnew
      · obtain ⟨before, hbefore, rfl⟩ := List.mem_map.mp hold
        exact .inl ⟨before, hbefore, by simp⟩
      · obtain ⟨signed, rfl, hid, -⟩ := mem_arrived.mp hnew
        exact .inr ⟨signed, rfl, hsent, hid⟩
    · exact .inl h
  | forget other index =>
    refine hother (fun h => .inl ?_) h
    obtain ⟨entry, hentry, rfl⟩ := h
    obtain ⟨before, hbefore, hid, -⟩ := exists_of_mem_forget hentry
    exact ⟨before, hbefore, hid.symm⟩

/-- A message with this identifier arrives at a device, and the other one has sent it by then. -/
def Arrives (x : Exchange) (events : List Event) (side : Side) (id : MessageId) : Prop :=
  ∃ earlier signed, earlier ++ [.arrive side (.message signed)] <+: events ∧
    .message signed ∈ (Run.final step x earlier).sent side.other ∧ signed.message.id = .ok id

theorem Arrives.cons {event : Event} {events : List Event}
    (h : (x.step event).1.Arrives events side id) : x.Arrives (event :: events) side id := by
  obtain ⟨earlier, signed, hprefix, hsent, hid⟩ := h
  exact ⟨event :: earlier, signed, List.cons_prefix_cons.mpr ⟨rfl, hprefix⟩, hsent, hid⟩

/-- What a device has in the end it had in the beginning, or it has arrived. -/
theorem has_final (events : List Event) (h : Has ((Run.final step x events).shared side) id) :
    Has (x.shared side) id ∨ x.Arrives events side id := by
  induction events generalizing x with
  | nil => exact .inl h
  | cons event events ih =>
    rcases ih h with hhas | harrives
    · rcases has_step hhas with hhas | ⟨signed, rfl, hsent, hid⟩
      · exact .inl hhas
      · exact .inr ⟨[], signed, List.cons_prefix_cons.mpr ⟨rfl, List.nil_prefix⟩, hsent, hid⟩
    · exact .inr harrives.cons

/-- One of the two devices held the message in the beginning. -/
def Original (shared : Side → List Shared) (signed : SignedMessage) : Prop :=
  ∃ first, ∃ held ∈ shared first, held.message = some signed

theorem sound_start {shared : Side → List Shared}
    (hfresh : ∀ side, ∀ entry ∈ shared side, ¬ entry.state.seen)
    (hnamed : ∀ side, Named (shared side)) : (start shared).Sound (Original shared) :=
  ⟨hnamed, fun first held hheld signed hmessage => ⟨first, held, hheld, hmessage⟩,
    fun side entry hentry hseen => absurd hseen (hfresh side entry hentry), by simp [start]⟩

/-- What two devices believe of each other is so, whatever is lost, repeated, delayed or reordered
between them: a message that is taken for seen is shared by the other device, which had it to begin
with or got it from this one. And what a device holds under an identifier is the message with that
identifier, just as one of the two held it in the beginning. -/
theorem believes_truly (shared : Side → List Shared) (events : List Event)
    (hfresh : ∀ side, ∀ entry ∈ shared side, ¬ entry.state.seen)
    (hnamed : ∀ side, Named (shared side))
    (side : Side) (entry : Shared)
    (hentry : entry ∈ (Run.final step (start shared) events).shared side) :
    (entry.state.seen → Has ((Run.final step (start shared) events).shared side.other) entry.id ∧
      (Has (shared side.other) entry.id ∨ (start shared).Arrives events side.other entry.id)) ∧
    ∀ signed, entry.message = some signed → signed.message.id = .ok entry.id ∧
      Original shared signed := by
  have hsound := sound_final (sound_start hfresh hnamed) events
  refine ⟨fun hseen => ?_, fun signed hmessage => ?_⟩
  · have hhas := hsound.seen side entry hentry hseen
    exact ⟨hhas, has_final events hhas⟩
  · exact ⟨hsound.named side entry hentry signed hmessage,
      hsound.held side entry hentry signed hmessage⟩

end Exchange

end Devices

/-! ## One message that comes and is acknowledged -/

namespace Sample

attribute [local instance] Crypto.checksum

def messageId : MessageId := ⟨Crypto.hash message.idParts⟩

def sentMessage : SignedMessage := ⟨message, .replicate 64 0⟩

/-- One device has a message. -/
def devices : Side → List Shared
  | .left => [⟨messageId, .new, some sentMessage⟩]
  | .right => []

/-- The message is sent, arrives twice and is acknowledged. -/
def events : List Exchange.Event :=
  [.plan .left .batch 1000 100 [], .arrive .right (.message sentMessage),
    .arrive .right (.message sentMessage), .plan .right .interactive 1200 100 [],
    .arrive .left (.ack [messageId])]

theorem id_message : message.id = .ok messageId := by
  decide +kernel

theorem shared_left : (Run.final Exchange.step (Exchange.start devices) events).shared .left =
    [⟨messageId, ⟨true, false, false, 1, 1100, 100⟩, some sentMessage⟩] := by
  decide +kernel

theorem fresh_devices : ∀ side, ∀ entry ∈ devices side, ¬ entry.state.seen := by
  intro side entry hentry
  cases side
  · obtain rfl := List.mem_singleton.mp hentry
    decide
  · cases hentry

theorem named_devices : ∀ side, Named (devices side) := by
  intro side entry hentry signed hmessage
  cases side
  · obtain rfl := List.mem_singleton.mp hentry
    obtain rfl := Option.some.inj hmessage
    exact id_message
  · cases hentry

/-- The first device takes the message for seen, and it has arrived. -/
theorem believes_truly_sample :
    ∃ entry ∈ (Run.final Exchange.step (Exchange.start devices) events).shared .left,
      entry.state.seen ∧ (Exchange.start devices).Arrives events .right entry.id := by
  have hmem : ⟨messageId, ⟨true, false, false, 1, 1100, 100⟩, some sentMessage⟩ ∈
      (Run.final Exchange.step (Exchange.start devices) events).shared .left := by
    rw [shared_left]
    exact List.mem_singleton.mpr rfl
  obtain ⟨-, hhas | harrived⟩ :=
    (Exchange.believes_truly devices events fresh_devices named_devices .left _ hmem).1 rfl
  · obtain ⟨entry, hentry, -⟩ := hhas
    cases hentry
  · exact ⟨_, hmem, rfl, harrived⟩

end Sample

end Onestein.Sync
