import Onestein.Sync.Exchange

/-!
# What two devices come to share

When the records of one opportunity arrive, and those of the next one of the other device, the first
device knows that what it had sent is there. After three opportunities in turn that lose nothing,
both devices share the same messages, know it, and have nothing left to say.

## Main definitions

* `Exchange.leg` — an opportunity to send, whose records all arrive.
* `Exchange.Outstanding` — what a caller asks for: what was offered and is not shared.
* `Owes`, `Knows` — that a message is to be acknowledged, and that it is known to be there.
* `Settled` — nothing is unseen, owed or asked for.

## Main results

* `Exchange.known_after_round_trip` — what is sent and acknowledged is known in every run that
  follows.
* `Exchange.settles` — three opportunities in turn settle everything.
-/

namespace Onestein.Sync

section Devices

variable [Crypto.Blake2b] {shared : List Shared} {entry : Shared} {record : SyncRecord}
  {records : List SyncRecord} {id : MessageId} {signed : SignedMessage}
  {mode : Mode} {nowMs transportLatencyMs : UInt64} {offeredByPeer : List MessageId}

/-- A message is to be acknowledged. -/
def Owes (shared : List Shared) (id : MessageId) : Prop :=
  ∃ entry ∈ shared, entry.id = id ∧ entry.state.ackPending

/-- A message is known to be there. -/
def Knows (shared : List Shared) (id : MessageId) : Prop :=
  ∀ entry ∈ shared, entry.id = id → entry.state.seen

/-- Nothing is unseen, owed or asked for. -/
def Settled (shared : List Shared) : Prop :=
  ∀ entry ∈ shared, entry.state.seen ∧ ¬ entry.state.ackPending ∧ ¬ entry.state.requested

/-! ## What is heard -/

theorem Shared.state_hear (entry : Shared) (record : SyncRecord) :
    (entry.hear record).state = entry.state ∨ (entry.hear record).state = entry.state.onPeerAcked ∨
      (entry.hear record).state = entry.state.onPeerOffered ∨
        (entry.hear record).state = entry.state.onPeerRequested := by
  cases record with
  | ack ids | offer ids | request ids => by_cases hid : entry.id ∈ ids <;> simp [hear, hid]
  | message signed => by_cases hid : signed.message.id = .ok entry.id <;> simp [hear, hid]
  | unavailable | unknown => exact .inl rfl

theorem Shared.seen_hear_of_seen (h : entry.state.seen) : (entry.hear record).state.seen := by
  obtain hstate | hstate | hstate | hstate := entry.state_hear record <;> rw [hstate] <;>
    first | rfl | exact h

theorem Shared.ackPending_hear_of_ackPending (h : entry.state.ackPending) :
    (entry.hear record).state.ackPending := by
  obtain hstate | hstate | hstate | hstate := entry.state_hear record <;> rw [hstate] <;>
    first | rfl | exact h

theorem state_of_mem_arrived (h : entry ∈ arrived shared record) :
    entry.state = PeerMessageState.new.onPeerOffered := by
  obtain ⟨signed, -, -, -, hentry⟩ := mem_arrived.mp h
  rw [hentry]

theorem seen_of_mem_arrived (h : entry ∈ arrived shared record) : entry.state.seen := by
  rw [state_of_mem_arrived h]
  rfl

omit [Crypto.Blake2b] in
theorem Owes.has (h : Owes shared id) : Has shared id := by
  obtain ⟨entry, hentry, hid, -⟩ := h
  exact ⟨entry, hentry, hid⟩

theorem Owes.hear (h : Owes shared id) (record : SyncRecord) : Owes (hear shared record) id := by
  obtain ⟨entry, hentry, hid, howed⟩ := h
  exact ⟨entry.hear record, List.mem_append_left _ (List.mem_map_of_mem hentry), by simpa using hid,
    Shared.ackPending_hear_of_ackPending howed⟩

theorem Knows.hear (h : Knows shared id) (record : SyncRecord) : Knows (hear shared record) id := by
  intro entry hentry hid
  rcases List.mem_append.mp hentry with hold | hnew
  · obtain ⟨before, hbefore, rfl⟩ := List.mem_map.mp hold
    exact Shared.seen_hear_of_seen (h before hbefore (by simpa using hid))
  · exact seen_of_mem_arrived hnew

/-- A message that arrives is to be acknowledged, whether it was there before or not. -/
theorem owes_hear_message (hid : signed.message.id = .ok id) :
    Owes (hear shared (.message signed)) id := by
  by_cases hhas : Has shared id
  · obtain ⟨entry, hentry, rfl⟩ := hhas
    exact ⟨entry.hear (.message signed), List.mem_append_left _ (List.mem_map_of_mem hentry),
      by simp, by simp [Shared.hear, hid, PeerMessageState.onPeerOffered]⟩
  · exact ⟨⟨id, PeerMessageState.new.onPeerOffered, some signed⟩,
      List.mem_append_right _ (mem_arrived.mpr ⟨signed, rfl, hid, hhas, rfl⟩), rfl, rfl⟩

theorem knows_hear_ack {ids : List MessageId} (hid : id ∈ ids) :
    Knows (hear shared (.ack ids)) id := by
  intro entry hentry hsame
  rcases List.mem_append.mp hentry with hold | hnew
  · obtain ⟨before, -, rfl⟩ := List.mem_map.mp hold
    obtain rfl : before.id = id := by simpa using hsame
    simp [Shared.hear, hid, PeerMessageState.onPeerAcked]
  · exact seen_of_mem_arrived hnew

/-- What every record keeps, all of them keep. -/
theorem foldl_hear {P : List Shared → Prop}
    (hkeep : ∀ shared record, P shared → P (hear shared record))
    (h : P shared) (records : List SyncRecord) : P (records.foldl hear shared) := by
  induction records generalizing shared with
  | nil => exact h
  | cons record records ih => exact ih (hkeep shared record h)

/-- What every record keeps and one of them brings about, holds when all have arrived. -/
theorem foldl_hear_of_mem {P : List Shared → Prop}
    (hkeep : ∀ shared record, P shared → P (hear shared record)) (hmem : record ∈ records)
    (hnow : ∀ shared, P (hear shared record)) (shared : List Shared) :
    P (records.foldl hear shared) := by
  obtain ⟨before, after, rfl⟩ := List.append_of_mem hmem
  rw [List.foldl_append, List.foldl_cons]
  exact foldl_hear hkeep (hnow _) after

/-- Entries that are there after some records were there before, or are seen. -/
theorem mem_foldl_hear (h : entry ∈ records.foldl hear shared) :
    Has shared entry.id ∨ entry.state.seen := by
  have hall : ∀ entry ∈ records.foldl hear shared, Has shared entry.id ∨ entry.state.seen := by
    refine foldl_hear (P := fun next => ∀ entry ∈ next, Has shared entry.id ∨ entry.state.seen)
      (fun next record hnext entry hentry => ?_) (fun entry hentry => .inl ⟨entry, hentry, rfl⟩)
      records
    rcases List.mem_append.mp hentry with hold | hnew
    · obtain ⟨before, hbefore, rfl⟩ := List.mem_map.mp hold
      rw [Shared.id_hear]
      exact (hnext before hbefore).imp_right Shared.seen_hear_of_seen
    · exact .inr (seen_of_mem_arrived hnew)
  exact hall entry h

/-! ## What is planned -/

omit [Crypto.Blake2b] in
/-- What is owed is acknowledged. -/
theorem Owes.mem_plan (h : Owes shared id) :
    ∃ ids, .ack ids ∈ (plan mode nowMs transportLatencyMs shared offeredByPeer).2 ∧ id ∈ ids := by
  obtain ⟨entry, hentry, rfl, howed⟩ := h
  have hid : entry.id ∈ named (·.state.ackPending) shared := mem_named hentry howed
  exact ⟨_, Sync.mem_plan.mpr (.inl (mem_unlessEmpty_iff.mpr ⟨List.ne_nil_of_mem hid, rfl⟩)), hid⟩

omit [Crypto.Blake2b] in
/-- A message that is held and due, and not known to be there, is sent. -/
theorem message_mem_plan (hmode : mode ≠ .interactive) (hentry : entry ∈ shared)
    (hready : entry.ready mode nowMs) (hmessage : entry.message = some signed)
    (hseen : ¬ entry.state.seen) :
    .message signed ∈ (plan mode nowMs transportLatencyMs shared offeredByPeer).2 := by
  have hsend : entry.send mode := by
    cases mode <;> simp_all [Shared.send]
  refine Sync.mem_plan.mpr (.inr (.inr (.inr (.inl ⟨signed, ⟨entry, hentry, ?_⟩, rfl⟩))))
  simp [Shared.sent, hready, hsend, hmessage]

omit [Crypto.Blake2b] in
theorem Knows.plan (h : Knows shared id) :
    Knows (plan mode nowMs transportLatencyMs shared offeredByPeer).1 id := by
  rw [plan_fst]
  intro entry hentry hid
  obtain ⟨before, hbefore, rfl⟩ := List.mem_map.mp hentry
  simpa using h before hbefore (by simpa using hid)

/-! ## Opportunities whose records arrive -/

namespace Exchange

variable {x y : Exchange} {side : Side} {original : SignedMessage → Prop}

/-- What a caller hands to `plan` as offered: messages that the other device has offered, and that
this one does not share. -/
def Outstanding (x : Exchange) (side : Side) (offeredByPeer : List MessageId) : Prop :=
  ∀ id ∈ offeredByPeer,
    (∃ ids, SyncRecord.offer ids ∈ x.sent side.other ∧ id ∈ ids) ∧ ¬ Has (x.shared side) id

omit [Crypto.Blake2b] in
theorem outstanding_nil : x.Outstanding side [] := nofun

/-- An opportunity to send, whose records all arrive in order. -/
def leg (x : Exchange) (side : Side) (mode : Mode) (nowMs transportLatencyMs : UInt64)
    (offeredByPeer : List MessageId) : Exchange :=
  let sent := x.step (.plan side mode nowMs transportLatencyMs offeredByPeer)
  Run.final step sent.1 (sent.2.map (.arrive side.other))

theorem Sound.leg (h : x.Sound original) :
    (x.leg side mode nowMs transportLatencyMs offeredByPeer).Sound original :=
  sound_final (sound_step h _) _

/-- Records that were sent arrive one after the other. -/
theorem final_arrive (hsent : ∀ record ∈ records, record ∈ x.sent side) :
    Run.final step x (records.map (.arrive side.other)) =
      ⟨Function.update x.shared side.other (records.foldl Sync.hear (x.shared side.other)),
        x.sent⟩ := by
  induction records generalizing x with
  | nil => simp
  | cons record records ih =>
    have hmem : record ∈ x.sent side.other.other := by simpa using hsent record List.mem_cons_self
    rw [List.map_cons, Run.final_cons, step, if_pos hmem, ih]
    · simp
    · exact fun record hrecord => hsent record (List.mem_cons_of_mem _ hrecord)

theorem shared_leg : (x.leg side mode nowMs transportLatencyMs offeredByPeer).shared side =
      (plan mode nowMs transportLatencyMs (x.shared side) offeredByPeer).1 ∧
    (x.leg side mode nowMs transportLatencyMs offeredByPeer).shared side.other =
      (plan mode nowMs transportLatencyMs (x.shared side) offeredByPeer).2.foldl Sync.hear
        (x.shared side.other) := by
  have hne : side.other ≠ side := by cases side <;> decide
  rw [Exchange.leg, final_arrive (by simp +contextual [step])]
  simp [step, Function.update_of_ne hne, Function.update_of_ne hne.symm]

theorem sent_leg : (x.leg side mode nowMs transportLatencyMs offeredByPeer).sent side =
    x.sent side ++ (plan mode nowMs transportLatencyMs (x.shared side) offeredByPeer).2 := by
  rw [Exchange.leg, final_arrive (by simp +contextual [step])]
  simp [step]

/-- What an event can do to what a device shares. -/
theorem shared_step (x : Exchange) (event : Event) (side : Side) :
    (x.step event).1.shared side = x.shared side ∨
    (∃ mode nowMs transportLatencyMs offeredByPeer, (x.step event).1.shared side =
      (Sync.plan mode nowMs transportLatencyMs (x.shared side) offeredByPeer).1) ∨
    (∃ record, (x.step event).1.shared side = Sync.hear (x.shared side) record) ∨
    ∃ index, (x.step event).1.shared side =
      (x.shared side).modify index fun entry => { entry with message := none } := by
  have hupdate (other : Side) (next : List Shared) :
      Function.update x.shared other next side = x.shared side ∨
        side = other ∧ Function.update x.shared other next side = next := by
    by_cases hside : side = other
    · exact .inr ⟨hside, by simp [hside]⟩
    · exact .inl (by simp [Function.update_of_ne hside])
  cases event with
  | plan other mode nowMs transportLatencyMs offeredByPeer =>
    obtain hsame | ⟨rfl, hnext⟩ := hupdate other
      (Sync.plan mode nowMs transportLatencyMs (x.shared other) offeredByPeer).1
    · exact .inl hsame
    · exact .inr (.inl ⟨mode, nowMs, transportLatencyMs, offeredByPeer, hnext⟩)
  | arrive other record =>
    rw [step]
    split_ifs with hsent
    · obtain hsame | ⟨rfl, hnext⟩ := hupdate other (Sync.hear (x.shared other) record)
      · exact .inl hsame
      · exact .inr (.inr (.inl ⟨record, hnext⟩))
    · exact .inl rfl
  | forget other index =>
    obtain hsame | ⟨rfl, hnext⟩ := hupdate other
      ((x.shared other).modify index fun entry => { entry with message := none })
    · exact .inl hsame
    · exact .inr (.inr (.inr ⟨index, hnext⟩))

omit [Crypto.Blake2b] in
theorem knows_forget {index : Nat} (h : Knows shared id) :
    Knows (shared.modify index fun entry => { entry with message := none }) id := by
  intro entry hentry hid
  obtain ⟨before, hbefore, hsame, hstate, -⟩ := exists_of_mem_forget hentry
  rw [hstate]
  exact h before hbefore (hsame ▸ hid)

/-- What a device has it keeps. -/
theorem has_final_of_has (events : List Event) (h : Has (x.shared side) id) :
    Has ((Run.final step x events).shared side) id := by
  refine Run.invariant (I := fun y : Exchange => Has (y.shared side) id) ?_ h events
  intro y event hhas
  obtain hsame | ⟨_, _, _, _, hnext⟩ | ⟨record, hnext⟩ | ⟨index, hnext⟩ := y.shared_step event side
  · exact hsame ▸ hhas
  · exact hnext ▸ hhas.plan
  · exact hnext ▸ hhas.hear record
  · exact hnext ▸ hhas.forget

theorem has_leg {other : Side} (h : Has (x.shared other) id) :
    Has ((x.leg side mode nowMs transportLatencyMs offeredByPeer).shared other) id :=
  has_final_of_has (.plan side mode nowMs transportLatencyMs offeredByPeer :: _) h

/-- What a device knows it keeps knowing. -/
theorem knows_final (events : List Event) (h : Knows (x.shared side) id) :
    Knows ((Run.final step x events).shared side) id := by
  refine Run.invariant (I := fun y : Exchange => Knows (y.shared side) id) ?_ h events
  intro y event hknows
  obtain hsame | ⟨_, _, _, _, hnext⟩ | ⟨record, hnext⟩ | ⟨index, hnext⟩ := y.shared_step event side
  · exact hsame ▸ hknows
  · exact hnext ▸ hknows.plan
  · exact hnext ▸ hknows.hear record
  · exact hnext ▸ knows_forget hknows

/-- What is sent in one leg is there. -/
theorem Sound.has_leg_other (h : x.Sound original) (hmode : mode ≠ .interactive)
    (hhas : Has (x.shared side) id)
    (hdue : ∀ entry ∈ x.shared side, entry.id = id →
      (∃ signed, entry.message = some signed) ∧ entry.ready mode nowMs) :
    Has ((x.leg side mode nowMs transportLatencyMs offeredByPeer).shared side.other) id ∧
      (Knows (x.shared side) id ∨
        Owes ((x.leg side mode nowMs transportLatencyMs offeredByPeer).shared side.other) id) := by
  rw [shared_leg.2]
  by_cases hknown : Knows (x.shared side) id
  · obtain ⟨entry, hentry, rfl⟩ := hhas
    have hthere : Has (x.shared side.other) entry.id :=
      h.seen side entry hentry (hknown entry hentry rfl)
    exact ⟨foldl_hear (P := (Has · entry.id)) (fun _ record hhas => hhas.hear record) hthere _,
      .inl hknown⟩
  · -- The message is sent, so it is to be acknowledged where it arrives.
    rw [Knows] at hknown
    push Not at hknown
    obtain ⟨entry, hentry, rfl, hseen⟩ := hknown
    obtain ⟨⟨signed, hmessage⟩, hready⟩ := hdue entry hentry rfl
    have howes : Owes ((Sync.plan mode nowMs transportLatencyMs (x.shared side)
        offeredByPeer).2.foldl Sync.hear (x.shared side.other)) entry.id :=
      foldl_hear_of_mem (P := (Owes · entry.id)) (fun _ record howes => howes.hear record)
        (message_mem_plan hmode hentry hready hmessage hseen)
        (fun _ => owes_hear_message (h.named side entry hentry signed hmessage)) _
    exact ⟨howes.has, .inr howes⟩

/-- What is sent in one leg is acknowledged in the next. -/
theorem Sound.round_trip (h : x.Sound original) {answering : Mode}
    {laterMs answerLatencyMs : UInt64} {offered : List MessageId} (hmode : mode ≠ .interactive)
    (hhas : Has (x.shared side) id)
    (hdue : ∀ entry ∈ x.shared side, entry.id = id →
      (∃ signed, entry.message = some signed) ∧ entry.ready mode nowMs)
    (hy : y = (x.leg side mode nowMs transportLatencyMs offeredByPeer).leg side.other answering
      laterMs answerLatencyMs offered) :
    Has (y.shared side.other) id ∧ Knows (y.shared side) id := by
  obtain ⟨hthere, hanswer⟩ :
      Has ((x.leg side mode nowMs transportLatencyMs offeredByPeer).shared side.other) id ∧ _ :=
    h.has_leg_other hmode hhas hdue
  refine ⟨hy ▸ has_leg hthere, ?_⟩
  obtain ⟨hmine, -⟩ := @shared_leg _ mode nowMs transportLatencyMs offeredByPeer x side
  obtain ⟨-, hheard⟩ := @shared_leg _ answering laterMs answerLatencyMs offered
    (x.leg side mode nowMs transportLatencyMs offeredByPeer) side.other
  rw [Side.other_other] at hheard
  rw [hy, hheard]
  rcases hanswer with hknown | howes
  · rw [hmine]
    exact foldl_hear (P := (Knows · id)) (fun _ record hknows => hknows.hear record) hknown.plan _
  · obtain ⟨ids, hack, hid⟩ := @Owes.mem_plan _ _ answering laterMs answerLatencyMs offered howes
    exact foldl_hear_of_mem (P := (Knows · id)) (fun _ record hknows => hknows.hear record) hack
      (fun _ => knows_hear_ack hid) _

/-! ## Nothing left to say -/

/-- All that a device holds and sends in one leg is known to be there after the next. -/
theorem Sound.seen_of_legs (h : x.Sound original) {answering : Mode}
    {laterMs answerLatencyMs : UInt64} {offered : List MessageId}
    (hheld : ∀ entry ∈ x.shared side, ∃ signed, entry.message = some signed)
    (hy : y = (x.leg side .eager nowMs transportLatencyMs offeredByPeer).leg side.other answering
      laterMs answerLatencyMs offered) :
    ∀ entry ∈ y.shared side, entry.state.seen := by
  intro entry hentry
  have hheard : y.shared side = (Sync.plan answering laterMs answerLatencyMs
      ((x.leg side .eager nowMs transportLatencyMs offeredByPeer).shared side.other)
        offered).2.foldl Sync.hear
          (Sync.plan .eager nowMs transportLatencyMs (x.shared side) offeredByPeer).1 := by
    rw [hy, ← shared_leg.1]
    have hother := (@shared_leg _ answering laterMs answerLatencyMs offered
      (x.leg side .eager nowMs transportLatencyMs offeredByPeer) side.other).2
    rwa [Side.other_other] at hother
  rw [hheard] at hentry
  rcases mem_foldl_hear hentry with hhas | hseen
  · rw [plan_fst, has_map fun _ => Shared.id_after] at hhas
    refine (h.round_trip (by decide) hhas (fun entry hentry _ => ⟨hheld entry hentry, rfl⟩) hy).2
      entry ?_ rfl
    rw [hheard]
    exact hentry
  · exact hseen

/-- All that a device holds is there after an eager leg. -/
theorem Sound.shares_of_leg (h : x.Sound original)
    (hheld : ∀ entry ∈ x.shared side, ∃ signed, entry.message = some signed)
    (hhas : Has ((x.leg side .eager nowMs transportLatencyMs offeredByPeer).shared side) id) :
    Has ((x.leg side .eager nowMs transportLatencyMs offeredByPeer).shared side.other) id := by
  rw [shared_leg.1, plan_fst, has_map fun _ => Shared.id_after] at hhas
  exact (h.has_leg_other (by decide) hhas fun entry hentry _ => ⟨hheld entry hentry, rfl⟩).1

/-- A device that shares all that the other one does is offered nothing new. -/
theorem Sound.eq_nil_of_outstanding (h : x.Sound original)
    (hall : ∀ id, Has (x.shared side.other) id → Has (x.shared side) id)
    (hopen : x.Outstanding side offeredByPeer) : offeredByPeer = [] := by
  refine List.eq_nil_iff_forall_not_mem.mpr fun id hid => ?_
  obtain ⟨⟨ids, hsent, hmem⟩, hnot⟩ := hopen id hid
  exact hnot (hall id (h.backed side.other _ hsent id hmem))

end Exchange

omit [Crypto.Blake2b] in
/-- In eager mode everything that was asked for goes out. -/
theorem requested_plan_eager :
    ∀ entry ∈ (plan .eager nowMs transportLatencyMs shared offeredByPeer).1,
      ¬ entry.state.requested := by
  rw [plan_fst]
  intro entry hentry
  obtain ⟨before, -, rfl⟩ := List.mem_map.mp hentry
  rw [after_eq]
  cases hgoes : before.contribution .eager nowMs with
  | some contribution => simp [PeerMessageState.onSent]
  | none => simpa using (contribution_eq_none.mp hgoes rfl).1

omit [Crypto.Blake2b] in
theorem requested_plan (h : ∀ entry ∈ shared, ¬ entry.state.requested) :
    ∀ entry ∈ (plan mode nowMs transportLatencyMs shared offeredByPeer).1,
      ¬ entry.state.requested := by
  rw [plan_fst]
  intro entry hentry
  obtain ⟨before, hbefore, rfl⟩ := List.mem_map.mp hentry
  rw [after_eq]
  split_ifs
  · simp [PeerMessageState.onSent]
  · simpa using h before hbefore

omit [Crypto.Blake2b] in
/-- A device that was offered nothing asks for nothing. -/
theorem ne_request_of_mem_plan (h : record ∈ (plan mode nowMs transportLatencyMs shared []).2)
    (ids : List MessageId) : record ≠ .request ids := by
  simp only [mem_plan, mem_unlessEmpty_iff] at h
  grind

/-- Where nobody asks for anything, nothing is asked for. -/
theorem requested_foldl_hear (hrecords : ∀ record ∈ records, ∀ ids, record ≠ .request ids)
    (h : ∀ entry ∈ shared, ¬ entry.state.requested) :
    ∀ entry ∈ records.foldl hear shared, ¬ entry.state.requested := by
  induction records generalizing shared with
  | nil => exact h
  | cons record records ih =>
    refine ih (fun record hrecord => hrecords record (List.mem_cons_of_mem _ hrecord)) ?_
    intro entry hentry
    rcases List.mem_append.mp hentry with hold | hnew
    · obtain ⟨before, hbefore, rfl⟩ := List.mem_map.mp hold
      have hnot := h before hbefore
      have hne := hrecords record List.mem_cons_self
      cases record with
      | request ids => exact absurd rfl (hne ids)
      | ack ids | offer ids =>
        by_cases hid : before.id ∈ ids <;>
          simpa [Shared.hear, hid, PeerMessageState.onPeerAcked, PeerMessageState.onPeerOffered]
            using hnot
      | message signed =>
        by_cases hid : signed.message.id = .ok before.id <;>
          simpa [Shared.hear, hid, PeerMessageState.onPeerOffered] using hnot
      | unavailable | unknown => exact hnot
    · rw [state_of_mem_arrived hnew]
      decide

omit [Crypto.Blake2b] in
/-- A device that knows everything to be there and was asked for nothing only acknowledges. -/
theorem exists_ack_of_mem_plan (hseen : ∀ entry ∈ shared, entry.state.seen)
    (hrequested : ∀ entry ∈ shared, ¬ entry.state.requested)
    (h : record ∈ (plan mode nowMs transportLatencyMs shared []).2) :
    record = .ack (named (·.state.ackPending) shared) := by
  have hnone (entry : Shared) (hentry : entry ∈ shared) : entry.contribution mode nowMs = none :=
    contribution_eq_none.mpr fun _ => ⟨hrequested entry hentry, hseen entry hentry⟩
  have hempty : shared.filterMap (Shared.contribution mode nowMs) = [] :=
    List.filterMap_eq_nil_iff.mpr hnone
  rw [plan_contributions, hempty] at h
  simp only [List.filterMap_nil, List.map_nil, List.nil_append, List.mem_append,
    mem_unlessEmpty_iff] at h
  obtain ⟨-, rfl⟩ | ⟨hne, -⟩ | ⟨hne, -⟩ | ⟨hne, -⟩ := h
  all_goals first | rfl | exact absurd rfl hne

/-- An acknowledgement asks for none. -/
theorem ackPending_foldl_hear (hrecords : ∀ record ∈ records, ∃ ids, record = .ack ids)
    (h : ∀ entry ∈ shared, ¬ entry.state.ackPending) :
    ∀ entry ∈ records.foldl hear shared, ¬ entry.state.ackPending := by
  induction records generalizing shared with
  | nil => exact h
  | cons record records ih =>
    refine ih (fun record hrecord => hrecords record (List.mem_cons_of_mem _ hrecord)) ?_
    obtain ⟨ids, rfl⟩ := hrecords record List.mem_cons_self
    intro entry hentry
    rcases List.mem_append.mp hentry with hold | hnew
    · obtain ⟨before, hbefore, rfl⟩ := List.mem_map.mp hold
      by_cases hid : before.id ∈ ids <;>
        simpa [Shared.hear, hid, PeerMessageState.onPeerAcked] using h before hbefore
    · cases hnew

/-- Messages that arrive are held. -/
theorem held_foldl_hear (h : ∀ entry ∈ shared, ∃ signed, entry.message = some signed) :
    ∀ entry ∈ records.foldl hear shared, ∃ signed, entry.message = some signed := by
  refine foldl_hear (P := fun next => ∀ entry ∈ next, ∃ signed, entry.message = some signed)
    (fun next record hnext entry hentry => ?_) h records
  rcases List.mem_append.mp hentry with hold | hnew
  · obtain ⟨before, hbefore, rfl⟩ := List.mem_map.mp hold
    simpa using hnext before hbefore
  · obtain ⟨signed, -, -, -, hentry⟩ := mem_arrived.mp hnew
    rw [hentry]
    exact ⟨signed, rfl⟩

omit [Crypto.Blake2b] in
/-- Where everything is settled, there is nothing to send and nothing changes. -/
theorem Settled.plan (h : Settled shared) :
    Sync.plan mode nowMs transportLatencyMs shared [] = (shared, []) := by
  have hnone (entry : Shared) (hentry : entry ∈ shared) : entry.contribution mode nowMs = none :=
    contribution_eq_none.mpr fun _ => ⟨(h entry hentry).2.2, (h entry hentry).1⟩
  have hafter : shared.map (Shared.after mode nowMs transportLatencyMs) = shared := by
    refine (List.map_congr_left fun entry hentry => ?_).trans (List.map_id shared)
    exact after_of_none (hnone entry hentry) (by simpa using (h entry hentry).2.1)
  have hempty : shared.filterMap (Shared.contribution mode nowMs) = [] :=
    List.filterMap_eq_nil_iff.mpr hnone
  have howed : shared.filter (·.state.ackPending) = [] :=
    List.filter_eq_nil_iff.mpr fun entry hentry => (h entry hentry).2.1
  refine Prod.ext (plan_fst.trans hafter) ?_
  rw [plan_contributions, hempty, howed]
  rfl

namespace Exchange

variable {x y : Exchange} {side : Side} {original : SignedMessage → Prop}

/-- The two sides after three legs that start in eager mode, where only the first asks for
anything. -/
theorem Sound.settled_of_legs (h : x.Sound original)
    {startMs startLatencyMs laterMs laterLatencyMs : UInt64} {offered : List MessageId}
    (hheld : ∀ side, ∀ entry ∈ x.shared side, ∃ signed, entry.message = some signed)
    (hy : y = ((x.leg side .eager startMs startLatencyMs offered).leg side.other .eager laterMs
      laterLatencyMs []).leg side mode nowMs transportLatencyMs []) :
    Settled (y.shared side) ∧ Settled (y.shared side.other) := by
  obtain ⟨hmine₁, htheirs₁⟩ := @shared_leg _ .eager startMs startLatencyMs offered x side
  have hsound₁ : (x.leg side .eager startMs startLatencyMs offered).Sound original := h.leg
  generalize hx₁ : x.leg side .eager startMs startLatencyMs offered = x₁ at *
  obtain ⟨htheirs₂, hmine₂⟩ := @shared_leg _ .eager laterMs laterLatencyMs [] x₁ side.other
  rw [Side.other_other] at hmine₂
  have hseen₂ : ∀ entry ∈ (x₁.leg side.other .eager laterMs laterLatencyMs []).shared side,
      entry.state.seen := h.seen_of_legs (hheld side) (by rw [hx₁])
  have hseen₃ : ∀ entry ∈ y.shared side.other, entry.state.seen := by
    refine hsound₁.seen_of_legs ?_ (hy.trans (by rw [Side.other_other]))
    rw [htheirs₁]
    exact held_foldl_hear (hheld side.other)
  generalize x₁.leg side.other .eager laterMs laterLatencyMs [] = x₂ at *
  obtain ⟨hmine₃, htheirs₃⟩ := @shared_leg _ mode nowMs transportLatencyMs [] x₂ side
  have hrequested₂ : ∀ entry ∈ x₂.shared side, ¬ entry.state.requested := by
    rw [hmine₂, hmine₁]
    exact requested_foldl_hear (fun _ => ne_request_of_mem_plan) requested_plan_eager
  have hacks : ∀ record ∈ (Sync.plan mode nowMs transportLatencyMs (x₂.shared side) []).2,
      ∃ ids, record = .ack ids :=
    fun record hrecord => ⟨_, exists_ack_of_mem_plan hseen₂ hrequested₂ hrecord⟩
  constructor
  · intro entry hentry
    rw [hy, hmine₃] at hentry
    refine ⟨?_, by simpa using ackPending_plan entry hentry,
      requested_plan hrequested₂ entry hentry⟩
    rw [plan_fst] at hentry
    obtain ⟨before, hbefore, rfl⟩ := List.mem_map.mp hentry
    simpa using hseen₂ before hbefore
  · intro entry hentry
    refine ⟨hseen₃ entry hentry, ?_⟩
    rw [hy, htheirs₃, htheirs₂] at hentry
    exact ⟨ackPending_foldl_hear hacks (by simpa using ackPending_plan) entry hentry,
      requested_foldl_hear (fun _ => ne_request_of_mem_plan) requested_plan_eager entry hentry⟩

/-- After three such legs both sides share the same, and have nothing left to say. -/
theorem Sound.all_settled (h : x.Sound original)
    {startMs startLatencyMs laterMs laterLatencyMs : UInt64} {offered : List MessageId}
    (hheld : ∀ side, ∀ entry ∈ x.shared side, ∃ signed, entry.message = some signed)
    (hy : y = ((x.leg side .eager startMs startLatencyMs offered).leg side.other .eager laterMs
      laterLatencyMs []).leg side mode nowMs transportLatencyMs []) :
    (∀ side, Settled (y.shared side)) ∧
    (∀ id, Has (y.shared side) id ↔ Has (y.shared side.other) id) ∧
    (∀ before after id, Has (x.shared before) id → Has (y.shared after) id) ∧
    ∀ side mode nowMs transportLatencyMs offeredByPeer, y.Outstanding side offeredByPeer →
      y.step (.plan side mode nowMs transportLatencyMs offeredByPeer) = (y, []) := by
  have hsound : y.Sound original := hy ▸ h.leg.leg.leg
  have hkept (other : Side) (id : MessageId) (h : Has (x.shared other) id) :
      Has (y.shared other) id := hy ▸ has_leg (has_leg (has_leg h))
  obtain ⟨hmine, htheirs⟩ := h.settled_of_legs hheld hy
  clear hy
  have hsides (other before : Side) : other = before ∨ other = before.other := by
    cases other <;> cases before <;> simp [Side.other]
  have hsettled (other : Side) : Settled (y.shared other) := by
    rcases hsides other side with rfl | rfl
    · exact hmine
    · exact htheirs
  have hcross (other : Side) (id : MessageId) (h : Has (y.shared other) id) :
      Has (y.shared other.other) id := by
    obtain ⟨entry, hentry, rfl⟩ := h
    exact hsound.seen other entry hentry (hsettled other entry hentry).1
  refine ⟨hsettled, fun id => ⟨hcross side id, fun h => ?_⟩, fun before after id h => ?_,
    fun other mode nowMs transportLatencyMs offeredByPeer hopen => ?_⟩
  · simpa using hcross side.other id h
  · rcases hsides after before with rfl | rfl
    · exact hkept after id h
    · exact hcross before id (hkept before id h)
  · have hall (id : MessageId) (h : Has (y.shared other.other) id) : Has (y.shared other) id := by
      simpa using hcross other.other id h
    obtain rfl := hsound.eq_nil_of_outstanding hall hopen
    simp [step, (hsettled other).plan]

/-- When the records of an opportunity that offers nothing arrive, and then those of any opportunity
of the other device, each message that was due is there and known to be there, and so it stays in
every run that follows. -/
theorem known_after_round_trip (shared : Side → List Shared) (events later : List Event)
    (hfresh : ∀ side, ∀ entry ∈ shared side, ¬ entry.state.seen)
    (hnamed : ∀ side, Named (shared side))
    (side : Side) (mode answering : Mode) (nowMs transportLatencyMs laterMs laterLatencyMs : UInt64)
    (offeredByPeer offered : List MessageId) (hmode : mode ≠ .interactive) (id : MessageId) :
    let x := Run.final step (start shared) events
    let y := (x.leg side mode nowMs transportLatencyMs offeredByPeer).leg side.other answering
      laterMs laterLatencyMs offered
    let z := Run.final step y later
    Has (x.shared side) id →
    (∀ entry ∈ x.shared side, entry.id = id →
      (∃ signed, entry.message = some signed) ∧ entry.ready mode nowMs) →
    Has (z.shared side.other) id ∧ Knows (z.shared side) id := by
  intro x y z hhas hdue
  have hsound := sound_final (sound_start hfresh hnamed) events
  obtain ⟨hthere, hknows⟩ := hsound.round_trip (y := y) hmode hhas hdue rfl
  exact ⟨has_final_of_has later hthere, knows_final later hknows⟩

/-- Wherever a run has got to, as long as all messages are held: after an eager opportunity of one
device, an eager one of the other and any one of the first, whose records all arrive, both devices
share all messages that either had. All of them are known to be there, nothing is owed or asked for,
and no further opportunity sends or changes anything. The caller asks, as `plan` has it, for
messages that were offered and are not shared. A record arrives as it was planned: so none has more
than 1536 identifiers, which have no encoding. -/
theorem settles (shared : Side → List Shared) (events : List Event)
    (hfresh : ∀ side, ∀ entry ∈ shared side, ¬ entry.state.seen)
    (hnamed : ∀ side, Named (shared side))
    (side : Side) (mode : Mode)
    (startMs startLatencyMs laterMs laterLatencyMs nowMs transportLatencyMs : UInt64)
    (first second third : List MessageId) :
    let x := Run.final step (start shared) events
    let x₁ := x.leg side .eager startMs startLatencyMs first
    let x₂ := x₁.leg side.other .eager laterMs laterLatencyMs second
    let y := x₂.leg side mode nowMs transportLatencyMs third
    x₁.Outstanding side.other second → x₂.Outstanding side third →
    (∀ side, ∀ entry ∈ x.shared side, ∃ signed, entry.message = some signed) →
    (∀ side, Settled (y.shared side)) ∧
    (∀ id, Has (y.shared side) id ↔ Has (y.shared side.other) id) ∧
    (∀ before after id, Has (x.shared before) id → Has (y.shared after) id) ∧
    ∀ side mode nowMs transportLatencyMs offeredByPeer, y.Outstanding side offeredByPeer →
      y.step (.plan side mode nowMs transportLatencyMs offeredByPeer) = (y, []) := by
  intro x x₁ x₂ y hsecond hthird hheld
  have hsound : x.Sound _ := sound_final (sound_start hfresh hnamed) events
  have hsound₁ : x₁.Sound _ := hsound.leg
  -- What is outstanding after an eager leg is outstanding no more.
  obtain rfl : second = [] := hsound₁.eq_nil_of_outstanding
    (fun id hhas => hsound.shares_of_leg (hheld side) (by simpa using hhas)) hsecond
  have hheld₁ : ∀ entry ∈ x₁.shared side.other, ∃ signed, entry.message = some signed := by
    rw [shared_leg.2]
    exact held_foldl_hear (hheld side.other)
  have hsound₂ : x₂.Sound _ := hsound₁.leg
  obtain rfl : third = [] := hsound₂.eq_nil_of_outstanding
    (fun id hhas => by simpa using hsound₁.shares_of_leg hheld₁ hhas) hthird
  exact hsound.all_settled hheld rfl

end Exchange

end Devices

/-! ## One message -/

namespace Sample

attribute [local instance] Crypto.checksum

theorem held_devices : ∀ side, ∀ entry ∈ devices side, ∃ signed, entry.message = some signed := by
  intro side entry hentry
  cases side
  · obtain rfl := List.mem_singleton.mp hentry
    exact ⟨_, rfl⟩
  · cases hentry

theorem has_devices : Has (devices .left) messageId :=
  ⟨⟨messageId, .new, some sentMessage⟩, List.mem_singleton.mpr rfl, rfl⟩

/-- A message that is sent in batch mode is there from then on, and known to be there. -/
theorem known_after_round_trip_sample :
    let x := Run.final Exchange.step (Exchange.start devices) []
    let y := (x.leg .left .batch 1000 100 []).leg Side.left.other .interactive 1200 100 []
    let z := Run.final Exchange.step y [.forget .left 0, .arrive .right (.message sentMessage)]
    Has (z.shared Side.left.other) messageId ∧ Knows (z.shared .left) messageId := by
  have hdue : ∀ entry ∈ (Run.final Exchange.step (Exchange.start devices) []).shared .left,
      entry.id = messageId → (∃ signed, entry.message = some signed) ∧ entry.ready .batch 1000 := by
    intro entry hentry _
    obtain rfl := List.mem_singleton.mp hentry
    exact ⟨⟨_, rfl⟩, rfl⟩
  exact Exchange.known_after_round_trip devices [] [.forget .left 0, .arrive .right
    (.message sentMessage)] fresh_devices named_devices .left .batch .interactive 1000 100 1200
      100 [] []
      (by decide) messageId has_devices hdue

/-- The message is offered, and the offer arrives. -/
def offering : List Exchange.Event :=
  [.plan .left .interactive 500 100 [], .arrive .right (.offer [messageId])]

theorem final_offering : Run.final Exchange.step (Exchange.start devices) offering =
    (Exchange.start devices).leg .left .interactive 500 100 [] := by
  have hsent : ((Exchange.start devices).step (.plan .left .interactive 500 100 [])).2 =
      [.offer [messageId]] := rfl
  rw [offering, Run.final_cons, Exchange.leg, hsent]
  rfl

theorem held_offering : ∀ side, ∀ entry ∈ (Run.final Exchange.step (Exchange.start devices)
    offering).shared side, ∃ signed, entry.message = some signed := by
  rw [final_offering]
  intro side
  cases side with
  | left =>
    rw [Exchange.shared_leg.1]
    intro entry hentry
    obtain rfl := List.mem_singleton.mp hentry
    exact ⟨_, rfl⟩
  | right =>
    rw [show Side.right = Side.left.other from rfl, Exchange.shared_leg.2]
    exact held_foldl_hear (held_devices .right)

theorem outstanding_offering : (Run.final Exchange.step (Exchange.start devices)
    offering).Outstanding .right [messageId] := by
  have hnone : ((Exchange.start devices).leg .left .interactive 500 100 []).shared
      Side.left.other = [] := Exchange.shared_leg.2
  have hsent : ((Exchange.start devices).leg .left .interactive 500 100 []).sent .left =
      [.offer [messageId]] := Exchange.sent_leg
  rw [final_offering]
  intro id hid
  obtain rfl := List.mem_singleton.mp hid
  refine ⟨⟨[messageId], ?_, hid⟩, ?_⟩
  · rw [show Side.right.other = Side.left from rfl, hsent]
    exact List.mem_singleton.mpr rfl
  · intro ⟨entry, hentry, _⟩
    rw [show Side.right = Side.left.other from rfl, hnone] at hentry
    cases hentry

/-- A message that was offered is asked for, and settles. -/
theorem settles_sample :
    let x := Run.final Exchange.step (Exchange.start devices) offering
    let x₁ := x.leg .right .eager 1000 100 [messageId]
    let y := (x₁.leg Side.right.other .eager 1200 100 []).leg .right .batch 1400 100 []
    x.Outstanding .right [messageId] ∧ Settled (y.shared .right) ∧
      Has (y.shared .right) messageId := by
  dsimp only
  have hstart : Has ((Exchange.start devices).shared .left) messageId := has_devices
  obtain ⟨hsettled, -, hkept, -⟩ := Exchange.settles devices offering fresh_devices named_devices
    .right .batch 1000 100 1200 100 1400 100 [messageId] [] [] Exchange.outstanding_nil
    Exchange.outstanding_nil held_offering
  exact ⟨outstanding_offering, hsettled .right, hkept .left .right messageId
    (Exchange.has_final_of_has offering hstart)⟩

end Sample

end Onestein.Sync
