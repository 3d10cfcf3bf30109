import Onestein.Sync.Session

/-!
# What the identifier records of a plan say

An offer is of a message the device holds, and `UNAVAILABLE` answers a request. Both fail for an
entry whose message is gone: it is offered in interactive mode like any other, and in the other two
modes it is reported to a peer that never asked.

## Main results

* `offer_held_iff` — when every offer is of a message that is held.
* `unavailable_requested_iff` — when `UNAVAILABLE` is only ever an answer.
-/

namespace Onestein.Sync

variable {mode : Mode} {nowMs transportLatencyMs : UInt64} {shared : List Shared}
  {offeredByPeer : List MessageId} {entry : Shared}

/-! ## Records and entries -/

theorem mem_unlessEmpty_iff {make : List MessageId → SyncRecord} {ids : List MessageId}
    {record : SyncRecord} : record ∈ unlessEmpty make ids ↔ ids ≠ [] ∧ record = make ids := by
  cases ids <;> simp [unlessEmpty]

/-- What holds of the identifiers of some entries holds of the entries. -/
theorem forall_named {p : MessageId → Prop} {q : Shared → Bool} :
    (∀ ids, ids ≠ [] ∧ ids = named q shared → ∀ id ∈ ids, p id) ↔
      ∀ entry ∈ shared, q entry → p entry.id := by
  constructor
  · intro h entry hentry hq
    have hid := mem_named hentry hq
    exact h _ ⟨List.ne_nil_of_mem hid, rfl⟩ _ hid
  · rintro h _ ⟨-, rfl⟩ id hid
    obtain ⟨entry, hentry, rfl⟩ := List.mem_map.mp hid
    obtain ⟨hmem, hq⟩ := List.mem_filter.mp hentry
    exact h entry hmem hq

/-- The one offer of a plan is of the entries that are offered. -/
theorem forall_offer_plan {p : MessageId → Prop} :
    (∀ ids, .offer ids ∈ (plan mode nowMs transportLatencyMs shared offeredByPeer).2 →
      ∀ id ∈ ids, p id) ↔
      ∀ entry ∈ shared, entry.offered mode nowMs → p entry.id := by
  rw [← forall_named]
  simp only [mem_plan, mem_unlessEmpty_iff]
  grind

/-- The one `UNAVAILABLE` of a plan is about the entries that would be sent but are gone. -/
theorem forall_unavailable_plan {p : MessageId → Prop} :
    (∀ ids, .unavailable ids ∈ (plan mode nowMs transportLatencyMs shared offeredByPeer).2 →
      ∀ id ∈ ids, p id) ↔
      ∀ entry ∈ shared, entry.gone mode nowMs → p entry.id := by
  rw [← forall_named]
  simp only [mem_plan, mem_unlessEmpty_iff]
  grind

theorem offered_iff : entry.offered mode nowMs ↔
    mode = .interactive ∧ entry.state.readyToSend nowMs ∧ ¬ entry.state.requested ∧
      ¬ entry.state.seen := by
  cases mode <;> simp [Shared.offered, Shared.ready, Shared.send, Shared.offerable, and_assoc]

theorem gone_iff : entry.gone mode nowMs ↔
    (mode = .eager ∨ entry.state.readyToSend nowMs) ∧
      (entry.state.requested ∨ mode ≠ .interactive ∧ ¬ entry.state.seen) ∧
      entry.message = none := by
  cases mode <;> simp [Shared.gone, Shared.ready, Shared.send, and_assoc]

/-! ## Offers -/

/-- Only messages that are held are offered, exactly if in interactive mode each entry that is due
and neither requested nor seen shares its identifier with one whose message is held. -/
theorem offer_held_iff (mode : Mode) (nowMs transportLatencyMs : UInt64) (shared : List Shared)
    (offeredByPeer : List MessageId) :
    (∀ ids, .offer ids ∈ (plan mode nowMs transportLatencyMs shared offeredByPeer).2 →
      ∀ id ∈ ids, ∃ holder ∈ shared, holder.id = id ∧ holder.message.isSome) ↔
    (mode = .interactive → ∀ entry ∈ shared, entry.state.readyToSend nowMs →
      ¬ entry.state.requested → ¬ entry.state.seen →
        ∃ holder ∈ shared, holder.id = entry.id ∧ holder.message.isSome) := by
  rw [forall_offer_plan]
  simp only [offered_iff]
  grind

/-- A message that is shared with the peer and whose body was deleted. -/
def deleted : Shared where
  id := ⟨.replicate 32 1⟩
  state := .new
  message := none

/-- A deleted message that the peer has not asked for is offered. -/
theorem offer_deleted :
    ¬ ∀ ids, .offer ids ∈ (plan .interactive 0 60000 [deleted] []).2 →
      ∀ id ∈ ids, ∃ holder ∈ [deleted], holder.id = id ∧ holder.message.isSome := by
  intro h
  have hrecords : (plan .interactive 0 60000 [deleted] []).2 = [.offer [deleted.id]] := by decide
  obtain ⟨holder, hholder, -, hsome⟩ := h [deleted.id] (by simp [hrecords]) deleted.id (by simp)
  obtain rfl := List.mem_singleton.mp hholder
  exact absurd hsome (by decide)

/-! ## Answers -/

/-- `UNAVAILABLE` is only ever an answer, exactly if in the modes that send without offering each
entry that is gone, due and not seen shares its identifier with one that was requested. -/
theorem unavailable_requested_iff (mode : Mode) (nowMs transportLatencyMs : UInt64)
    (shared : List Shared) (offeredByPeer : List MessageId) :
    (∀ ids, .unavailable ids ∈ (plan mode nowMs transportLatencyMs shared offeredByPeer).2 →
      ∀ id ∈ ids, ∃ asked ∈ shared, asked.id = id ∧ asked.state.requested) ↔
    (mode ≠ .interactive → ∀ entry ∈ shared, mode = .eager ∨ entry.state.readyToSend nowMs →
      ¬ entry.state.seen → entry.message = none →
        ∃ asked ∈ shared, asked.id = entry.id ∧ asked.state.requested) := by
  rw [forall_unavailable_plan]
  simp only [gone_iff]
  grind

/-- In batch mode the peer is told of a deleted message that it has not asked for. -/
theorem unavailable_deleted :
    ¬ ∀ ids, .unavailable ids ∈ (plan .batch 0 60000 [deleted] []).2 →
      ∀ id ∈ ids, ∃ asked ∈ [deleted], asked.id = id ∧ asked.state.requested := by
  intro h
  have hrecords : (plan .batch 0 60000 [deleted] []).2 = [.unavailable [deleted.id]] := by decide
  obtain ⟨asked, hasked, -, hrequested⟩ :=
    h [deleted.id] (by simp [hrecords]) deleted.id (by simp)
  obtain rfl := List.mem_singleton.mp hasked
  exact absurd hrequested (by decide)

end Onestein.Sync
