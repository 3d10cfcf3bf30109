import Onestein.Sync.Answers

/-!
# What one opportunity does to each entry

An entry contributes one message, one answer or one offer, or nothing, and its state moves for what
it contributes and for the acknowledgement that goes out, and for nothing else. So a second
opportunity at the same time finds nothing left to send.

## Main definitions

* `Shared.contribution` — what an entry contributes.

## Main results

* `plan_contributions` — what goes out is what the entries contribute.
* `plan_exact` — the state of an entry moves exactly for what it contributes.
* `plan_again` — a second opportunity at the same time has nothing to add.
-/

namespace Onestein.Sync

/-- What goes out for an entry, beside its acknowledgement. -/
inductive Contribution where
  | message (signed : SignedMessage)
  | unavailable (id : MessageId)
  | offer (id : MessageId)
  deriving DecidableEq

namespace Contribution

def message? : Contribution → Option SignedMessage
  | message signed => some signed
  | _ => none

def unavailable? : Contribution → Option MessageId
  | unavailable id => some id
  | _ => none

def offer? : Contribution → Option MessageId
  | offer id => some id
  | _ => none

end Contribution

/-- What an entry contributes: its message or an answer that it is gone, an offer, or nothing. -/
def Shared.contribution (mode : Mode) (nowMs : UInt64) (entry : Shared) : Option Contribution :=
  if !entry.ready mode nowMs then none
  else if entry.send mode then
    some (match entry.message with
      | some signed => .message signed
      | none => .unavailable entry.id)
  else if entry.offerable mode then some (.offer entry.id)
  else none

variable {mode first second : Mode} {nowMs transportLatencyMs : UInt64} {shared : List Shared}
  {offeredByPeer : List MessageId} {entry : Shared}

/-! ## What goes out -/

theorem sent_eq :
    entry.sent mode nowMs = (entry.contribution mode nowMs).bind Contribution.message? := by
  unfold Shared.sent Shared.contribution
  cases entry.ready mode nowMs <;> cases entry.send mode <;> cases entry.offerable mode <;>
    cases entry.message <;> rfl

theorem onlyIf_gone : onlyIf (entry.gone mode nowMs) entry.id =
    ((entry.contribution mode nowMs).bind Contribution.unavailable?).toList := by
  unfold Shared.gone Shared.contribution onlyIf
  cases entry.ready mode nowMs <;> cases entry.send mode <;> cases entry.offerable mode <;>
    cases entry.message <;> rfl

theorem onlyIf_offered : onlyIf (entry.offered mode nowMs) entry.id =
    ((entry.contribution mode nowMs).bind Contribution.offer?).toList := by
  unfold Shared.offered Shared.contribution onlyIf
  cases entry.ready mode nowMs <;> cases entry.send mode <;> cases entry.offerable mode <;>
    cases entry.message <;> rfl

theorem acts_eq : entry.acts mode nowMs = (entry.contribution mode nowMs).isSome := by
  unfold Shared.acts Shared.contribution
  cases entry.ready mode nowMs <;> cases entry.send mode <;> cases entry.offerable mode <;> rfl

/-- Naming the entries that satisfy a condition collects from each its identifier or nothing. -/
theorem named_eq_filterMap {p : Shared → Bool} {f : Shared → Option MessageId}
    (h : ∀ entry, onlyIf (p entry) entry.id = (f entry).toList) (shared : List Shared) :
    named p shared = shared.filterMap f := by
  induction shared with
  | nil => rfl
  | cons entry shared ih =>
    rw [named_cons, h, ih]
    cases hf : f entry <;> simp [hf]

/-- What goes out is what is owed and asked for, and what the entries contribute. -/
theorem plan_contributions (mode : Mode) (nowMs transportLatencyMs : UInt64) (shared : List Shared)
    (offeredByPeer : List MessageId) :
    let contributions := shared.filterMap (Shared.contribution mode nowMs)
    (plan mode nowMs transportLatencyMs shared offeredByPeer).2 =
      unlessEmpty .ack ((shared.filter (·.state.ackPending)).map (·.id)) ++
        (unlessEmpty .request offeredByPeer ++
          (unlessEmpty .unavailable (contributions.filterMap Contribution.unavailable?) ++
            ((contributions.filterMap Contribution.message?).map SyncRecord.message ++
              unlessEmpty .offer (contributions.filterMap Contribution.offer?)))) := by
  have hsent : Shared.sent mode nowMs =
      fun entry => (entry.contribution mode nowMs).bind Contribution.message? :=
    funext fun _ => sent_eq
  have hgone := named_eq_filterMap (p := Shared.gone mode nowMs) (fun _ => onlyIf_gone) shared
  have hoffered :=
    named_eq_filterMap (p := Shared.offered mode nowMs) (fun _ => onlyIf_offered) shared
  rw [plan_eq, hsent, hgone, hoffered]
  simp only [List.filterMap_filterMap]
  rfl

theorem plan_fst : (plan mode nowMs transportLatencyMs shared offeredByPeer).1 =
    shared.map (Shared.after mode nowMs transportLatencyMs) := by
  rw [plan_eq]

/-- Nothing that is sent names no identifier at all. -/
theorem ne_empty_of_mem_plan {record : SyncRecord}
    (h : record ∈ (plan mode nowMs transportLatencyMs shared offeredByPeer).2) :
    record ≠ .ack [] ∧ record ≠ .request [] ∧ record ≠ .unavailable [] ∧ record ≠ .offer [] := by
  simp only [mem_plan, mem_unlessEmpty_iff] at h
  grind

/-! ## What becomes of an entry -/

theorem onSent_onAcknowledged (state : PeerMessageState) (nowMs transportLatencyMs : UInt64) :
    state.onAcknowledged.onSent nowMs transportLatencyMs =
      { state.onSent nowMs transportLatencyMs with ackPending := false } := by
  simp only [PeerMessageState.onSent, PeerMessageState.onAcknowledged]

/-- The state of an entry moves by one sending if it contributes, and no acknowledgement is owed
afterwards. -/
theorem after_eq : entry.after mode nowMs transportLatencyMs = { entry with
    state := { (if (entry.contribution mode nowMs).isSome then
      entry.state.onSent nowMs transportLatencyMs else entry.state) with
        ackPending := false } } := by
  rw [Shared.after, acts_eq]
  split_ifs
  case pos => rw [onSent_onAcknowledged]
  case neg => rfl

theorem contribution_of_early (hmode : mode ≠ .eager) (h : nowMs < entry.state.nextSendTime) :
    entry.contribution mode nowMs = none := by
  have hready : entry.ready mode nowMs = false := by
    simpa [Shared.ready, PeerMessageState.readyToSend, hmode] using h
  simp [Shared.contribution, hready]

theorem contribution_of_requested (hready : mode = .eager ∨ entry.state.nextSendTime ≤ nowMs)
    (h : entry.state.requested) :
    entry.contribution mode nowMs = some (match entry.message with
      | some signed => .message signed
      | none => .unavailable entry.id) := by
  have hready : entry.ready mode nowMs := by
    simpa [Shared.ready, PeerMessageState.readyToSend] using hready
  have hsend : entry.send mode := by cases mode <;> simp [Shared.send, h]
  simp [Shared.contribution, hready, hsend]

/-- What goes out is what the entries contribute, each of them one message, answer or offer at most,
and the acknowledgements that were owed. The state of an entry moves by one sending if it
contributes and by the acknowledgement, and nothing else about it changes. What is not due
contributes nothing, what is due and requested contributes its message or the answer that it is
gone, and no record is sent without an identifier. -/
theorem plan_exact (mode : Mode) (nowMs transportLatencyMs : UInt64) (shared : List Shared)
    (offeredByPeer : List MessageId) :
    let planned := plan mode nowMs transportLatencyMs shared offeredByPeer
    let contribution := Shared.contribution mode nowMs
    let contributions := shared.filterMap contribution
    planned.2 =
        unlessEmpty .ack ((shared.filter (·.state.ackPending)).map (·.id)) ++
          (unlessEmpty .request offeredByPeer ++
            (unlessEmpty .unavailable (contributions.filterMap Contribution.unavailable?) ++
              ((contributions.filterMap Contribution.message?).map SyncRecord.message ++
                unlessEmpty .offer (contributions.filterMap Contribution.offer?)))) ∧
      planned.1 = shared.map (fun entry => { entry with
        state := { (if (contribution entry).isSome then
          entry.state.onSent nowMs transportLatencyMs else entry.state) with
            ackPending := false } }) ∧
      (∀ entry ∈ shared,
        (entry.state.onSent nowMs transportLatencyMs).seen = entry.state.seen) ∧
      (∀ entry ∈ shared, mode ≠ .eager → nowMs < entry.state.nextSendTime →
        contribution entry = none) ∧
      (∀ entry ∈ shared, mode = .eager ∨ entry.state.nextSendTime ≤ nowMs →
        entry.state.requested → contribution entry = some (match entry.message with
          | some signed => .message signed
          | none => .unavailable entry.id)) ∧
      ∀ record ∈ planned.2,
        record ≠ .ack [] ∧ record ≠ .request [] ∧ record ≠ .unavailable [] ∧
          record ≠ .offer [] := by
  refine ⟨plan_contributions mode nowMs transportLatencyMs shared offeredByPeer, ?_, ?_, ?_, ?_, ?_⟩
  · refine plan_fst.trans ?_
    exact List.map_congr_left fun _ _ => after_eq
  · exact fun _ _ => rfl
  · exact fun entry _ hmode hearly => contribution_of_early hmode hearly
  · exact fun entry _ hready hrequested => contribution_of_requested hready hrequested
  · exact fun record hrecord => ne_empty_of_mem_plan hrecord

/-! ## A second opportunity -/

theorem lt_saturatingAdd_max {now delay : UInt64} (hnow : now < UInt64.last) :
    now < now.saturatingAdd (max delay 1) := by
  rw [UInt64.lt_iff_toNat_lt, UInt64.toNat_last] at hnow
  rw [UInt64.lt_iff_toNat_lt, UInt64.toNat_saturatingAdd, UInt64.toNat_max, UInt64.toNat_one]
  omega

/-- The backoff is never zero. -/
theorem lt_nextSendTime_onSent {state : PeerMessageState} (hnow : nowMs < UInt64.last) :
    nowMs < (state.onSent nowMs transportLatencyMs).nextSendTime := by
  simp only [PeerMessageState.onSent]
  exact lt_saturatingAdd_max hnow

/-- Whatever the mode, an entry that is due contributes nothing exactly if the peer has it and did
not ask for it. -/
theorem contribution_eq_none : entry.contribution mode nowMs = none ↔
    (entry.ready mode nowMs → ¬ entry.state.requested ∧ entry.state.seen) := by
  cases mode <;> cases hrequested : entry.state.requested <;> cases hseen : entry.state.seen <;>
    simp [Shared.contribution, Shared.send, Shared.offerable, hrequested, hseen]

/-- After an opportunity an entry has nothing left to contribute at the same time. -/
theorem contribution_after (hnow : nowMs < UInt64.last) (hsecond : second ≠ .eager) :
    (entry.after first nowMs transportLatencyMs).contribution second nowMs = none := by
  rw [after_eq]
  by_cases hsome : (entry.contribution first nowMs).isSome
  · apply contribution_of_early hsecond
    simpa [hsome] using lt_nextSendTime_onSent hnow
  · rw [if_neg hsome]
    rw [Option.not_isSome_iff_eq_none, contribution_eq_none] at hsome
    rw [contribution_eq_none]
    intro hready
    apply hsome
    simp_all [Shared.ready, PeerMessageState.readyToSend]

/-- What has nothing to contribute and nothing to acknowledge stays as it is. -/
theorem after_of_none (hnone : entry.contribution mode nowMs = none)
    (hack : entry.state.ackPending = false) :
    entry.after mode nowMs transportLatencyMs = entry := by
  rw [after_eq, hnone, ← hack]
  rfl

/-- A second opportunity at the same time has nothing to add, in any mode that waits for the
backoff: nothing goes out, and the states stay as they are. -/
theorem plan_again (first : Mode) {second : Mode} (hsecond : second ≠ .eager) {nowMs : UInt64}
    (hnow : nowMs < UInt64.last) (transportLatencyMs transportLatencyMs' : UInt64)
    (shared : List Shared) (offeredByPeer : List MessageId) :
    let after := (plan first nowMs transportLatencyMs shared offeredByPeer).1
    plan second nowMs transportLatencyMs' after [] = (after, []) := by
  intro after
  have hafter : after = shared.map (Shared.after first nowMs transportLatencyMs) := plan_fst
  have hnone : ∀ entry ∈ after, entry.contribution second nowMs = none := by
    rw [hafter, List.forall_mem_map]
    exact fun entry _ => contribution_after hnow hsecond
  have hack : ∀ entry ∈ after, entry.state.ackPending = false := ackPending_plan
  have hcontributions : after.filterMap (Shared.contribution second nowMs) = [] :=
    List.filterMap_eq_nil_iff.mpr hnone
  have hacks : after.filter (·.state.ackPending) = [] := by
    simpa [List.filter_eq_nil_iff] using hack
  apply Prod.ext
  · rw [plan_fst]
    calc after.map (Shared.after second nowMs transportLatencyMs') = after.map id :=
          List.map_congr_left fun entry he => after_of_none (hnone entry he) (hack entry he)
      _ = after := List.map_id after
  · rw [plan_contributions, hcontributions, hacks]
    rfl

/-- An eager opportunity answers for a deleted message, and a batch right after it does not. -/
theorem plan_again_deleted :
    let after := (plan .eager 0 60000 [deleted] []).1
    plan .batch 0 60000 after [] = (after, []) :=
  plan_again .eager (by decide) (by decide) 60000 60000 [deleted] []

end Onestein.Sync
