import Onestein.Relay.Authorisation

/-!
# Two connections and one challenge

Challenges are kept by queue and right, not by connection. So what one connection says about a
queue and a right decides what is left of the challenge another connection was given for them.

## Main definitions

* `Turn` — an event, with the connection it is from.
* `Event.Concerns` — a request about a queue and a right.
* `LastStands` — what the other connection said last leaves a challenge the proof is valid for.

## Main results

* `slot_step` — what one event leaves in the place of a challenge.
* `slot_between` — what the last of several leaves there.
* `not_refused_iff` — when a valid proof is not refused.
-/

namespace Onestein.Relay

open Crypto

attribute [local instance] lexOrd

/-- The two connections. -/
inductive Connection where
  | x
  | y
  deriving DecidableEq

/-- An event, with the connection it is from. An expiry comes with the record that is answered. -/
abbrev Turn := Connection × Event

/-- A request asks for, or spends, a challenge for the queue and right. -/
def Event.Concerns (event : Event) (queueId : QueueId) (right : Right) : Prop :=
  match event with
  | .handle request .. => request.queueId = queueId ∧ request.right = some right
  | .expire _ => False

instance instDecidableConcerns (event : Event) (queueId : QueueId) (right : Right) :
    Decidable (event.Concerns queueId right) :=
  match event with
  | .handle request .. =>
    inferInstanceAs (Decidable (request.queueId = queueId ∧ request.right = some right))
  | .expire _ => inferInstanceAs (Decidable False)

/-- What a request leaves in the place of the challenge it concerns: the fresh one, if it asks for
one. -/
def Event.leaves : Event → Option (Octets 32)
  | .handle (.challengeRequest ..) _ fresh => some fresh
  | _ => none

section Interference

variable [Ed25519]

/-- The last that the other connection said about the queue and right, between two turns, leaves a
challenge that the proof is valid for; or it said nothing about them. -/
def LastStands (turns : List Turn) (m n : Nat) (queueId : QueueId) (right : Right)
    (registration : Registration) (proof : Proof) : Prop :=
  ∀ l event, m < l → l < n → turns[l]? = some (.y, event) → event.Concerns queueId right →
    (∀ k later, l < k → k < n → turns[k]? = some (.y, later) →
      ¬ later.Concerns queueId right) →
    ∃ challenge, event.leaves = some challenge ∧
      registration.check right challenge.toList proof = .ok ()

variable [Blake2b]

section Slot

variable {relay : State} {event : Event} {events : List Event} {q : QueueId} {right : Right}
  {proof : Proof} {registration : Registration} {challenge : Octets 32}

omit [Ed25519] [Blake2b] in
theorem Request.challengeRequest_of_right {request : Request} (hop : request.operation = none)
    (hright : request.right = some right) : ∃ q, request = .challengeRequest q right := by
  cases request with
  | register => cases hright
  | challengeRequest queueId other => exact ⟨queueId, by rw [Option.some.inj hright]⟩
  | write | read | delete => simp [Request.operation] at hop

/-- What one event leaves in the place of a challenge, while the queue is registered. -/
theorem slot_step (hregistered : relay.store.registration q ≠ none) :
    (relay.step event).1.challenges[(q, rightByte right)]? =
      if event.Concerns q right then event.leaves
      else relay.challenges[(q, rightByte right)]? := by
  cases event with
  | expire now => rfl
  | handle request now fresh =>
    by_cases hconcerns : (Event.handle request now fresh).Concerns q right
    · obtain ⟨rfl, hright⟩ := id hconcerns
      rw [if_pos hconcerns]
      cases hop : request.operation with
      | none =>
        obtain ⟨registration, hregistration⟩ := Option.ne_none_iff_exists'.mp hregistered
        obtain ⟨queueId, rfl⟩ := Request.challengeRequest_of_right hop hright
        have hqueueId : (Request.challengeRequest queueId right).queueId = queueId := rfl
        rw [hqueueId] at hregistration ⊢
        simp [State.step, handle, hregistration, Event.leaves]
      | some operation =>
        obtain ⟨queueId, other, proof⟩ := operation
        obtain ⟨rfl, hother⟩ := Request.queueId_of_operation hop
        obtain rfl := Option.some.inj (hright.symm.trans hother)
        have hleaves : (Event.handle request now fresh).leaves = none := by
          cases request <;> first | rfl | cases hop
        rw [hleaves]
        obtain ⟨refusal, hrefusal, heq⟩ | ⟨-, -, heq⟩ | ⟨-, heq⟩ :=
          handle_operation_cases relay.store relay.challenges now fresh hop
        · rw [State.step, heq]
          obtain ⟨-, hunknown⟩ | ⟨-, hunknown⟩ := hrefusal
          · exact absurd hunknown hregistered
          · exact hunknown
        · rw [State.step, heq]
          exact challenges_erase.trans (if_pos rfl)
        · rw [State.step, heq]
          exact challenges_erase.trans (if_pos rfl)
    · rw [if_neg hconcerns]
      refine (framed_handle relay.store relay.challenges request now fresh).challenges _ ?_
      intro other hother hkey
      obtain ⟨rfl, hright⟩ := Prod.mk.inj hkey
      obtain rfl := rightByte_injective hright
      exact hconcerns ⟨rfl, hother⟩

/-- While nothing is said about a queue and right, the challenge stays as it is. -/
theorem slot_of_silence {m n : Nat} (hmn : m ≤ n)
    (hsilence : ∀ l event, m ≤ l → l < n → events[l]? = some event → ¬ event.Concerns q right)
    (hregistered : ∀ l, m ≤ l → l < n → (relayAt events l).store.registration q ≠ none) :
    (relayAt events n).challenges[(q, rightByte right)]? =
      (relayAt events m).challenges[(q, rightByte right)]? := by
  induction n, hmn using Nat.le_induction with
  | base => rfl
  | succ n hmn ih =>
    rw [← ih (fun l event hml hln => hsilence l event hml (by omega))
      fun l hml hln => hregistered l hml (by omega)]
    cases hevent : events[n]? with
    | none =>
      have hsame : relayAt events (n + 1) = relayAt events n := Run.stateAt_succ_of_none hevent
      rw [hsame]
    | some event =>
      have hstep : relayAt events (n + 1) = ((relayAt events n).step event).1 :=
        Run.stateAt_succ hevent
      rw [hstep, slot_step (hregistered n hmn (by omega)),
        if_neg (hsilence n event hmn (by omega) hevent)]

/-- What the last of several events leaves in the place of a challenge, while the queue is
registered. -/
theorem slot_between {m n : Nat} (hmn : m < n)
    (hchallenge : (relayAt events (m + 1)).challenges[(q, rightByte right)]? = some challenge)
    (hregistered : ∀ l, m < l → l < n → (relayAt events l).store.registration q ≠ none) :
    ((∀ l event, m < l → l < n → events[l]? = some event → ¬ event.Concerns q right) ∧
      (relayAt events n).challenges[(q, rightByte right)]? = some challenge) ∨
    ∃ l event, m < l ∧ l < n ∧ events[l]? = some event ∧ event.Concerns q right ∧
      (∀ k later, l < k → k < n → events[k]? = some later → ¬ later.Concerns q right) ∧
      (relayAt events n).challenges[(q, rightByte right)]? = event.leaves := by
  classical
  let said (l : Nat) : Prop := m < l ∧ ∃ event, events[l]? = some event ∧ event.Concerns q right
  by_cases hsaid : ∃ l, l ≤ n - 1 ∧ said l
  · obtain ⟨l, hln, hl⟩ := hsaid
    -- the last time something was said
    obtain ⟨hml, event, hevent, hconcerns⟩ := Nat.findGreatest_spec hln hl
    set last := Nat.findGreatest said (n - 1)
    have hlast : last < n := by
      have hle := Nat.findGreatest_le (P := said) (n - 1)
      omega
    have hsilence (k : Nat) (later : Event) (hk : last < k) (hkn : k < n)
        (hlater : events[k]? = some later) : ¬ later.Concerns q right := fun hconcerns =>
      Nat.findGreatest_is_greatest hk (by omega) ⟨by omega, later, hlater, hconcerns⟩
    have hstep : relayAt events (last + 1) = ((relayAt events last).step event).1 :=
      Run.stateAt_succ hevent
    refine .inr ⟨last, event, hml, hlast, hevent, hconcerns, hsilence, ?_⟩
    rw [slot_of_silence hlast hsilence fun l hl hln => hregistered l (by omega) hln, hstep,
      slot_step (hregistered last hml hlast), if_pos hconcerns]
  · have hsilence (l : Nat) (event : Event) (hml : m < l) (hln : l < n)
        (hevent : events[l]? = some event) : ¬ event.Concerns q right := fun hconcerns =>
      hsaid ⟨l, by omega, hml, event, hevent, hconcerns⟩
    exact .inl ⟨hsilence, (slot_of_silence hmn hsilence hregistered).trans hchallenge⟩

end Slot

section Answer

variable {store : Store} {challenges : Challenges} {request : Request} {now : UInt64}
  {fresh : Octets 32} {q : QueueId} {right : Right} {proof : Proof} {registration : Registration}

/-- A refusal for want of a challenge or of a proof that is good. -/
def Response.Unproved (response : Response) : Prop :=
  response = .refused .unknownChallenge ∨ response = .refused .badProof

omit [Ed25519] in
/-- Once its challenge is spent, an operation is refused for other reasons only. -/
theorem not_unproved_perform : ¬ (perform store request now).2.Unproved := by
  cases request with
  | register | challengeRequest => simp [perform, Response.Unproved]
  | write queueId proof blob =>
    rw [perform_write]
    cases hresult : (store.write queueId blob now).2 with
    | ok id => simp [Response.ofResult, Response.Unproved]
    | error refusal =>
      obtain rfl | rfl | rfl := Store.write_refused hresult
      · simp [Response.ofResult, Response.Unproved]
      · simp [Response.ofResult, Response.Unproved]
      · simp [Response.ofResult, Response.Unproved]
  | read queueId proof =>
    rw [perform_read]
    cases store.read queueId <;> simp [Response.ofRead, Response.Unproved]
  | delete queueId proof id =>
    rw [perform_delete]
    obtain ⟨-, heq⟩ | ⟨queue, -, heq⟩ := store.delete_cases queueId id
    · simp [heq, Response.ofResult, Response.Unproved]
    · simp [heq, Response.ofResult, Response.Unproved]

/-- A challenge is outstanding and the proof is valid for it exactly if the operation is not refused
for want of one or the other. -/
theorem not_unproved_iff (now : UInt64) (fresh : Octets 32)
    (hop : request.operation = some (q, right, proof))
    (hregistration : store.registration q = some registration) :
    ¬ (handle store challenges request now fresh).2.Unproved ↔
      ∃ challenge, challenges[(q, rightByte right)]? = some challenge ∧
        registration.check right challenge.toList proof = .ok () := by
  rw [handle_operation hop]
  cases hslot : challenges[(q, rightByte right)]? with
  | none => simp [spend, hregistration, hslot, Response.Unproved]
  | some challenge =>
    cases hcheck : registration.check right challenge.toList proof with
    | error e => simp [spend, hregistration, hslot, hcheck, Response.Unproved]
    | ok u => simp [spend, hregistration, hslot, hcheck, not_unproved_perform]

end Answer

section Run

variable {events : List Event} {m n : Nat} {q : QueueId} {right : Right} {challenge : Octets 32}
  {request : Request} {now : UInt64} {fresh : Octets 32} {proof : Proof}
  {registration : Registration}

/-- A challenge that was just given is outstanding. -/
theorem challenge_of_issues (h : Issues events m q right challenge) :
    (relayAt events (m + 1)).challenges[(q, rightByte right)]? = some challenge := by
  obtain ⟨now, hevent, hresponse⟩ := h
  have hstep : relayAt events (m + 1) = ((relayAt events m).step _).1 := Run.stateAt_succ hevent
  have hanswer : (responses events)[m]? = some ((relayAt events m).step _).2 :=
    Run.outputs_getElem? hevent
  have hregistered : (relayAt events m).store.registration q ≠ none := by
    intro hnone
    rw [hanswer] at hresponse
    simp [State.step, handle, hnone] at hresponse
  rw [hstep, slot_step hregistered, if_pos ⟨rfl, rfl⟩, Event.leaves]

/-- An operation of a run is not refused for want of a challenge or a good proof exactly if one is
outstanding that the proof is valid for. -/
theorem answer_iff (hevent : events[n]? = some (.handle request now fresh))
    (hop : request.operation = some (q, right, proof))
    (hregistration : (relayAt events n).store.registration q = some registration) :
    ((responses events)[n]? ≠ some (some (.refused .unknownChallenge)) ∧
        (responses events)[n]? ≠ some (some (.refused .badProof))) ↔
      ∃ outstanding, (relayAt events n).challenges[(q, rightByte right)]? = some outstanding ∧
        registration.check right outstanding.toList proof = .ok () := by
  have hanswer : (responses events)[n]? = some (some (handle (relayAt events n).store
      (relayAt events n).challenges request now fresh).2) := Run.outputs_getElem? hevent
  rw [← not_unproved_iff now fresh hop hregistration, hanswer,
    Response.Unproved, not_or]
  simp

end Run

section Turns

variable {turns : List Turn} {m n : Nat} {queueId : QueueId} {right : Right}
  {challenge fresh : Octets 32} {issued now : UInt64} {request : Request} {proof : Proof}
  {registration : Registration}

/-- One connection was given a challenge for a queue and right. It has said nothing more about
them, and the queue is still there. Its next operation on them, with a proof valid for the
challenge, is not refused for want of a challenge or of a good proof exactly if the last that the
other connection said about them in between, if it said anything, left a challenge the proof is
valid for as well. -/
theorem not_refused_iff (hmn : m < n)
    (hgiven : turns[m]? = some (.x, .handle (.challengeRequest queueId right) issued challenge))
    (hissued : (responses (turns.map Prod.snd))[m]? = some (some (.challenge challenge)))
    (hsince : ∀ l event, m < l → l < n → turns[l]? = some (.x, event) →
      ¬ event.Concerns queueId right)
    (hqueue : ∀ l, m < l → l ≤ n →
      (relayAt (turns.map Prod.snd) l).store.registration queueId ≠ none)
    (hnext : turns[n]? = some (.x, .handle request now fresh))
    (hop : request.operation = some (queueId, right, proof))
    (hregistration : (relayAt (turns.map Prod.snd) n).store.registration queueId =
      some registration)
    (hvalid : registration.check right challenge.toList proof = .ok ()) :
    ((responses (turns.map Prod.snd))[n]? ≠ some (some (.refused .unknownChallenge)) ∧
        (responses (turns.map Prod.snd))[n]? ≠ some (some (.refused .badProof))) ↔
      LastStands turns m n queueId right registration proof := by
  have hevent {l : Nat} {turn : Turn} (hat : turns[l]? = some turn) :
      (turns.map Prod.snd)[l]? = some turn.2 := by
    rw [List.getElem?_map, hat]
    rfl
  -- whatever was said about the queue and right in between, the other connection said
  have hother {l : Nat} {event : Event} (hml : m < l) (hln : l < n)
      (hat : (turns.map Prod.snd)[l]? = some event) (hconcerns : event.Concerns queueId right) :
      turns[l]? = some (.y, event) := by
    rw [List.getElem?_map, Option.map_eq_some_iff] at hat
    obtain ⟨⟨connection, _⟩, hturn, rfl⟩ := hat
    cases connection with
    | x => exact absurd hconcerns (hsince l _ hml hln hturn)
    | y => exact hturn
  have hissues : Issues (turns.map Prod.snd) m queueId right challenge :=
    ⟨issued, hevent hgiven, hissued⟩
  rw [answer_iff (hevent hnext) hop hregistration]
  obtain ⟨hnone, hslot⟩ | ⟨l, event, hml, hln, hat, hconcerns, hlast, hslot⟩ :=
    slot_between hmn (challenge_of_issues hissues) fun l hml hln => hqueue l hml hln.le
  · refine iff_of_true ⟨challenge, hslot, hvalid⟩ fun l event hml hln hturn hconcerns => ?_
    exact absurd hconcerns (hnone l event hml hln (hevent hturn))
  · rw [hslot]
    constructor
    · rintro ⟨outstanding, hleaves, hcheck⟩ l' event' hml' hln' hturn' hconcerns' hlast'
      obtain rfl : l' = l := by
        rcases Nat.lt_trichotomy l' l with hlt | heq | hgt
        · exact absurd hconcerns (hlast' l event hlt hln (hother hml hln hat hconcerns))
        · exact heq
        · exact absurd hconcerns' (hlast l' event' hgt hln' (hevent hturn'))
      obtain rfl : event' = event := Option.some.inj ((hevent hturn').symm.trans hat)
      exact ⟨outstanding, hleaves, hcheck⟩
    · intro hstands
      exact hstands l event hml hln (hother hml hln hat hconcerns) hconcerns
        fun k later hlk hkn hturn => hlast k later hlk hkn (hevent hturn)

end Turns

end Interference

namespace Sample

attribute [local instance] ed25519 checksum

def given : Octets 32 := .replicate 32 0x77

def givenProof : Proof := Ed25519.sign keys.write (proofMessage .write given.toList)

def registers : Turn :=
  (.x, .handle (.register queueId keys.registration.writePublic keys.registration.readPublic) 0
    given)

def asks (connection : Connection) (right : Right) (fresh : Octets 32) : Turn :=
  (connection, .handle (.challengeRequest queueId right) 0 fresh)

def writes (connection : Connection) (proof : Proof) : Turn :=
  (connection, .handle (.write queueId proof [1]) 0 given)

/-- The other connection asks for a challenge for the other right. -/
def undisturbed : List Turn :=
  [registers, asks .x .write given, asks .y .read given, writes .x givenProof]

/-- The other connection asks for a challenge for the same right. -/
def replaced : List Turn :=
  [registers, asks .x .write given, asks .y .write (.replicate 32 0x78), writes .x givenProof]

/-- The other connection writes, with a proof that is none. -/
def spent : List Turn :=
  [registers, asks .x .write given, writes .y (.replicate 64 0), writes .x givenProof]

end Sample

/-- Another right of the same queue does not disturb. -/
theorem not_refused_other_right :
    let _ := Sample.ed25519
    let _ := checksum
    (responses (Sample.undisturbed.map Prod.snd))[3]? ≠
        some (some (.refused .unknownChallenge)) ∧
      (responses (Sample.undisturbed.map Prod.snd))[3]? ≠ some (some (.refused .badProof)) := by
  intro _ _
  have hbetween {l : Nat} {connection : Connection} {event : Event} (hl : 1 < l) (hln : l < 3)
      (hturn : Sample.undisturbed[l]? = some (connection, event)) :
      (connection, event) = Sample.asks .y .read Sample.given := by
    obtain rfl : l = 2 := by omega
    exact (Option.some.inj hturn).symm
  have hnot {event : Event} (hevent : event = (Sample.asks .y .read Sample.given).2) :
      ¬ event.Concerns Sample.queueId .write := by
    subst hevent
    decide
  have hqueue : ∀ l, 1 < l → l ≤ 3 →
      (relayAt (Sample.undisturbed.map Prod.snd) l).store.registration Sample.queueId ≠ none := by
    intro l hl hln
    interval_cases l <;> decide +kernel
  have hregistration : (relayAt (Sample.undisturbed.map Prod.snd) 3).store.registration
      Sample.queueId = some Sample.keys.registration := by decide +kernel
  refine (not_refused_iff (by decide) rfl (by decide +kernel) ?_ hqueue rfl rfl hregistration
    (by decide +kernel)).mpr ?_
  · intro l event hl hln hturn
    exact hnot (congrArg Prod.snd (hbetween hl hln hturn))
  · intro l event hl hln hturn hconcerns
    exact absurd hconcerns (hnot (congrArg Prod.snd (hbetween hl hln hturn)))

/-- A challenge request of another connection for the same queue and right takes the place of the
challenge that was given, and a write of another connection spends it; the proof is valid for the
challenge that was given. -/
theorem spoiled_by_other :
    let _ := Sample.ed25519
    let _ := checksum
    (responses (Sample.replaced.map Prod.snd))[1]? = some (some (.challenge Sample.given)) ∧
      (responses (Sample.replaced.map Prod.snd))[3]? = some (some (.refused .badProof)) ∧
      (responses (Sample.spent.map Prod.snd))[1]? = some (some (.challenge Sample.given)) ∧
      (responses (Sample.spent.map Prod.snd))[3]? = some (some (.refused .unknownChallenge)) ∧
      Sample.keys.registration.check .write Sample.given.toList Sample.givenProof = .ok () := by
  decide +kernel

end Onestein.Relay
