import Onestein.Relay.Daemon

/-!
# Conversations with the daemon

The daemon takes records off a connection with a framing of its own, and answers one after the
other until the connection closes. A connection is the bytes that come in until its end; what goes
out is taken.

## Main definitions

* `Relayd.converse` — answers one connection.
* `Relayd.Conversation` — what was answered, and how it ended.
* `Relayd.Framed` — a record with a header that declares its length.

## Main results

* `Relayd.converse_framed` — a record in front of a stream is answered, and then the rest is.
* `Relayd.framing_agrees` — what is answered is what came in, and pipelined requests are handled
  one after the other.
-/

namespace Onestein.Relayd

open Crypto Relay

/-- Bytes of record header before a payload. -/
def headerLen : Nat := 4

/-- The most a single record may carry, matching the framing. -/
def maxRecordLen : Nat := 48 * 1024

/-- The clock, the generator and the lock, at the time of one answer. -/
structure Moment where
  nowMs : UInt64
  challenge : Option (Octets 32)
  locked : Bool

def Moment.ask (moment : Moment) (record : Bytes) : Ask :=
  ⟨record, moment.nowMs, moment.challenge, moment.locked⟩

/-- A socket closed where bytes were still due. -/
inductive ReadError where
  | unexpectedEof
  deriving DecidableEq

/-- The records that were answered and the replies, in order, and how it ended. -/
structure Conversation where
  shared : State
  records : List Bytes
  replies : List Bytes
  result : Except ReadError Unit

/-- So many bytes of a stream and the rest, unless the stream ends before. -/
def readExact (n : Nat) (stream : Bytes) : Option (Bytes × Bytes) :=
  if stream.length < n then none else some (stream.take n, stream.drop n)

/-- The length of the payload, as a header has it. -/
def declared (header : Bytes) : Nat := Bytes.val [header.getD 2 0, header.getD 3 0]

theorem readExact_eq_some {n : Nat} {stream first rest : Bytes} :
    readExact n stream = some (first, rest) ↔ stream = first ++ rest ∧ first.length = n := by
  rw [readExact]
  split
  case isTrue hshort =>
    simp only [reduceCtorEq, false_iff, not_and]
    rintro rfl
    rw [List.length_append] at hshort
    omega
  case isFalse hlong =>
    simp only [Option.some.injEq, Prod.mk.injEq]
    constructor
    · rintro ⟨rfl, rfl⟩
      exact ⟨(List.take_append_drop n stream).symm, by rw [List.length_take]; omega⟩
    · rintro ⟨rfl, rfl⟩
      exact ⟨List.take_left, List.drop_left⟩

variable [Ed25519] [Blake2b]

/-- Answers one connection until it closes. The clock, the generator and the lock are as they are at
the answer of each record. -/
def converse (shared : State) (moments : Nat → Moment) (stream : Bytes) : Conversation :=
  match _hheader : readExact headerLen stream with
  | none => ⟨shared, [], [], .ok ()⟩
  | some (header, rest) =>
    let length := declared header
    if maxRecordLen < length then ⟨shared, [], [], .ok ()⟩
    else
      match _hpayload : readExact length rest with
      | none => ⟨shared, [], [], .error .unexpectedEof⟩
      | some (payload, rest) =>
        let record := header ++ payload
        let (shared, reply) := answer shared ((moments 0).ask record)
        let later := converse shared (fun n => moments (n + 1)) rest
        { later with records := record :: later.records, replies := reply :: later.replies }
termination_by stream.length
decreasing_by
  obtain ⟨rfl, hlength⟩ := readExact_eq_some.mp _hheader
  obtain ⟨rfl, -⟩ := readExact_eq_some.mp _hpayload
  simp only [List.length_append, hlength, headerLen]
  omega

/-- A header and the payload it declares, within the limit. -/
def Framed (record : Bytes) : Prop :=
  ∃ header payload, record = header ++ payload ∧ header.length = headerLen ∧
    payload.length = declared header ∧ payload.length ≤ maxRecordLen

section Loop

variable {shared : State} {moments : Nat → Moment} {stream record rest : Bytes}

/-- A record in front of a stream is answered, and then the rest is. -/
theorem converse_framed (hframed : Framed record) :
    converse shared moments (record ++ rest) =
      let (after, reply) := answer shared ((moments 0).ask record)
      let later := converse after (fun n => moments (n + 1)) rest
      { later with records := record :: later.records, replies := reply :: later.replies } := by
  obtain ⟨header, payload, rfl, hheader, hpayload, hmax⟩ := hframed
  have hfirst : readExact headerLen (header ++ payload ++ rest) = some (header, payload ++ rest) :=
    readExact_eq_some.mpr ⟨List.append_assoc .., hheader⟩
  have hsecond : readExact (declared header) (payload ++ rest) = some (payload, rest) :=
    readExact_eq_some.mpr ⟨rfl, hpayload⟩
  rw [converse]
  split
  case h_1 hnone => exact absurd (hfirst.symm.trans hnone) (by simp)
  case h_2 header' behind hsome =>
    obtain ⟨rfl, rfl⟩ := Prod.mk.inj (Option.some.inj (hfirst.symm.trans hsome))
    rw [if_neg (by omega)]
    split
    case h_1 hnone => exact absurd (hsecond.symm.trans hnone) (by simp)
    case h_2 payload' behind hsome =>
      obtain ⟨rfl, rfl⟩ := Prod.mk.inj (Option.some.inj (hsecond.symm.trans hsome))
      rfl

/-- A conversation goes on with a record, or it ends. -/
theorem converse_cases (shared : State) (moments : Nat → Moment) (stream : Bytes) :
    (∃ record rest, Framed record ∧ stream = record ++ rest) ∨
      ∃ result, converse shared moments stream = ⟨shared, [], [], result⟩ := by
  rw [converse]
  split
  case h_1 => exact .inr ⟨_, rfl⟩
  case h_2 header behind hfirst =>
    obtain ⟨rfl, hheader⟩ := readExact_eq_some.mp hfirst
    dsimp only
    split
    case isTrue => exact .inr ⟨_, rfl⟩
    case isFalse hlong =>
      split
      case h_1 => exact .inr ⟨_, rfl⟩
      case h_2 payload rest hsecond =>
        obtain ⟨rfl, hpayload⟩ := readExact_eq_some.mp hsecond
        exact .inl ⟨header ++ payload, rest, ⟨header, payload, rfl, hheader, hpayload, by omega⟩,
          (List.append_assoc ..).symm⟩

omit [Ed25519] [Blake2b] in
theorem Framed.length_pos (h : Framed record) : 0 < record.length := by
  obtain ⟨header, payload, rfl, hheader, -, -⟩ := h
  simp [hheader, headerLen]

/-- What is answered: a record after the other, each at its time. -/
def asks (moments : Nat → Moment) (records : List Bytes) : List Ask :=
  records.mapIdx fun n record => (moments n).ask record

/-- What was answered is framed and is what came in, in order, and the replies are the answers. -/
theorem converse_run (shared : State) (moments : Nat → Moment) (stream : Bytes) :
    (converse shared moments stream).records.flatten <+: stream ∧
      (∀ record ∈ (converse shared moments stream).records, Framed record) ∧
      (converse shared moments stream).shared =
        Run.final answer shared (asks moments (converse shared moments stream).records) ∧
      (converse shared moments stream).replies =
        Run.outputs answer shared (asks moments (converse shared moments stream).records) := by
  induction hlen : stream.length using Nat.strong_induction_on
    generalizing shared moments stream with
  | _ n ih =>
    obtain ⟨record, rest, hframed, rfl⟩ | ⟨result, hend⟩ := converse_cases shared moments stream
    · have hpos := hframed.length_pos
      have hrest : rest.length < n := by
        rw [← hlen, List.length_append]
        omega
      rw [converse_framed hframed]
      obtain ⟨hcame, hall, hshared, hreplies⟩ := ih rest.length hrest
        (answer shared ((moments 0).ask record)).1 (fun n => moments (n + 1)) rest rfl
      refine ⟨?_, List.forall_mem_cons.mpr ⟨hframed, hall⟩, ?_, ?_⟩
      · exact (List.prefix_append_right_inj record).mpr hcame
      · rw [asks, List.mapIdx_cons, Run.final_cons]
        exact hshared
      · rw [asks, List.mapIdx_cons, Run.outputs_cons]
        exact congrArg _ hreplies
    · rw [hend]
      exact ⟨List.nil_prefix, by simp, rfl, rfl⟩

end Loop

/-! ## Requests in a row -/

section Requests

variable {shared : State} {request : Request} {record : Bytes}

omit [Ed25519] [Blake2b] in
/-- A record of the framing is one of the daemon. -/
theorem framed_wire (record : Record.Record) (h : record.payload.length ≤ maxRecordLen) :
    Framed record.wire := by
  have hfits : record.payload.length < 256 ^ 2 := by
    unfold maxRecordLen at h
    omega
  obtain ⟨high, low, hlength, hval⟩ := Bytes.exists_be_two hfits
  refine ⟨[record.version, record.recordType, high, low], record.payload, ?_, rfl, hval.symm, h⟩
  rw [Record.Record.wire, hlength]
  rfl

/-- A request on the wire is answered by dropping what has expired and handling it. -/
theorem answer_encoded (h : encodeRequest request = .ok record) (now : UInt64)
    (fresh : Octets 32) :
    answer shared ⟨record, now, some fresh, true⟩ =
      let (after, response) :=
        handle (shared.store.expire now) shared.challenges request now fresh
      (after, reply response) := by
  simp [answer, decodeRequest_eq_ok.mpr h]

/-- The events of some requests: what has expired is dropped before each is handled. -/
def events (times : Nat → UInt64) (fresh : Nat → Octets 32) (requests : List Request) :
    List Event :=
  (requests.mapIdx fun n request =>
    [.expire (times n), .handle request (times n) (fresh n)]).flatten

omit [Ed25519] [Blake2b] in
theorem events_cons (times : Nat → UInt64) (fresh : Nat → Octets 32) (request : Request)
    (requests : List Request) : events times fresh (request :: requests) =
      .expire (times 0) :: .handle request (times 0) (fresh 0) ::
        events (fun n => times (n + 1)) (fun n => fresh (n + 1)) requests := by
  rw [events, List.mapIdx_cons]
  rfl

theorem converse_nil (shared : State) (moments : Nat → Moment) :
    converse shared moments [] = ⟨shared, [], [], .ok ()⟩ := by
  rw [converse]
  split
  case h_1 => rfl
  case h_2 hsome => simp [readExact, headerLen] at hsome

theorem converse_requests {requests : List Request} {encoded : List Bytes}
    (h : List.Forall₂ (fun request bytes => encodeRequest request = .ok bytes) requests encoded)
    (shared : State) (times : Nat → UInt64) (fresh : Nat → Octets 32) :
    converse shared (fun n => ⟨times n, some (fresh n), true⟩) encoded.flatten =
      ⟨Run.final State.step shared (events times fresh requests), encoded,
        (Run.outputs State.step shared (events times fresh requests)).filterMap (·.map reply),
        .ok ()⟩ := by
  induction h generalizing shared times fresh with
  | nil => exact converse_nil shared _
  | @cons request bytes requests encoded hrequest _ ih =>
    obtain ⟨hmax, rfl⟩ := encodeRequest_eq_ok.mp hrequest
    rw [List.flatten_cons, converse_framed (framed_wire _ hmax), Moment.ask,
      answer_encoded hrequest, events_cons]
    dsimp only
    rw [ih]
    rfl

end Requests

/-- The daemon's framing agrees with that of the records. For every stream, what is answered is what
came in, cut into records of at most 48 KiB of payload as their headers declare, and there is one
reply to each of them, in order. For requests that were encoded one after the other, what is held
and what is replied is as if each was handled in turn, after dropping what had expired. -/
theorem framing_agrees (shared : State) :
    (∀ (moments : Nat → Moment) (stream : Bytes),
      let conversation := converse shared moments stream
      conversation.records.flatten <+: stream ∧
      (∀ record ∈ conversation.records, ∃ header payload, record = header ++ payload ∧
        header.length = 4 ∧ payload.length = declared header ∧ payload.length ≤ 48 * 1024) ∧
      conversation.replies.length = conversation.records.length ∧
      conversation.replies =
        Run.outputs answer shared (asks moments conversation.records) ∧
      conversation.shared = Run.final answer shared (asks moments conversation.records)) ∧
    ∀ (requests : List Request) (encoded : List Bytes),
      List.Forall₂ (fun request bytes => encodeRequest request = .ok bytes) requests encoded →
      ∀ (times : Nat → UInt64) (fresh : Nat → Octets 32),
        converse shared (fun n => ⟨times n, some (fresh n), true⟩) encoded.flatten =
          ⟨Run.final State.step shared (events times fresh requests), encoded,
            (Run.outputs State.step shared (events times fresh requests)).filterMap (·.map reply),
            .ok ()⟩ := by
  refine ⟨fun moments stream => ?_, fun _ _ h => converse_requests h shared⟩
  obtain ⟨hcame, hframed, hshared, hreplies⟩ := converse_run shared moments stream
  refine ⟨hcame, hframed, ?_, hreplies, hshared⟩
  rw [hreplies, Run.length_outputs, asks, List.length_mapIdx]

end Onestein.Relayd
