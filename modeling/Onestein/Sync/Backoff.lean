import Onestein.Sync.Peer

/-!
# How long a message waits

Whatever happens to a message in between, the wait after it was offered or sent is fixed by how
often that was, by the latency of the transport, and by nothing else.

## Main definitions

* `Event` — what happens to a message and a peer.
* `delay` — the wait after the `k`-th sending, exactly.

## Main results

* `toNat_sendCount_run` — the sendings are counted.
* `toNat_nextSendTime_onSent` — one sending starts one wait.
* `backoff_run` — after any events the last sending is waited for.
-/

namespace Onestein.Sync

/-- What happens to a message that is shared with a peer. -/
inductive Event where
  | sent (nowMs transportLatencyMs : UInt64)
  | peerAcked
  | peerOffered
  | acknowledged
  | peerRequested
  deriving DecidableEq

namespace Event

/-- The message was offered or sent. -/
def isSent : Event → Bool
  | sent _ _ => true
  | _ => false

/-- How often the message was offered or sent. -/
def sendings (events : List Event) : Nat := events.countP isSent

end Event

open Event

namespace PeerMessageState

def apply (state : PeerMessageState) : Event → PeerMessageState
  | .sent nowMs transportLatencyMs => state.onSent nowMs transportLatencyMs
  | .peerAcked => state.onPeerAcked
  | .peerOffered => state.onPeerOffered
  | .acknowledged => state.onAcknowledged
  | .peerRequested => state.onPeerRequested

/-- The state after some events, from a message that was never offered or sent. -/
def run (events : List Event) : PeerMessageState := events.foldl apply new

/-- The wait after the `k`-th sending: it doubles with each sending, ten times, and is never
nothing. -/
def delay (k latencyMs : Nat) : Nat := max 1 (latencyMs * 2 ^ min (k - 1) 10)

variable {state : PeerMessageState} {event : Event} {events before after : List Event}
  {nowMs transportLatencyMs : UInt64}

/-! ## One event -/

/-- Only a sending changes the count and the time. -/
theorem apply_of_not_sent (h : ¬ event.isSent) :
    (state.apply event).sendCount = state.sendCount ∧
      (state.apply event).nextSendTime = state.nextSendTime := by
  cases event with
  | sent => exact absurd rfl h
  | peerAcked | peerOffered | acknowledged | peerRequested => exact ⟨rfl, rfl⟩

theorem toNat_sendCount_apply : (state.apply event).sendCount.toNat =
    if event.isSent then min (state.sendCount.toNat + 1) (2 ^ 32 - 1)
    else state.sendCount.toNat := by
  split_ifs with h
  case pos =>
    cases event with
    | sent => exact UInt32.toNat_saturatingAdd _ _
    | peerAcked | peerOffered | acknowledged | peerRequested => cases h
  case neg => rw [(apply_of_not_sent h).1]

/-- How often the delay is doubled, from the count with the sending. -/
theorem toNat_doublings {count : UInt32} {k : Nat} (h : count.toNat = min (k + 1) (2 ^ 32 - 1)) :
    (min (count.saturatingSub 1) maxBackoffDoublings).toUInt64.toNat = min k 10 := by
  have hmax : maxBackoffDoublings.toNat = 10 := rfl
  rw [UInt32.toNat_toUInt64, UInt32.toNat_min, UInt32.toNat_saturatingSub, hmax, h,
    UInt32.toNat_one]
  omega

/-- The `k`-th sending starts the wait for an answer. -/
theorem toNat_nextSendTime_onSent {k : Nat}
    (h : state.sendCount.toNat = min k (2 ^ 32 - 1)) :
    (state.onSent nowMs transportLatencyMs).nextSendTime.toNat =
      min (2 ^ 64 - 1) (nowMs.toNat + delay (k + 1) transportLatencyMs.toNat) := by
  have hcount : (state.sendCount.saturatingAdd 1).toNat = min (k + 1) (2 ^ 32 - 1) := by
    rw [UInt32.toNat_saturatingAdd, h, UInt32.toNat_one]
    omega
  have hdoublings := toNat_doublings hcount
  have hfactor := UInt64.toNat_one_shiftLeft (hdoublings.trans_lt (by omega))
  rw [hdoublings] at hfactor
  simp only [onSent]
  rw [UInt64.toNat_saturatingAdd, UInt64.toNat_max, UInt64.toNat_saturatingMul, hfactor,
    UInt64.toNat_one, delay, Nat.add_sub_cancel]
  generalize transportLatencyMs.toNat * 2 ^ min k 10 = wait
  omega

theorem one_le_delay (k latencyMs : Nat) : 1 ≤ delay k latencyMs := Nat.le_max_left 1 _

/-- The wait doubles ten times, and stays as it is then. -/
theorem delay_succ {latencyMs : Nat} (h : 1 ≤ latencyMs) (k : Nat) :
    delay (k + 2) latencyMs = (if k < 10 then 2 else 1) * delay (k + 1) latencyMs := by
  have hpos (n : Nat) : 1 ≤ latencyMs * 2 ^ n := Nat.mul_pos h (Nat.two_pow_pos n)
  simp only [delay, Nat.add_sub_cancel, Nat.max_eq_right (hpos _), Nat.add_succ_sub_one]
  split_ifs with hk
  · rw [Nat.min_eq_left hk, Nat.min_eq_left hk.le, Nat.pow_succ]
    ring
  · rw [Nat.min_eq_right (by omega), Nat.min_eq_right (by omega), Nat.one_mul]

/-! ## Runs -/

theorem run_concat : run (events ++ [event]) = (run events).apply event := by simp [run]

theorem sendings_append : sendings (before ++ after) = sendings before + sendings after :=
  List.countP_append

theorem sendings_sent_cons :
    sendings (.sent nowMs transportLatencyMs :: after) = sendings after + 1 :=
  List.countP_cons_of_pos rfl

/-- The sendings are counted, as far as the counter goes. -/
theorem toNat_sendCount_run (events : List Event) :
    (run events).sendCount.toNat = min (sendings events) (2 ^ 32 - 1) := by
  induction events using List.reverseRecOn with
  | nil => rfl
  | append_singleton events event ih =>
    rw [run_concat, toNat_sendCount_apply, ih, sendings_append]
    cases hsent : event.isSent <;> simp [sendings, hsent]
    omega

/-- Without a sending the time stays as it is. -/
theorem nextSendTime_run_append (before : List Event) (h : sendings after = 0) :
    (run (before ++ after)).nextSendTime = (run before).nextSendTime := by
  induction after using List.reverseRecOn with
  | nil => rw [List.append_nil]
  | append_singleton after event ih =>
    rw [sendings_append, Nat.add_eq_zero_iff] at h
    have hnot : ¬ event.isSent := by simpa [sendings] using h.2
    rw [← List.append_assoc, run_concat, (apply_of_not_sent hnot).2, ih h.1]

/-- What the last sending started is waited for. -/
theorem toNat_nextSendTime_run (before : List Event) (nowMs transportLatencyMs : UInt64)
    (h : sendings after = 0) :
    (run (before ++ .sent nowMs transportLatencyMs :: after)).nextSendTime.toNat =
      min (2 ^ 64 - 1)
        (nowMs.toNat + delay (sendings before + 1) transportLatencyMs.toNat) := by
  rw [← List.singleton_append, ← List.append_assoc, nextSendTime_run_append _ h, run_concat]
  exact toNat_nextSendTime_onSent (toNat_sendCount_run before)

/-- The backoff is exponential, capped and never immediate. The sendings are counted. The last of
them alone fixes the time of the next one, which lies behind it. And where the times fit, the wait
after one more sending over the same latency is twice the one before, ten times, and the same
then. -/
theorem backoff_run (events : List Event) :
    (run events).sendCount.toNat = min (sendings events) (2 ^ 32 - 1) ∧
    (sendings events = 0 → (run events).nextSendTime = 0) ∧
    ∀ before nowMs latencyMs after, events = before ++ .sent nowMs latencyMs :: after →
      sendings after = 0 →
      (run events).nextSendTime.toNat =
          min (2 ^ 64 - 1) (nowMs.toNat + delay (sendings before + 1) latencyMs.toNat) ∧
        (nowMs < UInt64.last → ¬ (run events).readyToSend nowMs) ∧
        ∀ laterMs : UInt64, 1 ≤ latencyMs →
          nowMs.toNat + delay (sendings before + 1) latencyMs.toNat < 2 ^ 64 →
          laterMs.toNat + delay (sendings before + 2) latencyMs.toNat < 2 ^ 64 →
          (run (events ++ [.sent laterMs latencyMs])).nextSendTime.toNat - laterMs.toNat =
            (if sendings before < 10 then 2 else 1) *
              ((run events).nextSendTime.toNat - nowMs.toNat) := by
  refine ⟨toNat_sendCount_run events, fun hnone => ?_, ?_⟩
  · have hsame := nextSendTime_run_append [] hnone
    rwa [List.nil_append] at hsame
  · rintro before nowMs latencyMs after rfl hafter
    have htime := toNat_nextSendTime_run before nowMs latencyMs hafter
    refine ⟨htime, fun hnow hready => ?_, fun laterMs hlatency hfits hlater => ?_⟩
    · have hwait := one_le_delay (sendings before + 1) latencyMs.toNat
      have hle := UInt64.le_iff_toNat_le.mp (of_decide_eq_true hready)
      rw [UInt64.lt_iff_toNat_lt, UInt64.toNat_last] at hnow
      omega
    · have hcount : sendings (before ++ .sent nowMs latencyMs :: after) = sendings before + 1 := by
        rw [sendings_append, sendings_sent_cons, hafter]
      have hnext := toNat_nextSendTime_run (before ++ .sent nowMs latencyMs :: after) laterMs
        latencyMs (List.countP_nil : sendings [] = 0)
      rw [hcount, Nat.min_eq_right (Nat.le_sub_one_of_lt hlater)] at hnext
      rw [Nat.min_eq_right (by omega)] at htime
      rw [hnext, htime, Nat.add_sub_cancel_left, Nat.add_sub_cancel_left]
      exact delay_succ (UInt64.le_iff_toNat_le.mp hlatency) (sendings before)

end PeerMessageState

end Onestein.Sync
