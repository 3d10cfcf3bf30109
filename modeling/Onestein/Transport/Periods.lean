import Onestein.Transport.Keys

/-!
# Three periods of incoming keys

Two clocks that differ by no more than a period are at most one period apart. So what was sent in
one period is received with the keys of that period, the one before or the one after.

## Main definitions

* `Role.other` — the other side of the pair.
* `Transport.periodMs` — the length of a period in milliseconds.

## Main results

* `Transport.periodAt_le_succ` — a skew of one period moves a timestamp by one period at most.
* `PeriodKeys.rotateTo_mirror` — what one side sends with, the other receives with.
* `PeriodKeys.three_periods` — three periods of incoming keys are enough.
-/

set_option linter.dupNamespace false

namespace Onestein.Transport

open Crypto

/-- The other side of the pair. -/
def Role.other : Role → Role
  | .a => .b
  | .b => .a

namespace Transport

/-- The length of a period in milliseconds. -/
def periodMs (transport : Transport) : Nat := 1000 * transport.periodSeconds.toNat

variable {transport : Transport} {early late : UInt64}

theorem periodMs_pos (transport : Transport) : 0 < transport.periodMs :=
  Nat.mul_pos (by decide) (UInt64.lt_iff_toNat_lt.mp transport.periodSeconds_pos)

/-- The two divisions are one. -/
theorem toNat_periodAt (transport : Transport) (timestampMs : UInt64) :
    (transport.periodAt timestampMs).toNat = timestampMs.toNat / transport.periodMs := by
  rw [periodAt, UInt64.toNat_div, UInt64.toNat_div, Nat.div_div_eq_div_mul]
  rfl

theorem periodAt_mono (h : early ≤ late) : transport.periodAt early ≤ transport.periodAt late := by
  rw [UInt64.le_iff_toNat_le, toNat_periodAt, toNat_periodAt]
  exact Nat.div_le_div_right (UInt64.le_iff_toNat_le.mp h)

/-- A skew of one period moves a timestamp by one period at most. -/
theorem periodAt_le_succ (h : late.toNat ≤ early.toNat + transport.periodMs) :
    (transport.periodAt late).toNat ≤ (transport.periodAt early).toNat + 1 := by
  rw [toNat_periodAt, toNat_periodAt, ← Nat.add_div_right _ transport.periodMs_pos]
  exact Nat.div_le_div_right h

/-- There is always a next period. -/
theorem periodAt_lt_last (transport : Transport) (timestampMs : UInt64) :
    (transport.periodAt timestampMs).toNat + 1 < UInt64.last.toNat := by
  have hle : timestampMs.toNat / transport.periodMs ≤ timestampMs.toNat / 1000 :=
    Nat.div_le_div_left (Nat.le_mul_of_pos_right 1000
      (UInt64.lt_iff_toNat_lt.mp transport.periodSeconds_pos)) (by decide)
  have hlt := timestampMs.toNat_lt
  rw [toNat_periodAt, UInt64.toNat_last]
  omega

end Transport

namespace PeriodKeys

variable [Blake2b] {rootKey : Digest} {transport : Transport} {role : Role}
  {agreed : UInt64} {keys start start' sent received : PeriodKeys} {period : UInt64}

/-- The initial keys belong to the period before the agreed timestamp. -/
theorem period_initial (h : initial rootKey transport role agreed = .ok start) :
    start.period.toNat + 1 = (transport.periodAt agreed).toNat := by
  unfold initial at h
  cases hperiod : (transport.periodAt agreed).checkedSub 1 with
  | none => simp [hperiod] at h
  | some before =>
    simp only [hperiod, Except.ok.injEq] at h
    rw [UInt64.checkedSub_eq_some] at hperiod
    rw [hperiod, ← h, UInt64.toNat_one, Nat.add_comm]

theorem initial_other (h : initial rootKey transport role agreed = .ok start)
    (h' : initial rootKey transport role.other agreed = .ok start') : start' = start.mirror := by
  cases role with
  | a => exact initial_mirror h h'
  | b =>
    rw [initial_mirror h' h]
    rfl

/-- What one side sends with, the other receives with. -/
theorem rotateTo_mirror (hlast : period < UInt64.last) (hsent : start.rotateTo period = .ok sent)
    (hreceived : start.mirror.rotateTo period = .ok received) :
    sent.outgoing = received.incoming := by
  obtain ⟨-, -, hsent⟩ := rotateTo_eq_ok hsent
  obtain ⟨-, -, hreceived⟩ := rotateTo_eq_ok hreceived
  rw [hsent hlast, hreceived hlast, ← mirror_keysAt]
  rfl

/-- A period that is not past and not too far is reached in one rotation. -/
theorem exists_rotateTo_initial (period : UInt64)
    (h : initial rootKey transport role agreed = .ok start)
    (hle : (transport.periodAt agreed).toNat ≤ period.toNat + 1)
    (hfar : period.toNat - (transport.periodAt agreed).toNat ≤ 1023) :
    ∃ keys, start.rotateTo period = .ok keys := by
  have hstart := period_initial h
  have hmax : maxRotations.toNat = 1024 := rfl
  have hbehind : start.period ≤ period := by
    rw [UInt64.le_iff_toNat_le]
    omega
  obtain ⟨keys, hkeys, -⟩ := exists_rotateTo hbehind (by omega)
  exact ⟨keys, hkeys⟩

/-- Three periods of incoming keys are enough. Where the clocks of two peers differ by no more than
the length of a period, the receiver derives its keys for its own period and for the two beside it
in one rotation each, the sender derives its own, and what the sender sends with is what the
receiver receives with in one of the three. -/
theorem three_periods (rootKey : Digest) (transport : Transport) (role : Role)
    {agreed sentAt receivedAt : UInt64} (hagreed : 1 ≤ transport.periodAt agreed)
    (hsender : agreed ≤ sentAt) (hreceiver : agreed ≤ receivedAt)
    (hlate : receivedAt.toNat ≤ sentAt.toNat + 1000 * transport.periodSeconds.toNat)
    (hearly : sentAt.toNat ≤ receivedAt.toNat + 1000 * transport.periodSeconds.toNat)
    (hfar : (transport.periodAt receivedAt).toNat - (transport.periodAt agreed).toNat ≤ 1022) :
    ∃ sender receiver before now after sent,
      initial rootKey transport role agreed = .ok sender ∧
      initial rootKey transport role.other agreed = .ok receiver ∧
      receiver.rotateTo (transport.periodAt receivedAt - 1) = .ok before ∧
      receiver.rotateTo (transport.periodAt receivedAt) = .ok now ∧
      receiver.rotateTo (transport.periodAt receivedAt + 1) = .ok after ∧
      sender.rotateTo (transport.periodAt sentAt) = .ok sent ∧
      ∃ received ∈ [before, now, after], sent.outgoing = received.incoming := by
  have hsent : transport.periodAt agreed ≤ transport.periodAt sentAt :=
    Transport.periodAt_mono hsender
  have hreceived : transport.periodAt agreed ≤ transport.periodAt receivedAt :=
    Transport.periodAt_mono hreceiver
  have hbehind : (transport.periodAt receivedAt).toNat ≤ (transport.periodAt sentAt).toNat + 1 :=
    Transport.periodAt_le_succ hlate
  have hahead : (transport.periodAt sentAt).toNat ≤ (transport.periodAt receivedAt).toNat + 1 :=
    Transport.periodAt_le_succ hearly
  have hlast := transport.periodAt_lt_last receivedAt
  have hone : 1 ≤ transport.periodAt receivedAt := UInt64.le_trans hagreed hreceived
  have hprevious : (transport.periodAt receivedAt - 1).toNat =
      (transport.periodAt receivedAt).toNat - 1 := UInt64.toNat_sub_of_le _ _ hone
  have hnext : (transport.periodAt receivedAt + 1).toNat =
      (transport.periodAt receivedAt).toNat + 1 :=
    UInt64.toNat_add_one (by rw [UInt64.lt_iff_toNat_lt]; omega)
  rw [UInt64.le_iff_toNat_le] at hsent hreceived hone
  rw [UInt64.toNat_one] at hone
  obtain ⟨sender, hinitial⟩ := initial_ok rootKey role hagreed
  obtain ⟨receiver, hother⟩ := initial_ok rootKey role.other hagreed
  obtain ⟨before, hbefore⟩ := exists_rotateTo_initial (transport.periodAt receivedAt - 1) hother
    (by omega) (by omega)
  obtain ⟨now, hnow⟩ := exists_rotateTo_initial (transport.periodAt receivedAt) hother
    (by omega) (by omega)
  obtain ⟨after, hafter⟩ := exists_rotateTo_initial (transport.periodAt receivedAt + 1) hother
    (by omega) (by omega)
  obtain ⟨sent, hsending⟩ := exists_rotateTo_initial (transport.periodAt sentAt) hinitial
    (by omega) (by omega)
  have hsame {period : UInt64} {received : PeriodKeys}
      (hperiod : (transport.periodAt sentAt).toNat = period.toNat)
      (hrotated : receiver.rotateTo period = .ok received) : sent.outgoing = received.incoming := by
    obtain rfl := UInt64.toNat_inj.mp hperiod
    rw [initial_other hinitial hother] at hrotated
    exact rotateTo_mirror (by rw [UInt64.lt_iff_toNat_lt]; omega) hsending hrotated
  refine ⟨sender, receiver, before, now, after, sent, hinitial, hother, hbefore, hnow, hafter,
    hsending, ?_⟩
  obtain hperiod | hperiod | hperiod : (transport.periodAt sentAt).toNat =
        (transport.periodAt receivedAt - 1).toNat ∨
      (transport.periodAt sentAt).toNat = (transport.periodAt receivedAt).toNat ∨
      (transport.periodAt sentAt).toNat = (transport.periodAt receivedAt + 1).toNat := by omega
  · exact ⟨before, by simp, hsame hperiod hbefore⟩
  · exact ⟨now, by simp, hsame hperiod hnow⟩
  · exact ⟨after, by simp, hsame hperiod hafter⟩

omit [Blake2b] in
/-- A stream that is sent in the last moment of a period and received a period later. -/
theorem three_periods_tor :
    let _ := checksum
    ∃ sender receiver before now after sent,
      initial (Octets.be 32 7) tor .a 90000000 = .ok sender ∧
      initial (Octets.be 32 7) tor .b 90000000 = .ok receiver ∧
      receiver.rotateTo (tor.periodAt 269999999 - 1) = .ok before ∧
      receiver.rotateTo (tor.periodAt 269999999) = .ok now ∧
      receiver.rotateTo (tor.periodAt 269999999 + 1) = .ok after ∧
      sender.rotateTo (tor.periodAt 179999999) = .ok sent ∧
      ∃ received ∈ [before, now, after], sent.outgoing = received.incoming := by
  intro _
  exact three_periods _ tor .a (by decide) (by decide) (by decide) (by decide) (by decide)
    (by decide)

end PeriodKeys

end Onestein.Transport
