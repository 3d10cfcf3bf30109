import Onestein.Handshake.Exchange
import Onestein.Transport.Expected
import Onestein.Transport.Periods
import Onestein.Transport.Streams

/-!
# From a handshake to what is read

Two devices derive a root key, from it the keys of each period, and from those the tag and the
header of a stream, which carries the key of its frames. What one of them sends the other one
recognises and reads, whatever paths the two took to the period.

## Main definitions

* `Reads` — that what is sent with the keys of a direction is read with those of another.

## Main results

* `reads_self` — what is sent is read with the same keys.
* `outgoing_eq_incoming` — both sides of a root key hold each other's keys.
* `dialogue` — all of it together.
-/

set_option linter.dupNamespace false

namespace Onestein.Transport

open Crypto Handshake

section Reading

variable [Blake2b] [Aead]

/-- What is sent with the outgoing keys is read with the incoming keys. -/
structure Reads (outgoing incoming : DirectionKeys) : Prop where
  /-- A window lists the tag of a stream exactly if it covers the number, short of the last one. -/
  listed : ∀ (w : Window) (number : UInt64),
    (number, tag outgoing.tagKey number) ∈ w.expected incoming.tagKey ↔
      w.recognises number ∧ number ≠ UInt64.last
  /-- Whatever its number, the header of a stream is opened, and by the key in it all frames. -/
  opened : ∀ (number : UInt64) (nonce : Octets nonceLen) (cipherKey : Octets hashLen)
    (frames : List Frame) (wire : List Pieces), sealFrames cipherKey frames = .ok wire →
    ∃ header, openStreamHeader incoming.headerKey
        (sealStreamHeader outgoing.headerKey nonce ⟨number, cipherKey⟩) = .ok header ∧
      header.streamNumber = number ∧
      openFrames header.cipherKey wire = .ok (frames.map Frame.content)

/-- What is sent is read with the same keys. -/
theorem reads_self {keys : Set (Octets hashLen)} (ideal : Aead.Ideal (frameUses keys))
    (direction : DirectionKeys) : Reads direction direction where
  listed w number := by simp [Window.mem_expected]
  opened number nonce cipherKey frames wire hsealed :=
    ⟨⟨number, cipherKey⟩, openStreamHeader_seal ideal nonce _, rfl, openFrames_seal ideal hsealed⟩

namespace PeriodKeys

omit [Aead] in
/-- Two sides of one root key hold each other's keys, whatever paths they took to a period. -/
theorem outgoing_eq_incoming {startA startB a b : PeriodKeys} {ps qs : List UInt64}
    (hmirror : startB = startA.mirror) (ha : startA.rotateChain ps = .ok a)
    (hb : startB.rotateChain qs = .ok b) (hperiod : a.period = b.period)
    (hlast : a.period < UInt64.last) : a.outgoing = b.incoming ∧ b.outgoing = a.incoming := by
  subst hmirror
  have hb := (eq_keysAt_of_rotateChain hb (hperiod ▸ hlast)).2
  rw [← hperiod, ← mirror_keysAt, ← (eq_keysAt_of_rotateChain ha hlast).2] at hb
  rw [hb]
  exact ⟨rfl, rfl⟩

end PeriodKeys

/-- What one device sends after a handshake the other one reads, in both directions, on every
transport and in every period that both reach, however they rotate there. It recognises a stream by
its tag as far as its window covers the number, the last number apart, and reads it whatever the
number is. X25519 commutes, ML-KEM inverts, no agreement is all zeroes, and what the AEAD encrypts
it decrypts. -/
theorem dialogue [X25519] [MlKem768] (hagree : X25519.Commutes) (hkem : MlKem768.Inverts)
    (keys : Set (Octets hashLen)) (ideal : Aead.Ideal (frameUses keys)) (a b : Device)
    (hcontributory : Contributory a b) :
    ∃ madeA madeB derived, a.encapsulate b.greeting = .ok madeA ∧
      b.encapsulate a.greeting = .ok madeB ∧ a.finishA b.greeting madeB.sent = .ok derived ∧
      b.finishB a.greeting madeA.sent = .ok derived ∧
      ∀ (transport : Transport) (agreed : UInt64), 1 ≤ transport.periodAt agreed →
        ∃ startA startB, PeriodKeys.initial derived.rootKey transport .a agreed = .ok startA ∧
          PeriodKeys.initial derived.rootKey transport .b agreed = .ok startB ∧
          ∀ (ps qs : List UInt64) (keysA keysB : PeriodKeys),
            startA.rotateChain ps = .ok keysA → startB.rotateChain qs = .ok keysB →
            keysA.period = keysB.period → keysA.period < UInt64.last →
            Reads keysA.outgoing keysB.incoming ∧ Reads keysB.outgoing keysA.incoming := by
  obtain ⟨madeA, madeB, secrets, hmadeA, hmadeB, hsecretsA, hsecretsB⟩ :=
    secrets_agree hagree hkem hcontributory
  refine ⟨madeA, madeB, derive secrets (transcript a.greeting b.greeting madeA.sent madeB.sent),
    hmadeA, hmadeB, ?_, ?_, fun transport agreed hperiod => ?_⟩
  · simp only [Device.finishA, hmadeA, hsecretsA, Except.ok_bind]
  · simp only [Device.finishB, hmadeB, hsecretsB, Except.ok_bind]
  obtain ⟨startA, hstartA⟩ := PeriodKeys.initial_ok _ .a hperiod
  obtain ⟨startB, hstartB⟩ := PeriodKeys.initial_ok _ .b hperiod
  refine ⟨startA, startB, hstartA, hstartB, fun ps qs keysA keysB hkeysA hkeysB hsame hlast => ?_⟩
  obtain ⟨hforth, hback⟩ := PeriodKeys.outgoing_eq_incoming
    (PeriodKeys.initial_mirror hstartA hstartB) hkeysA hkeysB hsame hlast
  rw [hforth, hback]
  exact ⟨reads_self ideal _, reads_self ideal _⟩

end Reading

/-! ## Two devices on Tor -/

namespace Sample

attribute [local instance] tagged checksum Handshake.Sample.x25519 Handshake.Sample.mlKem768

open Handshake.Sample (deviceA deviceB commutes inverts)

/-- One device rotates period by period, the other one in one step, and each of them reads what the
other one sends. -/
theorem dialogue_tor : ∃ madeB derived startA startB keysA keysB,
    deviceA.finishA deviceB.greeting madeB = .ok derived ∧
    PeriodKeys.initial derived.rootKey tor .a 90000000 = .ok startA ∧
    PeriodKeys.initial derived.rootKey tor .b 90000000 = .ok startB ∧
    startA.rotateChain [1, 2] = .ok keysA ∧ startB.rotateChain [2] = .ok keysB ∧
    Reads keysA.outgoing keysB.incoming ∧ Reads keysB.outgoing keysA.incoming := by
  have hcontributory : Contributory deviceA deviceB :=
    ⟨by decide +kernel, by decide +kernel, by decide +kernel⟩
  obtain ⟨madeA, madeB, derived, -, -, hfinish, -, hperiods⟩ :=
    dialogue commutes inverts {key} ideal deviceA deviceB hcontributory
  obtain ⟨startA, startB, hstartA, hstartB, hreads⟩ := hperiods tor 90000000 (by decide)
  obtain ⟨⟨keysA, hkeysA, htwoA⟩, -⟩ :=
    PeriodKeys.exists_rotateChain_two (PeriodKeys.period_of_initial_tor hstartA)
  obtain ⟨-, keysB, hkeysB, htwoB⟩ :=
    PeriodKeys.exists_rotateChain_two (PeriodKeys.period_of_initial_tor hstartB)
  exact ⟨madeB.sent, derived, startA, startB, keysA, keysB, hfinish, hstartA, hstartB, hkeysA,
    hkeysB, hreads [1, 2] [2] keysA keysB hkeysA hkeysB (htwoA.trans htwoB.symm)
      (by rw [htwoA]; decide)⟩

end Sample

end Onestein.Transport
