import Onestein.Handshake.RootKey
import Onestein.Relay.Queue
import Onestein.Transport.Periods

/-!
# Derivations under one key

The handshake, the transport and the relay all derive from one root key. What is fed to keyed
BLAKE2b starts in another way for each purpose, and no start goes on as another one does.

## Main definitions

* `Derivation` — the derivations that are made under a key.
* `Derivation.input` — what keyed BLAKE2b is fed for one.
* `Purpose.start` — what the inputs for a purpose have in common.

## Main results

* `start_unique` — no start is the beginning of another one.
* `Derivation.separated` — two derivations that are fed the same are the same.
-/

namespace Onestein

open Crypto
open Transport (aTagKey aHeaderKey bTagKey bHeaderKey transportVersion PeriodKeys DirectionKeys)
open Relay (Direction Right QueueKeys)

/-- Which of the keys of a direction is derived. -/
inductive KeyKind where
  | tag
  | header
  deriving DecidableEq

/-- What a derivation is for. -/
inductive Purpose where
  | initial (sender : Transport.Role) (kind : KeyKind)
  | queueId (direction : Direction)
  | seed (right : Right)
  | confirmation (role : Handshake.Role)
  | rotation
  | tag
  deriving DecidableEq

/-- A derivation that is made under a key: the initial keys of a sender on a transport, the name
and the two seeds of a queue, the confirmations of a handshake, the rotation of a key and the tag of
a stream. -/
inductive Derivation where
  | initial (sender : Transport.Role) (kind : KeyKind) (transportId : String)
  | queueId (direction : Direction) (relayId : String) (period : UInt64)
  | seed (right : Right) (direction : Direction) (relayId : String) (period : UInt64)
  | confirmation (role : Handshake.Role)
  | rotation (period : UInt64)
  | tag (streamNumber : UInt64)
  deriving DecidableEq

namespace Purpose

/-- The label of a purpose, unless it has none. -/
def label : Purpose → Option Bytes
  | initial .a .tag => some aTagKey
  | initial .a .header => some aHeaderKey
  | initial .b .tag => some bTagKey
  | initial .b .header => some bHeaderKey
  | queueId .aToB => some Relay.queueALabel
  | queueId .bToA => some Relay.queueBLabel
  | seed .write => some Relay.writeLabel
  | seed .read => some Relay.readLabel
  | confirmation .a => some Handshake.confirmationALabel
  | confirmation .b => some Handshake.confirmationBLabel
  | rotation => some Transport.rotate
  | tag => none

/-- What is fed first: a framed label, or the version where nothing is framed. -/
def start (purpose : Purpose) : Bytes :=
  match purpose.label with
  | some label => frame [label]
  | none => Bytes.be 2 transportVersion.toNat

/-- All purposes. -/
def all : List Purpose :=
  [initial .a .tag, initial .a .header, initial .b .tag, initial .b .header, queueId .aToB,
    queueId .bToA, seed .write, seed .read, confirmation .a, confirmation .b, rotation, tag]

theorem mem_all (purpose : Purpose) : purpose ∈ all := by
  cases purpose with
  | initial sender kind => cases sender <;> cases kind <;> decide
  | queueId direction => cases direction <;> decide
  | seed right => cases right <;> decide
  | confirmation role => cases role <;> decide
  | rotation => decide
  | tag => decide

/-- No start is the beginning of another one. -/
theorem start_unique {purpose purpose' : Purpose} (h : purpose.start <+: purpose'.start) :
    purpose = purpose' := by
  have hall : ∀ p ∈ all, ∀ p' ∈ all, p.start.isPrefixOf p'.start → p = p' := by decide +kernel
  exact hall purpose (mem_all purpose) purpose' (mem_all purpose')
    (List.isPrefixOf_iff_prefix.mpr h)

end Purpose

namespace Derivation

/-- The relay identifier with the direction behind it. -/
def scope (relayId : String) : Direction → String
  | .aToB => relayId ++ "/a"
  | .bToA => relayId ++ "/b"

def purpose : Derivation → Purpose
  | initial sender kind _ => .initial sender kind
  | queueId direction _ _ => .queueId direction
  | seed right _ _ _ => .seed right
  | confirmation role => .confirmation role
  | rotation _ => .rotation
  | tag _ => .tag

/-- What is fed behind the start. -/
def rest : Derivation → Bytes
  | initial _ _ transportId => frame [Bytes.utf8 transportId]
  | queueId _ relayId period => frame [Bytes.utf8 relayId, Bytes.be 8 period.toNat]
  | seed _ direction relayId period =>
    frame [Bytes.utf8 (scope relayId direction), Bytes.be 8 period.toNat]
  | confirmation _ => []
  | rotation period => frame [Bytes.be 8 period.toNat]
  | tag streamNumber => Bytes.be 8 streamNumber.toNat

/-- What keyed BLAKE2b is fed. -/
def input (derivation : Derivation) : Bytes := derivation.purpose.start ++ derivation.rest

/-- A relay identifier cannot hold the end that tells the directions apart. -/
theorem scope_injective {relayId relayId' : String} {direction direction' : Direction}
    (h : scope relayId direction = scope relayId' direction') :
    relayId = relayId' ∧ direction = direction' := by
  have hends : ∀ first last : List Char, first ++ ['/', 'a'] ≠ last ++ ['/', 'b'] := by
    intro first last heq
    exact absurd (List.append_inj' heq rfl).2 (by decide)
  have hlist := congrArg String.toList h
  cases direction <;> cases direction' <;> simp [scope] at h hlist
  case aToB.aToB => exact ⟨h, rfl⟩
  case aToB.bToA => exact absurd hlist (hends _ _)
  case bToA.aToB => exact absurd hlist.symm (hends _ _)
  case bToA.bToA => exact ⟨h, rfl⟩

/-- The name and the period of a queue are fixed by what is fed for them. -/
theorem frame_name_injective {name name' : String} {period period' : UInt64}
    (h : frame [Bytes.utf8 name, Bytes.be 8 period.toNat] =
      frame [Bytes.utf8 name', Bytes.be 8 period'.toNat]) : name = name' ∧ period = period' := by
  obtain ⟨hname, hperiod⟩ := frame_pair_injective_of_length (by simp) h
  exact ⟨Bytes.utf8_injective hname, Bytes.be_toNat_injective hperiod⟩

/-- For one purpose, the parameters are fixed by what is fed behind the start. -/
theorem rest_injective {d d' : Derivation} (hpurpose : d.purpose = d'.purpose)
    (h : d.rest = d'.rest) : d = d' := by
  cases d <;> cases d' <;> cases hpurpose
  case initial.refl id id' =>
    obtain rfl := Bytes.utf8_injective (frame_concat_injective [] h)
    rfl
  case queueId.refl =>
    obtain ⟨rfl, rfl⟩ := frame_name_injective h
    rfl
  case seed.refl =>
    obtain ⟨hscope, rfl⟩ := frame_name_injective h
    obtain ⟨rfl, rfl⟩ := scope_injective hscope
    rfl
  case confirmation.refl => rfl
  case rotation.refl =>
    obtain rfl := Bytes.be_toNat_injective (frame_concat_injective [] h)
    rfl
  case tag.refl =>
    obtain rfl := Bytes.be_toNat_injective h
    rfl

/-- Two derivations that are fed the same are the same. -/
theorem input_injective {d d' : Derivation} (h : d.input = d'.input) : d = d' := by
  have hstart : d.purpose.start <+: d'.input := h ▸ List.prefix_append _ _
  have hpurpose : d.purpose = d'.purpose := by
    rcases List.prefix_or_prefix_of_prefix hstart (List.prefix_append _ _) with hle | hge
    · exact Purpose.start_unique hle
    · exact (Purpose.start_unique hge).symm
  rw [input, input, hpurpose] at h
  exact rest_injective hpurpose (List.append_cancel_left h)

/-! ## What the functions feed -/

section Functions

variable [Blake2b] (key : Digest)

/-- What a derivation gives. -/
def derived (derivation : Derivation) : Digest := Blake2b.keyed key derivation.input

/-- A framed derivation starts with its label. -/
theorem kdf_eq {d : Derivation} {label : Bytes} {parts : List Bytes}
    (hlabel : d.purpose.label = some label) (hrest : d.rest = frame parts) :
    kdf key (label :: parts) = d.derived key := by
  rw [kdf, derived, input, Purpose.start, hlabel, hrest, ← frame_append]
  rfl

theorem initial_eq {transport : Transport.Transport} {role : Transport.Role} {timestampMs : UInt64}
    {keys : PeriodKeys} (h : PeriodKeys.initial key transport role timestampMs = .ok keys) :
    keys.outgoing = ⟨(initial role .tag transport.id).derived key,
        (initial role .header transport.id).derived key⟩ ∧
      keys.incoming = ⟨(initial role.other .tag transport.id).derived key,
        (initial role.other .header transport.id).derived key⟩ := by
  unfold PeriodKeys.initial at h
  split at h
  case h_1 => cases h
  case h_2 =>
    obtain rfl := Except.ok.inj h
    cases role <;>
      exact ⟨congrArg₂ DirectionKeys.mk (kdf_eq key rfl rfl) (kdf_eq key rfl rfl),
        congrArg₂ DirectionKeys.mk (kdf_eq key rfl rfl) (kdf_eq key rfl rfl)⟩

theorem queueId_eq (direction : Direction) (relayId : String) (period : UInt64) :
    Relay.queueId key direction relayId period =
      (queueId direction relayId period).derived key := by
  cases direction <;> exact kdf_eq key rfl rfl

theorem queueKeys_eq (direction : Direction) (relayId : String) (period : UInt64) :
    QueueKeys.derive key direction relayId period =
      ⟨(seed .write direction relayId period).derived key,
        (seed .read direction relayId period).derived key⟩ := by
  cases direction <;>
    exact congrArg₂ QueueKeys.mk (kdf_eq key rfl rfl) (kdf_eq key rfl rfl)

theorem confirmation_eq (role : Handshake.Role) :
    Handshake.confirmation key role = (confirmation role).derived key := by
  cases role <;> exact kdf_eq key rfl rfl

theorem rotateOnce_eq (keys : DirectionKeys) (period : UInt64) :
    keys.rotateOnce period =
      ⟨(rotation period).derived keys.tagKey, (rotation period).derived keys.headerKey⟩ :=
  congrArg₂ DirectionKeys.mk (kdf_eq keys.tagKey rfl rfl) (kdf_eq keys.headerKey rfl rfl)

/-- The derivations of the three layers feed keyed BLAKE2b their inputs, and two derivations that
are fed the same are the same: of one purpose, and with the same parameters. -/
theorem separated :
    (∀ transport role timestampMs keys,
      PeriodKeys.initial key transport role timestampMs = .ok keys →
        keys.outgoing = ⟨(initial role .tag transport.id).derived key,
            (initial role .header transport.id).derived key⟩ ∧
          keys.incoming = ⟨(initial role.other .tag transport.id).derived key,
            (initial role.other .header transport.id).derived key⟩) ∧
    (∀ direction relayId period,
      Relay.queueId key direction relayId period =
          (queueId direction relayId period).derived key ∧
        QueueKeys.derive key direction relayId period =
          ⟨(seed .write direction relayId period).derived key,
            (seed .read direction relayId period).derived key⟩) ∧
    (∀ role, Handshake.confirmation key role = (confirmation role).derived key) ∧
    (∀ keys period, DirectionKeys.rotateOnce keys period =
      ⟨(rotation period).derived keys.tagKey, (rotation period).derived keys.headerKey⟩) ∧
    (∀ streamNumber, Transport.tag key streamNumber =
      ((tag streamNumber).derived key).take Transport.tagLen) ∧
    ∀ d d' : Derivation, d.input = d'.input → d = d' :=
  ⟨fun _ _ _ _ => initial_eq key,
    fun direction relayId period =>
      ⟨queueId_eq key direction relayId period, queueKeys_eq key direction relayId period⟩,
    confirmation_eq key, rotateOnce_eq, fun _ => rfl, fun _ _ => input_injective⟩

end Functions

end Derivation

end Onestein
