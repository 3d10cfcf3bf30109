import Onestein.Handshake.Exchange

/-!
# What a confirmation confirms

Between the devices of a handshake everything can be altered. But the confirmations say whether it
was: one side's confirmation is what the other side expects exactly when both received what the
other one sent, and then both have one root key. A confirmation that is sent back is never the
expected one.

## Main definitions

* `Device.hashedA`, `Device.hashedB` — what the two sides hash.
* `Matches` — that both sides received what the other one sent.

## Main results

* `rootKey_eq_iff` — the root keys are the same where nothing was altered.
* `confirmation_confirms` — the same for the confirmations.
-/

namespace Onestein.Handshake

open Crypto

section Sides

variable [X25519] [MlKem768]

namespace Device

/-- What A hashes to derive its root key. -/
def hashedA (self : Device) (peer : Greeting) (received : Encapsulations) : Set Bytes :=
  {input | ∃ made secrets, self.encapsulate peer = .ok made ∧
    self.secretsA peer made received = .ok secrets ∧
    input = frame (rootParts secrets (transcript self.greeting peer made.sent received))}

/-- What B hashes to derive its root key. -/
def hashedB (self : Device) (peer : Greeting) (received : Encapsulations) : Set Bytes :=
  {input | ∃ made secrets, self.encapsulate peer = .ok made ∧
    self.secretsB peer made received = .ok secrets ∧
    input = frame (rootParts secrets (transcript peer self.greeting received made.sent))}

end Device

/-- Both sides received what the other one sent. -/
structure Matches (a b : Device) (toA toB : Greeting) (ctToA ctToB : Encapsulations) : Prop where
  toA_eq : toA = b.greeting
  toB_eq : toB = a.greeting
  ctToA_eq : ∃ made, b.encapsulate toB = .ok made ∧ ctToA = made.sent
  ctToB_eq : ∃ made, a.encapsulate toA = .ok made ∧ ctToB = made.sent

/-- The confirmations that are derived under two root keys. -/
def confirmationInputs (key key' : Digest) : Set (Digest × Bytes) :=
  {input | (input.1 = key ∨ input.1 = key') ∧
    (input.2 = frame [confirmationALabel] ∨ input.2 = frame [confirmationBLabel])}

omit [MlKem768] in
/-- An agreement that succeeds is not all zeroes. -/
theorem agree_ne_zero {own : KeyPair} {peerPublic : Octets x25519Len} {shared : Octets hashLen}
    (h : own.agree peerPublic = .ok shared) :
    X25519.diffieHellman own.x25519 peerPublic ≠ .replicate 32 0 := by
  rw [KeyPair.agree, Except.ite_error_eq_ok] at h
  exact h.1

variable {a b : Device} {toA toB : Greeting} {ctToA ctToB : Encapsulations}

/-- Where A has filled in the secrets with what B sent, no agreement is all zeroes. -/
theorem contributory_of_secretsA {made : Encapsulated} {received : Encapsulations}
    {secrets : Secrets} (h : a.secretsA b.greeting made received = .ok secrets) :
    Contributory a b := by
  obtain ⟨dhEphemeral, hephemeral, h⟩ := Except.bind_eq_ok.mp h
  obtain ⟨dhEphemeralStatic, hephemeralStatic, h⟩ := Except.bind_eq_ok.mp h
  obtain ⟨dhStaticEphemeral, hstaticEphemeral, -⟩ := Except.bind_eq_ok.mp h
  exact ⟨agree_ne_zero hephemeral, agree_ne_zero hephemeralStatic, agree_ne_zero hstaticEphemeral⟩

variable [Blake2b] {da db : Derived}

theorem finishA_eq_ok : a.finishA toA ctToA = .ok da ↔ ∃ made secrets,
    a.encapsulate toA = .ok made ∧ a.secretsA toA made ctToA = .ok secrets ∧
      derive secrets (transcript a.greeting toA made.sent ctToA) = da := by
  simp [Device.finishA, Except.bind_eq_ok]

theorem finishB_eq_ok : b.finishB toB ctToB = .ok db ↔ ∃ made secrets,
    b.encapsulate toB = .ok made ∧ b.secretsB toB made ctToB = .ok secrets ∧
      derive secrets (transcript toB b.greeting ctToB made.sent) = db := by
  simp [Device.finishB, Except.bind_eq_ok]

/-- Two sides that received what the other one sent derive the same. -/
theorem derived_eq_of_matches (hagree : X25519.Commutes) (hkem : MlKem768.Inverts)
    (ha : a.finishA toA ctToA = .ok da) (hb : b.finishB toB ctToB = .ok db)
    (h : Matches a b toA toB ctToA ctToB) : da = db := by
  obtain ⟨rfl, rfl, ⟨madeB, hmadeB, rfl⟩, madeA, hmadeA, rfl⟩ := h
  obtain ⟨made, secretsA, hmade, hsecretsA, rfl⟩ := finishA_eq_ok.mp ha
  obtain rfl := Except.ok.inj (hmadeA.symm.trans hmade)
  obtain ⟨made, secretsB, hmade, hsecretsB, rfl⟩ := finishB_eq_ok.mp hb
  obtain rfl := Except.ok.inj (hmadeB.symm.trans hmade)
  obtain ⟨madeA', madeB', secrets, hmadeA', hmadeB', hsecretsA', hsecretsB'⟩ :=
    secrets_agree hagree hkem (contributory_of_secretsA hsecretsA)
  obtain rfl := Except.ok.inj (hmadeA.symm.trans hmadeA')
  obtain rfl := Except.ok.inj (hmadeB.symm.trans hmadeB')
  obtain rfl := Except.ok.inj (hsecretsA.symm.trans hsecretsA')
  obtain rfl := Except.ok.inj (hsecretsB.symm.trans hsecretsB')
  rfl

/-- The root key names what was received on either side. -/
theorem matches_of_rootKey_eq (ha : a.finishA toA ctToA = .ok da)
    (hb : b.finishB toB ctToB = .ok db)
    (hcollision : Set.InjOn Blake2b.digest (a.hashedA toA ctToA ∪ b.hashedB toB ctToB))
    (h : da.rootKey = db.rootKey) : Matches a b toA toB ctToA ctToB := by
  obtain ⟨madeA, secretsA, hmadeA, hsecretsA, rfl⟩ := finishA_eq_ok.mp ha
  obtain ⟨madeB, secretsB, hmadeB, hsecretsB, rfl⟩ := finishB_eq_ok.mp hb
  have hpair : Set.InjOn Blake2b.digest
      {frame (rootParts secretsA (transcript a.greeting toA madeA.sent ctToA)),
        frame (rootParts secretsB (transcript toB b.greeting ctToB madeB.sent))} := by
    refine hcollision.mono ?_
    rintro input (rfl | rfl)
    · exact .inl ⟨madeA, secretsA, hmadeA, hsecretsA, rfl⟩
    · exact .inr ⟨madeB, secretsB, hmadeB, hsecretsB, rfl⟩
  obtain ⟨-, htranscript⟩ := rootKey_injective hpair h
  simp only [transcript, Transcript.mk.injEq] at htranscript
  have htoA : toA = b.greeting := by
    cases toA
    simp_all [Device.greeting]
  have htoB : toB = a.greeting := by
    cases toB
    simp_all [Device.greeting]
  refine ⟨htoA, htoB, ⟨madeB, hmadeB, ?_⟩, madeA, hmadeA, ?_⟩
  · cases ctToA
    cases hsent : madeB.sent
    simp_all
  · cases ctToB
    cases hsent : madeA.sent
    simp_all

omit [X25519] [MlKem768] in
/-- A confirmation is made under one root key, by one side. -/
theorem confirmation_injective {key key' : Digest} {role role' : Role}
    (hcollision : Set.InjOn (fun input : Digest × Bytes => Blake2b.keyed input.1 input.2)
      (confirmationInputs key key'))
    (h : confirmation key role = confirmation key' role') : key = key' ∧ role = role' := by
  have hA : ∀ part ∈ [confirmationALabel], part.length < maxPart := by decide
  have hB : ∀ part ∈ [confirmationBLabel], part.length < maxPart := by decide
  have hlabels : [confirmationALabel] ≠ [confirmationBLabel] := by decide
  cases role <;> cases role'
  case a.a =>
    exact ⟨(kdf_injective hcollision ⟨.inl rfl, .inl rfl⟩ ⟨.inr rfl, .inl rfl⟩ hA hA h).1, rfl⟩
  case b.b =>
    exact ⟨(kdf_injective hcollision ⟨.inl rfl, .inr rfl⟩ ⟨.inr rfl, .inr rfl⟩ hB hB h).1, rfl⟩
  case a.b =>
    exact absurd (kdf_injective hcollision ⟨.inl rfl, .inl rfl⟩ ⟨.inr rfl, .inr rfl⟩ hA hB h).2
      hlabels
  case b.a =>
    exact absurd (kdf_injective hcollision ⟨.inl rfl, .inr rfl⟩ ⟨.inr rfl, .inl rfl⟩ hB hA h).2
      hlabels.symm

/-- The root keys of two sides are the same where both received what the other one sent. -/
theorem rootKey_eq_iff (hagree : X25519.Commutes) (hkem : MlKem768.Inverts)
    (ha : a.finishA toA ctToA = .ok da) (hb : b.finishB toB ctToB = .ok db)
    (hcollision : Set.InjOn Blake2b.digest (a.hashedA toA ctToA ∪ b.hashedB toB ctToB)) :
    da.rootKey = db.rootKey ↔ Matches a b toA toB ctToA ctToB := by
  constructor
  · exact matches_of_rootKey_eq ha hb hcollision
  · intro h
    rw [derived_eq_of_matches hagree hkem ha hb h]

theorem confirmations_of_finishA (ha : a.finishA toA ctToA = .ok da) :
    da.confirmationA = confirmation da.rootKey .a ∧
      da.confirmationB = confirmation da.rootKey .b := by
  obtain ⟨-, -, -, -, rfl⟩ := finishA_eq_ok.mp ha
  exact ⟨rfl, rfl⟩

theorem confirmations_of_finishB (hb : b.finishB toB ctToB = .ok db) :
    db.confirmationA = confirmation db.rootKey .a ∧
      db.confirmationB = confirmation db.rootKey .b := by
  obtain ⟨-, -, -, -, rfl⟩ := finishB_eq_ok.mp hb
  exact ⟨rfl, rfl⟩

/-- Each side's confirmation is what the other side expects exactly when both received what the
other one sent, whatever was done to the records on the way; and then both derived the same. No
confirmation is good for the side that sent it. The hash has no collision between the two
handshakes, and the keyed hash none between the confirmations. -/
theorem confirmation_confirms (hagree : X25519.Commutes) (hkem : MlKem768.Inverts) (a b : Device)
    (toA toB : Greeting) (ctToA ctToB : Encapsulations) (da db : Derived)
    (ha : a.finishA toA ctToA = .ok da) (hb : b.finishB toB ctToB = .ok db)
    (hcollision : Set.InjOn Blake2b.digest (a.hashedA toA ctToA ∪ b.hashedB toB ctToB))
    (hkeyed : Set.InjOn (fun input : Digest × Bytes => Blake2b.keyed input.1 input.2)
      (confirmationInputs da.rootKey db.rootKey)) :
    (da.confirmationA = db.confirmationA ↔ Matches a b toA toB ctToA ctToB) ∧
    (db.confirmationB = da.confirmationB ↔ Matches a b toA toB ctToA ctToB) ∧
    (Matches a b toA toB ctToA ctToB → da = db) ∧
    da.confirmationA ≠ da.confirmationB ∧ db.confirmationB ≠ db.confirmationA := by
  have hkeys := rootKey_eq_iff hagree hkem ha hb hcollision
  obtain ⟨haA, haB⟩ := confirmations_of_finishA ha
  obtain ⟨hbA, hbB⟩ := confirmations_of_finishB hb
  have hroles {key : Digest} (hkey : key = da.rootKey ∨ key = db.rootKey) :
      confirmation key .a ≠ confirmation key .b := by
    intro h
    have hsub : confirmationInputs key key ⊆ confirmationInputs da.rootKey db.rootKey := by
      rintro ⟨key', input⟩ ⟨rfl | rfl, hinput⟩ <;> exact ⟨hkey, hinput⟩
    cases (confirmation_injective (hkeyed.mono hsub) h).2
  rw [haA, haB, hbA, hbB]
  refine ⟨?_, ?_, derived_eq_of_matches hagree hkem ha hb, hroles (.inl rfl),
    (hroles (.inr rfl)).symm⟩
  · rw [← hkeys]
    exact ⟨fun h => (confirmation_injective hkeyed h).1, fun h => by rw [h]⟩
  · rw [← hkeys, eq_comm]
    exact ⟨fun h => (confirmation_injective hkeyed h).1, fun h => by rw [h]⟩

end Sides

/-! ## Nothing is altered -/

namespace Sample

attribute [local instance] checksum x25519 mlKem768

/-- The stand-in tells messages apart that differ in their last byte. -/
theorem keyed_concat_injective {key : Digest} {front : Bytes} {x y : UInt8}
    (h : Blake2b.keyed key (front ++ [x]) = Blake2b.keyed key (front ++ [y])) : x = y := by
  have hval : Bytes.val ((2 :: (key.toList ++ front)) ++ [x]) % (2 ^ 256 - 189) =
      Bytes.val ((2 :: (key.toList ++ front)) ++ [y]) % (2 ^ 256 - 189) := by
    refine Bytes.be_injective (k := 32) (by omega) (by omega) ?_
    rw [List.cons_append, List.cons_append, List.append_assoc, List.append_assoc]
    exact congrArg Vector.toList h
  rw [Bytes.val_concat, Bytes.val_concat] at hval
  have hx := x.toNat_lt
  have hy := y.toNat_lt
  apply UInt8.toNat_inj.mp
  omega

theorem keyed_injective (key : Digest) :
    Set.InjOn (fun input : Digest × Bytes => Blake2b.keyed input.1 input.2)
      (confirmationInputs key key) := by
  obtain ⟨front, hA, hB⟩ : ∃ front, frame [confirmationALabel] = front ++ [0x41] ∧
      frame [confirmationBLabel] = front ++ [0x42] :=
    ⟨(frame [confirmationALabel]).dropLast, by decide, by decide⟩
  have hne : Blake2b.keyed key (frame [confirmationALabel]) ≠
      Blake2b.keyed key (frame [confirmationBLabel]) := by
    intro h
    rw [hA, hB] at h
    exact absurd (keyed_concat_injective h) (by decide)
  rintro ⟨k, input⟩ ⟨rfl | rfl, rfl | rfl⟩ ⟨k', input'⟩ ⟨rfl | rfl, rfl | rfl⟩ h <;>
    first | rfl | exact absurd h hne | exact absurd h.symm hne

/-- Two devices that receive what they send accept each other's confirmations. -/
theorem confirmation_confirms_sample : ∃ madeA madeB da db,
    deviceA.finishA deviceB.greeting madeB = .ok da ∧
    deviceB.finishB deviceA.greeting madeA = .ok db ∧ da.confirmationA = db.confirmationA ∧
    db.confirmationB = da.confirmationB ∧ da.confirmationA ≠ da.confirmationB := by
  have hcontributory : Contributory deviceA deviceB :=
    ⟨by decide +kernel, by decide +kernel, by decide +kernel⟩
  obtain ⟨madeA, madeB, secrets, hmadeA, hmadeB, hsecretsA, hsecretsB⟩ :=
    secrets_agree commutes inverts hcontributory
  have ha := finishA_eq_ok.mpr ⟨madeA, secrets, hmadeA, hsecretsA, rfl⟩
  have hb := finishB_eq_ok.mpr ⟨madeB, secrets, hmadeB, hsecretsB, rfl⟩
  have hmatches : Matches deviceA deviceB deviceB.greeting deviceA.greeting madeB.sent madeA.sent :=
    ⟨rfl, rfl, ⟨madeB, hmadeB, rfl⟩, madeA, hmadeA, rfl⟩
  have hcollision : Set.InjOn Blake2b.digest (deviceA.hashedA deviceB.greeting madeB.sent ∪
      deviceB.hashedB deviceA.greeting madeA.sent) := by
    refine Set.Subsingleton.injOn ?_ _
    have hsame (input : Bytes) (h : input ∈ deviceA.hashedA deviceB.greeting madeB.sent ∪
        deviceB.hashedB deviceA.greeting madeA.sent) : input = frame (rootParts secrets
          (transcript deviceA.greeting deviceB.greeting madeA.sent madeB.sent)) := by
      rcases h with ⟨made, secrets', hmade, hsecrets, rfl⟩ | ⟨made, secrets', hmade, hsecrets, rfl⟩
      · obtain rfl := Except.ok.inj (hmadeA.symm.trans hmade)
        obtain rfl := Except.ok.inj (hsecretsA.symm.trans hsecrets)
        rfl
      · obtain rfl := Except.ok.inj (hmadeB.symm.trans hmade)
        obtain rfl := Except.ok.inj (hsecretsB.symm.trans hsecrets)
        rfl
    intro x hx y hy
    rw [hsame x hx, hsame y hy]
  obtain ⟨hA, hB, -, hreflected, -⟩ := confirmation_confirms commutes inverts deviceA deviceB _ _ _
    _ _ _ ha hb hcollision (keyed_injective _)
  exact ⟨madeA.sent, madeB.sent, _, _, ha, hb, hA.mpr hmatches, hB.mpr hmatches, hreflected⟩

end Sample

end Onestein.Handshake
