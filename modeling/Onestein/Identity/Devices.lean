import Onestein.Identity.Authenticity
import Onestein.Identity.Epochs
import Onestein.Identity.Signing

/-!
# Which devices a contact accepts

Anybody can hand a contact containers. The contact verifies each of them against the root keys of
the identity, then checks its epoch and records it. So only what the root keys signed moves the
record: the newest statements are never locked out. And a device that was revoked stays out as long
as the root keys certify it in earlier epochs only.

## Main definitions

* `Arrival` — a container of a certificate or of a revocation.
* `consider` — a container is verified and its epoch checked.

## Main results

* `signed_of_admitted` — what is admitted was signed.
* `stateAt_consider_cases` — the record is what it was, or the epoch of something that was admitted.
* `devices_stay_out` — all of it, over any run.
-/

namespace Onestein.Identity

open Crypto

/-- What a contact is handed. -/
inductive Arrival where
  | certificate (container : Bytes)
  | revocation (container : Bytes)

def Arrival.container : Arrival → Bytes
  | certificate container => container
  | revocation container => container

/-- A statement was signed. -/
def Statement.Signed (C : Set DeviceCertificate) (R : Set Revocation) : Statement → Prop
  | .certificate statement => statement ∈ C
  | .revocation statement => statement ∈ R

section Contacts

variable [Blake2b] [Ed25519] [MlDsa65]

/-- A container is verified as what it is said to be. -/
def Arrival.verify (rootEd25519 rootMldsa : Bytes) : Arrival → Except Error Statement
  | certificate container => do
    let statement ← verifyCertificate container rootEd25519 rootMldsa
    .ok (.certificate statement)
  | revocation container => do
    let statement ← verifyRevocation container rootEd25519 rootMldsa
    .ok (.revocation statement)

/-- A contact verifies a container, checks the epoch of the statement in it and records the one that
is returned. -/
def consider (rootEd25519 rootMldsa : Bytes) (recorded : UInt64) (arrival : Arrival) :
    UInt64 × Except Error Statement :=
  match arrival.verify rootEd25519 rootMldsa with
  | .error error => (recorded, .error error)
  | .ok statement =>
    match receive recorded statement with
    | (recorded, .ok ()) => (recorded, .ok statement)
    | (recorded, .error error) => (recorded, .error error)

section Admitting

variable {rootEd25519 rootMldsa : Bytes} {recorded : UInt64} {arrival : Arrival}
  {arrivals : List Arrival} {statement : Statement} {m n : Nat}

theorem consider_of_error {error : Error}
    (h : arrival.verify rootEd25519 rootMldsa = .error error) :
    consider rootEd25519 rootMldsa recorded arrival = (recorded, .error error) := by
  rw [consider, h]

theorem consider_of_verify (h : arrival.verify rootEd25519 rootMldsa = .ok statement) :
    consider rootEd25519 rootMldsa recorded arrival =
      if statement.epoch < recorded then
        (recorded, .error (.epochInThePast recorded statement.epoch))
      else (statement.epoch, .ok statement) := by
  rw [consider, h]
  dsimp only
  rw [receive_eq]
  split_ifs <;> rfl

/-- What is admitted was verified, is not older than the record, and is recorded. -/
theorem consider_eq_ok : (consider rootEd25519 rootMldsa recorded arrival).2 = .ok statement ↔
    arrival.verify rootEd25519 rootMldsa = .ok statement ∧ recorded ≤ statement.epoch := by
  cases hverify : arrival.verify rootEd25519 rootMldsa with
  | error error => simp [consider_of_error hverify]
  | ok other =>
    rw [consider_of_verify hverify, Except.ok.injEq]
    split_ifs with hpast
    · refine iff_of_false (by simp) ?_
      rintro ⟨rfl, hle⟩
      exact UInt64.not_lt.mpr hle hpast
    · rw [Except.ok.injEq, iff_self_and]
      rintro rfl
      exact UInt64.not_lt.mp hpast

/-- The record stays, or becomes the epoch of what is admitted, which is not lower. -/
theorem consider_cases (rootEd25519 rootMldsa : Bytes) (recorded : UInt64) (arrival : Arrival) :
    (consider rootEd25519 rootMldsa recorded arrival).1 = recorded ∨
    ∃ statement, (consider rootEd25519 rootMldsa recorded arrival).2 = .ok statement ∧
      recorded ≤ statement.epoch ∧
      (consider rootEd25519 rootMldsa recorded arrival).1 = statement.epoch := by
  cases hverify : arrival.verify rootEd25519 rootMldsa with
  | error error => exact .inl (by rw [consider_of_error hverify])
  | ok statement =>
    rw [consider_of_verify hverify]
    split_ifs with hpast
    · exact .inl rfl
    · exact .inr ⟨statement, rfl, UInt64.not_lt.mp hpast, rfl⟩

theorem stateAt_succ_of_admitted
    (h : (Run.outputs (consider rootEd25519 rootMldsa) recorded arrivals)[n]? =
      some (.ok statement)) :
    Run.stateAt (consider rootEd25519 rootMldsa) recorded arrivals (n + 1) = statement.epoch := by
  obtain ⟨arrival, harrival, h⟩ := Run.exists_of_outputs h
  rw [Run.stateAt_succ harrival]
  obtain ⟨hverify, hle⟩ := consider_eq_ok.mp h
  rw [consider_of_verify hverify, if_neg (UInt64.not_lt.mpr hle)]

/-- The record never goes back. -/
theorem stateAt_consider_mono (h : m ≤ n) :
    Run.stateAt (consider rootEd25519 rootMldsa) recorded arrivals m ≤
      Run.stateAt (consider rootEd25519 rootMldsa) recorded arrivals n := by
  induction n, h using Nat.le_induction with
  | base => exact UInt64.le_refl _
  | succ n _ ih =>
    refine UInt64.le_trans ih ?_
    cases harrival : arrivals[n]? with
    | none => exact UInt64.le_of_eq (Run.stateAt_succ_of_none harrival).symm
    | some arrival =>
      rw [Run.stateAt_succ harrival]
      obtain hsame | ⟨statement, -, hle, hnext⟩ := consider_cases rootEd25519 rootMldsa
        (Run.stateAt (consider rootEd25519 rootMldsa) recorded arrivals n) arrival
      · exact UInt64.le_of_eq hsame.symm
      · exact hnext ▸ hle

/-- The record is what it was at first, or the epoch of something that was admitted. -/
theorem stateAt_consider_cases (recorded : UInt64) (arrivals : List Arrival) (n : Nat) :
    Run.stateAt (consider rootEd25519 rootMldsa) recorded arrivals n = recorded ∨
    ∃ m statement, m < n ∧
      (Run.outputs (consider rootEd25519 rootMldsa) recorded arrivals)[m]? = some (.ok statement) ∧
      Run.stateAt (consider rootEd25519 rootMldsa) recorded arrivals n = statement.epoch := by
  induction n with
  | zero => exact .inl rfl
  | succ n ih =>
    cases harrival : arrivals[n]? with
    | none =>
      rw [Run.stateAt_succ_of_none harrival]
      exact ih.imp_right fun ⟨m, statement, hm, h⟩ => ⟨m, statement, Nat.lt_succ_of_lt hm, h⟩
    | some arrival =>
      obtain hsame | ⟨statement, hadmitted, -, hnext⟩ := consider_cases rootEd25519 rootMldsa
        (Run.stateAt (consider rootEd25519 rootMldsa) recorded arrivals n) arrival
      · rw [Run.stateAt_succ harrival, hsame]
        exact ih.imp_right fun ⟨m, statement, hm, h⟩ => ⟨m, statement, Nat.lt_succ_of_lt hm, h⟩
      · refine .inr ⟨n, statement, Nat.lt_succ_self n, ?_, (Run.stateAt_succ harrival).trans hnext⟩
        rw [Run.outputs_getElem? harrival, hadmitted]

end Admitting

/-- What is admitted in a run was signed, if no container of it makes the hash collide. -/
theorem signed_of_admitted {keys : RootKeys} {C : Set DeviceCertificate} {R : Set Revocation}
    {recorded : UInt64} {arrivals : List Arrival} {statement : Statement} {n : Nat}
    (hcollision : ∀ arrival ∈ arrivals,
      Set.InjOn Blake2b.digest (hashInputs C R arrival.container))
    (hideal : Ed25519.Ideal keys.ed25519Public (signedMessages C R) ∨
      MlDsa65.Ideal keys.mldsaPublic (signedMessages C R))
    (h : (Run.outputs (consider keys.ed25519Public.toList keys.mldsaPublic.toList) recorded
      arrivals)[n]? = some (.ok statement)) : statement.Signed C R := by
  obtain ⟨arrival, harrival, h⟩ := Run.exists_of_outputs h
  have hmem := hcollision _ (List.mem_of_getElem? harrival)
  obtain ⟨hverify, -⟩ := consider_eq_ok.mp h
  cases arrival with
  | certificate container =>
    obtain ⟨c, hc, hok⟩ := Except.bind_eq_ok.mp hverify
    obtain rfl := Except.ok.inj hok
    exact (verifyCertificate_signed hmem hideal hc).1
  | revocation container =>
    obtain ⟨r, hr, hok⟩ := Except.bind_eq_ok.mp hverify
    obtain rfl := Except.ok.inj hok
    exact (verifyRevocation_signed hmem hideal hr).1

/-- Whatever containers a contact is handed, by anybody and in any order, what it admits was signed
by the root keys, and the record is what it was or an epoch that was signed. So a signed statement
that neither the record at first nor any that was signed exceeds in its epoch is admitted whenever
it comes. And once the revocation of a device was admitted, no certificate of the device is, if all
that were signed for it are of earlier epochs. The hash has no collision on what is hashed, and one
of the two signature schemes is ideal. -/
theorem devices_stay_out (keys : RootKeys) (C : Set DeviceCertificate) (R : Set Revocation)
    (recorded : UInt64) (arrivals : List Arrival)
    (hcollision : ∀ arrival ∈ arrivals,
      Set.InjOn Blake2b.digest (hashInputs C R arrival.container))
    (hideal : Ed25519.Ideal keys.ed25519Public (signedMessages C R) ∨
      MlDsa65.Ideal keys.mldsaPublic (signedMessages C R)) :
    let step := consider keys.ed25519Public.toList keys.mldsaPublic.toList
    let said := Run.outputs step recorded arrivals
    (∀ (n : Nat) (statement : Statement), said[n]? = some (.ok statement) →
      statement.Signed C R) ∧
    (∀ n, Run.stateAt step recorded arrivals n = recorded ∨
      ∃ statement : Statement, statement.Signed C R ∧
        Run.stateAt step recorded arrivals n = statement.epoch) ∧
    (∀ (n : Nat) (arrival : Arrival) (statement : Statement), arrivals[n]? = some arrival →
      arrival.verify keys.ed25519Public.toList keys.mldsaPublic.toList = .ok statement →
      recorded ≤ statement.epoch →
      (∀ other : Statement, other.Signed C R → other.epoch ≤ statement.epoch) →
      said[n]? = some (.ok statement)) ∧
    ∀ (m n : Nat) (revocation : Revocation), m < n →
      said[m]? = some (.ok (.revocation revocation)) →
      (∀ c ∈ C, c.deviceSigningPub = revocation.deviceSigningPub → c.epoch < revocation.epoch) →
      ∀ certificate : DeviceCertificate, said[n]? = some (.ok (.certificate certificate)) →
        certificate.deviceSigningPub ≠ revocation.deviceSigningPub := by
  intro step said
  have hsigned (n : Nat) (statement : Statement) (h : said[n]? = some (.ok statement)) :
      statement.Signed C R := signed_of_admitted hcollision hideal h
  have hrecord (n : Nat) : Run.stateAt step recorded arrivals n = recorded ∨
      ∃ statement : Statement, statement.Signed C R ∧
        Run.stateAt step recorded arrivals n = statement.epoch :=
    (stateAt_consider_cases recorded arrivals n).imp_right
      fun ⟨m, statement, _, hsaid, hepoch⟩ => ⟨statement, hsigned m statement hsaid, hepoch⟩
  refine ⟨hsigned, hrecord, ?_, ?_⟩
  · intro n arrival statement harrival hverify hle hhighest
    refine (Run.outputs_getElem? harrival).trans (congrArg some (consider_eq_ok.mpr ⟨hverify, ?_⟩))
    obtain hsame | ⟨other, hother, hepoch⟩ := hrecord n
    · exact UInt64.le_trans (UInt64.le_of_eq hsame) hle
    · exact UInt64.le_trans (UInt64.le_of_eq hepoch) (hhighest other hother)
  · intro m n revocation hmn hrevoked hearlier certificate hcertificate hdevice
    have hmem : certificate ∈ C := hsigned n _ hcertificate
    have hlow : revocation.epoch ≤ certificate.epoch := by
      have hm := stateAt_succ_of_admitted hrevoked
      have hn := stateAt_succ_of_admitted hcertificate
      have hmono : Run.stateAt step recorded arrivals (m + 1) ≤
          Run.stateAt step recorded arrivals (n + 1) := stateAt_consider_mono (by omega)
      rwa [hm, hn] at hmono
    exact UInt64.not_lt.mpr hlow (hearlier certificate hmem hdevice)

end Contacts

/-! ## A revoked device that shows its certificate -/

namespace Sample

attribute [local instance] checksum instEd25519 instMlDsa65

def revocationContainer : Bytes := (keys.signRevocation revocation).toOption.getD []

theorem encode_revocation : revocation.encode = .ok encodedRevocation := by decide +kernel

theorem signRevocation_revocation : keys.signRevocation revocation = .ok revocationContainer := by
  rw [RootKeys.signRevocation, encode_revocation, Except.ok_bind, revocationContainer,
    RootKeys.signRevocation, encode_revocation, Except.ok_bind]
  rfl

theorem signedPart_revocationContainer :
    signedPart revocationContainer = .ok encodedRevocation := by
  obtain ⟨encoded, hencode, hsign⟩ := Except.bind_eq_ok.mp signRevocation_revocation
  obtain rfl := Except.ok.inj (hencode.symm.trans encode_revocation)
  exact signedPart_signWithLabel (Revocation.length_encode_le hencode) hsign

theorem verify_revocationContainer :
    (Arrival.revocation revocationContainer).verify keys.ed25519Public.toList
      keys.mldsaPublic.toList = .ok (.revocation revocation) := by
  have hid : keys.identityId = .ok identity := by decide +kernel
  have hnames : revocation.identityId = identity := rfl
  have hverifies (toSign : Digest) (h : revocation.toSign = .ok toSign) :
      Ed25519.Verifies keys.ed25519 toSign.toList ∧ MlDsa65.Verifies keys.mldsa toSign.toList := by
    have hmem : toSign.toList ∈ signed := mem_signed.mpr (.inr ⟨_, rfl, toSign, h, rfl⟩)
    refine ⟨⟨rfl, Bool.and_eq_true_iff.mpr ⟨decide_eq_true hmem, beq_self_eq_true _⟩⟩, ?_⟩
    intro signature hsign
    obtain rfl := Option.some.inj hsign
    exact ⟨rfl, Bool.and_eq_true_iff.mpr ⟨decide_eq_true hmem, beq_self_eq_true _⟩⟩
  have hverify := Revocation.verify_sign hid hverifies signRevocation_revocation
  rw [if_pos hnames] at hverify
  rw [Arrival.verify, hverify]
  rfl

/-- Both statements are hashed under both labels. -/
def hashed : List Bytes :=
  [certificateLabel, revocationLabel].flatMap fun label =>
    [frame [label, encoded], frame [label, encodedRevocation]]

theorem injOn_opened {container : Bytes}
    (h : signedPart container = .ok encoded ∨ signedPart container = .ok encodedRevocation) :
    Set.InjOn Blake2b.digest (hashInputs {certificate} {revocation} container) := by
  have hsub : ∀ input ∈ hashInputs {certificate} {revocation} container, input ∈ hashed := by
    rintro - ⟨⟨label, part⟩, (⟨c, rfl, rfl, hc⟩ | ⟨r, rfl, rfl, hr⟩) | ⟨hlabel, hpart⟩, rfl⟩
    · obtain rfl := Except.ok.inj (encode_certificate.symm.trans hc)
      simp [hashed]
    · obtain rfl := Except.ok.inj (encode_revocation.symm.trans hr)
      simp [hashed]
    · rcases h with h | h <;> obtain rfl := Except.ok.inj (h.symm.trans hpart) <;>
        rcases hlabel with hlabel | hlabel <;> dsimp only at hlabel <;> subst hlabel <;>
          simp [hashed]
  have hdistinct : ∀ x ∈ hashed, ∀ y ∈ hashed, Blake2b.digest x = Blake2b.digest y → x = y := by
    decide +kernel
  exact fun x hx y hy => hdistinct x (hsub x hx) y (hsub y hy)

/-- The revocation is admitted, and the certificate of the device is not any more. -/
theorem devices_stay_out_revoked :
    let said := Run.outputs (consider keys.ed25519Public.toList keys.mldsaPublic.toList) 0
      [.revocation revocationContainer, .certificate container]
    said[0]? = some (.ok (.revocation revocation)) ∧
      said[1]? ≠ some (.ok (.certificate certificate)) := by
  intro said
  have hcollision : ∀ arrival ∈ [Arrival.revocation revocationContainer, .certificate container],
      Set.InjOn Blake2b.digest (hashInputs {certificate} {revocation} arrival.container) := by
    simp only [List.forall_mem_cons]
    exact ⟨injOn_opened (.inr signedPart_revocationContainer),
      injOn_opened (.inl (verify_container.1.trans encode_certificate)), by simp⟩
  obtain ⟨-, -, hhighest, hout⟩ := devices_stay_out keys {certificate} {revocation} 0 _ hcollision
    (.inl ideal)
  have hrevoked : said[0]? = some (.ok (.revocation revocation)) := by
    refine hhighest 0 _ _ rfl verify_revocationContainer (by decide) fun other hother => ?_
    cases other with
    | certificate c =>
      obtain rfl : c = certificate := hother
      decide
    | revocation r =>
      obtain rfl : r = revocation := hother
      decide
  refine ⟨hrevoked, fun hadmitted => ?_⟩
  refine hout 0 1 revocation (by decide) hrevoked (fun c hc _ => ?_) certificate hadmitted rfl
  obtain rfl : c = certificate := hc
  decide

end Sample

end Onestein.Identity
