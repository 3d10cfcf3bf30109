import Onestein.Identity.Revocation
import Onestein.Lib.Run

/-!
# What a contact records of an identity

A contact checks the epoch of every certificate and revocation of an identity, and records the
highest one it accepted. Old statements that are replayed come too late, but a statement of the
recorded epoch does not, whichever device it is about.

## Main definitions

* `Statement` — a certificate or a revocation.
* `receive` — a statement is checked, and the epoch returned is recorded.
* `AcceptedAt` — the statement at an index of a run is accepted.

## Main results

* `stateAt_mono` — the recorded epoch never goes back.
* `acceptedAt_iff_of_revoked` — what a revocation refuses from then on.
-/

namespace Onestein.Identity

/-- What a contact receives about the devices of an identity. -/
inductive Statement where
  | certificate (statement : DeviceCertificate)
  | revocation (statement : Revocation)
  deriving DecidableEq

def Statement.epoch : Statement → UInt64
  | .certificate statement => statement.epoch
  | .revocation statement => statement.epoch

/-- A contact checks the epoch of a statement, and records the one that is returned. -/
def receive (recorded : UInt64) (statement : Statement) : UInt64 × Except Error Unit :=
  match acceptEpoch recorded statement.epoch with
  | .ok epoch => (epoch, .ok ())
  | .error error => (recorded, .error error)

/-- The statement at an index of a run is accepted. -/
def AcceptedAt (recorded : UInt64) (statements : List Statement) (n : Nat) : Prop :=
  (Run.outputs receive recorded statements)[n]? = some (.ok ())

variable {recorded : UInt64} {statement : Statement} {statements : List Statement} {m n : Nat}

theorem receive_eq (recorded : UInt64) (statement : Statement) :
    receive recorded statement =
      if statement.epoch < recorded then
        (recorded, .error (.epochInThePast recorded statement.epoch))
      else (statement.epoch, .ok ()) := by
  unfold receive acceptEpoch
  split_ifs <;> rfl

theorem le_receive (recorded : UInt64) (statement : Statement) :
    recorded ≤ (receive recorded statement).1 := by
  rw [receive_eq]
  split_ifs with h
  · exact UInt64.le_refl _
  · exact UInt64.not_lt.mp h

theorem acceptedAt_iff (h : statements[n]? = some statement) :
    AcceptedAt recorded statements n ↔
      Run.stateAt receive recorded statements n ≤ statement.epoch := by
  rw [AcceptedAt, Run.outputs_getElem? h, receive_eq, ← UInt64.not_lt]
  split_ifs with hlt <;> simp [hlt]

/-- What is accepted is recorded. -/
theorem stateAt_succ_of_accepted (h : statements[n]? = some statement)
    (haccepted : AcceptedAt recorded statements n) :
    Run.stateAt receive recorded statements (n + 1) = statement.epoch := by
  rw [acceptedAt_iff h, ← UInt64.not_lt] at haccepted
  rw [Run.stateAt_succ h, receive_eq, if_neg haccepted]

/-- What is refused leaves the record as it is. -/
theorem stateAt_succ_of_refused (h : statements[n]? = some statement)
    (hrefused : ¬ AcceptedAt recorded statements n) :
    Run.stateAt receive recorded statements (n + 1) =
      Run.stateAt receive recorded statements n := by
  rw [acceptedAt_iff h, UInt64.not_le] at hrefused
  rw [Run.stateAt_succ h, receive_eq, if_pos hrefused]

/-- The recorded epoch never goes back. -/
theorem stateAt_mono (h : m ≤ n) :
    Run.stateAt receive recorded statements m ≤ Run.stateAt receive recorded statements n := by
  induction n, h using Nat.le_induction with
  | base => exact UInt64.le_refl _
  | succ n _ ih =>
    refine UInt64.le_trans ih ?_
    cases h : statements[n]? with
    | none => exact UInt64.le_of_eq (Run.stateAt_succ_of_none h).symm
    | some statement =>
      rw [Run.stateAt_succ h]
      exact le_receive _ statement

/-- The record stays where it is as long as nothing later is accepted. -/
theorem stateAt_eq_of_accepted {epoch : UInt64} (hle : m ≤ n)
    (hstart : Run.stateAt receive recorded statements m = epoch)
    (hnone : ∀ k statement, m ≤ k → k < n → statements[k]? = some statement →
      AcceptedAt recorded statements k → statement.epoch ≤ epoch) :
    Run.stateAt receive recorded statements n = epoch := by
  induction n, hle using Nat.le_induction with
  | base => exact hstart
  | succ n hle ih =>
    have hn := ih fun k statement hk hlt => hnone k statement hk (by omega)
    cases h : statements[n]? with
    | none => rwa [Run.stateAt_succ_of_none h]
    | some statement =>
      by_cases haccepted : AcceptedAt recorded statements n
      · have hlow := (acceptedAt_iff h).mp haccepted
        rw [hn] at hlow
        rw [stateAt_succ_of_accepted h haccepted]
        exact UInt64.le_antisymm (hnone n statement hle (by omega) h haccepted) hlow
      · rwa [stateAt_succ_of_refused h haccepted]

/-- Once a revocation of a device was accepted, a certificate for the device that is not of a later
epoch is refused from then on, however often and in which order old statements come. Only one of
the very epoch of the revocation is accepted, until a statement of a later epoch is, whatever device
it is of. -/
theorem acceptedAt_iff_of_revoked (recorded : UInt64) (statements : List Statement)
    {m n : Nat} (hmn : m < n) {revocation : Revocation}
    (hrevocation : statements[m]? = some (.revocation revocation))
    (hrevoked : AcceptedAt recorded statements m) :
    ∀ certificate : DeviceCertificate, statements[n]? = some (.certificate certificate) →
      certificate.deviceSigningPub = revocation.deviceSigningPub →
      certificate.epoch ≤ revocation.epoch →
      (AcceptedAt recorded statements n ↔ certificate.epoch = revocation.epoch ∧
        ∀ k statement, m < k → k < n → statements[k]? = some statement →
          AcceptedAt recorded statements k → statement.epoch ≤ revocation.epoch) := by
  intro certificate hcertificate _ hepoch
  have hrecorded : Run.stateAt receive recorded statements (m + 1) = revocation.epoch :=
    stateAt_succ_of_accepted hrevocation hrevoked
  have hhigh : revocation.epoch ≤ Run.stateAt receive recorded statements n :=
    hrecorded ▸ stateAt_mono hmn
  rw [acceptedAt_iff hcertificate]
  constructor
  · intro hle
    refine ⟨UInt64.le_antisymm hepoch (UInt64.le_trans hhigh hle), ?_⟩
    intro k statement _ hkn hstatement haccepted
    rw [← stateAt_succ_of_accepted hstatement haccepted]
    exact UInt64.le_trans (stateAt_mono hkn) (UInt64.le_trans hle hepoch)
  · rintro ⟨hsame, hnone⟩
    have hstays : Run.stateAt receive recorded statements n = revocation.epoch :=
      stateAt_eq_of_accepted hmn hrecorded fun k statement hk => hnone k statement hk
    exact UInt64.le_of_eq (hstays.trans hsame.symm)

/-! ## A device that was revoked -/

namespace Sample

/-- A device is certified twice, in two epochs, and revoked in the second of them. -/
def oldCertificate : DeviceCertificate where
  identityId := ⟨.replicate 32 0x11⟩
  deviceSigningPub := .replicate 32 0x33
  dhStaticPub := .replicate 32 0x44
  kemStaticPub := .replicate 1184 0x55
  epoch := 7
  fromMs := 1600000000000

def newCertificate : DeviceCertificate := { oldCertificate with epoch := 8 }

def revoked : Revocation := ⟨⟨.replicate 32 0x11⟩, .replicate 32 0x33, 8⟩

/-- After the revocation the old certificate is refused. -/
theorem not_acceptedAt_old :
    ¬ AcceptedAt 0 [.certificate newCertificate, .revocation revoked, .certificate oldCertificate]
      2 := by
  have hrevoked : AcceptedAt 0
      [.certificate newCertificate, .revocation revoked, .certificate oldCertificate] 1 := rfl
  intro haccepted
  obtain ⟨hsame, -⟩ := (acceptedAt_iff_of_revoked 0 _ (by decide) rfl hrevoked oldCertificate rfl
    rfl (by decide)).mp haccepted
  exact absurd hsame (by decide)

/-- After the revocation the other certificate, of the same epoch, is accepted when it is
replayed. -/
theorem acceptedAt_new :
    AcceptedAt 0 [.certificate newCertificate, .revocation revoked, .certificate newCertificate]
        1 ∧
      newCertificate.deviceSigningPub = revoked.deviceSigningPub ∧
      newCertificate.epoch ≤ revoked.epoch ∧
      AcceptedAt 0 [.certificate newCertificate, .revocation revoked, .certificate newCertificate]
        2 :=
  ⟨rfl, rfl, by decide, rfl⟩

end Sample

end Onestein.Identity
