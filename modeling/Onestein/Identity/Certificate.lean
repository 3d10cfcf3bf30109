import Onestein.Bdf.Dictionary
import Onestein.Crypto.Signature
import Onestein.Identity.Identifier
import Onestein.Lib.Fallible
import Onestein.Lib.Word

/-!
# Device certificates

What binds a device's keys to an identity: a dictionary of its keys, signed by both root keys
and carried in a container with both signatures.

## Main definitions

* `DeviceCertificate.encode` — the bytes that are signed.
* `RootKeys.signWithLabel` — the container with both signatures.
* `openContainer`, `verifyCertificate` — what a contact checks.

## Main results

* `dictionary_toBytes_flat`, `eq_toBytes_of_dictionary` — a dictionary that is read strictly is the
  one that was written.
* `openContainer_eq_ok` — what an accepted container holds.
* `DeviceCertificate.read_fields` — the fields read back are the ones that were written.
-/

namespace Onestein.Identity

open Crypto Bdf

def certificateLabel : Bytes := Bytes.utf8 "org.onestein.identity/DEVICE_CERTIFICATE"

def revocationLabel : Bytes := Bytes.utf8 "org.onestein.identity/DEVICE_REVOCATION"

/-! ## What a certificate says -/

/-- What a device certificate says. -/
structure DeviceCertificate where
  identityId : IdentityId
  deviceSigningPub : Octets 32
  dhStaticPub : Octets 32
  kemStaticPub : Octets 1184
  epoch : UInt64
  fromMs : UInt64
  deriving DecidableEq

namespace DeviceCertificate

/-- The fields, in the order a verifier will see. -/
def fields (certificate : DeviceCertificate) (epoch fromMs : Int64) : List (String × Value) :=
  [("dev", .raw certificate.deviceSigningPub.toList),
    ("dh", .raw certificate.dhStaticPub.toList),
    ("epoch", .int epoch),
    ("from", .int fromMs),
    ("id", .raw certificate.identityId.bytes.toList),
    ("kem", .raw certificate.kemStaticPub.toList),
    ("v", .int identityVersion.toUInt64.toInt64)]

/-- Encodes the certificate as canonical BDF: exactly the bytes that are signed. -/
def encode (certificate : DeviceCertificate) : Except Error Bytes := do
  let epoch ← certificate.epoch.toInt64?.okOr .outOfRange
  let fromMs ← certificate.fromMs.toInt64?.okOr .outOfRange
  .ok (toBytes (.dict (certificate.fields epoch fromMs)))

/-- The value both root keys sign. -/
def toSign [Blake2b] (certificate : DeviceCertificate) : Except Error Digest := do
  let encoded ← certificate.encode
  .ok (hash [certificateLabel, encoded])

end DeviceCertificate

/-! ## Signing -/

/-- An identity's root secret keys, as the two seeds they are built from. -/
structure RootKeys where
  ed25519 : Octets 32
  mldsa : Octets 32

/-- What a container carries, in canonical order. -/
def containerFields (encoded : Bytes) (ed25519 : Octets 64) (mldsa : Octets 3309) :
    List (String × Value) :=
  [("c", .raw encoded), ("e", .raw ed25519.toList), ("p", .raw mldsa.toList)]

namespace RootKeys

variable [Blake2b] [Ed25519] [MlDsa65]

/-- The Ed25519 root public key. -/
def ed25519Public (keys : RootKeys) : Octets 32 := Ed25519.publicKey keys.ed25519

/-- The ML-DSA root public key. -/
def mldsaPublic (keys : RootKeys) : Octets 1952 := MlDsa65.publicKey keys.mldsa

/-- The identifier of this identity. -/
def identityId (keys : RootKeys) : Except Error IdentityId :=
  IdentityId.derive keys.ed25519Public.toList keys.mldsaPublic.toList

/-- Signs a structure under its label and wraps it with both signatures. -/
def signWithLabel (keys : RootKeys) (label encoded : Bytes) : Except Error Bytes := do
  let toSign : Digest := hash [label, encoded]
  let ed25519 := Ed25519.sign keys.ed25519 toSign.toList
  let mldsa ← (MlDsa65.sign keys.mldsa toSign.toList).okOr .signing
  .ok (toBytes (.dict (containerFields encoded ed25519 mldsa)))

/-- Signs a certificate with both root keys. -/
def signCertificate (keys : RootKeys) (certificate : DeviceCertificate) : Except Error Bytes := do
  keys.signWithLabel certificateLabel (← certificate.encode)

end RootKeys

/-! ## Reading -/

/-- Parses canonical BDF into a dictionary. -/
def dictionary (bytes : Bytes) : Except Error (List (String × Value)) :=
  match fromBytesCanonical bytes with
  | .ok (.dict entries) => .ok entries
  | _ => .error .malformed

def raw (fields : List (String × Value)) (key : String) : Except Error Bytes :=
  match fields.find? (·.1 == key) with
  | some (_, .raw bytes) => .ok bytes
  | _ => .error .malformed

def integer (fields : List (String × Value)) (key : String) : Except Error Int64 :=
  match fields.find? (·.1 == key) with
  | some (_, .int number) => .ok number
  | _ => .error .malformed

def exact (n : Nat) (bytes : Bytes) : Except Error (Octets n) :=
  (Octets.ofBytes? bytes).okOr .malformed

section Verify

variable [Ed25519] [MlDsa65]

def verifyEd25519 (publicKey message signature : Bytes) : Except Error Unit := do
  let key ← exact 32 publicKey
  if ¬ Ed25519.isKey key then .error .badSignature else
  let signature ← exact 64 signature
  if Ed25519.verify key message signature then .ok () else .error .badSignature

def verifyMldsa (publicKey message signature : Bytes) : Except Error Unit := do
  let key ← (Octets.ofBytes? publicKey).okOr .badSignature
  let signature ← (Octets.ofBytes? signature).okOr .badSignature
  if ¬ MlDsa65.isSignature signature then .error .badSignature else
  if MlDsa65.verify key message signature then .ok () else .error .badSignature

/-- Opens a signed container: both signatures over the bytes inside, then the bytes parsed. -/
def openContainer [Blake2b] (container rootEd25519 rootMldsa label : Bytes) :
    Except Error (List (String × Value) × IdentityId) := do
  let expectedIdentity ← IdentityId.derive rootEd25519 rootMldsa
  let fields ← dictionary container
  let signed ← raw fields "c"
  let toSign : Digest := hash [label, signed]
  verifyEd25519 rootEd25519 toSign.toList (← raw fields "e")
  verifyMldsa rootMldsa toSign.toList (← raw fields "p")
  .ok (← dictionary signed, expectedIdentity)

/-- The part of a container that its signatures are over. -/
def signedPart (container : Bytes) : Except Error Bytes := do
  raw (← dictionary container) "c"

/-- The certificate that is read from the fields of an opened container. -/
def DeviceCertificate.read (body : List (String × Value)) (expectedIdentity : IdentityId) :
    Except Error DeviceCertificate := do
  if (← integer body "v") ≠ identityVersion.toUInt64.toInt64 then .error .malformed else
  if (← raw body "id") ≠ expectedIdentity.bytes.toList then .error .wrongIdentity else
  let epoch ← integer body "epoch"
  let fromMs ← integer body "from"
  .ok {
    identityId := expectedIdentity
    deviceSigningPub := ← exact 32 (← raw body "dev")
    dhStaticPub := ← exact 32 (← raw body "dh")
    kemStaticPub := ← exact 1184 (← raw body "kem")
    epoch := ← epoch.toUInt64?.okOr .malformed
    fromMs := ← fromMs.toUInt64?.okOr .malformed }

/-- Verifies a certificate container against the root keys a contact already holds. -/
def verifyCertificate [Blake2b] (container rootEd25519 rootMldsa : Bytes) :
    Except Error DeviceCertificate := do
  let (body, expectedIdentity) ← openContainer container rootEd25519 rootMldsa certificateLabel
  DeviceCertificate.read body expectedIdentity

end Verify

/-! ## What is read is what was written -/

section Dictionary

variable {bytes : Bytes} {fields : List (String × Value)} {key : String}

theorem dictionary_eq_ok :
    dictionary bytes = .ok fields ↔ fromBytesCanonical bytes = .ok (.dict fields) := by
  unfold dictionary
  split
  case h_1 entries h => simp [h]
  case h_2 hne =>
    constructor
    · intro h
      cases h
    · intro h
      exact absurd h (hne fields)

/-- A dictionary that is read strictly is byte for byte the one that is written. -/
theorem eq_toBytes_of_dictionary (h : dictionary bytes = .ok fields) :
    bytes = toBytes (.dict fields) :=
  (Encodes.eq_toBytes _ (fromBytesCanonical_eq_ok.mp (dictionary_eq_ok.mp h)).1).1

/-- A dictionary without containers reads back if its keys are in order. -/
theorem dictionary_toBytes_flat (names : List String) (hnames : fields.map Prod.fst = names)
    (hsorted : (names.zip (names.drop 1)).all fun (left, right) =>
      decide (Bytes.utf8 left < Bytes.utf8 right))
    (hflat : nestingEntries fields = 0) (hfit : FitEntries fields) :
    dictionary (toBytes (.dict fields)) = .ok fields :=
  dictionary_eq_ok.mpr (fromBytesCanonical_toBytes_flat names hnames hsorted hflat hfit)

theorem exact_eq_ok {n : Nat} {v : Octets n} : exact n bytes = .ok v ↔ v.toList = bytes := by
  rw [exact, Option.okOr_eq_ok, Octets.ofBytes?_eq_some]

end Dictionary

theorem verifyEd25519_eq_ok [Ed25519] {key : Octets 32} {message signature : Bytes}
    (h : verifyEd25519 key.toList message signature = .ok ()) :
    ∃ s : Octets 64, s.toList = signature ∧ Ed25519.verify key message s := by
  simp only [verifyEd25519, Except.bind_eq_ok, Except.ite_error_eq_ok, Except.ite_eq_ok,
    exact_eq_ok] at h
  obtain ⟨key', hkey, -, s, hs, hverify, -⟩ := h
  obtain rfl := Vector.toList_inj.mp hkey
  exact ⟨s, hs, hverify⟩

theorem verifyMldsa_eq_ok [MlDsa65] {key : Octets 1952} {message signature : Bytes}
    (h : verifyMldsa key.toList message signature = .ok ()) :
    ∃ s : Octets 3309, s.toList = signature ∧ MlDsa65.verify key message s := by
  simp only [verifyMldsa, Except.bind_eq_ok, Except.ite_error_eq_ok, Except.ite_eq_ok,
    Option.okOr_eq_ok, Octets.ofBytes?_eq_some] at h
  obtain ⟨key', hkey, s, hs, -, hverify, -⟩ := h
  obtain rfl := Vector.toList_inj.mp hkey
  exact ⟨s, hs, hverify⟩

/-- The container that signing makes. -/
theorem signWithLabel_eq_ok [Blake2b] [Ed25519] [MlDsa65] {keys : RootKeys}
    {label encoded container : Bytes} :
    keys.signWithLabel label encoded = .ok container ↔
      ∃ p, MlDsa65.sign keys.mldsa (hash [label, encoded] : Digest).toList = some p ∧
        toBytes (.dict (containerFields encoded
          (Ed25519.sign keys.ed25519 (hash [label, encoded] : Digest).toList) p)) = container := by
  simp [RootKeys.signWithLabel, Except.bind_eq_ok]

theorem dictionary_containerFields {encoded : Bytes} (e : Octets 64) (p : Octets 3309)
    (hlen : encoded.length ≤ maxLen) :
    dictionary (toBytes (.dict (containerFields encoded e p))) =
      .ok (containerFields encoded e p) := by
  refine dictionary_toBytes_flat ["c", "e", "p"] rfl (by decide) rfl ?_
  simp [containerFields, FitEntries, Value.Fits, hlen]
  simp [maxLen]
  decide

/-- Both signatures of an opened container are over the label and its signed part. -/
theorem openContainer_eq_ok [Blake2b] [Ed25519] [MlDsa65]
    {container rootEd25519 rootMldsa label : Bytes} {body : List (String × Value)}
    {identity : IdentityId}
    (h : openContainer container rootEd25519 rootMldsa label = .ok (body, identity)) :
    ∃ signed, signedPart container = .ok signed ∧ dictionary signed = .ok body ∧
      IdentityId.derive rootEd25519 rootMldsa = .ok identity ∧
      (∃ s, verifyEd25519 rootEd25519 (hash [label, signed] : Digest).toList s = .ok ()) ∧
      ∃ s, verifyMldsa rootMldsa (hash [label, signed] : Digest).toList s = .ok () := by
  simp only [openContainer, Except.bind_eq_ok] at h
  obtain ⟨id, hid, fields, hfields, signed, hsigned, e, he, ⟨⟩, hed, p, hp, ⟨⟩, hml, body', hbody,
    heq⟩ := h
  obtain ⟨rfl, rfl⟩ := Prod.mk.inj (Except.ok.inj heq)
  refine ⟨signed, ?_, hbody, hid, ⟨e, hed⟩, p, hml⟩
  rw [signedPart, hfields]
  exact hsigned

section Signed

variable [Blake2b] [Ed25519] [MlDsa65] {keys : RootKeys} {label encoded container : Bytes}

theorem signedPart_signWithLabel (hlen : encoded.length ≤ maxLen)
    (h : keys.signWithLabel label encoded = .ok container) :
    signedPart container = .ok encoded := by
  obtain ⟨p, -, rfl⟩ := signWithLabel_eq_ok.mp h
  rw [signedPart, dictionary_containerFields _ p hlen]
  rfl

omit [Blake2b] [MlDsa65] in
theorem verifyEd25519_sign {seed : Octets 32} {message : Bytes}
    (h : Ed25519.Verifies seed message) :
    verifyEd25519 (Ed25519.publicKey seed).toList message (Ed25519.sign seed message).toList =
      .ok () := by
  obtain ⟨hkey, hverify⟩ := h
  simp [verifyEd25519, exact, hkey, hverify]

omit [Blake2b] [Ed25519] in
theorem verifyMldsa_sign {seed : Octets 32} {message : Bytes} {signature : Octets 3309}
    (h : MlDsa65.Verifies seed message) (hsign : MlDsa65.sign seed message = some signature) :
    verifyMldsa (MlDsa65.publicKey seed).toList message signature.toList = .ok () := by
  obtain ⟨hsignature, hverify⟩ := h signature hsign
  simp [verifyMldsa, hsignature, hverify]

/-- A container that was signed under a label is opened under it. -/
theorem openContainer_signWithLabel {body : List (String × Value)} {identity : IdentityId}
    (hid : keys.identityId = .ok identity) (hlen : encoded.length ≤ maxLen)
    (hbody : dictionary encoded = .ok body)
    (hed : Ed25519.Verifies keys.ed25519 (hash [label, encoded] : Digest).toList)
    (hml : MlDsa65.Verifies keys.mldsa (hash [label, encoded] : Digest).toList)
    (h : keys.signWithLabel label encoded = .ok container) :
    openContainer container keys.ed25519Public.toList keys.mldsaPublic.toList label =
      .ok (body, identity) := by
  obtain ⟨p, hp, rfl⟩ := signWithLabel_eq_ok.mp h
  have he := verifyEd25519_sign hed
  have hp := verifyMldsa_sign hml hp
  rw [openContainer, dictionary_containerFields _ p hlen]
  simp only [RootKeys.identityId, RootKeys.ed25519Public, RootKeys.mldsaPublic] at hid ⊢
  simp [hid, hbody, he, hp, raw, containerFields]

end Signed

/-! ## How long a statement is -/

theorem length_key_le {n : Nat} (hn : n ≤ 1184) (v : Octets n) :
    (toBytes (.raw v.toList)).length ≤ 1193 := by
  have hsized := length_sized_le 0x50 v.toList
  rw [Vector.length_toList] at hsized
  exact hsized.trans (by omega)

theorem length_number_le (number : Int64) : (toBytes (.int number)).length ≤ 1193 :=
  (length_toBytes_int_le number).trans (by decide)

/-- A few keys and numbers under short names fit a container. -/
theorem length_statement_le {fields : List (String × Value)} (names : List String)
    (hnames : fields.map Prod.fst = names) (hcount : names.length ≤ 7)
    (hkeys : ∀ key ∈ names, (Bytes.utf8 key).length ≤ 8)
    (hitems : ∀ entry ∈ fields, (toBytes entry.2).length ≤ 1193) :
    (toBytes (.dict fields)).length ≤ maxLen := by
  subst hnames
  have hentry : ∀ entry ∈ fields,
      (Bytes.utf8 entry.1).length + (toBytes entry.2).length ≤ 8 + 1193 := fun entry hmem =>
    Nat.add_le_add (hkeys entry.1 (List.mem_map.mpr ⟨entry, hmem, rfl⟩)) (hitems entry hmem)
  rw [List.length_map] at hcount
  calc (toBytes (.dict fields)).length
      ≤ (8 + 1193 + 9) * fields.length + 2 := length_toBytes_dict_le hentry
    _ ≤ (8 + 1193 + 9) * 7 + 2 := by omega
    _ ≤ maxLen := by decide

namespace DeviceCertificate

variable {certificate : DeviceCertificate} {epoch fromMs : Int64}

theorem encode_eq_ok {encoded : Bytes} :
    certificate.encode = .ok encoded ↔ ∃ epoch fromMs, certificate.epoch.toInt64? = some epoch ∧
      certificate.fromMs.toInt64? = some fromMs ∧
      toBytes (.dict (certificate.fields epoch fromMs)) = encoded := by
  simp [encode, Except.bind_eq_ok]

/-- The order of the fields is the canonical one. -/
theorem dictionary_fields :
    dictionary (toBytes (.dict (certificate.fields epoch fromMs))) =
      .ok (certificate.fields epoch fromMs) := by
  refine dictionary_toBytes_flat ["dev", "dh", "epoch", "from", "id", "kem", "v"] rfl
    (by decide) rfl ?_
  simp [fields, FitEntries, Value.Fits, maxLen]
  decide

/-- The fields read back are the ones that were written. -/
theorem read_fields {identity : IdentityId} (hepoch : certificate.epoch.toInt64? = some epoch)
    (hfrom : certificate.fromMs.toInt64? = some fromMs) :
    read (certificate.fields epoch fromMs) identity =
      if certificate.identityId = identity then .ok certificate else .error .wrongIdentity := by
  rw [UInt64.toInt64?_eq_some_iff] at hepoch hfrom
  by_cases h : certificate.identityId = identity
  · subst h
    simp [read, fields, raw, integer, exact, hepoch, hfrom]
  · simp [read, fields, raw, integer, h]

theorem length_encode_le {encoded : Bytes} (h : certificate.encode = .ok encoded) :
    encoded.length ≤ maxLen := by
  obtain ⟨epoch, fromMs, -, -, rfl⟩ := encode_eq_ok.mp h
  have hkeys : ∀ key ∈ ["dev", "dh", "epoch", "from", "id", "kem", "v"],
      (Bytes.utf8 key).length ≤ 8 := by decide
  refine length_statement_le ["dev", "dh", "epoch", "from", "id", "kem", "v"] rfl
    (by decide) hkeys ?_
  simp only [fields, List.forall_mem_cons]
  exact ⟨length_key_le (by decide) _, length_key_le (by decide) _, length_number_le _,
    length_number_le _, length_key_le (by decide) _, length_key_le (by decide) _,
    length_number_le _, by simp⟩

/-- A certificate that was signed is verified, unless it names another identity. -/
theorem verify_sign [Blake2b] [Ed25519] [MlDsa65] {keys : RootKeys} {identity : IdentityId}
    {container : Bytes} (hid : keys.identityId = .ok identity)
    (hverifies : ∀ toSign, certificate.toSign = .ok toSign →
      Ed25519.Verifies keys.ed25519 toSign.toList ∧ MlDsa65.Verifies keys.mldsa toSign.toList)
    (h : keys.signCertificate certificate = .ok container) :
    signedPart container = certificate.encode ∧
      verifyCertificate container keys.ed25519Public.toList keys.mldsaPublic.toList =
        if certificate.identityId = identity then .ok certificate else .error .wrongIdentity := by
  obtain ⟨encoded, hencode, hsign⟩ := Except.bind_eq_ok.mp h
  have hlen := length_encode_le hencode
  obtain ⟨hed, hml⟩ := hverifies (hash [certificateLabel, encoded]) (by simp [toSign, hencode])
  refine ⟨(signedPart_signWithLabel hlen hsign).trans hencode.symm, ?_⟩
  obtain ⟨epoch, fromMs, hepoch, hfrom, rfl⟩ := encode_eq_ok.mp hencode
  rw [verifyCertificate, openContainer_signWithLabel hid hlen dictionary_fields hed hml hsign]
  exact read_fields hepoch hfrom

end DeviceCertificate

end Onestein.Identity
