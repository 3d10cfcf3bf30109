import Onestein.Contact.Rendezvous
import Onestein.Identity.Devices
import Onestein.Separation.Signing

/-!
# From a link to the author of a message

A link carries a commitment to a bundle, the bundle the root keys of an identity, a certificate the
key of a device, and a message the signature of a device. Only the link comes over a channel that at
most reflows it. All the rest may come from anywhere, and is checked against what came before.

## Main definitions

* `Evidence` — what somebody was handed.
* `Evidence.Attributes` — the checks, from the link to the message.

## Main results

* `Evidence.traces_to` — a message that passes all checks was written by the giver of the link.
-/

namespace Onestein

open Crypto
open Contact (ContactBundle ContactLink Party)
open Identity (Arrival DeviceCertificate IdentityId verifyCertificate consider)
open Statement (fedFor opened signedFor)
open Sync (SignedMessage decodeMessage)

/-- What somebody was handed: the text of a link, a bundle, containers in some order, and the
payload of a message. -/
structure Evidence where
  text : String
  bundle : Bytes
  recorded : UInt64
  arrivals : List Arrival
  payload : Bytes

section Checks

variable [Blake2b] [Ed25519] [MlDsa65]

/-- What a contact says to the containers, with the root keys of a bundle. -/
def Evidence.said (evidence : Evidence) (bundle : ContactBundle) :
    List (Except Identity.Error Identity.Statement) :=
  Run.outputs (consider bundle.rootEd25519.toList bundle.rootMldsa) evidence.recorded
    evidence.arrivals

/-- The bundle passes the check of the link, the certificate is admitted with the root keys of the
bundle, and the message verifies and names the device and the identity of the certificate. -/
structure Evidence.Attributes (evidence : Evidence) (bundle : ContactBundle) (n : Nat)
    (certificate : DeviceCertificate) (signed : SignedMessage) : Prop where
  decoded : ContactBundle.decode evidence.bundle = .ok bundle
  checked : ∃ link, ContactLink.parse evidence.text = .ok link ∧
    bundle.check link.commitment = .ok ()
  admitted : (evidence.said bundle)[n]? = some (.ok (.certificate certificate))
  read : decodeMessage evidence.payload = .ok signed
  verified : signed.verify = .ok ()
  device : signed.message.deviceKey = certificate.deviceSigningPub
  author : signed.message.author = certificate.identityId

omit [Blake2b] [Ed25519] [MlDsa65] in
/-- The identity of a certificate is the one that is expected. -/
theorem identityId_of_read {body : List (String × Bdf.Value)} {identity : IdentityId}
    {certificate : DeviceCertificate}
    (h : DeviceCertificate.read body identity = .ok certificate) :
    certificate.identityId = identity := by
  simp only [DeviceCertificate.read, Except.bind_eq_ok, Except.ite_error_eq_ok] at h
  obtain ⟨_, -, -, _, -, -, _, -, _, -, _, -, _, -, _, -, _, -, _, -, _, -, _, -, _, -, hok⟩ := h
  rw [← Except.ok.inj hok]

/-- A certificate names the identity of the root keys that it is verified with. -/
theorem identityId_of_verify {container rootEd25519 rootMldsa : Bytes}
    {certificate : DeviceCertificate}
    (h : verifyCertificate container rootEd25519 rootMldsa = .ok certificate) :
    IdentityId.derive rootEd25519 rootMldsa = .ok certificate.identityId := by
  obtain ⟨⟨body, identity⟩, hopen, hread⟩ := Except.bind_eq_ok.mp h
  obtain ⟨-, -, -, hderive, -⟩ := Identity.openContainer_eq_ok hopen
  rwa [identityId_of_read hread]

/-- What is admitted is verified. -/
theorem verify_of_admitted {evidence : Evidence} {bundle : ContactBundle} {n : Nat}
    {certificate : DeviceCertificate}
    (h : (evidence.said bundle)[n]? = some (.ok (.certificate certificate))) :
    ∃ container, .certificate container ∈ evidence.arrivals ∧
      verifyCertificate container bundle.rootEd25519.toList bundle.rootMldsa = .ok certificate := by
  obtain ⟨arrival, harrival, hsaid⟩ := Run.exists_of_outputs h
  obtain ⟨hverify, -⟩ := Identity.consider_eq_ok.mp hsaid
  cases arrival with
  | certificate container =>
    obtain ⟨c, hc, hok⟩ := Except.bind_eq_ok.mp hverify
    obtain rfl := Identity.Statement.certificate.inj (Except.ok.inj hok)
    exact ⟨container, List.mem_of_getElem? harrival, hc⟩
  | revocation container =>
    obtain ⟨r, -, hok⟩ := Except.bind_eq_ok.mp hverify
    cases hok

/-- A message that passes all checks from a link on was written by whom the link is of. The bundle
is theirs, their root key signed the certificate, their identity is the author, and the device that
was certified signed the message, which is the whole payload. And nothing that was admitted before
the certificate was of a later epoch. Wherever bundle, containers and message come from, only the
link comes over a channel that changes no more of it than white space and the case of letters; the
hash has no collision among what is hashed, and nobody forges Ed25519 for the root key or a device
that it certified. -/
theorem Evidence.traces_to [X25519] (theirs : Party) (S : Octets 32 → Set Statement)
    (evidence : Evidence) (bundle : ContactBundle) (n : Nat) (certificate : DeviceCertificate)
    (signed : SignedMessage) (htext : theirs.link.Reflowed evidence.text)
    (h : evidence.Attributes bundle n certificate signed)
    (hbundle : Set.InjOn Blake2b.digest
      {frame (ContactBundle.committed (Bdf.toBytes (.dict bundle.fields))),
        frame (ContactBundle.committed theirs.sent)})
    (hcontainers : ∀ arrival ∈ evidence.arrivals, Set.InjOn Blake2b.digest
      (fedFor (S theirs.bundle.rootEd25519) ∪ opened arrival.container))
    (hmessage : Set.InjOn Blake2b.digest
      (fedFor (insert (.message signed.message) (S signed.message.deviceKey))))
    (hroot : Ed25519.Ideal theirs.bundle.rootEd25519 (signedFor (S theirs.bundle.rootEd25519)))
    (hdevices : ∀ c, Statement.certificate c ∈ S theirs.bundle.rootEd25519 →
      Ed25519.Ideal c.deviceSigningPub (signedFor (S c.deviceSigningPub))) :
    bundle = theirs.bundle ∧ Statement.certificate certificate ∈ S theirs.bundle.rootEd25519 ∧
      IdentityId.derive theirs.bundle.rootEd25519.toList theirs.bundle.rootMldsa =
        .ok signed.message.author ∧
      Statement.message signed.message ∈ S certificate.deviceSigningPub ∧
      signed.message.encode signed.signature = .ok evidence.payload ∧
      ∀ m < n, ∀ statement, (evidence.said bundle)[m]? = some (.ok statement) →
        statement.epoch ≤ certificate.epoch := by
  obtain ⟨link, hparse, hcheck⟩ := h.checked
  have hlink : ContactLink.parse evidence.text = .ok theirs.link :=
    ContactLink.parse_of_reflowed htext (ContactLink.prefixWhole_of_parse hparse)
  obtain rfl := Except.ok.inj (hlink.symm.trans hparse)
  obtain rfl := (Party.check_commitment_iff h.decoded hbundle).mp hcheck
  obtain ⟨container, hmem, hverify⟩ := verify_of_admitted h.admitted
  have hcertificate : Statement.certificate certificate ∈ S theirs.bundle.rootEd25519 :=
    Statement.certificate_mem hroot (hcontainers _ hmem) hverify
  have hwritten : Statement.message signed.message ∈ S certificate.deviceSigningPub := by
    rw [h.device] at hmessage
    exact Statement.message_mem (hdevices certificate hcertificate) hmessage h.device h.verified
  refine ⟨rfl, hcertificate, ?_, hwritten, Sync.encode_of_decodeMessage h.read, ?_⟩
  · rw [h.author]
    exact identityId_of_verify hverify
  · intro m hm statement hearlier
    rw [← Identity.stateAt_succ_of_admitted hearlier]
    rw [show certificate.epoch = (Identity.Statement.certificate certificate).epoch from rfl,
      ← Identity.stateAt_succ_of_admitted h.admitted]
    exact Identity.stateAt_consider_mono (by omega)

end Checks

/-! ## A message of somebody whose link was pasted -/

namespace Evidence.Sample

attribute [local instance] checksum Handshake.Sample.x25519

open Identity.Sample (keys identity certificate encoded encode_certificate)

def root : Octets 32 := .replicate 32 0x11

/-- It was written on the device that was certified. -/
def message : Sync.Message :=
  ⟨⟨.replicate 32 0x66⟩, 1600000000000, identity, certificate.deviceSigningPub,
    Bytes.utf8 "hello"⟩

/-- What is signed for the two. -/
def toSign : Digest := (Hashed.certificate encoded).digest

def toSignMessage : Digest := hash message.signParts

/-- What each key signed. -/
def signatures : List (Octets 32 × Bytes) :=
  [(root, toSign.toList), (certificate.deviceSigningPub, toSignMessage.toList)]

/-- A signature is its message, and nothing verifies under a key but what was signed with it. -/
abbrev ed25519 : Ed25519 where
  publicKey seed := seed
  sign _ message := Octets.be 64 (Bytes.val message)
  isKey _ := true
  verify key message signature :=
    (key, message) ∈ signatures && signature == Octets.be 64 (Bytes.val message)

attribute [local instance] ed25519

local instance : MlDsa65 := Identity.Sample.mldsa65 [toSign.toList]

def statements (key : Octets 32) : Set Statement :=
  if key = root then {.certificate certificate} else {.message message}

def theirs : Party where
  contactSecret := .replicate 32 7
  bundle := ⟨root, keys.mldsaPublic.toList, .replicate 32 7⟩
  length_rootMldsa := Vector.length_toList
  contactKey_eq := rfl

def container : Bytes := (keys.signCertificate certificate).toOption.getD []

def signed : SignedMessage :=
  ⟨message, Ed25519.sign certificate.deviceSigningPub toSignMessage.toList⟩

def evidence : Evidence where
  text := Contact.Sample.pasted theirs.link
  bundle := theirs.sent
  recorded := 0
  arrivals := [.certificate container]
  payload := (message.encode signed.signature).toOption.getD []

theorem verify_eq_true {key : Octets 32} {message : Bytes} (h : (key, message) ∈ signatures) :
    Ed25519.verify key message (Octets.be 64 (Bytes.val message)) = true :=
  Bool.and_eq_true_iff.mpr ⟨decide_eq_true h, beq_self_eq_true _⟩

theorem verify_container : Identity.signedPart container = .ok encoded ∧
    verifyCertificate container root.toList keys.mldsaPublic.toList = .ok certificate := by
  have hid : keys.identityId = .ok identity := by decide +kernel
  have hnames : certificate.identityId = identity := rfl
  have hsign : keys.signCertificate certificate = .ok container := by
    rw [Identity.RootKeys.signCertificate, encode_certificate, Except.ok_bind, container,
      Identity.RootKeys.signCertificate, encode_certificate, Except.ok_bind]
    rfl
  have hverifies (d : Digest) (h : certificate.toSign = .ok d) :
      Ed25519.Verifies keys.ed25519 d.toList ∧ MlDsa65.Verifies keys.mldsa d.toList := by
    rw [DeviceCertificate.toSign, encode_certificate, Except.ok_bind] at h
    obtain rfl : toSign = d := Except.ok.inj h
    refine ⟨⟨rfl, verify_eq_true (List.mem_cons_self)⟩, fun signature hsignature => ?_⟩
    obtain rfl := Option.some.inj hsignature
    refine ⟨rfl, Bool.and_eq_true_iff.mpr ⟨?_, beq_self_eq_true _⟩⟩
    exact decide_eq_true (List.mem_singleton.mpr rfl)
  obtain ⟨hpart, hverify⟩ := DeviceCertificate.verify_sign hid hverifies hsign
  rw [if_pos hnames] at hverify
  exact ⟨hpart.trans encode_certificate, hverify⟩

theorem toSign_message : message.toSign = .ok toSignMessage :=
  Sync.Message.toSign_eq_ok.mpr ⟨by decide, rfl⟩

theorem encode_message : message.encode signed.signature = .ok evidence.payload := by
  obtain ⟨b, hb⟩ : ∃ b, message.encode signed.signature = .ok b :=
    ⟨_, Sync.Message.encode_eq_ok.mpr ⟨by decide, rfl⟩⟩
  simp [evidence, hb, Except.toOption]

theorem decode_sent : ContactBundle.decode theirs.sent = .ok theirs.bundle := by
  obtain ⟨encoded, hencoded, hread⟩ := ContactBundle.decode_encode theirs.length_rootMldsa
  rwa [← Except.ok.inj (hencoded.symm.trans theirs.encode_eq)]

/-- All the checks pass. -/
theorem attributes_evidence : evidence.Attributes theirs.bundle 0 certificate signed where
  decoded := decode_sent
  checked := ⟨theirs.link, Contact.Sample.parse_pasted theirs.link,
    (Party.check_commitment_iff decode_sent (by simp [Party.sent])).mpr rfl⟩
  admitted := by
    have hverify : (Arrival.certificate container).verify root.toList keys.mldsaPublic.toList =
        .ok (.certificate certificate) := by
      rw [Arrival.verify, verify_container.2]
      rfl
    exact congrArg some (Identity.consider_eq_ok.mpr ⟨hverify, by decide⟩)
  read := Sync.decodeMessage_encode encode_message
  verified := SignedMessage.verify_eq_ok.mpr ⟨rfl, toSignMessage, toSign_message,
    verify_eq_true (List.mem_cons_of_mem _ List.mem_cons_self)⟩
  device := rfl
  author := rfl

theorem statements_root : statements root = {.certificate certificate} := if_pos rfl

theorem statements_device : statements certificate.deviceSigningPub = {.message message} :=
  if_neg (by decide)

theorem mem_signatures {key : Octets 32} {bytes : Bytes} {signature : Octets 64}
    (h : Ed25519.verify key bytes signature) :
    key = root ∧ bytes = toSign.toList ∨
      key = certificate.deviceSigningPub ∧ bytes = toSignMessage.toList := by
  have hmem : (key, bytes) ∈ signatures := of_decide_eq_true (Bool.and_eq_true_iff.mp h).1
  simpa [signatures] using hmem

theorem ideal_root : Ed25519.Ideal root (signedFor (statements root)) := by
  intro bytes signature h
  obtain ⟨-, rfl⟩ | ⟨hkey, -⟩ := mem_signatures h
  · refine ⟨.certificate certificate, by simp [statements_root], ?_⟩
    simp [Statement.signed, Statement.hashed, encode_certificate, Except.toOption, toSign]
  · exact absurd hkey (by decide)

theorem ideal_device : Ed25519.Ideal certificate.deviceSigningPub
    (signedFor (statements certificate.deviceSigningPub)) := by
  intro bytes signature h
  obtain ⟨hkey, -⟩ | ⟨-, rfl⟩ := mem_signatures h
  · exact absurd hkey (by decide)
  · obtain ⟨id, hid, -⟩ := Except.bind_eq_ok.mp toSign_message
    have hsign := (Hashed.id_message hid).2.2.symm.trans toSign_message
    refine ⟨.message message, by simp [statements_device], ?_⟩
    simp [Statement.signed, Statement.hashed, hid, Except.toOption, Except.ok.inj hsign]

theorem injOn_container : Set.InjOn Blake2b.digest
    (fedFor (statements root) ∪ opened container) := by
  have hsub : fedFor (statements root) ∪ opened container ⊆
      {frame (Hashed.certificate encoded).parts, frame (Hashed.revocation encoded).parts} := by
    rintro input (⟨s, hs, hinput⟩ | ⟨part, hpart, hinput⟩)
    · rw [statements_root] at hs
      obtain rfl := hs
      obtain ⟨hashed, hhashed, rfl⟩ := hinput
      simp [Statement.hashed, encode_certificate, Except.toOption] at hhashed
      simp [hhashed]
    · obtain rfl := Except.ok.inj (verify_container.1.symm.trans hpart)
      exact hinput
  have hdiffer : Blake2b.digest (frame (Hashed.certificate encoded).parts) ≠
      Blake2b.digest (frame (Hashed.revocation encoded).parts) := by decide +kernel
  refine Set.InjOn.mono hsub (Set.injOn_pair.mpr fun h => absurd h hdiffer)

theorem injOn_message : Set.InjOn Blake2b.digest
    (fedFor (insert (.message message) (statements certificate.deviceSigningPub))) := by
  have hsub : fedFor (insert (.message message) (statements certificate.deviceSigningPub)) ⊆
      {frame message.blockParts, frame message.idParts, frame message.signParts} := by
    rintro input ⟨s, hs, hinput⟩
    obtain rfl : s = .message message := by simpa [statements_device] using hs
    exact hinput
  have h₁ : Blake2b.digest (frame message.blockParts) ≠
      Blake2b.digest (frame message.idParts) := by decide +kernel
  have h₂ : Blake2b.digest (frame message.blockParts) ≠
      Blake2b.digest (frame message.signParts) := by decide +kernel
  have h₃ : Blake2b.digest (frame message.idParts) ≠
      Blake2b.digest (frame message.signParts) := by decide +kernel
  refine Set.InjOn.mono hsub ?_
  rintro x (rfl | rfl | rfl) y (rfl | rfl | rfl) h <;> simp_all

/-- The message passes all checks, and was signed on the device that was certified. -/
theorem traces_to_pasted : evidence.Attributes theirs.bundle 0 certificate signed ∧
    Statement.certificate certificate ∈ statements root ∧
    Statement.message signed.message ∈ statements certificate.deviceSigningPub := by
  have hdevices (c : DeviceCertificate) (hc : Statement.certificate c ∈ statements root) :
      Ed25519.Ideal c.deviceSigningPub (signedFor (statements c.deviceSigningPub)) := by
    rw [statements_root] at hc
    obtain rfl := Statement.certificate.inj hc
    exact ideal_device
  have hcontainers (arrival : Arrival) (harrival : arrival ∈ evidence.arrivals) :
      Set.InjOn Blake2b.digest (fedFor (statements root) ∪ opened arrival.container) := by
    obtain rfl := List.mem_singleton.mp harrival
    exact injOn_container
  obtain ⟨-, hcertificate, -, hmessage, -⟩ := traces_to theirs statements evidence theirs.bundle 0
    certificate signed (Contact.Sample.reflowed_pasted theirs.link) attributes_evidence
    (by simp [Party.sent]) hcontainers injOn_message ideal_root hdevices
  exact ⟨attributes_evidence, hcertificate, hmessage⟩

end Evidence.Sample

end Onestein
