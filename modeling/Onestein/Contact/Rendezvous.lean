import Onestein.Contact.Link
import Onestein.Handshake.Exchange

/-!
# Rendezvous

Two people exchange links over channels that reflow them. Each side agrees on a key with the contact
key in the other's link, over both commitments, and derives from it where both can be found. So only
those meet who hold each other's links, and the bundle that passes the check is that of the peer.

## Main definitions

* `rendezvousKey`, `addressSeed` — what is derived from an exchange of links.
* `Party` — somebody with a contact key and a bundle that names it.
* `Party.meet` — what a side makes of the text it is given.

## Main results

* `Party.rendezvous_agrees` — sides that read each other's links derive the same key.
* `Party.meeting_binds` — where two derive the same address they hold each other's commitments.
-/

namespace Onestein.Contact

open Crypto Bdf
open Base32 (isWhitespace significant)

def rendezvousLabel : Bytes := Bytes.utf8 "org.onestein.contact/RENDEZVOUS"

def addressALabel : Bytes := Bytes.utf8 "org.onestein.contact/ADDRESS_A"

def addressBLabel : Bytes := Bytes.utf8 "org.onestein.contact/ADDRESS_B"

/-- Which side of the pair an address belongs to. -/
inductive Side where
  | a
  | b
  deriving DecidableEq

/-- What the rendezvous key is the hash of. -/
def rendezvousParts (shared : Octets contactKeyLen) (commitmentA commitmentB : Digest) :
    List Bytes :=
  [rendezvousLabel, [contactVersion], shared.toList, commitmentA.toList, commitmentB.toList]

/-- The key both sides derive once they hold each other's links. -/
def rendezvousKey [X25519] [Blake2b] (ownContactSecret peerContactKey : Octets contactKeyLen)
    (commitmentA commitmentB : Digest) : Except Error Digest :=
  let shared := X25519.diffieHellman ownContactSecret peerContactKey
  if shared = .replicate 32 0 then .error .degenerateSharedSecret
  else .ok (hash (rendezvousParts shared commitmentA commitmentB))

def Side.label : Side → Bytes
  | a => addressALabel
  | b => addressBLabel

/-- The seed for one side's address on one transport in one time period. -/
def addressSeed [Blake2b] (rendezvousKey : Digest) (side : Side) (transportId : String)
    (period : UInt64) : Digest :=
  kdf rendezvousKey [side.label, Bytes.utf8 transportId, Bytes.be 8 period.toNat]

/-- Where one side can be found: on a transport, in a period. -/
@[ext] structure Address where
  side : Side
  transportId : String
  period : UInt64

namespace Address

/-- What the seed of an address is derived from. -/
def parts (address : Address) : List Bytes :=
  [address.side.label, Bytes.utf8 address.transportId, Bytes.be 8 address.period.toNat]

def seed [Blake2b] (address : Address) (rendezvousKey : Digest) : Digest :=
  addressSeed rendezvousKey address.side address.transportId address.period

end Address

/-! ## What goes into the derivations -/

theorem length_rendezvousParts (shared : Octets contactKeyLen) (commitmentA commitmentB : Digest) :
    ∀ part ∈ rendezvousParts shared commitmentA commitmentB, part.length < maxPart := by
  have hlabel : rendezvousLabel.length < maxPart := by decide
  simp [rendezvousParts, hlabel]
  decide

theorem rendezvousParts_injective {shared shared' : Octets contactKeyLen}
    {commitmentA commitmentB commitmentA' commitmentB' : Digest}
    (h : frame (rendezvousParts shared commitmentA commitmentB) =
      frame (rendezvousParts shared' commitmentA' commitmentB')) :
    shared = shared' ∧ commitmentA = commitmentA' ∧ commitmentB = commitmentB' := by
  have hparts := frame_injective (length_rendezvousParts _ _ _) (length_rendezvousParts _ _ _) h
  simpa [rendezvousParts, Vector.toList_inj] using hparts

/-- An address is fixed by what is fed for it. -/
theorem Address.parts_injective {address address' : Address}
    (h : frame address.parts = frame address'.parts) : address = address' := by
  have hsplit (address : Address) : frame address.parts = frame [address.side.label] ++
      frame [Bytes.utf8 address.transportId, Bytes.be 8 address.period.toNat] :=
    frame_append [address.side.label] _
  have hlength : (frame [address.side.label]).length = (frame [address'.side.label]).length := by
    cases address.side <;> cases address'.side <;> decide
  have hlabels : frame [address.side.label] = frame [address'.side.label] →
      address.side = address'.side := by
    cases address.side <;> cases address'.side <;> decide
  rw [hsplit, hsplit] at h
  obtain ⟨hlabel, hrest⟩ := List.append_inj h hlength
  obtain ⟨hid, hperiod⟩ := frame_pair_injective_of_length (by simp) hrest
  exact Address.ext (hlabels hlabel) (Bytes.utf8_injective hid) (Bytes.be_toNat_injective hperiod)

/-! ## Two parties -/

/-- Somebody with a contact key, and a bundle that names it. -/
structure Party [X25519] where
  contactSecret : Octets contactKeyLen
  bundle : ContactBundle
  length_rootMldsa : bundle.rootMldsa.length = rootMldsaLen
  contactKey_eq : bundle.contactKey = X25519.publicKey contactSecret

namespace Party

variable [X25519]

/-- The bundle as it is sent. -/
def sent (party : Party) : Bytes := toBytes (.dict party.bundle.fields)

/-- The secret that a party shares with whom it holds a contact key of. -/
def shared (party : Party) (peerContactKey : Octets contactKeyLen) : Octets contactKeyLen :=
  X25519.diffieHellman party.contactSecret peerContactKey

theorem encode_eq (party : Party) : party.bundle.encode = .ok party.sent :=
  ContactBundle.encode_eq_ok.mpr ⟨party.length_rootMldsa, rfl⟩

variable [Blake2b]

/-- The commitment to the bundle of a party. -/
def commitment (party : Party) : Digest := Crypto.hash (ContactBundle.committed party.sent)

theorem commitment_eq (party : Party) : party.bundle.commitment = .ok party.commitment := by
  simp [ContactBundle.commitment, encode_eq, commitment]

/-- The link that a party gives away. -/
def link (party : Party) : ContactLink := ⟨party.bundle.contactKey, party.commitment⟩

/-- The commitments in order, the one of side A first. -/
def ordered (party : Party) (side : Side) (peer : Digest) : Digest × Digest :=
  match side with
  | .a => (party.commitment, peer)
  | .b => (peer, party.commitment)

/-- What a side makes of the text it is given: the link in it, and the key for a rendezvous. -/
def meet (party : Party) (side : Side) (text : String) : Except Error (ContactLink × Digest) := do
  let peer ← ContactLink.parse text
  let (commitmentA, commitmentB) := party.ordered side peer.commitment
  let key ← rendezvousKey party.contactSecret peer.contactKey commitmentA commitmentB
  .ok (peer, key)

variable {a b party : Party} {side side' : Side} {text text' : String} {peer peer' : ContactLink}
  {key key' : Digest}

/-- What a side hashes for the rendezvous key. -/
def keyParts (party : Party) (side : Side) (peer : ContactLink) : List Bytes :=
  rendezvousParts (party.shared peer.contactKey) (party.ordered side peer.commitment).1
    (party.ordered side peer.commitment).2

theorem meet_of_parse (h : ContactLink.parse text = .ok peer) : party.meet side text =
    if party.shared peer.contactKey = .replicate 32 0 then .error .degenerateSharedSecret
    else .ok (peer, Crypto.hash (party.keyParts side peer)) := by
  by_cases hzero : X25519.diffieHellman party.contactSecret peer.contactKey = .replicate 32 0
  · simp only [meet, h, rendezvousKey, shared, hzero, if_true, Except.ok_bind]
    rfl
  · simp [meet, h, rendezvousKey, shared, hzero, keyParts]

theorem meet_eq_ok : party.meet side text = .ok (peer, key) ↔
    ContactLink.parse text = .ok peer ∧ party.shared peer.contactKey ≠ .replicate 32 0 ∧
      key = Crypto.hash (party.keyParts side peer) := by
  cases hparse : ContactLink.parse text with
  | error e =>
    have herror : party.meet side text = .error e := by
      rw [meet, hparse]
      rfl
    simp [herror]
  | ok link =>
    rw [meet_of_parse hparse, Except.ite_error_eq_ok]
    simp only [Except.ok.injEq, Prod.mk.injEq]
    grind

/-- What a side makes of a link that was reflowed: it reads the link, or there is none. -/
theorem meet_of_reflowed (h : peer.Reflowed text) : party.meet side text =
    if PrefixWhole text then
      if party.shared peer.contactKey = .replicate 32 0 then .error .degenerateSharedSecret
      else .ok (peer, Crypto.hash (party.keyParts side peer))
    else .error .notALink := by
  split
  case isTrue hwhole => exact meet_of_parse (ContactLink.parse_of_reflowed h hwhole)
  case isFalse hbroken =>
    rw [meet, ContactLink.parse_of_not_prefixWhole hbroken]
    rfl

omit [Blake2b] in
theorem shared_comm (hagree : X25519.Commutes) (a b : Party) :
    a.shared b.bundle.contactKey = b.shared a.bundle.contactKey := by
  rw [shared, shared, a.contactKey_eq, b.contactKey_eq]
  exact hagree _ _

/-- The two sides of a pair that hold each other's links hash the same. -/
theorem keyParts_comm (hagree : X25519.Commutes) (a b : Party) :
    b.keyParts .b a.link = a.keyParts .a b.link := by
  simp only [keyParts, link, ordered, shared_comm hagree a b]

/-- Two people exchange links over channels that change white space and the case of letters. Each of
them reads the link of the other if its prefix came whole, and finds no link otherwise. Those who
read one derive the same key, or learn that there is none. -/
theorem rendezvous_agrees (hagree : X25519.Commutes) (a b : Party) (toA toB : String)
    (hA : b.link.Reflowed toA) (hB : a.link.Reflowed toB) :
    ∃ key : Except Error Digest,
      (if a.shared b.bundle.contactKey = .replicate 32 0 then key = .error .degenerateSharedSecret
        else ∃ digest, key = .ok digest) ∧
      a.meet .a toA = (if PrefixWhole toA then key.map (b.link, ·) else .error .notALink) ∧
      b.meet .b toB = (if PrefixWhole toB then key.map (a.link, ·) else .error .notALink) := by
  have hcomm : b.shared a.link.contactKey = a.shared b.link.contactKey :=
    (shared_comm hagree a b).symm
  refine ⟨if a.shared b.link.contactKey = .replicate 32 0 then .error .degenerateSharedSecret
    else .ok (Crypto.hash (a.keyParts .a b.link)), ?_, ?_, ?_⟩
  · split
    case isTrue hzero => exact if_pos hzero
    case isFalse hzero => exact ⟨_, if_neg hzero⟩
  · rw [meet_of_reflowed hA]
    split_ifs <;> rfl
  · rw [meet_of_reflowed hB, keyParts_comm hagree a b, hcomm]
    split_ifs <;> rfl

/-- What passes the check against the commitment of a party is the bundle of the party. -/
theorem check_commitment_iff {received : Bytes} {bundle : ContactBundle}
    (hdecode : ContactBundle.decode received = .ok bundle)
    (hcollision : Set.InjOn Blake2b.digest
      {frame (ContactBundle.committed (toBytes (.dict bundle.fields))),
        frame (ContactBundle.committed party.sent)}) :
    bundle.check party.commitment = .ok () ↔ bundle = party.bundle := by
  obtain ⟨hlen, -⟩ := ContactBundle.decode_eq_ok.mp hdecode
  rw [ContactBundle.check_eq_ok (ContactBundle.encode_eq_ok.mpr ⟨hlen, rfl⟩)]
  constructor
  · intro hhash
    have hframe := hcollision (.inl rfl) (.inr rfl) hhash
    have hsent : toBytes (.dict bundle.fields) = party.sent :=
      frame_concat_injective [bundleLabel, [contactVersion]] hframe
    obtain ⟨encoded, hencoded, hread⟩ := ContactBundle.decode_encode hlen
    obtain ⟨encoded', hencoded', hread'⟩ := ContactBundle.decode_encode party.length_rootMldsa
    obtain rfl : toBytes (.dict bundle.fields) = encoded :=
      (ContactBundle.encode_eq_ok.mp hencoded).2
    obtain rfl : party.sent = encoded' := (ContactBundle.encode_eq_ok.mp hencoded').2
    rw [hsent] at hread
    exact Except.ok.inj (hread.symm.trans hread')
  · rintro rfl
    rfl

/-- Whatever texts the two sides were given, addresses that they derive are the same only for the
same shared secret and the same commitments on the same sides, and for one side, one transport and
one period. So if the two sides of a pair meet, each holds the commitment of the other, and what
passes the check against it is the bundle of the other. Among what is hashed, and what is derived
from, there is no collision. -/
theorem meeting_binds (a b : Party) (side side' : Side) (text text' : String)
    (peer peer' : ContactLink) (key key' : Digest) (h : a.meet side text = .ok (peer, key))
    (h' : b.meet side' text' = .ok (peer', key')) (address address' : Address)
    (hdigest : Set.InjOn Blake2b.digest
      {frame (a.keyParts side peer), frame (b.keyParts side' peer')})
    (hkeyed : Set.InjOn (fun use : Digest × Bytes => Blake2b.keyed use.1 use.2)
      {(key, frame address.parts), (key', frame address'.parts)}) :
    (address.seed key = address'.seed key' ↔
      a.shared peer.contactKey = b.shared peer'.contactKey ∧
        a.ordered side peer.commitment = b.ordered side' peer'.commitment ∧ address = address') ∧
      (address.seed key = address'.seed key' → side ≠ side' →
        peer.commitment = b.commitment ∧ peer'.commitment = a.commitment ∧
          ∀ received bundle, ContactBundle.decode received = .ok bundle →
            Set.InjOn Blake2b.digest
              {frame (ContactBundle.committed (toBytes (.dict bundle.fields))),
                frame (ContactBundle.committed b.sent)} →
            (bundle.check peer.commitment = .ok () ↔ bundle = b.bundle)) := by
  obtain ⟨-, -, rfl⟩ := meet_eq_ok.mp h
  obtain ⟨-, -, rfl⟩ := meet_eq_ok.mp h'
  have hseeds : address.seed (Crypto.hash (a.keyParts side peer)) =
      address'.seed (Crypto.hash (b.keyParts side' peer')) ↔
      a.shared peer.contactKey = b.shared peer'.contactKey ∧
        a.ordered side peer.commitment = b.ordered side' peer'.commitment ∧ address = address' := by
    constructor
    · intro heq
      obtain ⟨hkey, hfed⟩ := Prod.mk.inj (hkeyed (.inl rfl) (.inr rfl) heq)
      obtain ⟨hshared, hA, hB⟩ := rendezvousParts_injective (hdigest (.inl rfl) (.inr rfl) hkey)
      exact ⟨hshared, Prod.ext hA hB, Address.parts_injective hfed⟩
    · rintro ⟨hshared, hordered, rfl⟩
      simp only [keyParts, hshared, hordered]
  refine ⟨hseeds, fun heq hne => ?_⟩
  obtain ⟨-, hordered, -⟩ := hseeds.mp heq
  obtain ⟨hpeer, hpeer'⟩ : peer.commitment = b.commitment ∧ peer'.commitment = a.commitment := by
    cases side <;> cases side' <;> simp_all [ordered]
  refine ⟨hpeer, hpeer', fun received bundle hdecode hcollision => ?_⟩
  rw [hpeer]
  exact check_commitment_iff hdecode hcollision

end Party

namespace Sample

attribute [local instance] checksum Handshake.Sample.x25519

/-- Somebody with a secret of one byte over and over. -/
def party (byte : UInt8) : Party where
  contactSecret := .replicate 32 byte
  bundle := { ContactBundle.Sample.made with contactKey := .replicate 32 byte }
  length_rootMldsa := ContactBundle.Sample.length_rootMldsa
  contactKey_eq := rfl

/-- A link in lower case behind a space. -/
def pasted (link : ContactLink) : String :=
  String.ofList (' ' :: (linkPrefix.toList ++ (Base32.encode link.payload).toList.map Char.toLower))

/-- A link with its prefix in upper case. -/
def shouted (link : ContactLink) : String :=
  String.ofList (linkPrefix.toList.map Char.toUpper ++ (Base32.encode link.payload).toList)

theorem reflowed_pasted (link : ContactLink) : link.Reflowed (pasted link) := by
  refine ContactLink.reflowed_of_reflows ?_
  rw [pasted, String.toList_ofList, ContactLink.toList_toText]
  exact .space rfl ((Reflows.refl _).append (Reflows.toLower _))

theorem prefixWhole_pasted (link : ContactLink) : PrefixWhole (pasted link) :=
  ⟨[' '], _, List.forall_mem_singleton.mpr rfl, String.toList_ofList⟩

theorem reflowed_shouted (link : ContactLink) : link.Reflowed (shouted link) := by
  have hstart : significant (linkPrefix.toList.map Char.toUpper) =
      significant linkPrefix.toList := by decide
  rw [ContactLink.Reflowed, shouted, String.toList_ofList, ContactLink.toList_toText,
    significant_append, hstart, ← significant_append]

theorem not_prefixWhole_shouted (link : ContactLink) : ¬ PrefixWhole (shouted link) := by
  rintro ⟨gap, rest, hgap, htext⟩
  have hfirst : (shouted link).toList.head? = some 'O' := by
    rw [shouted, String.toList_ofList, List.head?_append_of_ne_nil _ (by decide)]
    decide
  rw [htext] at hfirst
  cases gap with
  | nil =>
    rw [List.nil_append, List.head?_append_of_ne_nil _ (by decide)] at hfirst
    exact absurd hfirst (by decide)
  | cons c gap =>
    obtain rfl : c = 'O' := by simpa using hfirst
    exact absurd (hgap 'O' List.mem_cons_self) (by decide)

/-- Two people read each other's links out of what was pasted, and derive the same key. Where one
link was written in capitals there is none. -/
theorem rendezvous_agrees_pasted :
    (∃ key, (party 1).meet .a (pasted (party 2).link) = .ok ((party 2).link, key) ∧
      (party 2).meet .b (pasted (party 1).link) = .ok ((party 1).link, key)) ∧
    (party 2).meet .b (shouted (party 1).link) = .error .notALink := by
  constructor
  · obtain ⟨key, hkey, ha, hb⟩ := Party.rendezvous_agrees Handshake.Sample.commutes (party 1)
      (party 2) (pasted (party 2).link) (pasted (party 1).link) (reflowed_pasted _)
      (reflowed_pasted _)
    rw [if_neg (by decide +kernel)] at hkey
    obtain ⟨digest, rfl⟩ := hkey
    rw [if_pos (prefixWhole_pasted _)] at ha hb
    exact ⟨digest, ha, hb⟩
  · obtain ⟨key, -, -, hb⟩ := Party.rendezvous_agrees Handshake.Sample.commutes (party 1)
      (party 2) (pasted (party 2).link) (shouted (party 1).link) (reflowed_pasted _)
      (reflowed_shouted _)
    rwa [if_neg (not_prefixWhole_shouted _)] at hb

theorem parse_pasted (link : ContactLink) : ContactLink.parse (pasted link) = .ok link :=
  ContactLink.parse_of_reflowed (reflowed_pasted link) (prefixWhole_pasted link)

/-- One of them is not where the other one is. -/
theorem meeting_binds_pasted : ∃ key,
    (party 1).meet .a (pasted (party 2).link) = .ok ((party 2).link, key) ∧
      (party 2).meet .b (pasted (party 1).link) = .ok ((party 1).link, key) ∧
      addressSeed key .a "org.onestein.transport.tor" 700 ≠
        addressSeed key .b "org.onestein.transport.tor" 700 := by
  have hparts := Party.keyParts_comm Handshake.Sample.commutes (party 1) (party 2)
  have hmeet : (party 1).meet .a (pasted (party 2).link) =
      .ok ((party 2).link, Crypto.hash ((party 1).keyParts .a (party 2).link)) :=
    Party.meet_eq_ok.mpr ⟨parse_pasted _, by decide +kernel, rfl⟩
  have hmeet' : (party 2).meet .b (pasted (party 1).link) =
      .ok ((party 1).link, Crypto.hash ((party 1).keyParts .a (party 2).link)) :=
    Party.meet_eq_ok.mpr ⟨parse_pasted _, by decide +kernel,
      by rw [hparts]⟩
  refine ⟨_, hmeet, hmeet', fun h => ?_⟩
  obtain ⟨hiff, -⟩ := Party.meeting_binds _ _ _ _ _ _ _ _ _ _ hmeet hmeet'
    ⟨.a, "org.onestein.transport.tor", 700⟩ ⟨.b, "org.onestein.transport.tor", 700⟩
    (by rw [hparts]; exact Set.injOn_pair.mpr fun _ => rfl)
    (Set.injOn_pair.mpr fun h => absurd h (by decide +kernel))
  obtain ⟨-, -, haddress⟩ := hiff.mp h
  exact absurd (congrArg Address.side haddress) (by decide)

end Sample

end Onestein.Contact
