import Onestein.Transport.Wire

/-!
# Frames come back whole and stay in their place

Under an ideal AEAD a frame opens to what was sealed, and a piece opens only as what it is, where it
was sealed.

## Main definitions

* `Piece` — the header or the body of a frame.
* `Sealed`, `Opens` — that bytes are a sealed piece, and that they open as one.
* `frameUses` — the keys and nonces of the pieces of some streams.

## Main results

* `openStreamHeader_seal`, `openFrameHeader_seal`, `openFrameBody_seal` — sealing, then opening.
* `opens_sealed` — a piece opens in its own place only.
* `frames_whole` — all of it together.
-/

namespace Onestein.Transport

open Crypto

section Frames

variable [Aead] {key : Octets hashLen} {frameNumber : UInt64} {header : FrameHeader}

/-! ## Sealing and opening -/

theorem sealFrameHeader_eq_ok {piece : Octets frameHeaderLen} :
    sealFrameHeader key frameNumber header = .ok piece ↔
      header.dataLen.toNat + header.paddingLen.toNat ≤ maxFramePayload ∧
      ∃ nonce, frameNonce frameNumber true = .ok nonce ∧
        Octets.fill frameHeaderLen (encrypt key nonce header.plaintext.toList) = piece := by
  simp [sealFrameHeader, Except.bind_eq_ok, payloadLen_eq_ok]

theorem sealFrameBody_eq_ok {data piece : Bytes} {paddingLen : Nat} :
    sealFrameBody key frameNumber data paddingLen = .ok piece ↔
      data.length + paddingLen ≤ maxFramePayload ∧
      ∃ nonce, frameNonce frameNumber false = .ok nonce ∧
        encrypt key nonce (data ++ .replicate paddingLen 0) = piece := by
  simp [sealFrameBody, Except.bind_eq_ok, payloadLen_eq_ok]

theorem openFrameHeader_eq_ok {piece : Octets frameHeaderLen} :
    openFrameHeader key frameNumber piece = .ok header ↔
      ∃ nonce plaintext, frameNonce frameNumber true = .ok nonce ∧
        Aead.decrypt key nonce piece.toList = some plaintext ∧
        header.dataLen.toNat + header.paddingLen.toNat ≤ maxFramePayload ∧
        FrameHeader.read plaintext = header := by
  simp only [openFrameHeader, decrypt, Except.bind_eq_ok, payloadLen_eq_ok, Option.okOr_eq_ok]
  constructor
  · rintro ⟨nonce, hnonce, plaintext, hopen, total, ⟨hlen, -⟩, hheader⟩
    obtain rfl := Except.ok.inj hheader
    exact ⟨nonce, plaintext, hnonce, hopen, hlen, rfl⟩
  · rintro ⟨nonce, plaintext, hnonce, hopen, hlen, rfl⟩
    exact ⟨nonce, hnonce, plaintext, hopen, _, ⟨hlen, rfl⟩, rfl⟩

theorem openFrameBody_eq_ok {data piece : Bytes} :
    openFrameBody key frameNumber header piece = .ok data ↔
      header.dataLen.toNat + header.paddingLen.toNat ≤ maxFramePayload ∧
      piece.length - authLen = header.dataLen.toNat + header.paddingLen.toNat ∧
      ∃ nonce plaintext, frameNonce frameNumber false = .ok nonce ∧
        Aead.decrypt key nonce piece = some plaintext ∧
        plaintext.take header.dataLen.toNat = data := by
  simp [openFrameBody, decrypt, Except.bind_eq_ok, payloadLen_eq_ok, Except.ite_eq_ok]

/-! ## In their own place -/

/-- A piece of a frame. -/
inductive Piece where
  | header
  | body

def Piece.isHeader : Piece → Bool
  | .header => true
  | .body => false

omit [Aead] in
theorem Piece.isHeader_injective {kind kind' : Piece} (h : kind.isHeader = kind'.isHeader) :
    kind = kind' := by
  cases kind <;> cases kind' <;> simp_all [isHeader]

/-- The bytes are a sealed piece of a frame. -/
def Sealed (key : Octets hashLen) (frameNumber : UInt64) (bytes : Bytes) : Piece → Prop
  | .header => ∃ header piece, sealFrameHeader key frameNumber header = .ok piece ∧
      piece.toList = bytes
  | .body => ∃ data paddingLen, sealFrameBody key frameNumber data paddingLen = .ok bytes

/-- The bytes open as a piece of a frame, a body under whatever header. -/
def Opens (key : Octets hashLen) (frameNumber : UInt64) (bytes : Bytes) : Piece → Prop
  | .header => ∃ piece header, openFrameHeader key frameNumber piece = .ok header ∧
      piece.toList = bytes
  | .body => ∃ header data, openFrameBody key frameNumber header bytes = .ok data

/-- The keys of some streams, with the nonces of their pieces. -/
def frameUses (keys : Set (Octets hashLen)) : Set (Octets hashLen × Octets nonceLen) :=
  {use | use.1 ∈ keys ∧ ∃ frameNumber isHeader, frameNonce frameNumber isHeader = .ok use.2}

variable {keys : Set (Octets hashLen)} (ideal : Aead.Ideal (frameUses keys))

include ideal

/-- A header fits its array. -/
theorem toList_sealed (nonce : Octets nonceLen) (plaintext : Octets 4) :
    (Octets.fill frameHeaderLen (encrypt key nonce plaintext.toList)).toList =
      Aead.encrypt key nonce plaintext.toList := by
  apply Octets.toList_fill_of_length
  rw [encrypt, ideal.length_encrypt, Vector.length_toList]

theorem encrypt_of_sealed {bytes : Bytes} {kind : Piece}
    (h : Sealed key frameNumber bytes kind) :
    ∃ nonce plaintext, frameNonce frameNumber kind.isHeader = .ok nonce ∧
      Aead.encrypt key nonce plaintext = bytes := by
  cases kind with
  | header =>
    obtain ⟨header, piece, hseal, rfl⟩ := h
    obtain ⟨-, nonce, hnonce, rfl⟩ := sealFrameHeader_eq_ok.mp hseal
    exact ⟨nonce, _, hnonce, (toList_sealed ideal nonce _).symm⟩
  | body =>
    obtain ⟨data, paddingLen, hseal⟩ := h
    obtain ⟨-, nonce, hnonce, hbytes⟩ := sealFrameBody_eq_ok.mp hseal
    exact ⟨nonce, _, hnonce, hbytes⟩

omit ideal in
theorem decrypt_of_opens {bytes : Bytes} {kind : Piece} (h : Opens key frameNumber bytes kind) :
    ∃ nonce plaintext, frameNonce frameNumber kind.isHeader = .ok nonce ∧
      Aead.decrypt key nonce bytes = some plaintext := by
  cases kind with
  | header =>
    obtain ⟨piece, header, hopen, rfl⟩ := h
    obtain ⟨nonce, plaintext, hnonce, hplain, -⟩ := openFrameHeader_eq_ok.mp hopen
    exact ⟨nonce, plaintext, hnonce, hplain⟩
  | body =>
    obtain ⟨header, data, hopen⟩ := h
    obtain ⟨-, -, nonce, plaintext, hnonce, hplain, -⟩ := openFrameBody_eq_ok.mp hopen
    exact ⟨nonce, plaintext, hnonce, hplain⟩

/-- A sealed piece opens as what it is, where it was sealed, or not at all. -/
theorem opens_sealed {key' : Octets hashLen} (hkey : key ∈ keys) (hkey' : key' ∈ keys)
    {m n : UInt64} {bytes : Bytes} {kind kind' : Piece} (hseal : Sealed key m bytes kind)
    (hopen : Opens key' n bytes kind') : key = key' ∧ m = n ∧ kind = kind' := by
  obtain ⟨nonce, plaintext, hnonce, rfl⟩ := encrypt_of_sealed ideal hseal
  obtain ⟨nonce', opened, hnonce', hdecrypt⟩ := decrypt_of_opens hopen
  have huse := ideal.binds (key, nonce) ⟨hkey, m, _, hnonce⟩ (key', nonce')
    ⟨hkey', n, _, hnonce'⟩ plaintext opened hdecrypt
  obtain ⟨rfl, rfl⟩ := Prod.mk.inj huse
  obtain ⟨rfl, hkind⟩ := frameNonce_injective hnonce hnonce'
  exact ⟨rfl, rfl, Piece.isHeader_injective hkind⟩

/-! ## Whole headers and frames -/

/-- A stream header comes back whole. -/
theorem openStreamHeader_seal (nonce : Octets nonceLen) (header : StreamHeader) :
    openStreamHeader key (sealStreamHeader key nonce header) = .ok header := by
  have hwire : (sealStreamHeader key nonce header).toList = nonce.toList ++ encrypt key nonce
      (Bytes.be 2 transportVersion.toNat ++
        (Bytes.be 8 header.streamNumber.toNat ++ header.cipherKey.toList)) := by
    apply Octets.toList_fill_of_length
    simp only [encrypt, ideal.length_encrypt, List.length_append, Vector.length_toList,
      Bytes.length_be]
    rfl
  have hversion : firstWord (Bytes.be 2 transportVersion.toNat ++
      (Bytes.be 8 header.streamNumber.toNat ++ header.cipherKey.toList)) =
      UInt16.ofNat transportVersion.toNat := firstWord_append 1 _
  have hnumber : Octets.fill 8 (Bytes.be 8 header.streamNumber.toNat ++ header.cipherKey.toList) =
      Octets.be 8 header.streamNumber.toNat :=
    Octets.fill_append (Octets.be 8 header.streamNumber.toNat) header.cipherKey.toList
  have hval : Bytes.val (Octets.be 8 header.streamNumber.toNat).toList =
      header.streamNumber.toNat := Bytes.val_be_of_lt header.streamNumber.toNat_lt
  have hkey : Octets.fill hashLen header.cipherKey.toList = header.cipherKey := by
    simpa using Octets.fill_append header.cipherKey []
  have hrest : (Bytes.be 2 transportVersion.toNat ++
      (Bytes.be 8 header.streamNumber.toNat ++ header.cipherKey.toList)).drop 2 =
      Bytes.be 8 header.streamNumber.toNat ++ header.cipherKey.toList := List.drop_left' (by simp)
  have hlast : (Bytes.be 2 transportVersion.toNat ++
      (Bytes.be 8 header.streamNumber.toNat ++ header.cipherKey.toList)).drop 10 =
      header.cipherKey.toList := by
    rw [← List.append_assoc]
    exact List.drop_left' (by simp)
  rw [openStreamHeader, hwire, Octets.fill_append, List.drop_left' (by simp)]
  simp only [decrypt, encrypt, ideal.decrypt_encrypt, Option.okOr_some, Except.ok_bind, hversion,
    hrest, hlast, hnumber, hval, hkey, ne_eq, not_true_eq_false, if_false, UInt64.ofNat_toNat]

theorem openFrameHeader_seal {piece : Octets frameHeaderLen}
    (h : sealFrameHeader key frameNumber header = .ok piece) :
    openFrameHeader key frameNumber piece = .ok header := by
  obtain ⟨hlen, nonce, hnonce, rfl⟩ := sealFrameHeader_eq_ok.mp h
  have hread : FrameHeader.read header.plaintext.toList = header := by
    apply FrameHeader.read_plaintext
    unfold maxFramePayload at hlen
    omega
  refine openFrameHeader_eq_ok.mpr ⟨nonce, header.plaintext.toList, hnonce, ?_, hlen, hread⟩
  rw [toList_sealed ideal, ideal.decrypt_encrypt]

theorem openFrameBody_seal {data piece : Bytes} (hdata : header.dataLen.toNat = data.length)
    (h : sealFrameBody key frameNumber data header.paddingLen.toNat = .ok piece) :
    openFrameBody key frameNumber header piece = .ok data := by
  obtain ⟨hlen, nonce, hnonce, rfl⟩ := sealFrameBody_eq_ok.mp h
  rw [← hdata] at hlen
  refine openFrameBody_eq_ok.mpr ⟨hlen, ?_, nonce, _, hnonce, ideal.decrypt_encrypt _ _ _, ?_⟩
  · rw [encrypt, ideal.length_encrypt, List.length_append, List.length_replicate, hdata,
      Nat.add_sub_cancel]
  · rw [hdata, List.take_left]

end Frames

/-- Frames come back whole and stay in their place. The pieces of a frame are sealed exactly within
the limits, open to what was sealed, and open as nothing else and nowhere else; and no two pieces
have one nonce. The AEAD is ideal for the keys of the streams at hand. -/
theorem frames_whole [Aead] (keys : Set (Octets hashLen)) (ideal : Aead.Ideal (frameUses keys)) :
    (∀ key frameNumber header, (∃ piece, sealFrameHeader key frameNumber header = .ok piece) ↔
      header.dataLen.toNat + header.paddingLen.toNat ≤ 988 ∧ frameNumber.toNat ≤ 2 ^ 63 - 1) ∧
    (∀ key frameNumber data paddingLen,
      (∃ piece, sealFrameBody key frameNumber data paddingLen = .ok piece) ↔
        data.length + paddingLen ≤ 988 ∧ frameNumber.toNat ≤ 2 ^ 63 - 1) ∧
    (∀ key frameNumber header data paddingLen headerPiece bodyPiece,
      header.dataLen.toNat = data.length → header.paddingLen.toNat = paddingLen →
      sealFrameHeader key frameNumber header = .ok headerPiece →
      sealFrameBody key frameNumber data paddingLen = .ok bodyPiece →
      openFrameHeader key frameNumber headerPiece = .ok header ∧
        openFrameBody key frameNumber header bodyPiece = .ok data) ∧
    (∀ key ∈ keys, ∀ key' ∈ keys, ∀ m n bytes kind kind', Sealed key m bytes kind →
      Opens key' n bytes kind' → key = key' ∧ m = n ∧ kind = kind') ∧
    ∀ m n kind kind' nonce, frameNonce m (Piece.isHeader kind) = .ok nonce →
      frameNonce n (Piece.isHeader kind') = .ok nonce → m = n ∧ kind = kind' := by
  have hnumber (frameNumber : UInt64) :
      frameNumber ≤ maxFrameNumber ↔ frameNumber.toNat ≤ 2 ^ 63 - 1 := UInt64.le_iff_toNat_le
  refine ⟨?_, ?_, ?_, ?_, ?_⟩
  · intro key frameNumber header
    simp [sealFrameHeader_eq_ok, exists_frameNonce, hnumber, maxFramePayload]
  · intro key frameNumber data paddingLen
    simp [sealFrameBody_eq_ok, exists_frameNonce, hnumber, maxFramePayload]
  · rintro key frameNumber header data _ headerPiece bodyPiece hdata rfl hheader hbody
    exact ⟨openFrameHeader_seal ideal hheader, openFrameBody_seal ideal hdata hbody⟩
  · intro key hkey key' hkey' m n bytes kind kind' hseal hopen
    exact opens_sealed ideal hkey hkey' hseal hopen
  · intro m n kind kind' nonce hm hn
    obtain ⟨hnumbers, hkinds⟩ := frameNonce_injective hm hn
    exact ⟨hnumbers, Piece.isHeader_injective hkinds⟩

/-! ## A frame that can be sealed -/

namespace Sample

/-- A stand-in that can be run: the plaintext in the clear, and a tag that names the key and the
part of the nonce that frames use. -/
abbrev tagged : Aead where
  encrypt key nonce plaintext := key.toList.take 8 ++ nonce.toList.take 8 ++ plaintext
  decrypt key nonce ciphertext :=
    if ciphertext.take 16 = key.toList.take 8 ++ nonce.toList.take 8 then some (ciphertext.drop 16)
    else none

attribute [local instance] tagged

def key : Octets hashLen := .replicate 32 0x66

theorem decrypt_eq_some {key : Octets 32} {nonce : Octets 24} {ciphertext opened : Bytes} :
    Aead.decrypt key nonce ciphertext = some opened ↔
      ciphertext.take 16 = key.toList.take 8 ++ nonce.toList.take 8 ∧
        ciphertext.drop 16 = opened := by
  change (if _ then some _ else none) = _ ↔ _
  rw [Option.ite_none_right_eq_some, Option.some.injEq]

theorem take_encrypt (key : Octets 32) (nonce : Octets 24) (plaintext : Bytes) :
    (Aead.encrypt key nonce plaintext).take 16 = key.toList.take 8 ++ nonce.toList.take 8 :=
  List.take_left' (by simp)

/-- Frame nonces differ within the part that the tag names. -/
theorem nonce_eq {m n : UInt64} {isHeader isHeader' : Bool} {nonce nonce' : Octets nonceLen}
    (hm : frameNonce m isHeader = .ok nonce) (hn : frameNonce n isHeader' = .ok nonce')
    (h : nonce.toList.take 8 = nonce'.toList.take 8) : nonce = nonce' := by
  have hfront (number : Nat) :
      (Octets.fill nonceLen (Bytes.be 8 number)).toList.take 8 = Bytes.be 8 number := by
    simp [Octets.toList_fill, nonceLen]
  obtain ⟨-, rfl⟩ := frameNonce_eq_ok.mp hm
  obtain ⟨-, rfl⟩ := frameNonce_eq_ok.mp hn
  rw [hfront, hfront] at h
  rw [h]

theorem ideal : Aead.Ideal (frameUses {key}) where
  decrypt_encrypt key nonce plaintext :=
    decrypt_eq_some.mpr ⟨take_encrypt key nonce plaintext, List.drop_left' (by simp)⟩
  length_encrypt key nonce plaintext := by
    change (_ ++ _ ++ plaintext).length = _
    simp [authLen]
    omega
  binds := by
    rintro ⟨_, nonce⟩ ⟨rfl, m, isHeader, hm⟩ ⟨_, nonce'⟩ ⟨rfl, n, isHeader', hn⟩ plaintext opened h
    obtain ⟨htag, -⟩ := decrypt_eq_some.mp h
    rw [take_encrypt] at htag
    exact Prod.ext rfl (nonce_eq hm hn (List.append_cancel_left htag))

/-- The header of the last frame of eight bytes of data. -/
def header : FrameHeader := ⟨8, 40, true⟩

/-- A frame is sealed and opened, and its header opens neither at the next number nor as a body. -/
theorem frames_whole_tagged : ∃ headerPiece bodyPiece,
    sealFrameHeader key 3 header = .ok headerPiece ∧
    sealFrameBody key 3 (Bytes.utf8 "onestein") 40 = .ok bodyPiece ∧
    openFrameHeader key 3 headerPiece = .ok header ∧
    openFrameBody key 3 header bodyPiece = .ok (Bytes.utf8 "onestein") ∧
    ¬ Opens key 4 headerPiece.toList .header ∧ ¬ Opens key 3 headerPiece.toList .body := by
  obtain ⟨hheader, hbody, hopen, hplace, -⟩ := frames_whole {key} ideal
  obtain ⟨headerPiece, hsealed⟩ := (hheader key 3 header).mpr (by decide)
  obtain ⟨bodyPiece, hsealed'⟩ := (hbody key 3 (Bytes.utf8 "onestein") 40).mpr (by decide)
  obtain ⟨hopened, hopened'⟩ := hopen key 3 header (Bytes.utf8 "onestein") 40 headerPiece bodyPiece
    (by decide) (by decide) hsealed hsealed'
  have hpiece : Sealed key 3 headerPiece.toList .header := ⟨header, headerPiece, hsealed, rfl⟩
  refine ⟨headerPiece, bodyPiece, hsealed, hsealed', hopened, hopened', fun h => ?_, fun h => ?_⟩
  · obtain ⟨-, hnumber, -⟩ := hplace key rfl key rfl 3 4 _ .header .header hpiece h
    exact absurd hnumber (by decide)
  · obtain ⟨-, -, hkind⟩ := hplace key rfl key rfl 3 3 _ .header .body hpiece h
    cases hkind

end Sample

end Onestein.Transport
