import Onestein.Crypto.Aead
import Onestein.Lib.Fallible
import Onestein.Transport.Keys

/-!
# The wire

A stream header, and frames of a header and a body each. The nonce of a piece is the frame number
under a flag for the header; the data length of a frame is under a flag for the last frame.

## Main definitions

* `sealStreamHeader`, `openStreamHeader` — the header of a stream.
* `sealFrameHeader`, `openFrameHeader`, `sealFrameBody`, `openFrameBody` — the pieces of a frame.
* `frameNonce` — the nonce of a piece.

## Main results

* `frameNonce_injective` — no two pieces of a stream share a nonce.
* `FrameHeader.read_plaintext` — a frame header says what was put into it.
-/

namespace Onestein.Transport

open Crypto

/-- Length of an AEAD nonce. -/
abbrev nonceLen : Nat := 24

/-- Length of a stream header on the wire: nonce, version, stream number, ephemeral key, tag. -/
abbrev streamHeaderLen : Nat := nonceLen + 2 + 8 + hashLen + authLen

/-- Length of an encrypted frame header. -/
abbrev frameHeaderLen : Nat := 4 + authLen

/-- The most data and padding one frame may carry. -/
def maxFramePayload : Nat := 988

/-- The top bit of a frame number is the header flag in the nonce. -/
def maxFrameNumber : UInt64 := UInt64.last >>> 1

/-- What a stream header carries. -/
structure StreamHeader where
  streamNumber : UInt64
  cipherKey : Octets hashLen
  deriving DecidableEq

/-- What a frame header carries. -/
structure FrameHeader where
  dataLen : UInt16
  paddingLen : UInt16
  finalFrame : Bool
  deriving DecidableEq

/-- Why a piece of the wire could not be read or written. -/
inductive WireError where
  | decrypt
  | unknownVersion (version : UInt16)
  | frameTooLong (given : Nat)
  | frameNumberTooLarge
  | bodyLengthMismatch (expected given : Nat)
  deriving DecidableEq

/-! ## Lengths and nonces -/

/-- The nonce of a frame: the header flag in the top bit, the frame number under it, zeroes after
it. -/
def frameNonce (frameNumber : UInt64) (isHeader : Bool) : Except WireError (Octets nonceLen) :=
  if maxFrameNumber < frameNumber then .error .frameNumberTooLarge
  else
    let numbered := if isHeader then frameNumber ||| ((1 : UInt64) <<< 63) else frameNumber
    .ok (.fill nonceLen (Bytes.be 8 numbered.toNat))

/-- Data and padding together. The sum of two 64-bit sizes saturates. -/
def payloadLen (dataLen paddingLen : Nat) : Except WireError Nat :=
  let total := min (dataLen + paddingLen) (2 ^ 64 - 1)
  if maxFramePayload < total then .error (.frameTooLong total) else .ok total

/-- The 16-bit number in the first two bytes. -/
def firstWord (bytes : Bytes) : UInt16 :=
  UInt16.ofNat (Bytes.val (Octets.fill 2 bytes).toList)

/-- A frame header in plain: the data length under the final flag, then the padding length. -/
def FrameHeader.plaintext (header : FrameHeader) : Octets 4 :=
  let flagged := if header.finalFrame then header.dataLen ||| 0x8000 else header.dataLen
  .fill 4 (Bytes.be 2 flagged.toNat ++ Bytes.be 2 header.paddingLen.toNat)

/-- What a frame header in plain says. -/
def FrameHeader.read (plaintext : Bytes) : FrameHeader :=
  let flagged := firstWord plaintext
  { dataLen := flagged &&& 0x7fff
    paddingLen := firstWord (plaintext.drop 2)
    finalFrame := flagged &&& 0x8000 ≠ 0 }

theorem firstWord_append (word : UInt16) (rest : Bytes) :
    firstWord (Bytes.be 2 word.toNat ++ rest) = word := by
  have hfill : (Octets.fill 2 (Bytes.be 2 word.toNat ++ rest)).toList = Bytes.be 2 word.toNat := by
    simp [Octets.toList_fill]
  rw [firstWord, hfill, Bytes.val_be_of_lt word.toNat_lt, UInt16.ofNat_toNat]

/-- A frame header says what was put into it, as long as the data length leaves the top bit to the
final flag. -/
theorem FrameHeader.read_plaintext {header : FrameHeader} (h : header.dataLen.toNat < 2 ^ 15) :
    read header.plaintext.toList = header := by
  have hplain : header.plaintext.toList =
      Bytes.be 2 (if header.finalFrame then header.dataLen ||| 0x8000 else header.dataLen).toNat ++
        Bytes.be 2 header.paddingLen.toNat := Octets.toList_fill_of_length (by simp)
  have hpadding : header.plaintext.toList.drop 2 = Bytes.be 2 header.paddingLen.toNat ++ [] := by
    rw [hplain, List.append_nil]
    exact List.drop_left' (by simp)
  rw [read, hpadding, hplain, firstWord_append, firstWord_append]
  cases header with
  | mk dataLen paddingLen finalFrame =>
    cases finalFrame
    · simp [UInt16.and_low h, UInt16.and_top h]
    · simp [UInt16.or_top_and_low h, UInt16.or_top_and_top]

theorem payloadLen_eq_ok {dataLen paddingLen total : Nat} :
    payloadLen dataLen paddingLen = .ok total ↔
      dataLen + paddingLen ≤ maxFramePayload ∧ dataLen + paddingLen = total := by
  rw [payloadLen, Except.ite_error_eq_ok, Except.ok.injEq]
  unfold maxFramePayload
  omega

theorem frameNumber_lt {frameNumber : UInt64} (h : frameNumber ≤ maxFrameNumber) :
    frameNumber.toNat < 2 ^ 63 := by
  have hle := UInt64.le_iff_toNat_le.mp h
  have hmax : maxFrameNumber.toNat = 2 ^ 63 - 1 := by decide
  omega

/-- The number in front of a nonce. -/
def numbered (frameNumber : UInt64) (isHeader : Bool) : Nat :=
  if isHeader then 2 ^ 63 + frameNumber.toNat else frameNumber.toNat

theorem numbered_lt {frameNumber : UInt64} {isHeader : Bool} (h : frameNumber ≤ maxFrameNumber) :
    numbered frameNumber isHeader < 256 ^ 8 := by
  have hlt := frameNumber_lt h
  unfold numbered
  split <;> omega

theorem frameNonce_eq_ok {frameNumber : UInt64} {isHeader : Bool} {nonce : Octets nonceLen} :
    frameNonce frameNumber isHeader = .ok nonce ↔ frameNumber ≤ maxFrameNumber ∧
      Octets.fill nonceLen (Bytes.be 8 (numbered frameNumber isHeader)) = nonce := by
  rw [frameNonce, Except.ite_error_eq_ok, UInt64.not_lt, Except.ok.injEq]
  refine and_congr_right fun hle => ?_
  cases isHeader
  · rfl
  · simp only [numbered, if_true, UInt64.toNat_or_top (frameNumber_lt hle)]

theorem exists_frameNonce {frameNumber : UInt64} {isHeader : Bool} :
    (∃ nonce, frameNonce frameNumber isHeader = .ok nonce) ↔ frameNumber ≤ maxFrameNumber := by
  simp [frameNonce_eq_ok]

/-- No two pieces of a stream share a nonce. -/
theorem frameNonce_injective {m n : UInt64} {isHeader isHeader' : Bool} {nonce : Octets nonceLen}
    (hm : frameNonce m isHeader = .ok nonce) (hn : frameNonce n isHeader' = .ok nonce) :
    m = n ∧ isHeader = isHeader' := by
  obtain ⟨hmle, rfl⟩ := frameNonce_eq_ok.mp hm
  obtain ⟨hnle, hnonce⟩ := frameNonce_eq_ok.mp hn
  have hnumbers : numbered n isHeader' = numbered m isHeader := by
    apply Bytes.be_injective (numbered_lt hnle) (numbered_lt hmle)
    exact Octets.fill_injective (by simp) (by simp [nonceLen]) hnonce
  have hmlt := frameNumber_lt hmle
  have hnlt := frameNumber_lt hnle
  rw [← UInt64.toNat_inj]
  cases isHeader <;> cases isHeader' <;> simp [numbered] at hnumbers ⊢ <;> omega

section Pieces

variable [Aead]

def encrypt (key : Octets hashLen) (nonce : Octets nonceLen) (plaintext : Bytes) : Bytes :=
  Aead.encrypt key nonce plaintext

def decrypt (key : Octets hashLen) (nonce : Octets nonceLen) (ciphertext : Bytes) :
    Except WireError Bytes :=
  (Aead.decrypt key nonce ciphertext).okOr .decrypt

/-! ## Stream headers -/

/-- Encrypts a stream header. -/
def sealStreamHeader (headerKey : Octets hashLen) (nonce : Octets nonceLen)
    (header : StreamHeader) : Octets streamHeaderLen :=
  let plaintext := Bytes.be 2 transportVersion.toNat ++
    (Bytes.be 8 header.streamNumber.toNat ++ header.cipherKey.toList)
  .fill streamHeaderLen (nonce.toList ++ encrypt headerKey nonce plaintext)

/-- Decrypts a stream header. -/
def openStreamHeader (headerKey : Octets hashLen) (bytes : Octets streamHeaderLen) :
    Except WireError StreamHeader := do
  let nonce := Octets.fill nonceLen bytes.toList
  let plaintext ← decrypt headerKey nonce (bytes.toList.drop nonceLen)
  let version := firstWord plaintext
  if version ≠ UInt16.ofNat transportVersion.toNat then .error (.unknownVersion version)
  else
    .ok {
      streamNumber := UInt64.ofNat (Bytes.val (Octets.fill 8 (plaintext.drop 2)).toList)
      cipherKey := .fill hashLen (plaintext.drop 10) }

/-! ## Frames -/

/-- Encrypts a frame header. -/
def sealFrameHeader (cipherKey : Octets hashLen) (frameNumber : UInt64) (header : FrameHeader) :
    Except WireError (Octets frameHeaderLen) := do
  let _ ← payloadLen header.dataLen.toNat header.paddingLen.toNat
  let nonce ← frameNonce frameNumber true
  .ok (.fill frameHeaderLen (encrypt cipherKey nonce header.plaintext.toList))

/-- Decrypts a frame header. The lengths authenticate, which says that the sender wrote them, not
that the sender is friendly. -/
def openFrameHeader (cipherKey : Octets hashLen) (frameNumber : UInt64)
    (bytes : Octets frameHeaderLen) : Except WireError FrameHeader := do
  let nonce ← frameNonce frameNumber true
  let plaintext ← decrypt cipherKey nonce bytes.toList
  let header := FrameHeader.read plaintext
  let _ ← payloadLen header.dataLen.toNat header.paddingLen.toNat
  .ok header

/-- Encrypts a frame body: the data, then zeroes. -/
def sealFrameBody (cipherKey : Octets hashLen) (frameNumber : UInt64) (data : Bytes)
    (paddingLen : Nat) : Except WireError Bytes := do
  let total ← payloadLen data.length paddingLen
  let nonce ← frameNonce frameNumber false
  .ok (encrypt cipherKey nonce (data ++ .replicate (total - data.length) 0))

/-- Decrypts a frame body and returns the data without the padding. -/
def openFrameBody (cipherKey : Octets hashLen) (frameNumber : UInt64) (header : FrameHeader)
    (bytes : Bytes) : Except WireError Bytes := do
  let expected ← payloadLen header.dataLen.toNat header.paddingLen.toNat
  let given := bytes.length - authLen
  if given ≠ expected then .error (.bodyLengthMismatch expected given)
  else do
    let nonce ← frameNonce frameNumber false
    let plaintext ← decrypt cipherKey nonce bytes
    .ok (plaintext.take header.dataLen.toNat)

end Pieces

end Onestein.Transport
