import Onestein.Transport.Frames

/-!
# Streams come back in order

The frames of a stream are numbered from zero, and the last one is marked. Whatever a network does
with the pieces of all streams, a recipient who opens what arrives in the order of the numbers has
the beginning of one stream, and all of it when the mark has been read.

## Main definitions

* `Frame` — a frame to send, with a header that says how much data there is.
* `sealFrames`, `openFrames` — the frames of a stream, one after another.
* `Unforged` — that nobody but the senders made what arrives.

## Main results

* `mapNumbered_eq_ok` — what a numbered loop returns.
* `openFrames_seal` — sealing a stream, then opening it.
* `stream_whole` — what is opened is the beginning of what was sent.
-/

namespace Onestein.Transport

open Crypto

section Numbered

variable {α β ε : Type} {f : UInt64 → α → Except ε β} {n : UInt64} {as : List α} {bs : List β}

/-- A loop that counts. -/
def mapNumbered (f : UInt64 → α → Except ε β) : UInt64 → List α → Except ε (List β)
  | _, [] => .ok []
  | n, a :: as => do
    let b ← f n a
    let bs ← mapNumbered f (n + 1) as
    .ok (b :: bs)

/-- What a numbered loop returns, place by place. -/
theorem mapNumbered_eq_ok : mapNumbered f n as = .ok bs ↔ bs.length = as.length ∧
    ∀ i a, as[i]? = some a → ∃ b, bs[i]? = some b ∧ f (n + UInt64.ofNat i) a = .ok b := by
  induction as generalizing n bs with
  | nil => simp [mapNumbered, eq_comm]
  | cons a as ih =>
    have hnext (i : Nat) : n + UInt64.ofNat (i + 1) = n + 1 + UInt64.ofNat i := by
      rw [UInt64.ofNat_add, UInt64.add_assoc, UInt64.add_comm 1]
      rfl
    simp only [mapNumbered, Except.bind_eq_ok, ih, Except.ok.injEq]
    constructor
    · rintro ⟨b, hb, bs, ⟨hlength, hall⟩, rfl⟩
      refine ⟨by simp [hlength], fun i x hx => ?_⟩
      cases i with
      | zero =>
        obtain rfl := Option.some.inj hx
        exact ⟨b, rfl, by simpa using hb⟩
      | succ i => exact hnext i ▸ hall i x hx
    · rintro ⟨hlength, hall⟩
      obtain ⟨b, bs, rfl⟩ := List.exists_cons_of_length_eq_add_one hlength
      obtain ⟨b', hb', hb⟩ := hall 0 a rfl
      obtain rfl := Option.some.inj hb'
      refine ⟨b, by simpa using hb, bs, ⟨by simpa using hlength, fun i x hx => ?_⟩, rfl⟩
      exact hnext i ▸ hall (i + 1) x hx

/-- The other way round: what stands in a place of the result was computed from the same place. -/
theorem exists_of_mapNumbered {i : Nat} {b : β} (h : mapNumbered f n as = .ok bs)
    (hb : bs[i]? = some b) : ∃ a, as[i]? = some a ∧ f (n + UInt64.ofNat i) a = .ok b := by
  obtain ⟨hlength, hall⟩ := mapNumbered_eq_ok.mp h
  obtain ⟨hi, -⟩ := List.getElem?_eq_some_iff.mp hb
  obtain ⟨b', hb', hf⟩ := hall i _ (List.getElem?_eq_getElem (hlength ▸ hi))
  obtain rfl := Option.some.inj (hb.symm.trans hb')
  exact ⟨_, List.getElem?_eq_getElem (hlength ▸ hi), hf⟩

end Numbered

/-- A frame to send. -/
structure Frame where
  header : FrameHeader
  data : Bytes
  dataLen_eq : header.dataLen.toNat = data.length

/-- The two pieces of a frame on the wire. -/
structure Pieces where
  header : Octets frameHeaderLen
  body : Bytes
  deriving DecidableEq

def Pieces.bytes (pieces : Pieces) : Piece → Bytes
  | .header => pieces.header.toList
  | .body => pieces.body

/-- What a frame tells its recipient. -/
def Frame.content (frame : Frame) : FrameHeader × Bytes := (frame.header, frame.data)

section Streams

variable [Aead]

/-- Encrypts both pieces of a frame. -/
def sealFrame (cipherKey : Octets hashLen) (frameNumber : UInt64) (frame : Frame) :
    Except WireError Pieces := do
  let header ← sealFrameHeader cipherKey frameNumber frame.header
  let body ← sealFrameBody cipherKey frameNumber frame.data frame.header.paddingLen.toNat
  .ok ⟨header, body⟩

/-- Decrypts both pieces of a frame, the body as the header says. -/
def openFrame (cipherKey : Octets hashLen) (frameNumber : UInt64) (pieces : Pieces) :
    Except WireError (FrameHeader × Bytes) := do
  let header ← openFrameHeader cipherKey frameNumber pieces.header
  let data ← openFrameBody cipherKey frameNumber header pieces.body
  .ok (header, data)

/-- Encrypts the frames of a stream, numbered from zero. -/
def sealFrames (cipherKey : Octets hashLen) (frames : List Frame) :
    Except WireError (List Pieces) :=
  mapNumbered (sealFrame cipherKey) 0 frames

/-- Decrypts what should be the frames of a stream, numbered from zero. -/
def openFrames (cipherKey : Octets hashLen) (wire : List Pieces) :
    Except WireError (List (FrameHeader × Bytes)) :=
  mapNumbered (openFrame cipherKey) 0 wire

/-- The bytes are a piece of a stream that was sent under one of the keys. -/
def Sent (keys : Set (Octets hashLen)) (sent : Octets hashLen → List Frame) (bytes : Bytes) :
    Prop :=
  ∃ key ∈ keys, ∃ wire, sealFrames key (sent key) = .ok wire ∧
    ∃ pieces ∈ wire, ∃ kind, bytes = pieces.bytes kind

/-- Nobody forges: the pieces that arrive may be altered, repeated and from anywhere, but those
which authenticate under some key and number were sent, in whichever stream and place. -/
def Unforged (keys : Set (Octets hashLen)) (sent : Octets hashLen → List Frame)
    (received : List Pieces) : Prop :=
  ∀ pieces ∈ received, ∀ kind, ∀ use ∈ frameUses keys,
    (Aead.decrypt use.1 use.2 (pieces.bytes kind)).isSome → Sent keys sent (pieces.bytes kind)

variable {keys : Set (Octets hashLen)} {sent : Octets hashLen → List Frame} {key : Octets hashLen}
  {frames : List Frame} {wire received : List Pieces} {i : Nat}

/-- The numbers of a stream that was sealed are below the header flag. -/
theorem lt_of_sealFrames {pieces : Pieces} (h : sealFrames key frames = .ok wire)
    (hi : wire[i]? = some pieces) : i < 2 ^ 63 := by
  by_contra! hle
  obtain ⟨hlt, -⟩ := List.getElem?_eq_some_iff.mp hi
  obtain ⟨frame, -, hseal⟩ := exists_of_mapNumbered h
    (List.getElem?_eq_getElem (hle.trans_lt hlt))
  obtain ⟨header, hheader, -⟩ := Except.bind_eq_ok.mp hseal
  obtain ⟨-, nonce, hnonce, -⟩ := sealFrameHeader_eq_ok.mp hheader
  exact absurd (frameNonce_eq_ok.mp hnonce).1 (by decide)

/-- The same of a stream that was opened. -/
theorem lt_of_openFrames {opened : List (FrameHeader × Bytes)} {content : FrameHeader × Bytes}
    (h : openFrames key received = .ok opened) (hi : opened[i]? = some content) : i < 2 ^ 63 := by
  by_contra! hle
  obtain ⟨hlt, -⟩ := List.getElem?_eq_some_iff.mp hi
  obtain ⟨pieces, -, hopen⟩ := exists_of_mapNumbered h
    (List.getElem?_eq_getElem (hle.trans_lt hlt))
  obtain ⟨header, hheader, -⟩ := Except.bind_eq_ok.mp hopen
  obtain ⟨nonce, plaintext, hnonce, -⟩ := openFrameHeader_eq_ok.mp hheader
  exact absurd (frameNonce_eq_ok.mp hnonce).1 (by decide)

theorem sealed_of_sealFrame {frameNumber : UInt64} {frame : Frame} {pieces : Pieces}
    (h : sealFrame key frameNumber frame = .ok pieces) (kind : Piece) :
    Sealed key frameNumber (pieces.bytes kind) kind := by
  obtain ⟨header, hheader, h⟩ := Except.bind_eq_ok.mp h
  obtain ⟨body, hbody, h⟩ := Except.bind_eq_ok.mp h
  obtain rfl := Except.ok.inj h
  cases kind with
  | header => exact ⟨_, _, hheader, rfl⟩
  | body => exact ⟨_, _, hbody⟩

theorem opens_of_openFrame {frameNumber : UInt64} {pieces : Pieces} {content : FrameHeader × Bytes}
    (h : openFrame key frameNumber pieces = .ok content) (kind : Piece) :
    Opens key frameNumber (pieces.bytes kind) kind := by
  obtain ⟨header, hheader, h⟩ := Except.bind_eq_ok.mp h
  obtain ⟨data, hdata, -⟩ := Except.bind_eq_ok.mp h
  cases kind with
  | header => exact ⟨_, _, hheader, rfl⟩
  | body => exact ⟨_, _, hdata⟩

theorem sent_of_opens {pieces : Pieces} {frameNumber : UInt64} {kind : Piece}
    (hkey : key ∈ keys) (hunforged : Unforged keys sent received) (hmem : pieces ∈ received)
    (h : Opens key frameNumber (pieces.bytes kind) kind) : Sent keys sent (pieces.bytes kind) := by
  obtain ⟨nonce, plaintext, hnonce, hdecrypt⟩ := decrypt_of_opens h
  exact hunforged pieces hmem kind (key, nonce) ⟨hkey, _, _, hnonce⟩ (by simp [hdecrypt])

section Ideal

variable (ideal : Aead.Ideal (frameUses keys))

include ideal

theorem openFrame_seal {frameNumber : UInt64} {frame : Frame} {pieces : Pieces}
    (h : sealFrame key frameNumber frame = .ok pieces) :
    openFrame key frameNumber pieces = .ok frame.content := by
  obtain ⟨header, hheader, h⟩ := Except.bind_eq_ok.mp h
  obtain ⟨body, hbody, h⟩ := Except.bind_eq_ok.mp h
  obtain rfl := Except.ok.inj h
  rw [openFrame, openFrameHeader_seal ideal hheader, Except.ok_bind,
    openFrameBody_seal ideal frame.dataLen_eq hbody]
  rfl

/-- A stream that was sealed opens to what was sent. -/
theorem openFrames_seal (h : sealFrames key frames = .ok wire) :
    openFrames key wire = .ok (frames.map Frame.content) := by
  refine mapNumbered_eq_ok.mpr ⟨by simp [(mapNumbered_eq_ok.mp h).1], fun i pieces hi => ?_⟩
  obtain ⟨frame, hframe, hseal⟩ := exists_of_mapNumbered h hi
  exact ⟨frame.content, by simp [hframe], openFrame_seal ideal hseal⟩

/-- What opens in a place was sealed for this place of this stream, as a header or as a body. -/
theorem sealed_of_opens {bytes : Bytes} {kind : Piece} (hkey : key ∈ keys)
    (hsent : sealFrames key (sent key) = .ok wire) (hbytes : Sent keys sent bytes) (hi : i < 2 ^ 63)
    (hopen : Opens key (UInt64.ofNat i) bytes kind) :
    ∃ pieces, wire[i]? = some pieces ∧ pieces.bytes kind = bytes := by
  obtain ⟨key', hkey', wire', hwire', pieces, hmem, kind', rfl⟩ := hbytes
  obtain ⟨j, hj⟩ := List.mem_iff_getElem?.mp hmem
  have hlt : j < 2 ^ 63 := lt_of_sealFrames hwire' hj
  obtain ⟨frame, -, hseal⟩ := exists_of_mapNumbered hwire' hj
  rw [UInt64.zero_add] at hseal
  obtain ⟨rfl, hnumber, rfl⟩ :=
    opens_sealed ideal hkey' hkey (sealed_of_sealFrame hseal kind') hopen
  obtain rfl : j = i := by
    have hmod := congrArg UInt64.toNat hnumber
    rw [UInt64.toNat_ofNat', UInt64.toNat_ofNat'] at hmod
    omega
  obtain rfl := Except.ok.inj (hsent.symm.trans hwire')
  exact ⟨pieces, hj, rfl⟩

/-- A frame that opens in a place is the one that was sent there. -/
theorem pieces_sent {pieces : Pieces} {content : FrameHeader × Bytes} (hkey : key ∈ keys)
    (hsent : sealFrames key (sent key) = .ok wire) (hunforged : Unforged keys sent received)
    (hmem : pieces ∈ received) (hi : i < 2 ^ 63)
    (hopen : openFrame key (UInt64.ofNat i) pieces = .ok content) :
    wire[i]? = some pieces := by
  have hpiece (kind : Piece) : ∃ pieces', wire[i]? = some pieces' ∧
      pieces'.bytes kind = pieces.bytes kind :=
    sealed_of_opens ideal hkey hsent
      (sent_of_opens hkey hunforged hmem (opens_of_openFrame hopen kind)) hi
      (opens_of_openFrame hopen kind)
  obtain ⟨⟨header, body⟩, hplace, hheader⟩ := hpiece .header
  obtain ⟨pieces', hplace', hbody⟩ := hpiece .body
  obtain rfl := Option.some.inj (hplace.symm.trans hplace')
  obtain rfl : header = pieces.header := Vector.toList_inj.mp hheader
  obtain rfl : body = pieces.body := hbody
  exact hplace

/-- What is opened is the beginning of what was sent. -/
theorem received_prefix {opened : List (FrameHeader × Bytes)} (hkey : key ∈ keys)
    (hsent : sealFrames key (sent key) = .ok wire) (hunforged : Unforged keys sent received)
    (hopen : openFrames key received = .ok opened) :
    received <+: wire ∧ opened <+: (sent key).map Frame.content := by
  have hplace (i : Nat) (content : FrameHeader × Bytes) (hi : opened[i]? = some content) :
      ∃ pieces, received[i]? = some pieces ∧ wire[i]? = some pieces ∧
        ((sent key).map Frame.content)[i]? = some content := by
    obtain ⟨pieces, hpieces, hcontent⟩ := exists_of_mapNumbered hopen hi
    rw [UInt64.zero_add] at hcontent
    have hwire : wire[i]? = some pieces := pieces_sent ideal hkey hsent hunforged
      (List.mem_of_getElem? hpieces) (lt_of_openFrames hopen hi) hcontent
    obtain ⟨frame, hframe, hseal⟩ := exists_of_mapNumbered hsent hwire
    rw [UInt64.zero_add] at hseal
    have hsame := (openFrame_seal ideal hseal).symm.trans hcontent
    exact ⟨pieces, hpieces, hwire, by simp [hframe, Except.ok.inj hsame]⟩
  have hlength : opened.length = received.length := (mapNumbered_eq_ok.mp hopen).1
  constructor
  · refine List.prefix_iff_getElem?.mpr fun i hi => ?_
    obtain ⟨pieces, hpieces, hwire, -⟩ :=
      hplace i _ (List.getElem?_eq_getElem (hlength.symm ▸ hi))
    rw [hwire, ← hpieces, List.getElem?_eq_getElem hi]
  · refine List.prefix_iff_getElem?.mpr fun i hi => ?_
    obtain ⟨-, -, -, hcontent⟩ := hplace i _ (List.getElem?_eq_getElem hi)
    exact hcontent

/-- Where only the last frame of a stream is marked, the mark says that nothing is missing. -/
theorem received_whole {opened : List (FrameHeader × Bytes)} (hkey : key ∈ keys)
    (hsent : sealFrames key (sent key) = .ok wire) (hunforged : Unforged keys sent received)
    (hopen : openFrames key received = .ok opened)
    (hmarked : ∀ frame ∈ (sent key).dropLast, ¬ frame.header.finalFrame)
    (hfinal : ∃ content ∈ opened, content.1.finalFrame) : received = wire := by
  obtain ⟨hwire, hcontents⟩ := received_prefix ideal hkey hsent hunforged hopen
  obtain ⟨content, hmem, hfinal⟩ := hfinal
  obtain ⟨i, hi⟩ := List.mem_iff_getElem?.mp hmem
  obtain ⟨hlt, -⟩ := List.getElem?_eq_some_iff.mp hi
  have hlength : opened.length = received.length := (mapNumbered_eq_ok.mp hopen).1
  have hlength' : wire.length = (sent key).length := (mapNumbered_eq_ok.mp hsent).1
  have hplace : ((sent key).map Frame.content)[i]? = some content := by
    rw [List.prefix_iff_getElem?.mp hcontents i hlt, ← hi, List.getElem?_eq_getElem hlt]
  rw [List.getElem?_map, Option.map_eq_some_iff] at hplace
  obtain ⟨frame, hframe, rfl⟩ := hplace
  -- A frame in front of the last one has no mark.
  have hlast : ¬ i < (sent key).length - 1 := by
    intro hlt'
    refine hmarked frame (List.mem_of_getElem? (i := i) ?_) hfinal
    rw [List.getElem?_dropLast, if_pos hlt', hframe]
  exact hwire.eq_of_length_le (by omega)

end Ideal

end Streams

/-- A stream comes back whole, and whatever else arrives opens as the beginning of it at most:
pieces that were altered, dropped, repeated, reordered or taken from another stream end it, and
unless the mark of the last frame has been read, the recipient knows that something is missing. The
AEAD is ideal for the keys of the streams, and nobody forges. -/
theorem stream_whole [Aead] (keys : Set (Octets hashLen)) (sent : Octets hashLen → List Frame)
    (ideal : Aead.Ideal (frameUses keys)) (key : Octets hashLen) (hkey : key ∈ keys)
    (wire : List Pieces) (hsent : sealFrames key (sent key) = .ok wire) :
    openFrames key wire = .ok ((sent key).map Frame.content) ∧
    ∀ received opened, Unforged keys sent received → openFrames key received = .ok opened →
      received <+: wire ∧ opened <+: (sent key).map Frame.content ∧
      ((∀ frame ∈ (sent key).dropLast, ¬ frame.header.finalFrame) →
        (∃ content ∈ opened, content.1.finalFrame) → received = wire) := by
  refine ⟨openFrames_seal ideal hsent, fun received opened hunforged hopen => ?_⟩
  obtain ⟨hwire, hcontents⟩ := received_prefix ideal hkey hsent hunforged hopen
  exact ⟨hwire, hcontents, received_whole ideal hkey hsent hunforged hopen⟩

/-! ## A stream of two frames -/

namespace Sample

attribute [local instance] tagged

def frames : List Frame :=
  [⟨⟨8, 40, false⟩, Bytes.utf8 "onestein", by decide⟩, ⟨⟨0, 48, true⟩, [], by decide⟩]

/-- The stream opens, and sent twice in a row it does not. -/
theorem stream_whole_tagged : ∃ wire, sealFrames key frames = .ok wire ∧
    openFrames key wire = .ok (frames.map Frame.content) ∧
    ∀ opened, openFrames key (wire ++ wire) ≠ .ok opened := by
  obtain ⟨wire, hsent⟩ : ∃ wire, sealFrames key frames = .ok wire := ⟨_, rfl⟩
  obtain ⟨hopen, hreceived⟩ := stream_whole {key} (fun _ => frames) ideal key rfl wire hsent
  refine ⟨wire, hsent, hopen, fun opened htwice => ?_⟩
  have hunforged : Unforged {key} (fun _ => frames) (wire ++ wire) := by
    intro pieces hmem kind use huse hdecrypt
    exact ⟨key, rfl, wire, hsent, pieces, by simpa using hmem, kind, rfl⟩
  have hprefix := (hreceived _ opened hunforged htwice).1.length_le
  have hlength : wire.length = 2 := (mapNumbered_eq_ok.mp hsent).1
  rw [List.length_append] at hprefix
  omega

end Sample

end Onestein.Transport
