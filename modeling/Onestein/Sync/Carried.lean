import Onestein.Record.Streams
import Onestein.Sync.Records
import Onestein.Transport.Streams

/-!
# Records over a stream

The records of a session are the data of the frames of a stream, cut wherever a frame is full.
Whatever a network does with the frames, what is read at the other end is the beginning of what was
written: no record is altered, none is skipped, and none comes from elsewhere.

## Main definitions

* `carried` — the data of frames, one after the other.

## Main results

* `records_carried` — what is read of a stream that arrives.
-/

namespace Onestein.Sync

open Crypto Record Transport

/-- The data of frames, one after the other. -/
def carried (contents : List (FrameHeader × Bytes)) : Bytes :=
  (contents.map Prod.snd).flatten

theorem carried_front {front contents : List (FrameHeader × Bytes)} (h : front <+: contents) :
    carried front <+: carried contents := by
  obtain ⟨rest, rfl⟩ := h
  exact ⟨carried rest, by simp [carried]⟩

/-- The records of a session come back over an undisturbed stream. Of whatever else arrives, and is
opened, the records are the beginning of those that were written, with at most one refusal behind
them, for the one that is cut; all of it is read at once only where it ends between two records. And
when the mark of the last frame has been read, all records are. The AEAD is ideal for the keys of
the streams, and nobody forges. -/
theorem records_carried [Aead] (keys : Set (Octets hashLen)) (sent : Octets hashLen → List Frame)
    (ideal : Aead.Ideal (frameUses keys)) (key : Octets hashLen) (hkey : key ∈ keys)
    (wire : List Pieces) (hsent : sealFrames key (sent key) = .ok wire)
    (records : List SyncRecord) (encoded : List Bytes)
    (hencoded : records.mapM encodeRecord = .ok encoded)
    (hcarried : carried ((sent key).map Frame.content) = encoded.flatten) :
    (∃ opened, openFrames key wire = .ok opened ∧
      decodeRecords (carried opened) = .ok records) ∧
    ∀ received opened, Unforged keys sent received → openFrames key received = .ok opened →
      (∃ n : Nat,
        (∃ refusals : List Record.Error, refusals.length ≤ 1 ∧
          (Reader.new (carried opened) syncVersion).items.map decodeRecord =
            (records.take n).map .ok ++ refusals.map fun _ => .error .malformed) ∧
        ∀ read, decodeRecords (carried opened) = .ok read ↔
          read = records.take n ∧ carried opened = (encoded.take n).flatten) ∧
      ((∀ frame ∈ (sent key).dropLast, ¬ frame.header.finalFrame) →
        (∃ content ∈ opened, content.1.finalFrame) →
        decodeRecords (carried opened) = .ok records) := by
  have hwhole : decodeRecords (carried ((sent key).map Frame.content)) = .ok records := by
    rw [hcarried]
    exact decodeRecords_encode hencoded
  have hundisturbed := openFrames_seal ideal hsent
  refine ⟨⟨_, hundisturbed, hwhole⟩, fun received opened hunforged hopen => ⟨?_, ?_⟩⟩
  · obtain ⟨-, hcontents⟩ := received_prefix ideal hkey hsent hunforged hopen
    obtain ⟨n, refusals, -, hone, hitems, hread⟩ := codec.mapM_front hencoded
      (hcarried ▸ carried_front hcontents)
    exact ⟨n, ⟨refusals, hone, hitems⟩, hread⟩
  · intro hmarked hfinal
    obtain rfl := received_whole ideal hkey hsent hunforged hopen hmarked hfinal
    obtain rfl := Except.ok.inj (hopen.symm.trans hundisturbed)
    exact hwhole

/-! ## A session in two frames -/

namespace Sample

attribute [local instance] Transport.Sample.tagged

open Transport.Sample (key ideal)

/-- One message was seen, and one is asked for. -/
def session : List SyncRecord := [.ack [⟨.replicate 32 1⟩], .request [⟨.replicate 32 2⟩]]

def encoded : List Bytes := (session.mapM encodeRecord).toOption.getD []

/-- The first frame ends in the middle of the second record. -/
def frames : List Frame :=
  [⟨⟨40, 8, false⟩, encoded.flatten.take 40, by decide +kernel⟩,
    ⟨⟨32, 16, true⟩, encoded.flatten.drop 40, by decide +kernel⟩]

/-- The session arrives, and without the second frame no more than its beginning does. -/
theorem records_carried_session : ∃ wire, sealFrames key frames = .ok wire ∧
    (∃ opened, openFrames key wire = .ok opened ∧ decodeRecords (carried opened) = .ok session) ∧
    ∀ opened read, openFrames key (wire.take 1) = .ok opened →
      decodeRecords (carried opened) = .ok read → read <+: session := by
  obtain ⟨wire, hsent⟩ : ∃ wire, sealFrames key frames = .ok wire := ⟨_, rfl⟩
  obtain ⟨hwhole, hreceived⟩ := records_carried {key} (fun _ => frames) ideal key rfl wire hsent
    session encoded (by decide +kernel) (by decide +kernel)
  refine ⟨wire, hsent, hwhole, fun opened read hopen hread => ?_⟩
  have hunforged : Unforged {key} (fun _ => frames) (wire.take 1) := by
    intro pieces hmem kind use huse hdecrypt
    exact ⟨key, rfl, wire, hsent, pieces, List.mem_of_mem_take hmem, kind, rfl⟩
  obtain ⟨⟨n, -, hexact⟩, -⟩ := hreceived _ opened hunforged hopen
  obtain ⟨rfl, -⟩ := (hexact read).mp hread
  exact List.take_prefix n session

end Sample

end Onestein.Sync
