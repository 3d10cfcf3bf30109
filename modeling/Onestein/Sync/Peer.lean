import Onestein.Lib.Word

/-!
# What a device remembers about one message and one peer

## Main definitions

* `PeerMessageState` — the six fields kept per message and peer.
* `PeerMessageState.onSent` — a message was offered or sent, and the wait for an answer starts.
-/

namespace Onestein.Sync

/-- What a device knows about one message in relation to one peer. -/
structure PeerMessageState where
  /-- The peer is known to hold the message. -/
  seen : Bool
  /-- An acknowledgement is owed. -/
  ackPending : Bool
  /-- The peer has asked for it since it was last offered or sent. -/
  requested : Bool
  sendCount : UInt32
  /-- The earliest time it may be offered or sent again. -/
  nextSendTime : UInt64
  maxLatency : UInt64
  deriving DecidableEq

/-- The most the backoff doubles before it stops growing. -/
def maxBackoffDoublings : UInt32 := 10

namespace PeerMessageState

/-- A message that has never been offered or sent to this peer. -/
def new : PeerMessageState := ⟨false, false, false, 0, 0, 0⟩

/-- Whether the message may be offered or sent now. -/
def readyToSend (state : PeerMessageState) (nowMs : UInt64) : Bool := state.nextSendTime ≤ nowMs

/-- Records that the message was offered or sent over a transport of this latency. -/
def onSent (state : PeerMessageState) (nowMs transportLatencyMs : UInt64) : PeerMessageState :=
  let sendCount := state.sendCount.saturatingAdd 1
  -- The delay doubles with each attempt and then stops.
  let doublings := min (sendCount.saturatingSub 1) maxBackoffDoublings
  let factor := (1 : UInt64) <<< doublings.toUInt64
  let delay := max (transportLatencyMs.saturatingMul factor) 1
  { state with
    sendCount := sendCount
    maxLatency := transportLatencyMs
    requested := false
    nextSendTime := nowMs.saturatingAdd delay }

/-- The peer acknowledged the message, so it holds it. -/
def onPeerAcked (state : PeerMessageState) : PeerMessageState := { state with seen := true }

/-- The peer offered or sent the message: it holds it, and an acknowledgement is owed. -/
def onPeerOffered (state : PeerMessageState) : PeerMessageState :=
  { state with seen := true, ackPending := true }

/-- The message was acknowledged to the peer. -/
def onAcknowledged (state : PeerMessageState) : PeerMessageState :=
  { state with ackPending := false }

/-- The peer asked for the message. -/
def onPeerRequested (state : PeerMessageState) : PeerMessageState :=
  { state with requested := true }

end PeerMessageState

end Onestein.Sync
