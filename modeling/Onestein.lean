import Onestein.Lib.Bytes
import Onestein.Lib.Prog
import Onestein.Bdf.Grammar
import Onestein.Bdf.Read
import Onestein.Bdf.Write
import Onestein.Bdf.Accepts
import Onestein.Bdf.Halting
import Onestein.Bdf.Calls
import Onestein.Bdf.Canonical
import Onestein.Lib.Word
import Onestein.Lib.Run
import Onestein.Transport.Window
import Onestein.Transport.Counter
import Onestein.Crypto.Hash
import Onestein.Transport.Keys
import Onestein.Lib.Tokens
import Onestein.Crypto.Signature
import Onestein.Relay.Queue
import Onestein.Relay.Store
import Onestein.Relay.Api
import Onestein.Relay.Authorisation
import Onestein.Relay.History
import Onestein.Lib.Fallible
import Onestein.Identity.Identifier
import Onestein.Identity.Certificate
import Onestein.Identity.Revocation
import Onestein.Identity.Epochs
import Onestein.Identity.Signing
import Onestein.Identity.Authenticity
import Onestein.Record.Framing
import Onestein.Sync.Message
import Onestein.Sync.Peer
import Onestein.Sync.Records
import Onestein.Sync.Session
import Onestein.Sync.Sendable
import Onestein.Sync.Answers
import Onestein.Sync.Opportunity
import Onestein.Sync.Retention
import Onestein.Sync.Backoff
import Onestein.Record.Exact
import Onestein.Sync.Authorship
import Onestein.Crypto.Agreement
import Onestein.Handshake.RootKey
import Onestein.Handshake.Exchange
import Onestein.Crypto.Aead
import Onestein.Transport.Wire
import Onestein.Transport.Frames
import Onestein.Lib.Regroup
import Onestein.Lib.Reordering
import Onestein.Lib.Ranking
import Onestein.Contact.Base32
import Onestein.Bdf.Dictionary
import Onestein.Contact.Bundle
import Onestein.Record.Codec
import Onestein.Handshake.Records
import Onestein.Relay.Wire
import Onestein.Lib.Saturation
import Onestein.Sync.Delivery
import Onestein.Relay.Daemon
import Onestein.Relay.Crossing
import Onestein.Relay.Lifetime
import Onestein.Relay.Interference
import Onestein.Relay.Isolation
import Onestein.Transport.Periods
import Onestein.Transport.Rotation
import Onestein.Transport.Reference
import Onestein.Transport.Expected
import Onestein.Identity.Container
import Onestein.Contact.Link
import Onestein.Contact.Fingerprint
import Onestein.Handshake.Derivations
import Onestein.Relay.Proofs
import Onestein.Relay.Limits
import Onestein.Relay.Quota
import Onestein.Relay.Conversation
import Onestein.Lib.Simulation
import Onestein.Bdf.Errors
import Onestein.Bdf.Following
import Onestein.Bdf.Shortest
import Onestein.Record.Streams
import Onestein.Relay.Idle
import Onestein.Relay.Origin
import Onestein.Sync.Ledger
import Onestein.Lib.Chain
import Onestein.Transport.Apart
import Onestein.Contact.Rendezvous
import Onestein.Separation.Hashing
import Onestein.Separation.Signing
import Onestein.Transport.Streams
import Onestein.Handshake.Matching
import Onestein.Transport.Dialogue
import Onestein.Sync.Ancestry
import Onestein.Identity.Recovery
import Onestein.Sync.Exchange
import Onestein.Sync.Convergence
import Onestein.Relay.Collection
import Onestein.Identity.Devices
import Onestein.Transport.Recipient
import Onestein.Sync.Carried
import Onestein.Separation.Provenance
