import Hatls.Lib.TreeWalk
import Hatls.Lib.MerkleTree
import Hatls.Lib.Bytes
import Hatls.Lib.Json
import Hatls.Lib.PrefixCode
import Hatls.Lib.Base64
import Hatls.Lib.Canonical
import Hatls.Lib.Sha2
import Hatls.Lib.Run
import Hatls.Lib.Recency
import Hatls.Lib.SharedCell
import Hatls.Lib.HashChain
import Hatls.Primitives
import Hatls.Log
import Hatls.LogSound
import Hatls.LogBinding
import Hatls.Receipt
import Hatls.Federation
import Hatls.Bundles
import Hatls.Heads
import Hatls.SignedKinds
import Hatls.Transfer
import Hatls.Binder
import Hatls.Chains
import Hatls.Transcript
import Hatls.DraftBinder
import Hatls.Mandate
import Hatls.MandateSpec
import Hatls.Appraisal
import Hatls.Process
import Hatls.Honest
import Hatls.Tee
import Hatls.AnchorRules
import Hatls.Sevsnp
import Hatls.Safety
import Hatls.Progress
import Hatls.Lockstep
import Hatls.GuestProbe
import Hatls.Replay
import Hatls.History
import Hatls.Enrolment
import Hatls.Witnesses
import Hatls.Custody
import Hatls.Freshness
import Hatls.Pinning
import Hatls.Decisions
import Hatls.Finality
import Hatls.Atomicity
import Hatls.Sharing
import Hatls.Views
import Hatls.Restart
import Hatls.Isolation
import Hatls.KnownHeads
import Hatls.Framing
import Hatls.Refusals
import Hatls.Recovery
import Hatls.Identifiers
import Hatls.Admissions
import Hatls.Malleability
import Hatls.World
import Hatls.Agreement
import Hatls.Lib.JsonText
import Hatls.Lib.JsonLine
import Hatls.Lib.Pieces
import Hatls.Lib.Directory
import Hatls.Store
import Hatls.Crashes
import Hatls.Lib.MerkleChain
import Hatls.Trails
import Hatls.Lib.JsonDict
import Hatls.LedgerFormat
import Hatls.Rereading
import Hatls.Incidents
import Hatls.Deployment
import Hatls.OnDisk
import Hatls.Lifecycle
import Hatls.Wire
import Hatls.RelayDemo
import Hatls.Recording
import Hatls.HrrBinder
import Hatls.Gossip
