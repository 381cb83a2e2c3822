import Baseline.Proofs.HashTree
import Baseline.Proofs.Bytes
import Baseline.Proofs.MerkleTreeSHA256
import Baseline.Proofs.InsertLeaves
import Baseline.RpcServer
import Baseline.Proofs.Soundness
import Baseline.Proofs.Await
import Baseline.Proofs.Buckets
import Baseline.Proofs.Handlers
import Baseline.Proofs.Handoff
import Baseline.Proofs.Updates
import Baseline.Proofs.Recovery
import Baseline.ParticipantStack
import Baseline.Proofs.Commitment
import Baseline.Proofs.Chaining
import Baseline.Proofs.Binding
import Baseline.Lifecycle
import Baseline.Proofs.Subscribing
import Baseline.Proofs.Lifecycle
import Baseline.History
import Baseline.Proofs.History
import Baseline.CalcRoot
import Baseline.Proofs.CalcRoot
import Baseline.TxManager
import Baseline.Proofs.TxManager
import Baseline.OrgRegistry
import Baseline.Proofs.OrgRegistry
import Baseline.Proofs.Utf8
import Baseline.Protocol
import Baseline.Proofs.Protocol
import Baseline.Proofs.StateVerifier
import Baseline.Proofs.Untrack
import Baseline.Proofs.Heights
import Baseline.Proofs.Ranges
import Baseline.Conversions
import Baseline.Proofs.Conversions
import Baseline.Proofs.FieldLimbs
import Baseline.Proofs.TextHex
import Baseline.Jobs
import Baseline.Proofs.Jobs
import Baseline.Allign
import Baseline.Proofs.Overlap
import Baseline.Odometer
import Baseline.Proofs.Combinations
import Baseline.Proofs.NumberOfHashes
import Baseline.Mimc
import Baseline.Proofs.Mimc
import Baseline.Proofs.MimcField
import Baseline.Pairing
import Baseline.Proofs.HexBytes
import Baseline.Proofs.MerkleHash
import Baseline.Nats
import Baseline.Proofs.Nats
import Baseline.ERC1820Registry
import Baseline.Registers
import Baseline.Proofs.ERC1820Registry
import Baseline.Proofs.Registrar
import Baseline.Proofs.Shield
import Baseline.Proofs.MimcPermutation
import Baseline.Proofs.Selection
import Baseline.Avail
import Baseline.Proofs.Avail
import Baseline.Extract
import Baseline.Proofs.Extract
import Baseline.JsonText
import Baseline.Workgroup
import Baseline.Proofs.Workgroup
import Baseline.Element
import Baseline.Proofs.Element
import Baseline.Proofs.Paths
import Baseline.Proofs.Queries
