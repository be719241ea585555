import ZkStf.Proofs.Dialing
import ZkStf.Proofs.ExecutionChain
import ZkStf.Proofs.Genuine
import ZkStf.Proofs.LedgerFold
import ZkStf.Proofs.ProofChain
import ZkStf.Proofs.SafeProposal
import ZkStf.Proofs.StateRoot
import ZkStf.Proofs.Validated
import ZkStf.Proofs.Conservation
import ZkStf.Proofs.Wraparound
import ZkStf.Proofs.VoteOrder
import ZkStf.Proofs.Pacemaker
import ZkStf.Proofs.SerialWorker
import ZkStf.Proofs.Requests
import ZkStf.Proofs.Kickoff
import ZkStf.Proofs.NoCrash
import ZkStf.Basis.Backfill
import ZkStf.Proofs.Committed
import ZkStf.Proofs.Settled
import ZkStf.Proofs.Resting
import ZkStf.Proofs.FixedPoint
import ZkStf.Model.Generator
import ZkStf.Proofs.WorkloadReplay
import ZkStf.Basis.Loop
import ZkStf.Proofs.Ancestry
import ZkStf.Proofs.Quorums
import ZkStf.Basis.Linked
import ZkStf.Proofs.History
import ZkStf.Basis.Stream
import ZkStf.Model.Framing
import ZkStf.Proofs.Layout
import ZkStf.Proofs.Framing
import ZkStf.Basis.Counting
import ZkStf.Proofs.CalmBound
import ZkStf.Model.Setup
import ZkStf.Proofs.Fleet
import ZkStf.Proofs.FleetBound
import ZkStf.Proofs.GeneratedRuns
import ZkStf.Proofs.Replication
import ZkStf.Basis.Format
import ZkStf.Proofs.Traffic
import ZkStf.Proofs.Crossing
