import MergedWork.Main
import MergedWork.Proofs.ActiveChain.ForkPoint
import MergedWork.Proofs.ActiveChain.InPlace
import MergedWork.Proofs.ActiveChain.Locator
import MergedWork.Proofs.ActiveChain.Path
import MergedWork.Proofs.ActiveChain.Run
import MergedWork.Proofs.ActiveChain.Spacing
import MergedWork.Proofs.Archive.Load
import MergedWork.Proofs.Archive.Partial
import MergedWork.Proofs.Archive.Records
import MergedWork.Proofs.Archive.Reload
import MergedWork.Proofs.Archive.RoundTrip
import MergedWork.Proofs.Archive.Settled
import MergedWork.Proofs.BlockIndex.Counts
import MergedWork.Proofs.BlockIndex.Failure
import MergedWork.Proofs.BlockIndex.History
import MergedWork.Proofs.BlockIndex.Inserted
import MergedWork.Proofs.BlockIndex.Invariant
import MergedWork.Proofs.BlockIndex.Known
import MergedWork.Proofs.BlockIndex.Lasting
import MergedWork.Proofs.BlockIndex.Majority
import MergedWork.Proofs.BlockIndex.MedianTime
import MergedWork.Proofs.BlockIndex.Positions
import MergedWork.Proofs.BlockIndex.Queries
import MergedWork.Proofs.BlockIndex.Status
import MergedWork.Proofs.BlockIndex.Table
import MergedWork.Proofs.BlockIndex.Walk
import MergedWork.Proofs.Bytes.Integers
import MergedWork.Proofs.ChainState.Admission
import MergedWork.Proofs.ChainState.Advance
import MergedWork.Proofs.ChainState.Events
import MergedWork.Proofs.ChainState.FailedTip
import MergedWork.Proofs.ChainState.Failure
import MergedWork.Proofs.ChainState.ForkChoice
import MergedWork.Proofs.ChainState.InPlace
import MergedWork.Proofs.ChainState.Order
import MergedWork.Proofs.ChainState.Peers
import MergedWork.Proofs.ChainState.Run
import MergedWork.Proofs.ChainState.Verdict
import MergedWork.Proofs.Checkpoint
import MergedWork.Proofs.Digest
import MergedWork.Proofs.Header.Identity
import MergedWork.Proofs.Header.Version
import MergedWork.Proofs.HeaderCheck
import MergedWork.Proofs.HeaderCheck.Equihash
import MergedWork.Proofs.Hex
import MergedWork.Proofs.MergeProof.Codec
import MergedWork.Proofs.MergeProof.InPlace
import MergedWork.Proofs.MergeProof.Slots
import MergedWork.Proofs.MergeProof.Truncation
import MergedWork.Proofs.MergeProof.Unique
import MergedWork.Proofs.Merkle.Flattened
import MergedWork.Proofs.Merkle.Membership
import MergedWork.Proofs.Script.Integers
import MergedWork.Proofs.Script.Pushes
import MergedWork.Proofs.Sorting
import MergedWork.Proofs.Target.Rounding
import MergedWork.Proofs.Target.Work
import MergedWork.Proofs.Wire.InPlace
import MergedWork.Proofs.Wire.Reads
import MergedWork.Proofs.Wire.Spellings
import MergedWork.Proofs.Wire.Steady
import MergedWork.Proofs.Words
import MergedWork.Text.Blank
