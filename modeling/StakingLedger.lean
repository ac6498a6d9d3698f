import StakingLedger.Document.Json.Reader
import StakingLedger.Document.Toml.Order
import StakingLedger.Main
import StakingLedger.Proofs.State.Content
import StakingLedger.Proofs.Ledger.Folding
import StakingLedger.Proofs.State.Loading
import StakingLedger.Proofs.Funding
import StakingLedger.Proofs.State.Genesis
import StakingLedger.Proofs.Ledger.LayerRefinement
import StakingLedger.Proofs.Codec.Canonical
import StakingLedger.Proofs.Store.Batch
import StakingLedger.Proofs.State.StoredStakers
import StakingLedger.Proofs.State.Flushing
import StakingLedger.Proofs.State.Commit
import StakingLedger.Proofs.State.Reload
import StakingLedger.Proofs.State.History
import StakingLedger.Proofs.ValidatorSet.Changes
import StakingLedger.Proofs.ValidatorSet.Current
import StakingLedger.Proofs.Store.ChangeScan
import StakingLedger.Proofs.ValidatorSet.Undo
import StakingLedger.Proofs.ValidatorSet.Historical
import StakingLedger.Proofs.Ledger.Computation
import StakingLedger.Proofs.Operation.Run
import StakingLedger.Proofs.Operation.Script
import StakingLedger.Proofs.Conservation.Outstanding
import StakingLedger.Proofs.Conservation.Supply
import StakingLedger.Proofs.Lifecycle.Moves
import StakingLedger.Proofs.Lifecycle.Timeliness
import StakingLedger.Proofs.Lifecycle.Backing
import StakingLedger.Proofs.Lifecycle.Backbone
import StakingLedger.Proofs.Lifecycle.Capacity
import StakingLedger.Proofs.Operator.Termination
import StakingLedger.Proofs.Operation.Clean
import StakingLedger.Proofs.Operation.Reproducible
import StakingLedger.Proofs.Chronicle.Calls
import StakingLedger.Proofs.Chronicle.Line
import StakingLedger.Proofs.Chronicle.Slots
import StakingLedger.Proofs.Operator.Safety
import StakingLedger.Proofs.Chronicle.Payments
import StakingLedger.Proofs.Operation.SameView
import StakingLedger.Proofs.Operator.Lockstep
import StakingLedger.Proofs.Operator.TwoHops
import StakingLedger.Proofs.State.Founding
import StakingLedger.Proofs.Operation.Payouts
import StakingLedger.Proofs.ValidatorSet.Bearing
import StakingLedger.Proofs.Operator.Succession
import StakingLedger.Proofs.State.Restoring
import StakingLedger.Proofs.Operator.Whole
import StakingLedger.Proofs.Ledger.Arising
import StakingLedger.Proofs.Staker.TimelineTies
import StakingLedger.Proofs.Lifecycle.Overlap
import StakingLedger.Proofs.Lifecycle.AdvanceEffect
import StakingLedger.Proofs.Ledger.Footprint
import StakingLedger.Proofs.Ledger.Joining
import StakingLedger.Proofs.Operation.TransactionEffect
import StakingLedger.Proofs.Staker.TimelineWalk
import StakingLedger.Proofs.Registry.SlotHistory
import StakingLedger.Proofs.Operation.Settlement
import StakingLedger.Registry.Tiered
import StakingLedger.Proofs.Registry.Tiered
import StakingLedger.Proofs.Registry.Representation
import StakingLedger.Proofs.Registry.Replacement
import StakingLedger.Proofs.State.Anchoring
import StakingLedger.Proofs.Ledger.Replacement
import StakingLedger.Proofs.State.Filing
import StakingLedger.Proofs.Ledger.Listings
import StakingLedger.Proofs.Reward.Shares
import StakingLedger.Proofs.Reward.Exactness
import StakingLedger.Proofs.Reward.Curve
import StakingLedger.Proofs.Store.Serving
import StakingLedger.Proofs.Store.ChangeWalk
import StakingLedger.Proofs.State.RecordNames
import StakingLedger.Proofs.Bytes.Hex
import StakingLedger.Proofs.IdentifierText
import StakingLedger.Proofs.ValidatorSet.SignedSum
import StakingLedger.Registry.TieredOverlay
import StakingLedger.Proofs.Registry.TieredOverlay
import StakingLedger.Proofs.Registry.SlotTurnover
import StakingLedger.Proofs.Registry.LayerIndexes
