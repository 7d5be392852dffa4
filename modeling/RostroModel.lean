import RostroModel.Overlay.RootCache
import RostroModel.ForkTree.Atomicity
import RostroModel.Messages.Rewards
import RostroModel.Psm.Value
import RostroModel.Prospective.Cumulative
import RostroModel.Prospective.ForkChoice
import RostroModel.Broker.Conservation
import RostroModel.Broker.Schedules
import RostroModel.Merkle.Soundness
import RostroModel.Xcm.Taking
import RostroModel.Sync.Ranges
import RostroModel.Grandpa.History
import RostroModel.Grandpa.Enactment
import RostroModel.Statements.Admission
import RostroModel.Headers.Queries
import RostroModel.TransactionPool.Losses
import RostroModel.XcmpQueue.Fifo
import RostroModel.ApprovalVoting.Kept
import RostroModel.Coretime.Runs
import RostroModel.Vesting.Merging
import RostroModel.ConvictionVoting.Deadlines
import RostroModel.Referenda.Curve
import RostroModel.ForkTree.DeepestAncestor
import RostroModel.Overlay.NextKey
import RostroModel.Prospective.Stacking
import RostroModel.Arithmetic.Powers
import RostroModel.Broker.Distribution
import RostroModel.Statements.Queries
import RostroModel.Statements.Reachable
