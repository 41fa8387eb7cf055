import TorusHyperBft.Feed.Run
import TorusHyperBft.OrderBook.TraderOrders
import TorusHyperBft.OrderBook.Priority
import TorusHyperBft.Account.Funding
import TorusHyperBft.Oracle.Bound
import TorusHyperBft.Signing.BatchVerify
import TorusHyperBft.Epoch.Elected
import TorusHyperBft.Epoch.Installed
import TorusHyperBft.RunningHash.History
import TorusHyperBft.State.LayeredReads
import TorusHyperBft.State.Flushed
import TorusHyperBft.Account.Settled
import TorusHyperBft.HotStuff.FreshProposer
import TorusHyperBft.Proposal.Votable
import TorusHyperBft.Account.Charged
import TorusHyperBft.Account.AdlClosed
import TorusHyperBft.Executor.Cascade
import TorusHyperBft.Executor.CancelAllRun
import TorusHyperBft.Executor.ModifyOrder
import TorusHyperBft.OrderBook.DepthViews
import TorusHyperBft.Executor.TakerMargin
import TorusHyperBft.FixedPoint.Decimal
import TorusHyperBft.Account.Lockbox
import TorusHyperBft.State.CallFrames
import TorusHyperBft.State.DaGcRun
import TorusHyperBft.Staking.Rewards
import TorusHyperBft.Staking.Verdict
import TorusHyperBft.Chain.ActionOrder
import TorusHyperBft.State.Sharded
import TorusHyperBft.Account.LiquidationTurns
import TorusHyperBft.Mempool.Scheduled
import TorusHyperBft.Mempool.TrustCache
import TorusHyperBft.Mempool.LanesSound
import TorusHyperBft.Account.PosSums
import TorusHyperBft.Proposal.PlanRun
