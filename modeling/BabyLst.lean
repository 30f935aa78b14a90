import BabyLst.Common.Balance
import BabyLst.Common.Ceil
import BabyLst.Common.Delegation
import BabyLst.Common.Errors
import BabyLst.Common.Math
import BabyLst.Common.Types
import BabyLst.Dispatcher.Contract
import BabyLst.Hub.Affordable
import BabyLst.Hub.Batches
import BabyLst.Hub.Checkable
import BabyLst.Hub.Claims
import BabyLst.Hub.Closing
import BabyLst.Hub.Contract
import BabyLst.Hub.Entries
import BabyLst.Hub.EpochRecord
import BabyLst.Hub.Epochs
import BabyLst.Hub.Ledger
import BabyLst.Hub.Listing
import BabyLst.Hub.Payable
import BabyLst.Hub.Pending
import BabyLst.Hub.Query
import BabyLst.Hub.Release
import BabyLst.Hub.RoundTrip
import BabyLst.Hub.Settled
import BabyLst.Hub.Slashing
import BabyLst.Hub.Stake
import BabyLst.Hub.State
import BabyLst.Hub.Unstake
import BabyLst.Hub.Withdraw
import BabyLst.Hub.Withdrawable
import BabyLst.Lib.Delivery
import BabyLst.Lib.EpochWindow
import BabyLst.Lib.Except
import BabyLst.Lib.LastWrite
import BabyLst.Lib.Leveling
import BabyLst.Lib.MapSum
import BabyLst.Lib.Paging
import BabyLst.Lib.Prefix
import BabyLst.Lib.Run
import BabyLst.Lib.Settle
import BabyLst.Lib.SharePool
import BabyLst.Lib.Snapshot
import BabyLst.Lib.Throttle
import BabyLst.Registry.Combined
import BabyLst.Registry.Contract
import BabyLst.Registry.Redelegations
import BabyLst.Registry.Status
import BabyLst.Testing.Stargate
import BabyLst.Token.Contract
import BabyLst.World.Accounts
import BabyLst.World.Authority
import BabyLst.World.Batches
import BabyLst.World.Books
import BabyLst.World.Chain
import BabyLst.World.Closing
import BabyLst.World.Commitment
import BabyLst.World.Flows
import BabyLst.World.HubRuns
import BabyLst.World.LatestRate
import BabyLst.World.Listing
import BabyLst.World.Mint
import BabyLst.World.Moves
import BabyLst.World.Order
import BabyLst.World.Pause
import BabyLst.World.Payable
import BabyLst.World.Pool
import BabyLst.World.Queue
import BabyLst.World.Rate
import BabyLst.World.Removal
import BabyLst.World.Requests
import BabyLst.World.Restaking
import BabyLst.World.Rewards
import BabyLst.World.Simulation
import BabyLst.World.Solvency
import BabyLst.World.System
import BabyLst.World.Throttle
import BabyLst.World.Tracking
import BabyLst.World.Underflow
