import LiveIsolation.ConflictGraph.Danger
import LiveIsolation.Engine.Commit
import LiveIsolation.Engine.ConfigText
import LiveIsolation.Engine.Execute
import LiveIsolation.LockTable.Waiter
import LiveIsolation.Value.Json
import LiveIsolation.Workload
import LiveIsolation.Proofs.Barrier.History
import LiveIsolation.Proofs.Barrier.Safety
import LiveIsolation.Proofs.LockTable.Views
import LiveIsolation.Proofs.LockTable.Guard
import LiveIsolation.Proofs.Obligation
import LiveIsolation.Proofs.Engine.Commit
import LiveIsolation.Proofs.Engine.Execute
import LiveIsolation.Proofs.Store
import LiveIsolation.Proofs.Engine.Switched
import LiveIsolation.Proofs.Engine.Log
import LiveIsolation.Proofs.Engine.Sound
import LiveIsolation.Proofs.Engine.Logged
import LiveIsolation.Proofs.Engine.Moves
import LiveIsolation.Proofs.Engine.Replay
import LiveIsolation.Proofs.Engine.Serial
import LiveIsolation.Proofs.Engine.Solo
import LiveIsolation.Proofs.LockTable.Exclusion
import LiveIsolation.Proofs.LockTable.Plain
import LiveIsolation.Proofs.LockTable.Undisturbed
import LiveIsolation.Proofs.ConflictGraph.Induced
import LiveIsolation.Proofs.ConflictGraph.Search
import LiveIsolation.Proofs.ConflictGraph.Enumeration
import LiveIsolation.Proofs.ConflictGraph.Conflicts
import LiveIsolation.Proofs.Registration
import LiveIsolation.Proofs.ConflictGraph.Names
import LiveIsolation.Proofs.ConflictGraph.Dangers
import LiveIsolation.Proofs.Analysis
import LiveIsolation.Proofs.LockTable.Beside
import LiveIsolation.Proofs.Engine.Outage
import LiveIsolation.Proofs.Engine.Steady
import LiveIsolation.Proofs.Engine.AllOrNothing
import LiveIsolation.Proofs.LockTable.Holders
import LiveIsolation.Proofs.LockTable.Traffic
import LiveIsolation.Proofs.Engine.Gate
import LiveIsolation.Proofs.Engine.Transactions
import LiveIsolation.Proofs.Engine.Covering
import LiveIsolation.Proofs.Engine.Turn
import LiveIsolation.Proofs.Engine.Trailing
import LiveIsolation.Proofs.Engine.Seats
import LiveIsolation.Proofs.Engine.Answers
import LiveIsolation.Proofs.LockTable.WaitOrder
import LiveIsolation.Proofs.LockTable.Releases
import LiveIsolation.Proofs.LockTable.WaitingRoom
import LiveIsolation.Proofs.Engine.Standing
import LiveIsolation.Proofs.Engine.Muster
import LiveIsolation.Proofs.Engine.Rest
import LiveIsolation.Proofs.Engine.Ran
import LiveIsolation.Proofs.Engine.Locked
import LiveIsolation.Proofs.Engine.Faultless
import LiveIsolation.Proofs.Engine.Accounts
import LiveIsolation.Proofs.Flags
import LiveIsolation.Proofs.Engine.InOneGo
import LiveIsolation.Proofs.ConflictGraph.Undominated
import LiveIsolation.Proofs.Lock.Pending
import LiveIsolation.Proofs.Lock.Words
import LiveIsolation.Proofs.Recording
import LiveIsolation.Proofs.LockTable.Restored
import LiveIsolation.Proofs.LockTable.Words
import LiveIsolation.Proofs.LockTable.Learning
import LiveIsolation.Proofs.Engine.Sampled
import LiveIsolation.Proofs.RowKey
import LiveIsolation.Proofs.Store.Reported
import LiveIsolation.Proofs.Engine.Refused
