import Coalesce.Lib.KeyedSum
import Coalesce.Lib.ProRata
import Coalesce.Lib.Runs
import Coalesce.Lib.FixedPoint
import Coalesce.Lib.Compound
import Coalesce.Lib.Pod
import Coalesce.Lib.Footprint
import Coalesce.Errors
import Coalesce.State
import Coalesce.Interest
import Coalesce.Haircuts
import Coalesce.Token
import Coalesce.Validation
import Coalesce.Processor.Admin
import Coalesce.Processor.Lending
import Coalesce.Processor.Exit
import Coalesce.Processor.Claim
import Coalesce.Processor.Settlement
import Coalesce.Program
import Coalesce.Pool
import Coalesce.Refinement
import Coalesce.Ledger
import Coalesce.Solvency
import Coalesce.OneWay
import Coalesce.WindDown
import Coalesce.Overflow
import Coalesce.History
import Coalesce.Recycling
import Coalesce.Account
import Coalesce.Conservation
import Coalesce.FirstMover
import Coalesce.Distress
import Coalesce.Exits
import Coalesce.Recovery
import Coalesce.Accrual
import Coalesce.Whitelist
import Coalesce.MoreTime
import Coalesce.Growth
import Coalesce.Fees
import Coalesce.FeeShare
import Coalesce.Authority
import Coalesce.Custody
import Coalesce.Lifecycle
import Coalesce.Books
import Coalesce.EventLog
import Coalesce.Capacity
import Coalesce.Repayment
import Coalesce.Widths
import Coalesce.Layout
import Coalesce.Storage
import Coalesce.WindUp
import Coalesce.Dust
import Coalesce.Schedule
import Coalesce.Default
import Coalesce.Return
import Coalesce.Blacklist
import Coalesce.Wire
import Coalesce.Freeze
import Coalesce.Parallel
