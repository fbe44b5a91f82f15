import AskFable.Falsify.Clerk
import AskFable.General.Machine
import AskFable.Falsify.Evolution
import AskFable.Falsify.Asserts
import AskFable.Falsify.StepSpec
import AskFable.Falsify.Invariant
import AskFable.Falsify.Certification
import AskFable.Falsify.Reputation
import AskFable.General.Versioned
import AskFable.Store.LocalStore
import AskFable.Store.LostUpdate
import AskFable.Python.Bytes
import AskFable.Python.Utf8
import AskFable.Bus.Crypto
import AskFable.Bus.RoundTrip
import AskFable.Bus.Daemon
import AskFable.Bus.ErrorClosure
import AskFable.Bus.IfMatch
import AskFable.Extract.Fence
import AskFable.Extract.RoundTrip
import AskFable.Extract.Collapse
import AskFable.Bus.Auth
import AskFable.General.Journal
import AskFable.Lms.Catalog
import AskFable.Lms.Ensure
import AskFable.Lms.Effects
import AskFable.Lms.Restore
import AskFable.Lms.Evidence
import AskFable.Lms.InFlight
import AskFable.Debate.Ledger
import AskFable.Debate.Run
import AskFable.Debate.Provenance
import AskFable.Council.Run
import AskFable.Debate.Settled
import AskFable.Council.Trust
import AskFable.Ask.Loop
import AskFable.Ask.Bridge
import AskFable.Ask.Isolation
import AskFable.Ask.Models
import AskFable.Extract.Residue
import AskFable.Extract.Thinned
import AskFable.Extract.Twice
import AskFable.Review.Execute
import AskFable.Review.Endings
import AskFable.Review.Clerks
import AskFable.Review.Metrics
import AskFable.Review.SelfCertification
import AskFable.Store.LedgerLoad
import AskFable.Falsify.Fixpoint
import AskFable.Store.SaveLoop
import AskFable.General.Lines
import AskFable.Python.JsonDumps
import AskFable.Trace.Readers
import AskFable.General.FixedWidth
import AskFable.Python.Datetime
import AskFable.Trace.Store
import AskFable.Trace.Durable
import AskFable.Trace.Order
import AskFable.General.Grouping
import AskFable.General.Paging
import AskFable.Python.JsonPlain
import AskFable.Trace.Telemetry
import AskFable.Trace.Query
import AskFable.Trace.Pages
import AskFable.Trace.Runtime
import AskFable.Trace.Transparent
import AskFable.General.Tally
import AskFable.General.Transaction
import AskFable.Hub.Mirror
import AskFable.General.Budget
import AskFable.Pack.Accounting
import AskFable.Pack.Budget
import AskFable.General.Window
import AskFable.Health.Breaker
import AskFable.Health.Runs
import AskFable.General.Tabulate
import AskFable.Stats.Aggregate
import AskFable.Stats.Amounts
import AskFable.Stats.Conservation
import AskFable.Debate.Docket
import AskFable.Caching.Answers
import AskFable.Caching.Keys
import AskFable.Caching.Puts
import AskFable.Caching.Replay
import AskFable.Review.Capture
import AskFable.Bus.Listing
import AskFable.Bus.SideBySide
import AskFable.General.Retention
import AskFable.General.Select
import AskFable.Kimi.Render
import AskFable.Kimi.WellFormed
import AskFable.Lms.Explicit
import AskFable.Lms.Panel
import AskFable.Pack.Slice
import AskFable.Store.Sweeps
import AskFable.Trace.Forward
import AskFable.Chain.Agreement
import AskFable.Falsify.Calibration
import AskFable.General.Lru
import AskFable.General.Rounding
import AskFable.Guard.Allowlist
import AskFable.Guard.Memo
import AskFable.Health.Arithmetic
import AskFable.Health.Holds
import AskFable.Health.Tripped
import AskFable.Index.Chunks
import AskFable.Pack.Containment
import AskFable.Review.Kinds
import AskFable.General.Reach
import AskFable.Falsify.Contra
import AskFable.General.Tail
import AskFable.Conference.Transcript
import AskFable.General.Cut
import AskFable.General.Roster
import AskFable.Conference.Run
import AskFable.Conference.Talk
import AskFable.Conference.Premise
import AskFable.Conference.Anonymous
import AskFable.General.Permits
import AskFable.Gate.Calls
import AskFable.Gate.Slots
import AskFable.General.Derived
import AskFable.Index.Refresh
import AskFable.Index.Fresh
import AskFable.Index.Vectors
import AskFable.General.Front
import AskFable.Index.Search
import AskFable.Bus.Client
import AskFable.Bus.Untrusted
import AskFable.Caching.Fresh
import AskFable.General.Accounts
import AskFable.Oracle.Calls
import AskFable.Oracle.Accounted
import AskFable.Oracle.Served
import AskFable.Python.JsonWire
import AskFable.General.Linear
import AskFable.Bus.Wire
import AskFable.Bus.Owner
import AskFable.Bus.Served
import AskFable.Bus.Linearizable
import AskFable.Config.File
import AskFable.Config.Saves
