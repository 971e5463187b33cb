import Kyora.Framework.System
import Kyora.Framework.Forest
import Kyora.Basic
import Kyora.Ledger.Basic
import Kyora.Ledger.Operations
import Kyora.Ledger.Session
import Kyora.Ledger.Conservation
import Kyora.Ledger.Budget
import Kyora.Framework.Selection
import Kyora.Mailbox.Basic
import Kyora.Mailbox.Operations
import Kyora.Inbox.Basic
import Kyora.Loop.Basic
import Kyora.Loop.Steps
import Kyora.Loop.Invariant
import Kyora.Loop.Decision
import Kyora.Inbox.Calls
import Kyora.Inbox.FirstReport
import Kyora.Inbox.Mail
import Kyora.Inbox.Delivery
import Kyora.Inbox.Terminal
import Kyora.Inbox.Report
import Kyora.Calls.Basic
import Kyora.Calls.Steps
import Kyora.Calls.Wakeup
import Kyora.Calls.Wait
import Kyora.Agents.Directory
import Kyora.Agents.Basic
import Kyora.Agents.Steps
import Kyora.Agents.Order
import Kyora.Attempts.Basic
import Kyora.Attempts.Steps
import Kyora.Attempts.Lifecycle
import Kyora.Conversation.Basic
import Kyora.Framework.Pairing
import Kyora.Conversation.Steps
import Kyora.Conversation.History
import Kyora.Anthropic.Counters
import Kyora.Anthropic.Mapper
import Kyora.Anthropic.Steps
import Kyora.Anthropic.Agreement
import Kyora.Anthropic.ToolEvents
import Kyora.Anthropic.ServerTools
import Kyora.Anthropic.Request
import Kyora.Conversation.Requests
import Kyora.Conversation.Turns
import Kyora.Conversation.Contract
import Kyora.Ledger.Admission
import Kyora.Trace.Event
import Kyora.Sink.Basic
import Kyora.Sink.Steps
import Kyora.Sink.Journal
import Kyora.Sink.Emits
import Kyora.Sink.Finishes
import Kyora.Sink.Progress
import Kyora.Sink.Order
import Kyora.Deliveries.Basic
import Kyora.Deliveries.Order
import Kyora.Framework.Objects
import Kyora.Trace.Serde
import Kyora.Trace.Tree
import Kyora.Trace.Values
import Kyora.Trace.Codec
import Kyora.Trace.Readback
import Kyora.Trace.Interrupted
import Kyora.Framework.Tokens
import Kyora.Tool.Toolset
import Kyora.Tool.Schema
import Kyora.Tree.Basic
import Kyora.Tree.Steps
import Kyora.Tree.Wiring
import Kyora.Tree.Authority
import Kyora.Tree.Cancel
import Kyora.Shutdown.Basic
import Kyora.Shutdown.Steps
import Kyora.Shutdown.Invariant
import Kyora.Shutdown.Accounts
import Kyora.Shutdown.Records
import Kyora.Shutdown.Order
import Kyora.Trace.Build
import Kyora.Trace.Replay
import Kyora.Trace.Reconstruct
import Kyora.Shutdown.Replay
import Kyora.Shutdown.Settlements
import Kyora.Framework.Utf8
import Kyora.Framework.Walk
import Kyora.Sse.Basic
import Kyora.Sse.Reference
import Kyora.Sse.Framing
import Kyora.Sse.Consumer
import Kyora.Framework.SortedMap
import Kyora.Accumulation.Basic
import Kyora.Accumulation.WellFormed
import Kyora.Accumulation.Steps
import Kyora.Accumulation.Result
import Kyora.Accumulation.Pushes
import Kyora.Accumulation.Reorder
import Kyora.Session.Basic
import Kyora.Session.Crash
import Kyora.Session.Listing
import Kyora.Framework.Ranges
import Kyora.Secrets.Basic
import Kyora.Secrets.Scan
import Kyora.Secrets.Spans
import Kyora.Secrets.Matches
import Kyora.Secrets.Redaction
import Kyora.Secrets.Spelling
import Kyora.Secrets.Shown
import Kyora.Secrets.Cut
import Kyora.Secrets.Tail
import Kyora.Secrets.Json
import Kyora.Tool.Truncate
import Kyora.Fake.Stream
import Kyora.Fake.RoundTrip
import Kyora.Files.Edit
import Kyora.Files.Path
import Kyora.Files.Read
import Kyora.Files.Concurrent
import Kyora.Files.Leases
import Kyora.Files.Exclusion
import Kyora.Files.Serial
import Kyora.Framework.Lossy
import Kyora.Framework.Validity
import Kyora.Shell.Capture
import Kyora.Tool.Validate
import Kyora.Tool.Submit
import Kyora.Framework.Machine
import Kyora.Ledger.Word
import Kyora.Ledger.Charges
import Kyora.Framework.Separator
import Kyora.Mcp.Names
import Kyora.Mcp.Listing
import Kyora.Framework.Checks
import Kyora.Framework.Fair
import Kyora.Requests.Basic
import Kyora.Requests.Refused
import Kyora.Requests.Steps
import Kyora.Requests.Reservations
import Kyora.Requests.AllOrNothing
import Kyora.Mcp.Credentials
import Kyora.Mcp.Escapes
import Kyora.Mcp.EventLimit
import Kyora.Mcp.BoundedLines
import Kyora.Mcp.Sessions
import Kyora.Tui.Streams
import Kyora.Tui.TreeRows
import Kyora.Conversation.Estimator
import Kyora.Accumulation.Raw
import Kyora.Mcp.Pages
import Kyora.Mcp.Offered
import Kyora.Mcp.Refresh
import Kyora.Mcp.InFlight
import Kyora.Anthropic.Attempt
import Kyora.Anthropic.Cut
import Kyora.Framework.Errors
import Kyora.Anthropic.Charged
import Kyora.Framework.Groups
import Kyora.Framework.Custody
import Kyora.Shell.Execute
import Kyora.Shell.Contained
import Kyora.Shell.Outcome
import Kyora.Shell.Reported
import Kyora.Mcp.Processes
import Kyora.Mcp.Stopped
import Kyora.Framework.Replace
import Kyora.Anthropic.Redacted
