import Statechart.Interchange
import Statechart.Json.Parser
import Statechart.Json.Printer
import Statechart.Uuid
import Statechart.Calendar.Rfc3339
import Statechart.Runner
import Statechart.Script.Reader
import Statechart.Script.Machine
import Statechart.Chat.Interchange
import Statechart.Chat.Session
import Statechart.Proofs.Invariant
import Statechart.Proofs.Resume
import Statechart.Proofs.Inside
import Statechart.Proofs.ParallelRoot
import Statechart.Proofs.Ownership
import Statechart.Proofs.Tick
import Statechart.Proofs.CompletionSignal
import Statechart.Proofs.Isolation
import Statechart.Proofs.Finishing
import Statechart.Proofs.Queue
import Statechart.Proofs.Activation
import Statechart.Proofs.Faults
import Statechart.Proofs.Stopping
import Statechart.Proofs.Commuting
import Statechart.Proofs.Journal
import Statechart.Proofs.Listeners
import Statechart.Proofs.Chart.Building
import Statechart.Proofs.Machine.Assigning
import Statechart.Proofs.Machine.Calm
import Statechart.Proofs.Machine.Offers
import Statechart.Proofs.Chat.Messages
import Statechart.Proofs.Exchange
import Statechart.Proofs.Machine.Arming
import Statechart.Proofs.Machine.Carrying
import Statechart.Proofs.Machine.Taking
import Statechart.Proofs.Chat.Moves
import Statechart.Proofs.Chat.Coupling
import Statechart.Proofs.Chat.Sends
import Statechart.Proofs.Chat.Modes
import Statechart.Proofs.Machine.Conflicts
import Statechart.Proofs.Sequence
import Statechart.Proofs.Arrival
import Statechart.Proofs.Pending
import Statechart.Proofs.Chat.Debounce
import Statechart.Proofs.Chat.Delivery
import Statechart.Proofs.Machine.Timers
import Statechart.Proofs.Machine.Tasks
import Statechart.Proofs.View
import Statechart.Proofs.Known
import Statechart.Proofs.Chart.CommonAncestor
import Statechart.Proofs.Chart.Document
import Statechart.Proofs.Entry.Fuel
