import Phonowire.Library.Machine
import Phonowire.Library.Totals
import Phonowire.Library.Streaming
import Phonowire.Library.Json
import Phonowire.AudioSocket.Message
import Phonowire.AudioSocket.Decoder
import Phonowire.AudioSocket.Framing
import Phonowire.AudioSocket.Encoder
import Phonowire.AudioSocket.Grammar
import Phonowire.AudioSocket.Strict
import Phonowire.AudioSocket.RoundTrip
import Phonowire.AudioSocket.Agreement
import Phonowire.AudioSocket.Session
import Phonowire.AudioSocket.SessionTrace
import Phonowire.Receiver.Memory
import Phonowire.Receiver.Record
import Phonowire.Receiver.Connection
import Phonowire.Receiver.Moves
import Phonowire.Receiver.Terminal
import Phonowire.Receiver.Transcript
import Phonowire.Receiver.Alone
import Phonowire.Receiver.Description
import Phonowire.Receiver.Recording
import Phonowire.Receiver.RecordingExact
import Phonowire.Receiver.Ledger
import Phonowire.Receiver.Pipeline
import Phonowire.Receiver.WaveFile
import Phonowire.Receiver.Order
import Phonowire.Receiver.Scheduler
import Phonowire.Receiver.SchedulerRuns
import Phonowire.Receiver.Summary
import Phonowire.Receiver.Handoff
import Phonowire.Receiver.Engine
import Phonowire.Receiver.Coherence
import Phonowire.Receiver.Lifetimes
import Phonowire.Receiver.Transitions
import Phonowire.Receiver.Ownership
import Phonowire.Receiver.Credit
import Phonowire.Library.Turns
import Phonowire.Receiver.Admission
import Phonowire.Receiver.Worker
import Phonowire.Receiver.Steady
import Phonowire.Receiver.Course
import Phonowire.Receiver.Blocking
import Phonowire.Receiver.Fairness
import Phonowire.Receiver.Delivery
import Phonowire.Receiver.Shutdown
import Phonowire.Receiver.Controls
import Phonowire.Receiver.Process
import Phonowire.Receiver.OrderRuns
import Phonowire.Receiver.PollTurn
import Phonowire.Library.History
import Phonowire.Receiver.AcceptLog
import Phonowire.Receiver.AcceptLoop
import Phonowire.Receiver.AcceptPace
import Phonowire.Receiver.Readiness
import Phonowire.Receiver.Accounting
import Phonowire.Receiver.Balance
import Phonowire.Capture.Config
import Phonowire.Capture.LimitedFile
import Phonowire.Capture.Run
import Phonowire.Capture.Bound
import Phonowire.Capture.Exact
import Phonowire.Capture.Lossless
import Phonowire.Capture.Success
import Phonowire.Capture.Handling
import Phonowire.Capture.Disk
import Phonowire.Capture.Evidence
import Phonowire.Capture.Account
import Phonowire.Capture.Stopping
import Phonowire.Receiver.Occupancy
import Phonowire.Receiver.Storage
import Phonowire.Receiver.Tracking
import Phonowire.Receiver.Retention
import Phonowire.Capture.Capacity
import Phonowire.Capture.Healthy
import Phonowire.Capture.Report
import Phonowire.Capture.Arguments
import Phonowire.Capture.Setup
