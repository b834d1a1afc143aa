import Scuttlecast.Library.Labelled
import Scuttlecast.Library.Clocked
import Scuttlecast.Library.Chunks
import Scuttlecast.Library.Table
import Scuttlecast.Library.Varint
import Scuttlecast.Transfer
import Scuttlecast.Soundness
import Scuttlecast.EndToEnd
import Scuttlecast.FlowControl
import Scuttlecast.RoundTrip
import Scuttlecast.Starved
import Scuttlecast.Shutdown
import Scuttlecast.Receiver.Hostile
import Scuttlecast.Receiver.Repair
import Scuttlecast.Slots
import Scuttlecast.Sender.Rate
import Scuttlecast.Proto.Frame
import Scuttlecast.Transport
import Scuttlecast.Proto.Codec
import Scuttlecast.Listening
import Scuttlecast.Sender.Egress
import Scuttlecast.Accounting
import Scuttlecast.Requests
import Scuttlecast.Library.History
import Scuttlecast.Stream
import Scuttlecast.Sender.Attendance
import Scuttlecast.Verdict
import Scuttlecast.Library.Responding
import Scuttlecast.Library.TokenBucket
import Scuttlecast.Library.Smoothing
import Scuttlecast.Library.Cooldown
import Scuttlecast.Receiver.Buffer
import Scuttlecast.Receiver.Refusal
import Scuttlecast.Receiver.Asking
import Scuttlecast.Sender.Retention
import Scuttlecast.Sender.Holdoff
import Scuttlecast.Sender.Demand
import Scuttlecast.Sender.Batching
import Scuttlecast.Sender.BackOff
import Scuttlecast.Sender.Pacing
import Scuttlecast.Reports
import Scuttlecast.Repeats
import Scuttlecast.Roster
import Scuttlecast.Sender.Bottleneck
import Scuttlecast.SendStream
import Scuttlecast.LinkLoad
import Scuttlecast.Library.Simulation
import Scuttlecast.Readable
import Scuttlecast.Endings
import Scuttlecast.Deployment
import Scuttlecast.Deployed
import Scuttlecast.Neighbours
import Scuttlecast.Receiver.Timeless
import Scuttlecast.Admission
import Scuttlecast.Admitted
import Scuttlecast.Campaign
import Scuttlecast.Joined
import Scuttlecast.Draining
import Scuttlecast.Receiver.Supply
import Scuttlecast.Supplied
import Scuttlecast.Success
import Scuttlecast.Stranded
