import Vcmp.Common.Machine
import Vcmp.Common.Progress
import Vcmp.Common.Clock
import Vcmp.Common.Text
import Vcmp.Common.Tally
import Vcmp.Common.Bits
import Vcmp.Wire.Frame
import Vcmp.Wire.Grammar
import Vcmp.Wire.Base64
import Vcmp.Ws.Fragments
import Vcmp.Common.Transducer
import Vcmp.Ws.Adapters
import Vcmp.Ws.Options
import Vcmp.Json.Value
import Vcmp.Json.Codec
import Vcmp.Error
import Vcmp.Resources.Budget
import Vcmp.Resources.Ledger
import Vcmp.Client.Model
import Vcmp.Client.Generations
import Vcmp.Client.Liveness
import Vcmp.Client.Hooks
import Vcmp.Client.Handshake
import Vcmp.Session.Payload
import Vcmp.Session.Problem
import Vcmp.Session.State
import Vcmp.Session.Model
import Vcmp.Session.Step
import Vcmp.Session.Stages
import Vcmp.Session.Closing
import Vcmp.Session.Arrivals
import Vcmp.Session.Requests
import Vcmp.Session.PendingMap
import Vcmp.Session.Pending
import Vcmp.Session.Works
import Vcmp.Session.Dispatch
import Vcmp.Session.Answers
import Vcmp.Session.Heartbeat
import Vcmp.Session.Watchdog
import Vcmp.Session.Flow
import Vcmp.Session.Initiated
import Vcmp.Session.Held
import Vcmp.Session.Send
import Vcmp.Session.Refused
import Vcmp.Session.Classify
import Vcmp.Session.Covers
import Vcmp.Session.Shutdown
import Vcmp.Session.Beats
import Vcmp.Session.Sizes
import Vcmp.Session.Admission
import Vcmp.Session.Echoes
import Vcmp.Client.System
import Vcmp.Client.Stopping
import Vcmp.Session.Provenance
import Vcmp.Session.Priority
import Vcmp.Session.Accounted
import Vcmp.Session.Pulse
import Vcmp.Session.Silence
import Vcmp.Link.Model
import Vcmp.Link.Heartbeat
import Vcmp.Link.Order
import Vcmp.Link.Agreement
import Vcmp.Link.Framed
import Vcmp.Link.Flight
import Vcmp.Link.Turns
import Vcmp.Link.Timing
import Vcmp.Server.Shown
import Vcmp.Server.System
import Vcmp.Server.Hooks
import Vcmp.Server.Supervised
import Vcmp.Server.Ranks
import Vcmp.Server.Returns
import Vcmp.Server.Admission
import Vcmp.Server.Shutdown
import Vcmp.Server.Path
import Vcmp.Server.Routing
