import MtaHooks.Server.Framing
import MtaHooks.Server.Reading
import MtaHooks.Session.Stopped
import MtaHooks.Hooks.Request
import MtaHooks.Session.Replies
import MtaHooks.Session.Transaction
import MtaHooks.Session.Bounds
import MtaHooks.Session.Output
import MtaHooks.Session.Macros
import MtaHooks.Session.Safety
import MtaHooks.Hooks.CheckedResponse
import MtaHooks.Hooks.Recovery
import MtaHooks.Session.Isolation
import MtaHooks.Hooks.HeaderEdits
import MtaHooks.Hooks.RawExact
import MtaHooks.Hooks.Echo
import MtaHooks.Protocol.ReadBack
import MtaHooks.Protocol.Grammar
import MtaHooks.Session.SizeEstimate
import MtaHooks.Hooks.RawRetained
import MtaHooks.Hooks.Invoke
import MtaHooks.Hooks.StageConfirmation
import MtaHooks.Hooks.AddressForm
import MtaHooks.Hooks.Paths
import MtaHooks.Session.SmtpReply
import MtaHooks.Protocol.MacroRequest
import MtaHooks.Hooks.ClientAddress
import MtaHooks.Hooks.Slots
import MtaHooks.Hooks.Disclosure
import MtaHooks.Hooks.Simulation
import MtaHooks.Hooks.EncodedLimit
import MtaHooks.Server.Drain
import MtaHooks.Hooks.Register
import MtaHooks.Bridge.Closing
import MtaHooks.Bridge.Load
import MtaHooks.Bridge.Exit
import MtaHooks.Server.Metrics
