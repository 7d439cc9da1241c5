import Qvole.Lib.Bytes
import Qvole.Lib.GoMap
import Qvole.Lib.Buffers
import Qvole.Lib.BufferPool
import Qvole.Lib.Fallible
import Qvole.Lib.Gcm
import Qvole.Lib.Hash
import Qvole.Lib.Machine
import Qvole.Lib.ModRoot
import Qvole.Lib.Net
import Qvole.Lib.NetText
import Qvole.Lib.Pool
import Qvole.Lib.Progress
import Qvole.Lib.Refinement
import Qvole.Lib.Scanner
import Qvole.Lib.Window
import Qvole.Spake2.HashToCurve
import Qvole.Spake2.Protocol
import Qvole.Relay.State
import Qvole.Relay.Handle
import Qvole.Relay.Sweep
import Qvole.Relay.Outcome
import Qvole.Relay.Accept
import Qvole.Relay.AddressKey
import Qvole.Relay.Moves
import Qvole.Relay.PrefixCap
import Qvole.Relay.Bookkeeping
import Qvole.Relay.Caps
import Qvole.Relay.Presence
import Qvole.Relay.Routability
import Qvole.Relay.ClientRecord
import Qvole.Relay.Completions
import Qvole.Relay.CreationRace
import Qvole.Relay.DropLog
import Qvole.Relay.PendingCap
import Qvole.Relay.Expiry
import Qvole.Relay.Forwarding
import Qvole.Relay.RegLimit
import Qvole.Relay.Rates
import Qvole.Relay.Footprint
import Qvole.Relay.NewestCookie
import Qvole.Relay.PendingRace
import Qvole.Relay.Pipeline
import Qvole.Relay.Progress
import Qvole.Relay.Quiescence
import Qvole.Relay.Service
import Qvole.Engine.Exchange
import Qvole.Engine.Agreement
import Qvole.Engine.Binding
import Qvole.Engine.Registration
import Qvole.Engine.Loop
import Qvole.Engine.Splice
import Qvole.Engine.Tables
import Qvole.Engine.Wire
import Qvole.Engine.Code
import Qvole.Engine.ExternalAddress
import Qvole.Engine.Delivery
import Qvole.Engine.Turns
import Qvole.Engine.Rendezvous
import Qvole.Engine.Resending
import Qvole.Engine.Network
import Qvole.Engine.Completion
import Qvole.Engine.Keepalive
import Qvole.Engine.Punch
import Qvole.Engine.PunchEnding
import Qvole.Engine.Recovery
import Qvole.App.Allow
import Qvole.App.Command
import Qvole.App.Request
import Qvole.App.ControlStream
import Qvole.App.Tunnel
import Qvole.App.Indices
import Qvole.App.PeerCommand
import Qvole.App.Spec
import Qvole.App.Split
import Qvole.App.Truncation
