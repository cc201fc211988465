import PolarWG.Proofs.Handshakes
import PolarWG.Proofs.Replay
import PolarWG.Proofs.Opening
import PolarWG.Proofs.Routes
import PolarWG.Proofs.Nonces
import PolarWG.Proofs.Restore
import PolarWG.Proofs.X25519
import PolarWG.Proofs.Receive
import PolarWG.Proofs.Timers
import PolarWG.Proofs.RoundTrip
import PolarWG.Proofs.GiveUp
import PolarWG.Proofs.Aead
import PolarWG.Proofs.Hosts
import PolarWG.Proofs.Mesh
import PolarWG.Proofs.Renderers
import PolarWG.Proofs.Convergence
import PolarWG.Proofs.Parsers
import PolarWG.Proofs.KeyText
import PolarWG.Proofs.Prefixes
import PolarWG.Proofs.GetBuffer
import PolarWG.Proofs.Endpoints
import PolarWG.Proofs.Identity
import PolarWG.Proofs.Frame
import PolarWG.Proofs.Removal
import PolarWG.Proofs.Ownership
import PolarWG.Proofs.Backoff
import PolarWG.Proofs.Repeat
import PolarWG.Proofs.U128
import PolarWG.Proofs.RateLimit
import PolarWG.Proofs.EndpointWatch
import PolarWG.Proofs.LongPoll
import PolarWG.Proofs.Comparison
import PolarWG.Proofs.PublicIP
import PolarWG.Proofs.WindowsLoop
import PolarWG.Proofs.Drafts
import PolarWG.Proofs.Leaving
import PolarWG.Proofs.Status
import PolarWG.Proofs.MbufStub
import PolarWG.Proofs.Redial
import PolarWG.Proofs.Egress
import PolarWG.Proofs.ConnectedTx
import PolarWG.Proofs.Profiles
import PolarWG.Proofs.NetworkSettings
import PolarWG.Proofs.ConfigValidator
import PolarWG.Proofs.NonceWindow
import PolarWG.Proofs.Blake2s
import PolarWG.Proofs.Limiter
import PolarWG.Proofs.Forwarding
import PolarWG.Proofs.SessionSteps
import PolarWG.Proofs.KeyExchange
