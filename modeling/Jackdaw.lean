import Jackdaw.Support.Table
import Jackdaw.Support.Interleave
import Jackdaw.Support.Simulation
import Jackdaw.Support.Traced
import Jackdaw.Support.Durable
import Jackdaw.Support.Window
import Jackdaw.Support.Drain
import Jackdaw.Support.Text
import Jackdaw.Support.Json
import Jackdaw.Support.JsonText
import Jackdaw.Support.JsonOrder
import Jackdaw.Support.Base64
import Jackdaw.Support.Url
import Jackdaw.Support.Xml
import Jackdaw.Support.Percent
import Jackdaw.Support.IpAddress
import Jackdaw.Util
import Jackdaw.Config
import Jackdaw.Db.Models
import Jackdaw.Db.Grows
import Jackdaw.Db.Frame
import Jackdaw.Db.Migrations
import Jackdaw.Http
import Jackdaw.Services.Nonce
import Jackdaw.Services.NonceCeiling
import Jackdaw.Services.Jws
import Jackdaw.Services.CertStore
import Jackdaw.Services.LeClient
import Jackdaw.Services.Http01
import Jackdaw.Services.KeyAuth
import Jackdaw.Services.Target
import Jackdaw.Services.RelayCert
import Jackdaw.Services.AccountKey
import Jackdaw.Relay.Segment
import Jackdaw.Routes.Account
import Jackdaw.Routes.Escapes
import Jackdaw.Routes.Challenge
import Jackdaw.Routes.Order
import Jackdaw.Routes.Resources
import Jackdaw.Worker
import Jackdaw.Base64url
import Jackdaw.CanonicalJwk
import Jackdaw.Main
import Jackdaw.Relay.Machine
import Jackdaw.Relay.Sends
import Jackdaw.Relay.Steps
import Jackdaw.Relay.History
import Jackdaw.Relay.Rows
import Jackdaw.Relay.Validation
import Jackdaw.Relay.Readiness
import Jackdaw.Relay.Issuance
import Jackdaw.Relay.Claims
import Jackdaw.Relay.Acknowledge
import Jackdaw.Relay.Terminal
import Jackdaw.Relay.Keys
import Jackdaw.Relay.KeyChange
import Jackdaw.Relay.RollOvers
import Jackdaw.Relay.Identity
import Jackdaw.Relay.Expiry
import Jackdaw.Relay.Ownership
import Jackdaw.Relay.Isolation
import Jackdaw.Relay.Frame
import Jackdaw.Relay.Recovery
import Jackdaw.Relay.Certificates
import Jackdaw.Relay.Revocation
import Jackdaw.Relay.Life
import Jackdaw.Relay.Statuses
import Jackdaw.Relay.Recording
import Jackdaw.Relay.Visible
import Jackdaw.Relay.RateLimit
import Jackdaw.Relay.Progress
import Jackdaw.Relay.Children
import Jackdaw.Relay.Attended
import Jackdaw.Relay.Replay
import Jackdaw.Relay.Provenance
import Jackdaw.Relay.Links
import Jackdaw.Relay.World
import Jackdaw.Relay.Solo
import Jackdaw.Relay.Served
import Jackdaw.Relay.OrderBook
import Jackdaw.Relay.Refinement
import Jackdaw.Upstream.Machine
import Jackdaw.Upstream.Flows
import Jackdaw.Upstream.Shared
import Jackdaw.Upstream.Progress
import Jackdaw.Dns.Namecheap
import Jackdaw.Dns.Providers
import Jackdaw.Dns.Route53Xml
import Jackdaw.Dns.Route53Signature
import Jackdaw.Dns.Zone
import Jackdaw.Relay.Policy
import Jackdaw.Background
import Jackdaw.Serve
import Jackdaw.Retries
