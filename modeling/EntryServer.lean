import EntryServer.Acl.Basic
import EntryServer.Acl.Sealed
import EntryServer.Auth.Authenticator
import EntryServer.Auth.Cache
import EntryServer.Auth.Challenge
import EntryServer.CommandLine
import EntryServer.Config.Basic
import EntryServer.Config.Reader
import EntryServer.Config.Validation
import EntryServer.Credentials.Basic
import EntryServer.Credentials.Reader
import EntryServer.EntryPath.Basic
import EntryServer.EntryPath.Place
import EntryServer.Files.Error
import EntryServer.Files.Path
import EntryServer.Files.Tree
import EntryServer.Http.Entry
import EntryServer.Http.Header
import EntryServer.Http.MediaType
import EntryServer.Http.Message
import EntryServer.Http.Server
import EntryServer.Http.Service
import EntryServer.Http.Site
import EntryServer.Http.Target
import EntryServer.Logging
import EntryServer.Main
import EntryServer.Md5
import EntryServer.Net.AcceptLoop
import EntryServer.Net.Listener
import EntryServer.Net.Protocol
import EntryServer.Net.SocketAddress
import EntryServer.Net.Stream
import EntryServer.Net.Tracker
import EntryServer.Program
import EntryServer.Proofs.EntryPath.Facets
import EntryServer.Shutdown.Channel
import EntryServer.Shutdown.Delivery
import EntryServer.Startup
import EntryServer.Store.Basic
import EntryServer.Store.Error
import EntryServer.Text.Ascii
import EntryServer.Text.Base64
import EntryServer.Text.Blank
import EntryServer.Text.Percent
import EntryServer.Text.Printable
import EntryServer.Text.Quoted
import EntryServer.Text.Split
import EntryServer.Text.Utf8
import EntryServer.Tls.Acceptor
import EntryServer.Tls.Certificate
import EntryServer.Tls.Curve
import EntryServer.Tls.Der
import EntryServer.Tls.Pem
import EntryServer.Tls.PublicKey
import EntryServer.Toml.Document
import EntryServer.Toml.Scalar
import EntryServer.Toml.Value
import EntryServer.Proofs.Files.Tree
import EntryServer.Proofs.Store.Removal
import EntryServer.Proofs.Files.Operations
import EntryServer.Proofs.Store.Operations
import EntryServer.Proofs.Store.Deletion
import EntryServer.Proofs.Store.Contents
import EntryServer.Proofs.Store.Refinement
import EntryServer.Proofs.Acl.Sealed
import EntryServer.Proofs.Http.Addressing
import EntryServer.Proofs.Http.Handling
import EntryServer.Proofs.Http.Service
import EntryServer.Proofs.Http.Deletion
import EntryServer.Proofs.Files.Looking
import EntryServer.Proofs.Store.Listing
import EntryServer.Proofs.Acl.Climbs
import EntryServer.Proofs.Store.Writing
import EntryServer.Proofs.Http.Challenges
import EntryServer.Proofs.Http.Confinement
import EntryServer.Proofs.Http.Noninterference
import EntryServer.Proofs.Http.Seal
import EntryServer.Proofs.Store.Writers
import EntryServer.Proofs.Auth.Candidates
import EntryServer.Proofs.Auth.Calls
import EntryServer.Proofs.Acl.Domains
import EntryServer.Proofs.Auth.Verdict
import EntryServer.Proofs.Auth.Nonces
import EntryServer.Proofs.Text.Utf8
import EntryServer.Proofs.Credentials.Pieces
import EntryServer.Proofs.Credentials.Grammar
import EntryServer.Proofs.Credentials.Accepted
import EntryServer.Proofs.Credentials.Written
import EntryServer.Proofs.Credentials.Printer
import EntryServer.Proofs.Auth.Client
import EntryServer.Proofs.Store.Undo
import EntryServer.Proofs.Acl.Removal
import EntryServer.Proofs.Acl.Failures
import EntryServer.Proofs.Auth.Openness
import EntryServer.Proofs.EntryPath.Layout
import EntryServer.Proofs.EntryPath.Resolution
import EntryServer.Proofs.EntryPath.Climbing
import EntryServer.Proofs.Http.Containment
import EntryServer.Proofs.Acl.Chain
import EntryServer.Proofs.Net.Replay
import EntryServer.Proofs.Net.Classification
import EntryServer.Proofs.Acl.Abandonment
import EntryServer.Proofs.Http.Uploads
import EntryServer.Proofs.Http.Map
import EntryServer.Proofs.Acl.Listing
import EntryServer.Proofs.Acl.Users
import EntryServer.Proofs.Auth.Users
import EntryServer.Proofs.Net.Accounting
import EntryServer.Proofs.Shutdown.Delivery
import EntryServer.Proofs.Store.Pruning
import EntryServer.Proofs.Store.Children
import EntryServer.Proofs.Auth.Lines
import EntryServer.Proofs.Auth.Challenges
import EntryServer.Proofs.Auth.Order
import EntryServer.Proofs.Auth.Decision
import EntryServer.Proofs.Text.Heads
import EntryServer.Proofs.Http.Sniffing
import EntryServer.Proofs.Credentials.Progress
import EntryServer.Proofs.EntryPath.Urls
import EntryServer.Proofs.Auth.Scopes
import EntryServer.Proofs.Config.Limits
