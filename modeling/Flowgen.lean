import Flowgen.Lib.Machine
import Flowgen.Lib.Dag
import Flowgen.Event
import Flowgen.Flow.Wiring
import Flowgen.Flow.Signals
import Flowgen.Flow.Pipeline
import Flowgen.Flow.Account
import Flowgen.Flow.Ack
import Flowgen.Flow.Journey
import Flowgen.Task.Emit
import Flowgen.Task.FlushTimer
import Flowgen.Task.Generate
import Flowgen.Task.GenerateCount
import Flowgen.Task.Buffer
import Flowgen.Cache.Basic
import Flowgen.Cache.Memory
import Flowgen.Cache.Watch
import Flowgen.Cache.History
import Flowgen.Lib.Prog
import Flowgen.Lib.Register
import Flowgen.Lib.Names
import Flowgen.Lease.Executor
import Flowgen.Lease.Election
import Flowgen.Lease.Exclusion
import Flowgen.Lease.Fencing
import Flowgen.Lease.Lineage
import Flowgen.Task.Manager
import Flowgen.Flow.Monitor
import Flowgen.Peer.Informer
import Flowgen.Lib.Argmax
import Flowgen.Peer.Rendezvous
import Flowgen.Lib.Window
import Flowgen.Peer.Handover
import Flowgen.Lib.Batcher
import Flowgen.Task.Batching
import Flowgen.Task.Coherence
import Flowgen.Task.BatchSession
import Flowgen.Clients.Registry
import Flowgen.Lib.Slots
import Flowgen.Text
import Flowgen.Authoring.Change
import Flowgen.Authoring.Review
import Flowgen.Authoring.Publish
import Flowgen.Authoring.Deployment
import Flowgen.Lib.Latest
import Flowgen.Reload.Reconciler
import Flowgen.Reload.Servers
import Flowgen.Reload.Order
import Flowgen.Lib.WaitGraph
import Flowgen.Inproc.Registry
import Flowgen.Inproc.Calls
import Flowgen.Response.Progress
import Flowgen.Lib.Newest
import Flowgen.Telemetry.Query
import Flowgen.Telemetry.Cluster
import Flowgen.Json
import Flowgen.AiGateway.Protocol
import Flowgen.AiGateway.Adapters
import Flowgen.AiGateway.Streaming
import Flowgen.Lib.Gather
import Flowgen.AiGateway.Session
import Flowgen.AiGateway.Aggregate
import Flowgen.AiGateway.Blocks
import Flowgen.AiGateway.Modes
import Flowgen.AiGateway.Translate
import Flowgen.AiGateway.Conversation
import Flowgen.Completion.Passthrough
import Flowgen.Completion.Streaming
import Flowgen.Lib.Fallible
import Flowgen.Lib.Paths
import Flowgen.Resource.Loader
import Flowgen.Render.Template
import Flowgen.Render.Config
import Flowgen.Render.Handlebars
import Flowgen.Render.ForEvent
import Flowgen.Gcp.Query
import Flowgen.Gcp.StorageWrite
import Flowgen.Lib.Unseen
import Flowgen.Mcp.Server
import Flowgen.Mcp.Scoping
import Flowgen.Mcp.UriTemplate
import Flowgen.Completion.Toolsets
import Flowgen.Completion.Clients
import Flowgen.Lib.Base64
import Flowgen.Cache.Keys
import Flowgen.Lib.Numbering
import Flowgen.Cache.Nats
import Flowgen.Cache.Agreement
import Flowgen.Sync.Tick
import Flowgen.Lib.Log
import Flowgen.Kafka.Subscribe
import Flowgen.Salesforce.Subscriber
import Flowgen.Lib.Quoted
import Flowgen.Salesforce.Soql
import Flowgen.Salesforce.Processor
import Flowgen.Salesforce.Pages
import Flowgen.Salesforce.Writes
import Flowgen.Lib.Utf8
import Flowgen.Reload.Startup
import Flowgen.Lease.Shutdown
import Flowgen.Lib.FileTree
import Flowgen.Git.Pack
import Flowgen.Git.Push
import Flowgen.Lib.PktLine
import Flowgen.Git.Report
import Flowgen.ObjectStore.Move
import Flowgen.ObjectStore.Read
import Flowgen.ObjectStore.Ranged
import Flowgen.ObjectStore.Write
import Flowgen.Http.Endpoints
import Flowgen.Web.Router
import Flowgen.Web.Editing
import Flowgen.Lib.UrlPath
import Flowgen.Web.ReturnPath
import Flowgen.Web.SingleFlight
import Flowgen.Lib.Ring
import Flowgen.Telemetry.Retention
import Flowgen.Flow.Edges
import Flowgen.Flow.Delivery
import Flowgen.Lib.Latch
import Flowgen.Task.FanIn
import Flowgen.Task.Offending
import Flowgen.Task.OneKey
import Flowgen.Task.Runner
import Flowgen.Lib.Entries
import Flowgen.Task.Convert
import Flowgen.Lib.Saturating
import Flowgen.Oci.Extract
import Flowgen.Lib.SortedMap
import Flowgen.Lib.Overwrite
import Flowgen.Oci.Overlay
import Flowgen.Nats.KvStore
import Flowgen.Nats.JetStream
import Flowgen.Telemetry.Activity
import Flowgen.Telemetry.Follow
import Flowgen.Lib.Values
import Flowgen.Telemetry.Covers
import Flowgen.Telemetry.Converge
import Flowgen.Telemetry.Merge
import Flowgen.Telemetry.Coalesce
import Flowgen.Lib.Lines
import Flowgen.Telemetry.Ndjson
import Flowgen.Telemetry.Token
import Flowgen.Mssql.Rows
import Flowgen.Gcp.Columns
import Flowgen.Gcp.Decimals
import Flowgen.Gcp.ProtoRows
import Flowgen.Lib.Pieces
import Flowgen.Oci.Client
import Flowgen.Oci.Release
import Flowgen.Lib.Chronicle
import Flowgen.Http.Credentials
import Flowgen.Lib.Branches
import Flowgen.Task.Scripts
import Flowgen.Kafka.Records
import Flowgen.Kafka.Produce
import Flowgen.Lib.Replace
import Flowgen.Web.BasePath
import Flowgen.Lib.Bincode
import Flowgen.Nats.Payload
import Flowgen.Nats.Streams
import Flowgen.Git.Repeat
import Flowgen.AiGateway.Dispatch
import Flowgen.Web.Conversations
import Flowgen.Lib.Grouped
import Flowgen.Web.Connections
import Flowgen.Telemetry.Layer
