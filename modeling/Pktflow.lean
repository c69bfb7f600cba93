import Pktflow.Lib.Loop
import Pktflow.Lib.MinHeap
import Pktflow.Lib.LazyHeap
import Pktflow.Lib.Arena
import Pktflow.Lib.Forest
import Pktflow.Lib.PrefixCode
import Pktflow.Lib.SortedMap
import Pktflow.Lib.Utf8
import Pktflow.Lib.Utf8Decode
import Pktflow.Lib.KeySort
import Pktflow.Lib.Preorder
import Pktflow.Lib.Grouping
import Pktflow.Lib.Bins
import Pktflow.Lib.OnesComplement
import Pktflow.Lib.Lines
import Pktflow.Lib.Ipv6Text
import Pktflow.Lib.Handoff
import Pktflow.Lib.Shared
import Pktflow.Core.Engine
import Pktflow.Core.Registry
import Pktflow.Core.Provenance
import Pktflow.Core.Diagnostics
import Pktflow.Core.Bytes
import Pktflow.Core.Framing
import Pktflow.Core.Looping
import Pktflow.Core.Selection
import Pktflow.Core.Trailer
import Pktflow.Core.Depths
import Pktflow.Flows.KeyLaw
import Pktflow.Flows.Ingest
import Pktflow.Flows.Effects
import Pktflow.Flows.Steps
import Pktflow.Flows.Runs
import Pktflow.Flows.Hierarchy
import Pktflow.Flows.Lookup
import Pktflow.Flows.Accounting
import Pktflow.Flows.Summary
import Pktflow.Flows.Streams
import Pktflow.Flows.Times
import Pktflow.Flows.Heaps
import Pktflow.Flows.Cap
import Pktflow.Flows.Sweep
import Pktflow.Flows.Handles
import Pktflow.Flows.Anchors
import Pktflow.Flows.Sink
import Pktflow.Flows.Tally
import Pktflow.Flows.Mirror
import Pktflow.Flows.Bounds
import Pktflow.Flows.Growth
import Pktflow.Flows.Occurrences
import Pktflow.Flows.Folds
import Pktflow.Flows.Turnover
import Pktflow.Flows.Offline
import Pktflow.Flows.Snapshot
import Pktflow.Flows.Retention
import Pktflow.Flows.Lifecycle
import Pktflow.Flows.Varying
import Pktflow.Flows.Members
import Pktflow.Flows.Merged
import Pktflow.Flows.Intake
import Pktflow.Capture.Pump
import Pktflow.Plugins.Transport
import Pktflow.Plugins.FiveTuple
import Pktflow.Plugins.Ethernet
import Pktflow.Plugins.Icmpv6
import Pktflow.Plugins.Llc
import Pktflow.Plugins.Teardown
import Pktflow.Plugins.ExtHeaders
import Pktflow.Plugins.Names
import Pktflow.Plugins.Dns
import Pktflow.Plugins.Encapsulation
import Pktflow.Plugins.GtpU
import Pktflow.Plugins.Bgp
import Pktflow.Plugins.Cdp
import Pktflow.Plugins.Stun
import Pktflow.Plugins.Ipfix
import Pktflow.Plugins.Ospf
import Pktflow.Plugins.BacnetIp
import Pktflow.Plugins.Mqtt
import Pktflow.Plugins.Ber
import Pktflow.Plugins.Tls
import Pktflow.Plugins.Checksum
import Pktflow.Plugins.Dhcpv6
import Pktflow.Plugins.GtpC
import Pktflow.Plugins.Http
import Pktflow.View.Fmt
import Pktflow.View.Record
import Pktflow.View.Rollups
import Pktflow.View.Endpoints
import Pktflow.View.Ipv6Text
import Pktflow.View.Sides
import Pktflow.View.Hugging
import Pktflow.View.Printing
import Pktflow.View.Paging
import Pktflow.View.Siblings
import Pktflow.View.RegexLiteral
import Pktflow.View.Suffixes
import Pktflow.View.Matching
import Pktflow.View.Directions
import Pktflow.View.Timeline
import Pktflow.Cli.Ndjson
import Pktflow.Cli.Protocol
import Pktflow.Cli.Tree
import Pktflow.Cli.Merged
import Pktflow.Cli.Run
import Pktflow.Cli.HubPipeline
import Pktflow.Tui.Tree
import Pktflow.Tui.App
import Pktflow.Tui.Modes
import Pktflow.Tui.Selection
import Pktflow.Web.Index
import Pktflow.Web.Documents
import Pktflow.Web.Upload
import Pktflow.Web.UploadRuns
import Pktflow.Plugins.Tagging
import Pktflow.Plugins.Keyed
import Pktflow.Plugins.Keyless
import Pktflow.Testkit.Assemble
import Pktflow.Testkit.AssembledWalk
import Pktflow.Lenses
