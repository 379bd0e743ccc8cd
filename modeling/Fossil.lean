import Fossil.Bytes
import Fossil.Program
import Fossil.Interference
import Fossil.Search
import Fossil.Merging
import Fossil.Hash
import Fossil.Bits
import Fossil.RunFormat
import Fossil.RunReader
import Fossil.RunBuilder
import Fossil.RunCodec
import Fossil.RunTree
import Fossil.RunLookup
import Fossil.RunScan
import Fossil.RunGraph
import Fossil.Canonical
import Fossil.Packing
import Fossil.Admission
import Fossil.Links
import Fossil.Summary
import Fossil.Head
import Fossil.Sizing
import Fossil.Lifetimes
import Fossil.Package
import Fossil.Quantities
import Fossil.Grammar
import Fossil.Store
import Fossil.Compact
import Fossil.Writing
import Fossil.MergeProducer
import Fossil.MergeRuns
import Fossil.Tiered
import Fossil.Reader
import Fossil.Garbage
import Fossil.Rpc
import Fossil.Worker
import Fossil.Gateway
import Fossil.Archive
import Fossil.Levels
import Fossil.Pieces
import Fossil.Live
import Fossil.AtRest
import Fossil.Retained
import Fossil.Manifest
import Fossil.PackageRecords
import Fossil.Lines
import Fossil.History
import Fossil.Protocol
import Fossil.Publishing
import Fossil.Writers
import Fossil.Ledger
import Fossil.Confluence
import Fossil.Queries
import Fossil.EventLog
import Fossil.Answers
import Fossil.ReadBack
import Fossil.Genesis
import Fossil.Export
import Fossil.Exported
import Fossil.Accepted
import Fossil.Limits
import Fossil.Parity
import Fossil.Collected
import Fossil.Neighbours
import Fossil.Rebuild
import Fossil.Tasks
import Fossil.Abandoned
import Fossil.Emitted
import Fossil.Tracing
import Fossil.Feeding
import Fossil.ReadAhead
import Fossil.Footprint
