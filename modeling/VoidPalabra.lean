import VoidPalabra.RoundTrip
import VoidPalabra.JoinLaws
import VoidPalabra.Policy
import VoidPalabra.Flatten
import VoidPalabra.Digest
import VoidPalabra.Conflict
import VoidPalabra.Anomaly
import VoidPalabra.Replica
import VoidPalabra.Identity
import VoidPalabra.Store
import VoidPalabra.Trace
import VoidPalabra.Keeps
import VoidPalabra.Traversal
import VoidPalabra.Replication
import VoidPalabra.Run
import VoidPalabra.Converge
import VoidPalabra.Causality
import VoidPalabra.Restored
import VoidPalabra.Codec
import VoidPalabra.Leaks
import VoidPalabra.Versions
import VoidPalabra.Carried
import VoidPalabra.Table
import VoidPalabra.Refusals
import VoidPalabra.WriteFile
import VoidPalabra.Container
import VoidPalabra.Addresses
import VoidPalabra.Utterance
import VoidPalabra.Growth
import VoidPalabra.History
import VoidPalabra.Filed
import VoidPalabra.Ancestry
import VoidPalabra.Delivered
import VoidPalabra.Readable
import VoidPalabra.Reasons
import VoidPalabra.Longest
import VoidPalabra.Lookup
import VoidPalabra.Numbers
import VoidPalabra.Piecewise
import VoidPalabra.Stream
import VoidPalabra.Reassembly
import VoidPalabra.Journal
import VoidPalabra.HistoryFile
import VoidPalabra.Timeline
import VoidPalabra.Requests
import VoidPalabra.Asked
import VoidPalabra.Fetching
import VoidPalabra.Attempts
import VoidPalabra.Filing
import VoidPalabra.Explained
import VoidPalabra.Listed
import VoidPalabra.Arrivals
import VoidPalabra.Hdlc
import VoidPalabra.Blocks
import VoidPalabra.Sequence
import VoidPalabra.Fugue
import VoidPalabra.ListEdits
import VoidPalabra.UnionFind
import VoidPalabra.Links
import VoidPalabra.Quotient
import VoidPalabra.Utf8
import VoidPalabra.Fips180
import VoidPalabra.Sha256
import VoidPalabra.Archive
import VoidPalabra.Manifest
import VoidPalabra.Saved
import VoidPalabra.Latest
import VoidPalabra.Reopened
import VoidPalabra.Lasting
import VoidPalabra.Base64
import VoidPalabra.Miga
import VoidPalabra.Resumed
import VoidPalabra.Clock
import VoidPalabra.Lamport
import VoidPalabra.Projected
import VoidPalabra.Honest
import VoidPalabra.Violations
import VoidPalabra.Signed
import VoidPalabra.Echo
import VoidPalabra.Settled
