import OrpheusGraph.Lib.IndexMap
import OrpheusGraph.Lib.Mirror
import OrpheusGraph.Types
import OrpheusGraph.Accessor
import OrpheusGraph.Delta
import OrpheusGraph.Batch
import OrpheusGraph.Counters
import OrpheusGraph.History
import OrpheusGraph.Merged
import OrpheusGraph.Graph
import OrpheusGraph.Builder
import OrpheusGraph.Fold
import OrpheusGraph.Transparency
import OrpheusGraph.Commit
import OrpheusGraph.Lib.Checked
import OrpheusGraph.Lib.Effects
import OrpheusGraph.Mapped
import OrpheusGraph.Recovery
import OrpheusGraph.Written
import OrpheusGraph.Canonical
import OrpheusGraph.Lib.Cheapest
import OrpheusGraph.Lib.Distinct
import OrpheusGraph.Lib.PriorityQueue
import OrpheusGraph.Lib.Search
import OrpheusGraph.Overlay
import OrpheusGraph.Paths
import OrpheusGraph.Anchor
import OrpheusGraph.Atomic
import OrpheusGraph.Beam
import OrpheusGraph.Bounded
import OrpheusGraph.Heatmap
import OrpheusGraph.Optimal
import OrpheusGraph.Parallel
import OrpheusGraph.Readback
import OrpheusGraph.Window
import OrpheusGraph.Lib.Chain
import OrpheusGraph.Pagerank
import OrpheusGraph.Serialization
import OrpheusGraph.Clients
import OrpheusGraph.Reordering
import OrpheusGraph.Folded
import OrpheusGraph.Promises
