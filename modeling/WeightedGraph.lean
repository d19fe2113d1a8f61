import WeightedGraph.Graph.Search
import WeightedGraph.Proofs.Adjacency.Cells
import WeightedGraph.Proofs.Config.RoundTrip
import WeightedGraph.Proofs.Graph.BreadthFirst
import WeightedGraph.Proofs.Graph.Build
import WeightedGraph.Proofs.Graph.Calls
import WeightedGraph.Proofs.Graph.Capacity
import WeightedGraph.Proofs.Graph.Degrees
import WeightedGraph.Proofs.Graph.History
import WeightedGraph.Proofs.Graph.Limits
import WeightedGraph.Proofs.Graph.Replay
import WeightedGraph.Proofs.Plain.Schedules
import WeightedGraph.Proofs.Plain.WellFormed
import WeightedGraph.Proofs.PriorityQueue.Conserved
import WeightedGraph.Proofs.ShortestPaths.Explored
import WeightedGraph.Proofs.ShortestPaths.Ordered
import WeightedGraph.Worklist.Stack
