import IndexGraph.Dominator.Tree
import IndexGraph.Proofs.Dominator.Course
import IndexGraph.Proofs.PreOrder
import IndexGraph.Proofs.ShortestPath
import IndexGraph.Proofs.Topological
import IndexGraph.Workspace
import IndexGraph.Proofs.Dominator.Domination
import IndexGraph.Proofs.EdgeLog
import IndexGraph.Proofs.WeightMatrix.Edges
import IndexGraph.Proofs.WeightMatrix.Rebuild
import IndexGraph.Proofs.Walk.Step
import IndexGraph.Proofs.Walk.Interleaving
import IndexGraph.Proofs.Walk.Changing
import IndexGraph.Proofs.Slots.Relocation
import IndexGraph.Proofs.WeightMatrix.Refusal
import IndexGraph.Proofs.WeightMatrix.Addressing
import IndexGraph.Proofs.Topological.Strict
import IndexGraph.Proofs.Topological.Changing
import IndexGraph.Proofs.Dominator.Orphan
import IndexGraph.Proofs.LevelOrder
import IndexGraph.Proofs.PostOrder.Backward
import IndexGraph.Proofs.Dominator.Reducible
import IndexGraph.Proofs.Heap
import IndexGraph.Proofs.ShortestPath.Settled
import IndexGraph.Proofs.Multigraph.Transpose
import IndexGraph.Proofs.Dominator.Semilattice
import IndexGraph.Proofs.Dominator.Tree
import IndexGraph.Proofs.Multigraph.History
import IndexGraph.Proofs.Slots.Packing
import IndexGraph.Proofs.Slots.Conservation
import IndexGraph.Proofs.Marks.Recall
