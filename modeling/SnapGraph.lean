import SnapGraph.OptionsText
import SnapGraph.PointText
import SnapGraph.Workspace
import SnapGraph.Proofs.Bundle
import SnapGraph.Proofs.Cleaning
import SnapGraph.Proofs.Settled
import SnapGraph.Proofs.Matching
import SnapGraph.Proofs.Directions
import SnapGraph.Proofs.LeftTurn
import SnapGraph.Proofs.Graph
import SnapGraph.Proofs.Sibling
import SnapGraph.Proofs.ChainOrder
import SnapGraph.Proofs.Circuit
import SnapGraph.Proofs.Joins
import SnapGraph.Proofs.Peeling
import SnapGraph.Proofs.Loop
import SnapGraph.Proofs.Search
import SnapGraph.Proofs.Incidence
import SnapGraph.Proofs.Thread
import SnapGraph.Proofs.Path
import SnapGraph.Proofs.Walk
import SnapGraph.Proofs.Polyline
import SnapGraph.Proofs.Explore
import SnapGraph.Proofs.Component
import SnapGraph.Proofs.Sides
import SnapGraph.Proofs.Complement
import SnapGraph.Proofs.Clockwise
import SnapGraph.Proofs.Colouring
import SnapGraph.Proofs.Splice
import SnapGraph.Proofs.Thrift
import SnapGraph.Proofs.Maximal
import SnapGraph.Proofs.Connected
import SnapGraph.Proofs.NextTurn
import SnapGraph.Proofs.Filament
import SnapGraph.Proofs.Provenance
import SnapGraph.Proofs.Build
import SnapGraph.Proofs.Compaction
import SnapGraph.Proofs.Renumbering
import SnapGraph.Proofs.RenumberedThread
import SnapGraph.Proofs.Assembly
import SnapGraph.Proofs.Labels
import SnapGraph.Proofs.Balance
import SnapGraph.Proofs.Retrace
import SnapGraph.Proofs.Verbatim
import SnapGraph.Proofs.Handles
import SnapGraph.Proofs.Brackets
import SnapGraph.Proofs.Ring
import SnapGraph.Proofs.LoopStart
import SnapGraph.Proofs.TouchedVertices
import SnapGraph.Proofs.Resnapping
import SnapGraph.Proofs.UndirectedChain
import SnapGraph.Proofs.LeastRotation
import SnapGraph.Proofs.Adjacency
import SnapGraph.Proofs.Arena
