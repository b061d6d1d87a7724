import ReachingDefs.Cfg.Build
import ReachingDefs.Cfg.Dot
import ReachingDefs.Cfg.Graph
import ReachingDefs.Cfg.Node
import ReachingDefs.Cfg.Scope
import ReachingDefs.Config
import ReachingDefs.Data.BitSet
import ReachingDefs.Data.Count
import ReachingDefs.Data.IndexSet
import ReachingDefs.Data.SetWorkspace
import ReachingDefs.Flow.Checked
import ReachingDefs.Flow.GenKill
import ReachingDefs.Flow.Lattice
import ReachingDefs.Flow.Solver
import ReachingDefs.Flow.Worklist
import ReachingDefs.Graph.Digraph
import ReachingDefs.Graph.Session
import ReachingDefs.Graph.Traversal
import ReachingDefs.Log
import ReachingDefs.Reaching.Analysis
import ReachingDefs.Reaching.Checked
import ReachingDefs.Reaching.Definition
import ReachingDefs.Reaching.Results
import ReachingDefs.Syntax.Expr
import ReachingDefs.Syntax.Procedure
import ReachingDefs.Syntax.Stmt
import ReachingDefs.Text.Dot
import ReachingDefs.Text.Quoted
import ReachingDefs.Text.Unicode.GraphemeExtend
import ReachingDefs.Text.Unicode.RangeTable
import ReachingDefs.Text.Unicode.Unprintable
import ReachingDefs.Proofs.Flow.Invariant
import ReachingDefs.Proofs.Flow.LeastSolution
import ReachingDefs.Proofs.Cfg.Lowering
import ReachingDefs.Proofs.Reaching.Keys
import ReachingDefs.Proofs.Reaching.Numbering
import ReachingDefs.Proofs.Reaching.MeetOverPaths
import ReachingDefs.Proofs.Cfg.EdgeRules
import ReachingDefs.Proofs.Cfg.BuiltEdges
import ReachingDefs.Proofs.Data.BitSetLaws
import ReachingDefs.Proofs.Data.Represents
import ReachingDefs.Proofs.Cfg.Variables
import ReachingDefs.Proofs.Reaching.Identity
import ReachingDefs.Proofs.Graph.Arena
import ReachingDefs.Proofs.Cfg.Layout
import ReachingDefs.Proofs.Cfg.Structured
import ReachingDefs.Proofs.Cfg.Shape
import ReachingDefs.Proofs.Graph.Search
import ReachingDefs.Proofs.Cfg.Liveness
import ReachingDefs.Proofs.Cfg.Refusal
import ReachingDefs.Proofs.Cfg.Resolution
import ReachingDefs.Proofs.Flow.Evaluations
import ReachingDefs.Proofs.Flow.ReversePostorder
import ReachingDefs.Proofs.Cfg.NodeTable
import ReachingDefs.Proofs.Graph.Recursive
import ReachingDefs.Proofs.Graph.MarkingOrder
import ReachingDefs.Proofs.Reaching.Universe
import ReachingDefs.Proofs.Cfg.VariableTable
import ReachingDefs.Proofs.Text.DotStrings
import ReachingDefs.Proofs.Flow.Refinement
import ReachingDefs.Proofs.Reaching.Bounds
import ReachingDefs.Proofs.Cfg.ScopeNesting
import ReachingDefs.Proofs.Flow.Passes
