import ExplicitSelf.CommandLine
import ExplicitSelf.Main
import ExplicitSelf.Proofs.Text.Split
import ExplicitSelf.Proofs.Source.Splice
import ExplicitSelf.Proofs.Source.Positions
import ExplicitSelf.Proofs.Index.Traversal
import ExplicitSelf.Proofs.Lint.Inquiry
import ExplicitSelf.Proofs.Path.Texts
import ExplicitSelf.Proofs.FileTree.NewFile
import ExplicitSelf.Proofs.Lint.Lacking
import ExplicitSelf.Proofs.Lint.Convergence
import ExplicitSelf.Proofs.Lint.Interleaving
import ExplicitSelf.Proofs.Lint.Reduction
import ExplicitSelf.Proofs.Lint.Abort
import ExplicitSelf.Proofs.Lint.Tasks
import ExplicitSelf.Proofs.Lint.Sequential
import ExplicitSelf.Proofs.Lint.Undisturbed
import ExplicitSelf.Proofs.Lint.Independence
import ExplicitSelf.Proofs.BuildLog.Caching
import ExplicitSelf.Proofs.Lint.Sources
import ExplicitSelf.Proofs.Arguments.Escape
import ExplicitSelf.Proofs.Arguments.NormalForm
import ExplicitSelf.Proofs.BuildLog.Scan
import ExplicitSelf.Proofs.Arguments.Resolution
import ExplicitSelf.Proofs.Arguments.Recovery
import ExplicitSelf.Proofs.Text.Decode
import ExplicitSelf.Proofs.FileTree.Walk
import ExplicitSelf.Proofs.Lint.Mending
import ExplicitSelf.Proofs.Lint.Frame
import ExplicitSelf.Proofs.BuildLog.Snapshots
import ExplicitSelf.Proofs.Source.Lines
import ExplicitSelf.Proofs.Source.Overflow
import ExplicitSelf.Proofs.Source.SplicedLines
import ExplicitSelf.Proofs.Lint.Coordinates
import ExplicitSelf.Proofs.Path.Components
import ExplicitSelf.Proofs.Project.Nearest
import ExplicitSelf.Proofs.Source.Pasting
import ExplicitSelf.Proofs.Source.RoundTrip
import ExplicitSelf.Proofs.Arguments.Conservation
import ExplicitSelf.Proofs.Arguments.Scanner
import ExplicitSelf.Proofs.Arguments.RuleOrder
import ExplicitSelf.Proofs.Arguments.SinglePass
import ExplicitSelf.Proofs.Index.Iteration
import ExplicitSelf.Proofs.Lint.Questions
import ExplicitSelf.Proofs.Lint.Reordering
import ExplicitSelf.Proofs.BuildLog.Matching
import ExplicitSelf.Proofs.Lint.Conflicts
import ExplicitSelf.Proofs.FileTree.Links
import ExplicitSelf.Proofs.BuildLog.Newest
import ExplicitSelf.Proofs.FileTree.Directory
import ExplicitSelf.Proofs.FileTree.Replace
import ExplicitSelf.Proofs.Lint.Atomic
import ExplicitSelf.Proofs.Path.Lexical
import ExplicitSelf.Proofs.Project.PathHash
import ExplicitSelf.Proofs.FileTree.Pruning
import ExplicitSelf.Proofs.Plan.Contents
import ExplicitSelf.Proofs.Workspace.Listing
import ExplicitSelf.Proofs.Gzip.Blocks
import ExplicitSelf.Proofs.Source.Tables
import ExplicitSelf.Proofs.Gzip.Members
import ExplicitSelf.Proofs.BuildLog.Storage
