import TreeDelta.Main
import TreeDelta.Proofs.OrderedMap
import TreeDelta.Proofs.Verdict
import TreeDelta.Proofs.NodeState
import TreeDelta.Proofs.Replay
import TreeDelta.Proofs.Alignment.Slide
import TreeDelta.Proofs.Alignment.Block
import TreeDelta.Proofs.Alignment.Turns
import TreeDelta.Proofs.Alignment.Group
import TreeDelta.Proofs.Edits
import TreeDelta.Proofs.ContextRuns
import TreeDelta.Proofs.HunkShape
import TreeDelta.Proofs.Hunk
import TreeDelta.Proofs.Lines
import TreeDelta.Proofs.LineKey
import TreeDelta.Proofs.Except
import TreeDelta.Proofs.Subtree
import TreeDelta.Proofs.PathOrder
import TreeDelta.Proofs.LocalChange
import TreeDelta.Proofs.Operation
import TreeDelta.Proofs.History
import TreeDelta.Proofs.ResolvedTree
import TreeDelta.Proofs.CopyOrigin
import TreeDelta.Proofs.Shape
import TreeDelta.Proofs.DraftShape
import TreeDelta.Proofs.Bookkeeping
import TreeDelta.Proofs.InPlace
import TreeDelta.Proofs.Relocation
import TreeDelta.Proofs.SwitchedSubtree
import TreeDelta.Proofs.Failure
import TreeDelta.Proofs.TreeReading
import TreeDelta.Proofs.RecordedSource
import TreeDelta.Proofs.ComparisonResult
import TreeDelta.Proofs.SelfComparison
import TreeDelta.Proofs.CleanCopy
import TreeDelta.Proofs.PlainAddition
import TreeDelta.Proofs.PlainComparison
import TreeDelta.Proofs.LocalDiff
import TreeDelta.Proofs.DepthFilter
import TreeDelta.Proofs.Locality
import TreeDelta.Proofs.Alignment.Mirror
import TreeDelta.Proofs.Mirror
import TreeDelta.Proofs.TargetAncestry
import TreeDelta.Proofs.SummaryListing
import TreeDelta.Proofs.HiddenProperties
import TreeDelta.Proofs.FileContents
import TreeDelta.Proofs.FileBytes
import TreeDelta.Proofs.LastChange
import TreeDelta.Proofs.LocalCopy
import TreeDelta.Proofs.ContentFree
import TreeDelta.Proofs.ShownContent
import TreeDelta.Proofs.WrittenReport
import TreeDelta.Proofs.SpaceRuns
import TreeDelta.Proofs.Decimal
import TreeDelta.Proofs.PatchReading
import TreeDelta.Proofs.WholeTree
import TreeDelta.Proofs.PathText
import TreeDelta.Proofs.PrintedPath
import TreeDelta.Proofs.PairPaths
import TreeDelta.Proofs.GitHeader
import TreeDelta.Proofs.AttachedSource
import TreeDelta.Proofs.NearestRecord
import TreeDelta.Proofs.ReplacedDirectory
import TreeDelta.Proofs.PropertyPatch
import TreeDelta.Proofs.Recommit
import TreeDelta.Proofs.FixtureNodes
import TreeDelta.Proofs.LineList
import TreeDelta.Proofs.Fields
import TreeDelta.Proofs.RevisionText
import TreeDelta.Proofs.SummaryReading
import TreeDelta.Proofs.ExtensionText
import TreeDelta.Proofs.WrittenPath
import TreeDelta.Proofs.TargetWalk
import TreeDelta.Proofs.TextOrder
import TreeDelta.Proofs.PathListing
