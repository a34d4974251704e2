import FusionInspect.Command.Lint
import FusionInspect.Command.Show
import FusionInspect.CommandLine.Run
import FusionInspect.CommandLine.Usage
import FusionInspect.Decimal.Layout
import FusionInspect.Decimal.Reading
import FusionInspect.Decimal.Shortest
import FusionInspect.Display.Colour
import FusionInspect.Display.Drawing
import FusionInspect.Display.Flatten
import FusionInspect.Display.Placement
import FusionInspect.Display.Position
import FusionInspect.Entries
import FusionInspect.Error
import FusionInspect.Json.Basic
import FusionInspect.Json.Cursor
import FusionInspect.Json.Document
import FusionInspect.Json.Skip
import FusionInspect.Json.Token
import FusionInspect.Json.Writer
import FusionInspect.Main
import FusionInspect.Order.Stable
import FusionInspect.Proofs.Colour.Escapes
import FusionInspect.Proofs.Colour.Nesting
import FusionInspect.Proofs.Colour.Patterns
import FusionInspect.Proofs.Colour.Places
import FusionInspect.Proofs.Colour.Regions
import FusionInspect.Proofs.Colour.Scan
import FusionInspect.Proofs.Colour.Spans
import FusionInspect.Proofs.Colour.Stages
import FusionInspect.Proofs.Colour.Uncrowded
import FusionInspect.Proofs.Command.Lint
import FusionInspect.Proofs.Command.LintAccount
import FusionInspect.Proofs.Command.Show
import FusionInspect.Proofs.Command.TableGuard
import FusionInspect.Proofs.Display.FloatOrder
import FusionInspect.Proofs.Display.Idempotence
import FusionInspect.Proofs.Display.Labels
import FusionInspect.Proofs.Display.Leaves
import FusionInspect.Proofs.Display.Level
import FusionInspect.Proofs.Display.Listing
import FusionInspect.Proofs.Display.Lookup
import FusionInspect.Proofs.Display.Neighbours
import FusionInspect.Proofs.Display.NormalForm
import FusionInspect.Proofs.Display.Placement
import FusionInspect.Proofs.Display.PlacementLaw
import FusionInspect.Proofs.Display.ReadBack
import FusionInspect.Proofs.Display.SourceKeys
import FusionInspect.Proofs.Display.Tidy
import FusionInspect.Proofs.Display.Walk
import FusionInspect.Proofs.Json.DistinctKeys
import FusionInspect.Proofs.Json.Fork
import FusionInspect.Proofs.Json.ForkedDocument
import FusionInspect.Proofs.Json.ForkedToken
import FusionInspect.Proofs.Order.Precedes
import FusionInspect.Proofs.Outcome
import FusionInspect.Proofs.Path.Address
import FusionInspect.Proofs.Path.Pieces
import FusionInspect.Proofs.Prototype.Ancestry
import FusionInspect.Proofs.Prototype.KeyOrder
import FusionInspect.Proofs.Prototype.Layers
import FusionInspect.Proofs.Prototype.MergeLaws
import FusionInspect.Proofs.Prototype.Search
import FusionInspect.Proofs.Report.Buffer
import FusionInspect.Proofs.Session.Canonical
import FusionInspect.Proofs.Session.Reached
import FusionInspect.Proofs.Session.Snapshot
import FusionInspect.Proofs.Source.Include
import FusionInspect.Proofs.Source.PrototypeTable
import FusionInspect.Proofs.Source.ReservedKeys
import FusionInspect.Proofs.Text.NaturalOrder
import FusionInspect.Proofs.Text.Runs
import FusionInspect.Proofs.Tree.Accumulation
import FusionInspect.Proofs.Tree.Alike
import FusionInspect.Proofs.Tree.Canonical
import FusionInspect.Proofs.Tree.Independence
import FusionInspect.Proofs.Tree.JsonForm
import FusionInspect.Proofs.Tree.OfJson
import FusionInspect.Proofs.Tree.Overlay
import FusionInspect.Proofs.Tree.WellFormed
import FusionInspect.Proofs.Workspace.Recall
import FusionInspect.Prototype.Merge
import FusionInspect.Prototype.Resolve
import FusionInspect.Report.Output
import FusionInspect.Session.Basic
import FusionInspect.Session.TreeCache
import FusionInspect.Source.Declaration
import FusionInspect.Source.Include
import FusionInspect.Text.Blank
import FusionInspect.Text.Integer
import FusionInspect.Text.LowerCase
import FusionInspect.Text.Natural
import FusionInspect.Text.Quoted
import FusionInspect.Text.Ranges
import FusionInspect.Text.Split
import FusionInspect.Text.Word
import FusionInspect.Tree.FusionPath
import FusionInspect.Tree.Key
import FusionInspect.Tree.Node
import FusionInspect.Tree.Object
import FusionInspect.Tree.Scalar
import FusionInspect.Workspace.Catalogue
import FusionInspect.Workspace.Config
import FusionInspect.Workspace.FileTree
import FusionInspect.Workspace.Path
