import CommitGraph.Bounds
import CommitGraph.Calendar
import CommitGraph.Command.Basic
import CommitGraph.Command.Help
import CommitGraph.Command.Read
import CommitGraph.Disk.Inflate
import CommitGraph.Disk.Object
import CommitGraph.Disk.Pack
import CommitGraph.Drawing.Basic
import CommitGraph.Drawing.Layout
import CommitGraph.Drawing.Render
import CommitGraph.Drawing.Style
import CommitGraph.Drawing.Wire
import CommitGraph.File
import CommitGraph.Folding.Basic
import CommitGraph.Folding.Chain
import CommitGraph.Graph.Basic
import CommitGraph.Graph.Build
import CommitGraph.Graph.Chain
import CommitGraph.Graph.Stats
import CommitGraph.Graph.Walk
import CommitGraph.History.Basic
import CommitGraph.History.Commit
import CommitGraph.History.LogLine
import CommitGraph.History.Numbering
import CommitGraph.Label
import CommitGraph.Main
import CommitGraph.Program
import CommitGraph.Report
import CommitGraph.Repository.Basic
import CommitGraph.Repository.Head
import CommitGraph.Repository.Load
import CommitGraph.Repository.Summary
import CommitGraph.Repository.Walk
import CommitGraph.Selection
import CommitGraph.Settings
import CommitGraph.Text.Blank
import CommitGraph.Text.Cluster
import CommitGraph.Text.ClusterBreak
import CommitGraph.Text.EastAsian
import CommitGraph.Text.Emoji
import CommitGraph.Text.Extend
import CommitGraph.Text.Fields
import CommitGraph.Text.Numeral
import CommitGraph.Text.Quoted
import CommitGraph.Text.Ranges
import CommitGraph.Text.Ruler
import CommitGraph.Text.Unprintable
import CommitGraph.Text.Width
import CommitGraph.Text.ZeroWidth
import CommitGraph.Toml.Document
import CommitGraph.Toml.Quotation
import CommitGraph.Toml.Scalar
import CommitGraph.Toml.Value
import CommitGraph.Viewer
import CommitGraph.Proofs.Graph.Growth
import CommitGraph.Proofs.Graph.Depiction
import CommitGraph.Proofs.Graph.Record
import CommitGraph.Proofs.Graph.Refusal
import CommitGraph.Proofs.Graph.Branches
import CommitGraph.Proofs.Graph.Lines
import CommitGraph.Proofs.Graph.Heads
import CommitGraph.Proofs.Graph.Descent
import CommitGraph.Proofs.Graph.Chains
import CommitGraph.Proofs.Folding.Marks
import CommitGraph.Proofs.Viewer.Marks
import CommitGraph.Proofs.Drawing.Wires
import CommitGraph.Proofs.Drawing.Levels
import CommitGraph.Proofs.Drawing.Layout
import CommitGraph.Proofs.Drawing.Cells
import CommitGraph.Proofs.Drawing.Links
import CommitGraph.Proofs.Drawing.Stubs
import CommitGraph.Proofs.Drawing.Text
import CommitGraph.Proofs.Drawing.Ways
import CommitGraph.Proofs.Drawing.Alike
import CommitGraph.Proofs.Drawing.Steady
import CommitGraph.Proofs.Folding.Contraction
import CommitGraph.Proofs.Folding.Entries
import CommitGraph.Proofs.Drawing.Contraction
import CommitGraph.Proofs.Viewer.Answers
import CommitGraph.Proofs.Viewer.FoldedEdges
import CommitGraph.Proofs.Drawing.Redrawing
import CommitGraph.Proofs.Drawing.Labels
import CommitGraph.Proofs.Viewer.Redrawing
import CommitGraph.Proofs.Text.Pieces
import CommitGraph.Proofs.Text.Numeral
import CommitGraph.Proofs.History.LogText
import CommitGraph.Proofs.Graph.Counts
import CommitGraph.Proofs.History.LogGraph
import CommitGraph.Proofs.History.LogHeads
import CommitGraph.Proofs.Repository.Walk
import CommitGraph.Proofs.Repository.Load
import CommitGraph.Proofs.Repository.Heads
import CommitGraph.Proofs.Drawing.DeadEnds
import CommitGraph.Proofs.Folding.Partition
import CommitGraph.Proofs.Drawing.Crossings
import CommitGraph.Proofs.Drawing.Shortening
import CommitGraph.Proofs.Viewer.Scrolling
import CommitGraph.Proofs.Drawing.Connectors
import CommitGraph.Proofs.Drawing.Page
import CommitGraph.Proofs.Drawing.Colors
import CommitGraph.Proofs.Graph.Tally
import CommitGraph.Proofs.History.ReadBack
import CommitGraph.Proofs.History.Documents
import CommitGraph.Proofs.Text.CharSets
import CommitGraph.Proofs.Text.Widths
import CommitGraph.Proofs.Text.ClusterWidths
import CommitGraph.Proofs.Text.Fitting
import CommitGraph.Proofs.Repository.RowLabels
import CommitGraph.Proofs.Drawing.Walks
