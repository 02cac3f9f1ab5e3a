import CommitGraph.Calendar
import CommitGraph.Label
import CommitGraph.Settings
import CommitGraph.Viewer

namespace CommitGraph

/-- Settings given on the command line, which only add to those of the settings file. -/
structure DisplayFlags where
  longEdges : Bool
  fold : Bool
  ascii : Bool
  plain : Bool
  deriving DecidableEq

def DisplayFlags.none : DisplayFlags := ⟨false, false, false, false⟩

inductive ReportError where
  | build (e : BuildError)
  | draw (e : DrawError)
  | cellOutside
  deriving DecidableEq

def ReportError.message : ReportError → String
  | .build e => e.message
  | .draw e => e.message
  | .cellOutside => "cell outside its row"

namespace History

def display (h : History) (s : Settings) (f : DisplayFlags) : Except BuildError Viewer :=
  let options := { s.drawing with longEdgesInFull := s.drawing.longEdgesInFull || f.longEdges }
  ((Viewer.empty options).load h.commits h.references).map fun v =>
    if f.fold || s.foldOnLoad then v.foldAll.2 else v

def style (s : Settings) (f : DisplayFlags) : Style :=
  ⟨if f.ascii then .ascii else s.charset, s.colored && !f.plain⟩

def drawing (h : History) (s : Settings) (f : DisplayFlags) : Except ReportError String := do
  let v ← (h.display s f).mapError .build
  let d ← v.draw.mapError .draw
  match d.render (style s f) fun r => v.graph.label h .terminal s.labelWidth r.row with
  | some text => return text
  | none => throw .cellOutside

def dateText (time : Option Int) : String := (time.bind Calendar.text?).getD "-"

def countLines (h : History) (s : Stats) : List (String × String) :=
  let times := h.times.map (·.2)
  [("Commits:        ", toString h.commits.length),
   ("References:     ", toString h.references.length),
   ("Rows:           ", toString s.rows),
   ("Nodes:          ", toString s.nodes),
   ("Edges:          ", toString s.edges),
   ("Branches:       ", toString s.branches),
   ("Merge commits:  ", toString s.merges),
   ("Head commits:   ", toString s.heads),
   ("End commits:    ", toString s.unloaded),
   ("Longest edge:   ", toString s.longestEdge ++ " rows"),
   ("Oldest commit:  ", dateText times.min?),
   ("Newest commit:  ", dateText times.max?)]

def counts (h : History) : Except BuildError String :=
  (Graph.build h.commits h.references).map fun g =>
    String.join ((h.countLines g.stats).map fun (name, value) => name ++ value ++ "\n")

end History

end CommitGraph
