import CommitGraph.Drawing.Layout
import CommitGraph.Drawing.Render
import CommitGraph.Folding.Chain
import CommitGraph.Graph.Build
import CommitGraph.Graph.Stats

/-!
A graph on display, with what is folded, what is selected and how it is drawn. Requests name nodes
and edges by number; one that names something outside the graph fails, and what it changed before
it failed stays changed.
-/

namespace CommitGraph

inductive RequestError where
  /-- The folding has more or fewer rows than the graph. -/
  | sizesDiffer
  | noNode (n : NodeId)
  | noEdge (e : EdgeId)
  deriving DecidableEq

namespace Graph

def requireNode (g : Graph) (n : NodeId) : Except RequestError Node :=
  match g.nodes[n]? with
  | some m => .ok m
  | none => .error (.noNode n)

def requireEdge (g : Graph) (e : EdgeId) : Except RequestError Edge :=
  match g.edges[e]? with
  | some m => .ok m
  | none => .error (.noEdge e)

def requireElement (g : Graph) : Element → Except RequestError Unit
  | .node n => (g.requireNode n).map fun _ => ()
  | .edge e => (g.requireEdge e).map fun _ => ()

end Graph

structure Viewer where
  graph : Graph
  folding : Folding
  selection : Selection
  options : DrawOptions

namespace Viewer

def empty (o : DrawOptions) : Viewer := ⟨.empty, .unfolded 0, .none, o⟩

/-- Another graph, all of it visible and nothing selected. -/
def display (v : Viewer) (g : Graph) : Viewer :=
  { v with graph := g, folding := .unfolded g.rows.size, selection := .none }

def load (v : Viewer) (commits : List Commit) (references : List Reference) :
    Except BuildError Viewer :=
  (Graph.build commits references).map v.display

def checkFolding (v : Viewer) : Except RequestError Unit :=
  if v.folding.size = v.graph.rows.size then .ok () else .error .sizesDiffer

def chainAt? (v : Viewer) (el : Element) : Except RequestError (Option Chain) := do
  v.checkFolding
  v.graph.requireElement el
  return v.graph.chainAt? el

def isFolded (v : Viewer) (c : Chain) : Except RequestError Bool := do
  v.checkFolding
  c.inner.head?.forM fun n => (v.graph.requireNode n).map fun _ => ()
  return v.folding.isFolded v.graph c

def chainRows (v : Viewer) (c : Chain) : Except RequestError (Nat × Nat) := do
  let upper ← v.graph.requireNode c.upper
  let lower ← v.graph.requireNode c.lower
  return (upper.row, lower.row)

/-- The part of a chain before the first node that is not in the graph. -/
def knownPart (v : Viewer) (c : Chain) : Chain :=
  { c with inner := c.inner.takeWhile (· < v.graph.nodes.size) }

def flip (v : Viewer) (c : Chain) : Except RequestError RowSpan × Viewer :=
  match v.checkFolding with
  | .error e => (.error e, v)
  | .ok _ =>
    -- The request fails at the first node outside the graph; the rows before it stay changed.
    let answer := do
      c.inner.forM fun n => (v.graph.requireNode n).map fun _ => ()
      let (a, b) ← v.chainRows c
      return .between a b
    (answer, { v with folding := v.folding.flip v.graph (v.knownPart c) })

def flipAt (v : Viewer) (el : Element) : Except RequestError (Option RowSpan) × Viewer :=
  match v.chainAt? el with
  | .error e => (.error e, v)
  | .ok none => (.ok none, v)
  | .ok (some c) =>
    let (answer, v) := v.flip c
    (answer.map some, v)

def unfoldAll (v : Viewer) : Except RequestError RowSpan × Viewer :=
  (v.checkFolding.map fun _ => .all v.graph.rows.size,
    match v.checkFolding with
    | .error _ => v
    | .ok _ => { v with folding := .unfolded v.folding.size })

def foldAll (v : Viewer) : Except RequestError RowSpan × Viewer :=
  (v.checkFolding.map fun _ => .all v.graph.rows.size,
    match v.checkFolding with
    | .error _ => v
    | .ok _ => { v with folding := v.folding.foldAll v.graph })

def branchNodes (v : Viewer) (n : NodeId) : Except RequestError (List NodeId) := do
  v.checkFolding
  let m ← v.graph.requireNode n
  return v.graph.nodesOfBranch m.branch

def select (v : Viewer) (els : List Element) : Viewer := { v with selection := .ofList els }

/-- Selects the nodes and edges of the branch of a node; the answer counts the nodes. -/
def selectBranch (v : Viewer) (n : NodeId) : Except RequestError Nat × Viewer :=
  match v.branchNodes n with
  | .error e => (.error e, v)
  | .ok ns =>
    let branch := (v.graph.nodes[n]?.map (·.branch)).getD 0
    (.ok ns.length, v.select (ns.map .node ++ (v.graph.edgesOfBranch branch).map .edge))

def clearSelection (v : Viewer) : Viewer := { v with selection := .none }

def showLongEdges (v : Viewer) (inFull : Bool) : Viewer :=
  { v with options := { v.options with longEdgesInFull := inFull } }

def draw (v : Viewer) : Except DrawError Drawing :=
  v.graph.draw v.folding v.options v.selection

def position? (v : Viewer) (row : Nat) : Option Nat := v.folding.position? row

def visibleCount (v : Viewer) : Nat := v.folding.size - v.folding.hiddenCount

end Viewer

end CommitGraph
