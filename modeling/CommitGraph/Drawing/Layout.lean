import CommitGraph.Drawing.Wire
import CommitGraph.Selection

/-!
The drawing of a graph, row by row from the top. What stands in a row follows from the row above it:
a node there is replaced by its wires, and a wire goes on or arrives at its lower node, which is
shown where its first wire arrives. Nodes that no wire reaches stand at the right.
-/

namespace CommitGraph

inductive Slot where
  | node (n : NodeId)
  | wire (w : Wire)
  deriving DecidableEq

/-- The slots in order, a node only where it comes first and none of the nodes given. -/
def Slot.firsts : List NodeId → List Slot → List Slot
  | _, [] => []
  | placed, .wire w :: ss => .wire w :: firsts placed ss
  | placed, .node n :: ss =>
    if n ∈ placed then firsts placed ss else .node n :: firsts (n :: placed) ss

/-- A graph with the wires of its nodes, ready to be laid out. -/
structure Plan where
  graph : Graph
  wires : Array (List Wire)
  options : DrawOptions
  selection : Selection

namespace Plan

def wiresFrom (p : Plan) (n : NodeId) : List Wire := p.wires[n]?.getD []

def leaving (p : Plan) : Slot → List Wire
  | .node n => p.wiresFrom n
  | .wire w => [w]

def arrival (position : Nat) (w : Wire) : Slot :=
  if w.bottom = position then .node w.lower else .wire w

/-- The slots of the row at `position` that shows the given nodes, each where it first arrives. -/
def nextSlots (p : Plan) (above : List Slot) (position : Nat) (nodes : List NodeId) : List Slot :=
  Slot.firsts [] ((above.flatMap p.leaving).map (arrival position) ++ nodes.map Slot.node)

def slotsFrom (p : Plan) (above : List Slot) (position : Nat) : List Nat → List (List Slot)
  | [] => []
  | row :: rows =>
    let slots := p.nextSlots above position (p.graph.nodesInRow row)
    slots :: p.slotsFrom slots (position + 1) rows

def isShortened (p : Plan) (w : Wire) : Bool :=
  !p.options.longEdgesInFull && p.options.effectiveThreshold < w.bottom - w.top

def isShown (p : Plan) (position : Nat) : Slot → Bool
  | .node _ => true
  -- Of a shortened wire the first and the last row between its ends are left.
  | .wire w => !p.isShortened w || position = w.top + 1 || position + 1 = w.bottom

/-- The slots of a row that are drawn; their places are the columns. -/
def shown (p : Plan) (position : Nat) (slots : List Slot) : List Slot :=
  slots.filter (p.isShown position)

/-- The column of a slot among those drawn. If it stands there twice, the last place counts. -/
def column? (shown : List Slot) (s : Slot) : Option Nat := shown.zipIdx.reverse.lookup s

def cell (p : Plan) (position column : Nat) : Slot → Option Cell
  | .node n => (p.graph.nodes[n]?).map fun m =>
    { column, element := .node n
      kind := match m.kind with
        | .loaded => .commit
        | .unloaded => .endCommit
      branch := m.branch, folded := false, selected := p.selection.has (.node n) }
  | .wire w => some
    { column, element := .edge w.edge
      kind := if !p.isShortened w then .edge else if position = w.top + 1 then .stubDown else .stubUp
      branch := w.branch, folded := w.folded, selected := p.selection.has (.edge w.edge) }

def cells (p : Plan) (position : Nat) (shown : List Slot) : List Cell :=
  shown.filterMap fun s => (column? shown s).bind fun column => p.cell position column s

def link (p : Plan) (position : Nat) (shown below : List Slot) (s : Slot) (w : Wire) :
    Option Link := do
  let upColumn ← column? shown s
  let downColumn ← column? below (arrival position w)
  return { upColumn, downColumn, edge := w.edge, branch := w.branch, folded := w.folded
           selected := p.selection.has (.edge w.edge) }

def links (p : Plan) (position : Nat) (shown below : List Slot) : List Link :=
  shown.flatMap fun s => (p.leaving s).filterMap (p.link position shown below s)

def rowsFrom (p : Plan) (position : Nat) : List (Nat × List Slot) → List DrawnRow
  | [] => []
  | (row, shown) :: rest =>
    let links := match rest with
      | [] => []
      | (_, below) :: _ => p.links (position + 1) shown below
    ⟨row, p.cells position shown, links⟩ :: p.rowsFrom (position + 1) rest

/-- No wire that leaves the slots above a row ends above that row. -/
def checkOpen (p : Plan) (above : List Slot) (row : Nat) : Except DrawError Unit :=
  (above.flatMap p.leaving).forM fun w =>
    if p.graph.rowOf w.lower < row then .error (.stillOpen (p.graph.rowOf w.lower) row) else .ok ()

def checkEnd (p : Plan) (rows : List Nat) (n : NodeId) : Except DrawError Unit :=
  if p.graph.rowOf n ∈ rows then .ok () else .error (.hiddenEnd (p.graph.rowOf n))

/-- A wire leads down from one of the rows to another. -/
def checkSpan (p : Plan) (rows : List Nat) : Slot → Except DrawError Unit
  | .node _ => .ok ()
  | .wire w => do
    p.checkEnd rows w.upper
    p.checkEnd rows w.lower
    if !p.options.longEdgesInFull && w.bottom < w.top then .error .upsideDown else .ok ()

def check (p : Plan) (rows : List Nat) (slots : List (List Slot)) : Except DrawError Unit := do
  (([] :: slots).zip rows).forM fun (above, row) => p.checkOpen above row
  slots.forM fun row => row.forM (p.checkSpan rows)

def draw (p : Plan) (rows : List Nat) : Except DrawError Drawing := do
  -- The whole layout is checked first, so that what fails draws nothing.
  let slots := p.slotsFrom [] 0 rows
  p.check rows slots
  return ⟨p.rowsFrom 0 (rows.zip (slots.zipIdx.map fun (s, position) => p.shown position s))⟩

end Plan

namespace Graph

def visibleRows (g : Graph) (f : Folding) : List Nat :=
  (List.range g.rows.size).filter f.isVisible

def draw (g : Graph) (f : Folding) (o : DrawOptions) (s : Selection) : Except DrawError Drawing := do
  let wires ← g.wires f
  (Plan.mk g wires o s).draw (g.visibleRows f)

end Graph

end CommitGraph
