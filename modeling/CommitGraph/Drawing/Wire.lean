import CommitGraph.Drawing.Basic
import CommitGraph.Folding.Basic
import CommitGraph.Graph.Walk

namespace CommitGraph

structure Wire where
  edge : EdgeId
  branch : BranchId
  upper : NodeId
  lower : NodeId
  /-- Places of the two ends among the visible rows. -/
  top : Nat
  bottom : Nat
  /-- Hidden rows lie between the ends. -/
  folded : Bool
  deriving DecidableEq

inductive DrawError where
  /-- A wire would fork, or end, at a hidden node. -/
  | hiddenJunction (commit : CommitId)
  /-- A wire would go on below its lower end. -/
  | stillOpen (lower row : Nat)
  /-- A wire would have an end in a hidden row. -/
  | hiddenEnd (row : Nat)
  /-- A wire would lead upwards. -/
  | upsideDown
  deriving DecidableEq

def DrawError.message : DrawError → String
  | .hiddenJunction c => "hidden node for commit " ++ toString c.toNat ++ " is not inside a fragment"
  | .stillOpen lower row =>
    "edge into row " ++ toString lower ++ " is still open at row " ++ toString row
  | .hiddenEnd row => "edge endpoint in hidden row " ++ toString row
  | .upsideDown => "attempt to subtract with overflow"

namespace Graph

/-- Down from a hidden node with one edge down. -/
def stepHidden (g : Graph) (f : Folding) (n : NodeId) : Option NodeId := do
  let m ← g.nodes[n]?
  if f.isVisible m.row then none
  else match g.downNodes m with
    | [lower] => some lower
    | _ => none

def wire (g : Graph) (f : Folding) (e : EdgeId) (edge : Edge) : Except DrawError Wire :=
  let (passed, lower) := follow (g.stepHidden f) g.nodes.size edge.lower
  if f.isNodeVisible g lower then
    .ok ⟨e, edge.branch, edge.upper, lower, f.visibleAbove (g.rowOf edge.upper),
      f.visibleAbove (g.rowOf lower), !passed.isEmpty⟩
  -- The walk has got to a hidden node with no edge down, or with several.
  else .error (.hiddenJunction ((g.nodes[lower]?.map (·.commit)).getD 0))

/-- The wires that leave a node; a hidden node has none. -/
def wiresOf (g : Graph) (f : Folding) (n : Node) : Except DrawError (List Wire) :=
  if f.isVisible n.row then
    (n.down.filterMap fun e => (g.edges[e]?).map (e, ·)).mapM fun (e, edge) => g.wire f e edge
  else .ok []

def wires (g : Graph) (f : Folding) : Except DrawError (Array (List Wire)) :=
  (g.nodes.toList.mapM (g.wiresOf f)).map List.toArray

end Graph

end CommitGraph
