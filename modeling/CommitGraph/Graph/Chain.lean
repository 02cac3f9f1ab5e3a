import CommitGraph.Graph.Basic
import CommitGraph.Graph.Walk

namespace CommitGraph

structure Chain where
  upper : NodeId
  lower : NodeId
  /-- The nodes between, from top to bottom. -/
  inner : List NodeId
  deriving DecidableEq

def Chain.has (c : Chain) (n : NodeId) : Bool :=
  c.upper = n || c.lower = n || c.inner.contains n

namespace Graph

def isSimple (g : Graph) (n : NodeId) : Bool := g.nodes[n]?.any (·.isSimple)

def stepUp (g : Graph) (n : NodeId) : Option NodeId := do
  let m ← g.nodes[n]?
  if m.isSimple then (g.upNodes m).head? else none

def stepDown (g : Graph) (n : NodeId) : Option NodeId := do
  let m ← g.nodes[n]?
  if m.isSimple then (g.downNodes m).head? else none

/-- The chain that a simple node belongs to. -/
def chainThrough (g : Graph) (n : NodeId) : Chain :=
  let (above, upper) := follow g.stepUp g.nodes.size n
  let (below, lower) := follow g.stepDown g.nodes.size n
  -- Both walks leave the node itself behind first.
  ⟨upper, lower, above.reverse ++ below.drop 1⟩

/-- The chain through the only one of some neighbours, if it is simple. -/
def chainThroughOnly (g : Graph) : List NodeId → Option Chain
  | [n] => if g.isSimple n then some (g.chainThrough n) else none
  | _ => none

/-- The chain that an element belongs to or bounds. A node that is not simple means the chain below
it, if it has one parent, and else the chain above it, if it has one child. -/
def chainAt? (g : Graph) : Element → Option Chain
  | .node n =>
    if g.isSimple n then some (g.chainThrough n)
    else g.nodes[n]?.bind fun m =>
      g.chainThroughOnly (g.downNodes m) <|> g.chainThroughOnly (g.upNodes m)
  | .edge e => g.edges[e]?.bind fun e =>
    -- If both ends are simple, they are nodes of one chain.
    if g.isSimple e.lower then some (g.chainThrough e.lower)
    else if g.isSimple e.upper then some (g.chainThrough e.upper)
    else none

end Graph

end CommitGraph
