import CommitGraph.Folding.Basic
import CommitGraph.Graph.Chain

namespace CommitGraph

namespace Folding

/-- A chain is folded if its first node is hidden. -/
def isFolded (f : Folding) (g : Graph) (c : Chain) : Bool :=
  c.inner.head?.any (!f.isNodeVisible g ·)

def setNodes (f : Folding) (g : Graph) (hide : Bool) (ns : List NodeId) : Folding :=
  ns.foldl (fun f n => f.setHidden hide (g.rowOf n)) f

/-- Folds a chain away, or back if it was folded. -/
def flip (f : Folding) (g : Graph) (c : Chain) : Folding :=
  f.setNodes g (!f.isFolded g c) c.inner

/-- Folds away the chain through a simple node that is visible. -/
def foldThrough (f : Folding) (g : Graph) (n : NodeId) : Folding :=
  if g.isSimple n && f.isNodeVisible g n then f.setNodes g true (g.chainThrough n).inner else f

def foldAll (f : Folding) (g : Graph) : Folding :=
  (List.range g.nodes.size).foldl (fun f n => f.foldThrough g n) f

end Folding

def Chain.span (c : Chain) (g : Graph) : RowSpan := .between (g.rowOf c.upper) (g.rowOf c.lower)

end CommitGraph
