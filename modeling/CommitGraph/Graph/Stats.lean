import CommitGraph.Graph.Basic

namespace CommitGraph

structure Stats where
  rows : Nat
  nodes : Nat
  edges : Nat
  branches : Nat
  merges : Nat
  heads : Nat
  /-- Parents outside the loaded history. -/
  unloaded : Nat
  /-- The most rows that one edge leads down. -/
  longestEdge : Nat
  deriving DecidableEq

namespace Graph

def drop (g : Graph) (e : Edge) : Nat := g.rowOf e.lower - g.rowOf e.upper

def stats (g : Graph) : Stats where
  rows := g.rows.size
  nodes := g.nodes.size
  edges := g.edges.size
  branches := g.branches.size
  merges := g.nodes.toList.countP (·.isMerge)
  heads := g.nodes.toList.countP fun n => n.kind = .loaded && n.isHead
  unloaded := g.nodes.toList.countP (·.kind = .unloaded)
  longestEdge := (g.edges.toList.map g.drop).max?.getD 0

end Graph

end CommitGraph
