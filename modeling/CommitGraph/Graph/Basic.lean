import CommitGraph.History.Commit

namespace CommitGraph

abbrev NodeId := Nat
abbrev EdgeId := Nat
abbrev BranchId := Nat

inductive NodeKind where
  | loaded
  /-- A parent outside the loaded history. -/
  | unloaded
  deriving DecidableEq

structure Node where
  commit : CommitId
  branch : BranchId
  kind : NodeKind
  row : Nat
  /-- Edges from children, oldest edge first. -/
  up : List EdgeId
  /-- Edges to parents, in the commit's own order. -/
  down : List EdgeId
  deriving DecidableEq

namespace Node

/-- One edge comes in and one goes out. -/
def isSimple (n : Node) : Bool := n.up.length = 1 && n.down.length = 1

def isMerge (n : Node) : Bool := 1 < n.down.length

def isHead (n : Node) : Bool := n.up.isEmpty

def degree (n : Node) : Nat := n.up.length + n.down.length

end Node

/-- A parent link, from the child above to the parent below. -/
structure Edge where
  upper : NodeId
  lower : NodeId
  branch : BranchId
  deriving DecidableEq

def Edge.other? (e : Edge) (n : NodeId) : Option NodeId :=
  if n = e.upper then some e.lower else if n = e.lower then some e.upper else none

/-- A line of descent. One that starts at a head runs on through single parents; one that starts at
a merge leads to one of its parents. -/
structure Branch where
  origin : CommitId
  /-- The parent that a branch of a merge leads to. -/
  parent : Option CommitId
  references : List Reference
  /-- A referenced head from which the branch is reached. -/
  head : Option CommitId
  deriving DecidableEq

namespace Branch

def ofHead (origin : CommitId) (references : List Reference) : Branch :=
  ⟨origin, none, references, references.head?.map (·.target)⟩

def ofMerge (origin parent : CommitId) (references : List Reference) (head : Option CommitId) :
    Branch :=
  ⟨origin, some parent, references, head⟩

def root? (b : Branch) : Option RootId := b.references.head?.map (·.root)

def label? (b : Branch) : Option String := b.references.head?.map (·.name)

end Branch

/-- A thing to point at in a drawn graph. -/
inductive Element where
  | node (n : NodeId)
  | edge (e : EdgeId)
  deriving DecidableEq

/-- A node for every commit and for every parent outside the loaded history, and an edge for every
parent link. Nodes, edges, branches and rows are known by their places. -/
structure Graph where
  nodes : Array Node
  edges : Array Edge
  branches : Array Branch
  /-- The nodes of each row. -/
  rows : Array (List NodeId)
  deriving DecidableEq

namespace Graph

def empty : Graph := ⟨#[], #[], #[], #[]⟩

def nodeOf? (g : Graph) (c : CommitId) : Option NodeId :=
  g.nodes.toList.findIdx? (·.commit = c)

/-- The row of a node; meaningful for the nodes of the graph. -/
def rowOf (g : Graph) (n : NodeId) : Nat := (g.nodes[n]?.map (·.row)).getD 0

def rowOfCommit? (g : Graph) (c : CommitId) : Option Nat := (g.nodeOf? c).map g.rowOf

def nodesInRow (g : Graph) (r : Nat) : List NodeId := g.rows[r]?.getD []

def downNodes (g : Graph) (n : Node) : List NodeId :=
  n.down.filterMap fun e => g.edges[e]?.map (·.lower)

def upNodes (g : Graph) (n : Node) : List NodeId :=
  n.up.filterMap fun e => g.edges[e]?.map (·.upper)

/-- The row of a node, or of the upper end of an edge. -/
def rowOfElement? (g : Graph) : Element → Option Nat
  | .node n => g.nodes[n]?.map (·.row)
  | .edge e => g.edges[e]?.map fun e => g.rowOf e.upper

def hasElement (g : Graph) : Element → Bool
  | .node n => n < g.nodes.size
  | .edge e => e < g.edges.size

def nodesOfBranch (g : Graph) (b : BranchId) : List NodeId :=
  ((List.range g.nodes.size).filter fun n => g.nodes[n]?.any (·.branch = b)).mergeSort
    fun m n => g.rowOf m ≤ g.rowOf n

def edgesOfBranch (g : Graph) (b : BranchId) : List EdgeId :=
  (List.range g.edges.size).filter fun e => g.edges[e]?.any (·.branch = b)

end Graph

end CommitGraph
