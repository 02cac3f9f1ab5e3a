import CommitGraph.Graph.Basic

/-!
Building the graph of a history, one commit a row. A parent gets its node when a child first names
it, and its row when its own turn comes; parents that never have a turn share one last row. Commits
must come before their parents.
-/

namespace CommitGraph

inductive BuildError where
  | duplicate (commit : CommitId)
  | parentAbove (commit parent : CommitId)
  deriving DecidableEq

def BuildError.message : BuildError → String
  | .duplicate c => "commit " ++ toString c.toNat ++ " appears more than once in the input"
  | .parentAbove c p =>
    "commit " ++ toString c.toNat ++ " lists " ++ toString p.toNat ++ " as parent, but "
      ++ toString p.toNat ++ " was already placed above it"

namespace Graph

def addBranch (g : Graph) (b : Branch) : Graph := { g with branches := g.branches.push b }

/-- A new node, which waits for its row. -/
def addNode (g : Graph) (c : CommitId) (b : BranchId) : Graph :=
  { g with nodes := g.nodes.push ⟨c, b, .unloaded, 0, [], []⟩ }

def addEdge (g : Graph) (upper lower : NodeId) (b : BranchId) : Graph :=
  let e := g.edges.size
  { g with
    edges := g.edges.push ⟨upper, lower, b⟩
    nodes := (g.nodes.modify upper fun n => { n with down := n.down ++ [e] }).modify lower
      fun n => { n with up := n.up ++ [e] } }

/-- The node has had its turn as a commit. -/
def isPlaced (g : Graph) (n : NodeId) : Bool := g.nodes[n]?.any (·.kind = .loaded)

/-- A node's turn: it takes the next row alone. -/
def place (g : Graph) (n : NodeId) : Graph :=
  { g with
    nodes := g.nodes.modify n fun m => { m with kind := .loaded, row := g.rows.size }
    rows := g.rows.push [n] }

/-- An edge from a placed commit to a parent, whose node is made if it is new. -/
def connect (g : Graph) (c : CommitId) (upper : NodeId) (b : BranchId) (parent : CommitId) :
    Except BuildError Graph :=
  match g.nodeOf? parent with
  | some lower =>
    if g.isPlaced lower then .error (.parentAbove c parent) else .ok (g.addEdge upper lower b)
  | none => .ok ((g.addNode parent b).addEdge upper g.nodes.size b)

def referencesOn (references : List Reference) (c : CommitId) : List Reference :=
  references.filter (·.target = c)

/-- The node that waits for a commit, or a new one with a branch of its own. -/
def claim (g : Graph) (references : List Reference) (c : CommitId) :
    Except BuildError (NodeId × Graph) :=
  match g.nodeOf? c with
  | some n => if g.isPlaced n then .error (.duplicate c) else .ok (n, g)
  | none =>
    -- No child has named the commit, so it is a head.
    let h := g.addBranch (.ofHead c (referencesOn references c))
    .ok (g.nodes.size, h.addNode c g.branches.size)

/-- Edges to the parents of a merge, each on a branch of its own. -/
def connectMerge (references : List Reference) (c : CommitId) (n : NodeId)
    (head : Option CommitId) (g : Graph) : List CommitId → Except BuildError Graph
  | [] => .ok g
  | p :: ps => do
    let h := g.addBranch (.ofMerge c p (referencesOn references c) head)
    connectMerge references c n head (← h.connect c n g.branches.size p) ps

def append (references : List Reference) (g : Graph) (c : Commit) : Except BuildError Graph := do
  let (n, g) ← g.claim references c.id
  let g := g.place n
  let branch := (g.nodes[n]?.map (·.branch)).getD 0
  -- A single parent goes on with the commit's branch; a merge starts a branch for each parent.
  match c.parents with
  | [p] => g.connect c.id n branch p
  | ps => connectMerge references c.id n (g.branches[branch]?.bind (·.head)) g ps

/-- The parents that had no turn, in order of first mention. -/
def waiting (g : Graph) : List NodeId :=
  (List.range g.nodes.size).filter (!g.isPlaced ·)

/-- The waiting nodes take one last row together. -/
def finish (g : Graph) : Graph :=
  match g.waiting with
  | [] => g
  | ns =>
    { g with
      nodes := g.nodes.map fun m => if m.kind = .unloaded then { m with row := g.rows.size } else m
      rows := g.rows.push ns }

/-- The graph of a history whose commits come before their parents. -/
def build (commits : List Commit) (references : List Reference) : Except BuildError Graph :=
  (commits.foldlM (append references) .empty).map finish

end Graph

end CommitGraph
