import CommitGraph.Graph.Basic
import CommitGraph.History.Basic
import CommitGraph.Text.Ruler

namespace CommitGraph

open Text

namespace History

def shortHash (h : History) (c : CommitId) : String :=
  -- A commit without a hash is shown by its number.
  (h.hashes.short? c 8).getD ("#" ++ toString c.toNat)

def describe (h : History) (c : CommitId) : String :=
  let names := match h.namesOf c with
    | [] => ""
    | ns => " (" ++ ", ".intercalate ns ++ ")"
  let subject := match h.subject? c with
    | some s => " " ++ s
    | none => ""
  h.shortHash c ++ names ++ subject

/-- One commit is described in full, several by their hashes. -/
def describeAll (h : History) : List CommitId → String
  | [c] => h.describe c
  | cs => " ".intercalate (cs.map h.shortHash)

end History

def Graph.commitsInRow (g : Graph) (row : Nat) : List CommitId :=
  (g.nodesInRow row).filterMap fun n => g.nodes[n]?.map (·.commit)

def Graph.label (g : Graph) (h : History) (ruler : Ruler) (width row : Nat) : String :=
  ruler.fit width (h.describeAll (g.commitsInRow row))

end CommitGraph
