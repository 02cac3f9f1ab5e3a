import CommitGraph.Text.Width

namespace CommitGraph.Text

/-- A way of measuring text: its columns, and the clusters that a cut must not divide. -/
structure Ruler where
  width : String → Nat
  clusters : String → List String

def Ruler.terminal : Ruler where
  width := displayWidth
  clusters s := (Text.clusters s.toList).map String.ofList

def ellipsis : String := "…"

/-- The longest run of first clusters that leaves one of `room` columns for the ellipsis. -/
def Ruler.keep (r : Ruler) (room : Nat) : List String → List String
  | [] => []
  | g :: gs => if r.width g + 1 ≤ room then g :: r.keep (room - r.width g) gs else []

/-- The text if it fits into `room` columns, and else as much of it as leaves room for the ellipsis
after it. -/
def Ruler.fit (r : Ruler) (room : Nat) (s : String) : String :=
  if r.width s ≤ room then s
  else if room = 0 then ""
  else String.join (r.keep room (r.clusters s)) ++ ellipsis

def Ruler.pad (r : Ruler) (room : Nat) (s : String) : String :=
  let text := r.fit room s
  text ++ String.ofList (List.replicate (room - r.width text) ' ')

end CommitGraph.Text
