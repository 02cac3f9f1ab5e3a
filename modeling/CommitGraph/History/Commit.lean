namespace CommitGraph

abbrev CommitId := UInt32

/-- The repository that a reference belongs to. -/
abbrev RootId := UInt32

structure Commit where
  id : CommitId
  /-- A parent may be listed more than once. -/
  parents : List CommitId
  /-- Seconds since the epoch. -/
  time : Int
  deriving DecidableEq

namespace Commit

def isRoot (c : Commit) : Bool := c.parents.isEmpty

def isMerge (c : Commit) : Bool := 1 < c.parents.length

end Commit

inductive RefKind where
  | head | branch | remote | tag
  deriving DecidableEq

structure Reference where
  name : String
  target : CommitId
  kind : RefKind
  root : RootId
  deriving DecidableEq

/-- Everything but a tag moves with new commits. -/
def Reference.isBranch (r : Reference) : Bool := r.kind != .tag

end CommitGraph
