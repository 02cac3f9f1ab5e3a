import CommitGraph.History.LogLine
import CommitGraph.History.Numbering

namespace CommitGraph

/-- Commits, children before their parents, and what is known about them. -/
structure History where
  commits : List Commit
  references : List Reference
  hashes : Numbering
  /-- First lines of commit messages, at most one for a commit. -/
  subjects : List (CommitId × String)
  deriving DecidableEq

namespace History

def subject? (h : History) (c : CommitId) : Option String := h.subjects.lookup c

/-- The last subject given to a commit counts. -/
def setSubject (h : History) (c : CommitId) (subject : String) : History :=
  { h with subjects := (c, subject) :: h.subjects.filter (·.1 ≠ c) }

def namesOf (h : History) (c : CommitId) : List String :=
  (h.references.filter (·.target = c)).map (·.name)

/-- The time of each commit; of a repeated commit the last one counts. -/
def times (h : History) : List (CommitId × Int) :=
  h.commits.foldl (fun ts c => (c.id, c.time) :: ts.filter (·.1 ≠ c.id)) []

def numberLines (n : Numbering) : List LogLine → List Commit × Numbering
  | [] => ([], n)
  | l :: ls =>
    let (id, n) := n.assign l.hash
    let (parents, n) := n.assignAll l.parents
    let (commits, n) := numberLines n ls
    (⟨id, parents, l.time⟩ :: commits, n)

def isHead (commits : List Commit) (c : Commit) : Bool :=
  !commits.any fun d => d.parents.contains c.id

/-- A branch on every head, named by the head's hash. -/
def headReferences (commits : List Commit) (n : Numbering) : List Reference :=
  (commits.filter (isHead commits)).map fun c => ⟨(n.hash? c.id).getD "", c.id, .branch, 0⟩

inductive LoadError where
  | log (e : LogError)
  | unknownTarget (name hash : String)
  deriving DecidableEq

def LoadError.message : LoadError → String
  | .log e => e.message
  | .unknownTarget name hash => "reference " ++ name ++ " points at unknown commit " ++ hash

def resolve (n : Numbering) (named : String × String) : Except LoadError Reference :=
  match n.number? named.2 with
  | some id => .ok ⟨named.1, id, .branch, 0⟩
  | none => .error (.unknownTarget named.1 named.2)

/-- The history of a text log, with branches at the given names and hashes. -/
def ofLog (text : String) (named : List (String × String)) : Except LoadError History := do
  let lines ← (LogLine.parseLog text).mapError .log
  let (commits, hashes) := numberLines .empty lines
  let references ← match named with
    | [] => pure (headReferences commits hashes)
    | _ => named.mapM (resolve hashes)
  return ⟨commits, references, hashes, []⟩

end History

end CommitGraph
