import CommitGraph.History.Basic
import CommitGraph.Repository.Summary
import CommitGraph.Repository.Walk

namespace CommitGraph

namespace Repository

/-- Commits and subjects of a walk, numbered on from `n`. -/
def numberWalk (summary : StoredCommit → Option String) (n : Numbering) :
    List (String × StoredCommit) → List Commit × List (CommitId × String) × Numbering
  | [] => ([], [], n)
  | (h, c) :: rest =>
    let (id, n) := n.assign h
    let (parents, n) := n.assignAll c.parents
    let (commits, subjects, n) := numberWalk summary n rest
    let subject := (summary c).map fun s => (id, s)
    (⟨id, parents, c.time⟩ :: commits, subject.toList ++ subjects, n)

/-- Kind and short name of a reference by its full name; others are not shown. -/
def shown? (name : String) : Option (RefKind × String) :=
  let after (start : String) : Option String :=
    (Text.after? start.toList name.toList).map String.ofList
  ((after "refs/heads/").map (RefKind.branch, ·)
    <|> (after "refs/remotes/").map (RefKind.remote, ·)
    <|> (after "refs/tags/").map (RefKind.tag, ·))

def reference? (n : Numbering) (root : RootId) (kind : RefKind) (name hash : String) :
    Option Reference :=
  (n.number? hash).map fun id => ⟨name, id, kind, root⟩

/-- The head first, then the references shown, as they are listed. -/
def references (r : Repository) (lib : Library) (n : Numbering) (root : RootId)
    (head : Option String) : List Reference :=
  (head.bind (reference? n root .head "HEAD")).toList ++
    (lib.listed r.refs).filterMap fun (name, target) => do
      -- A reference is left out where its name is of no kind shown or its commit has no number.
      let (kind, short) ← shown? name
      reference? n root kind short (← lib.peel target)

def historyAlong (r : Repository) (lib : Library) (root : RootId) (head : Option String)
    (walk : List (String × StoredCommit)) : History :=
  let (commits, subjects, n) := numberWalk lib.summary .empty walk
  ⟨commits, r.references lib n root head, n, subjects⟩

def upTo (limit : Option Nat) (walk : List (String × StoredCommit)) :
    List (String × StoredCommit) :=
  match limit with
  | some k => walk.take k
  | none => walk

/-- The history of all commits that the head and the references lead to, or of the first `limit` of
them. -/
def loadBy (r : Repository) (lib : Library) (limit : Option Nat) (root : RootId) :
    Except RepositoryError History := do
  let head ← r.headCommit lib
  return r.historyAlong lib root head (upTo limit (lib.walk (r.tips lib head)))

/-- References come in order of their full names. -/
def library (r : Repository) : Library where
  listed refs := refs.mergeSort fun a b => a.1 ≤ b.1
  listed_perm refs := List.mergeSort_perm refs _
  peel := r.peelRef
  summary c := some (Summary.ofMessage c.message)
  walk := r.walk

def load (r : Repository) (limit : Option Nat) (root : RootId) : Except RepositoryError History :=
  r.loadBy r.library limit root

end Repository

end CommitGraph
