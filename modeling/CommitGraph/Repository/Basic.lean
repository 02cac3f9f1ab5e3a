import CommitGraph.Text.Fields

namespace CommitGraph

structure StoredCommit where
  parents : List String
  time : Int
  message : String
  deriving DecidableEq

inductive StoredObject where
  | commit (c : StoredCommit)
  /-- An annotated tag of another object. -/
  | tag (target : String)
  /-- A tree or the contents of a file. -/
  | other
  deriving DecidableEq

inductive RefTarget where
  | object (hash : String)
  /-- Another reference, by name. -/
  | symbolic (name : String)
  deriving DecidableEq

structure Repository where
  objects : List (String × StoredObject)
  /-- References by full name. -/
  refs : List (String × RefTarget)
  /-- There is no target where the head cannot be read. -/
  head : Option RefTarget

inductive RepositoryError where
  | cannotOpen
  | badHead
  deriving DecidableEq

def RepositoryError.message : RepositoryError → String
  | .cannotOpen => "Failed to open repository"
  | .badHead => "Failed to resolve HEAD"

namespace Repository

def object? (r : Repository) (hash : String) : Option StoredObject := r.objects.lookup hash

def commit? (r : Repository) (hash : String) : Option StoredCommit :=
  match r.object? hash with
  | some (.commit c) => some c
  | _ => none

def ref? (r : Repository) (name : String) : Option RefTarget :=
  if name = "HEAD" then r.head else r.refs.lookup name

inductive Resolved where
  | object (hash : String)
  /-- The name, or one that it leads to, does not exist. -/
  | missing
  | tooDeep
  deriving DecidableEq

def resolve (r : Repository) : Nat → String → Resolved
  | hops, name =>
    match r.ref? name, hops with
    | none, _ => .missing
    | some (.object h), _ => .object h
    | some (.symbolic _), 0 => .tooDeep
    | some (.symbolic t), hops + 1 => r.resolve hops t

def hopLimit : Nat := 5

def peelObject (r : Repository) : Nat → String → Option String
  | fuel, hash =>
    match r.object? hash, fuel with
    | some (.commit _), _ => some hash
    | some (.tag t), fuel + 1 => r.peelObject fuel t
    | _, _ => none

def peel (r : Repository) (hash : String) : Option String := r.peelObject r.objects.length hash

def peelRef (r : Repository) : RefTarget → Option String
  | .object h => r.peel h
  | .symbolic name =>
    match r.resolve hopLimit name with
    | .object h => r.peel h
    | _ => none

/-- What a library that reads repositories is asked for. -/
structure Library where
  /-- The references, in the order in which they are listed. -/
  listed : List (String × RefTarget) → List (String × RefTarget)
  listed_perm : ∀ refs, (listed refs).Perm refs
  /-- The commit that a reference stands for. -/
  peel : RefTarget → Option String
  /-- The subject of a commit, if it can be read. -/
  summary : StoredCommit → Option String
  /-- The commits that some lead to, in the order of the walk. -/
  walk : List String → List (String × StoredCommit)

/-- The commit of the head. A head that leads to a reference not yet made has none. -/
def headCommit (r : Repository) (lib : Library) : Except RepositoryError (Option String) :=
  match r.head with
  | none => .error .badHead
  | some (.object h) => .ok (lib.peel (.object h))
  | some (.symbolic name) =>
    match r.resolve hopLimit name with
    | .object h => .ok (lib.peel (.object h))
    | .missing => .ok none
    -- References that lead on too far are told like a head that cannot be read.
    | .tooDeep => .error .badHead

/-- The commits of the head and of all references, whatever their names. -/
def tips (r : Repository) (lib : Library) (head : Option String) : List String :=
  head.toList ++ (lib.listed r.refs).filterMap fun (_, t) => lib.peel t

end Repository

end CommitGraph
