import CommitGraph.Repository.Basic

namespace CommitGraph

namespace Repository

/-- The commits reached from some, each once, in at most `fuel` steps. -/
def reach (r : Repository) : Nat → List String → List (String × StoredCommit) →
    List (String × StoredCommit)
  | 0, _, found => found
  | _, [], found => found
  | fuel + 1, h :: todo, found =>
    if found.any (·.1 = h) then r.reach fuel todo found
    else match r.commit? h with
      -- What is not in the repository, or is no commit, leads nowhere.
      | none => r.reach fuel todo found
      | some c => r.reach fuel (c.parents ++ todo) ((h, c) :: found)

/-- One step for each tip and each parent link. -/
def reachFuel (r : Repository) (tips : List String) : Nat :=
  r.objects.foldl (fun n (_, o) => match o with
    | .commit c => n + c.parents.length
    | _ => n) tips.length

/-- The first commit that no other in the list has as a parent. -/
def nextTurn (left : List (String × StoredCommit)) : Option (String × StoredCommit) :=
  left.find? fun (h, _) => !left.any fun (_, c) => c.parents.contains h

/-- All commits in order of their turns, given newest first. -/
def turns : Nat → List (String × StoredCommit) → List (String × StoredCommit)
  | 0, _ => []
  | fuel + 1, left =>
    match nextTurn left with
    | none => []
    | some (h, c) => (h, c) :: turns fuel (left.filter (·.1 ≠ h))

/-- The commits reached from tips, every commit before its parents, and of those whose turn may come
the newest first. -/
def walk (r : Repository) (tips : List String) : List (String × StoredCommit) :=
  -- Sorting is stable: commits of one time keep the order in which they were found, last one first.
  let found := (r.reach (r.reachFuel tips) tips []).mergeSort fun a b => b.2.time ≤ a.2.time
  turns found.length found

end Repository

end CommitGraph
