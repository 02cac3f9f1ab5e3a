import CommitGraph.History.Commit

namespace CommitGraph

structure Numbering where
  /-- The number of each hash, newest first. -/
  numbers : List (String × CommitId)
  /-- The hash with number `i` is at place `i`. -/
  hashes : List String
  deriving DecidableEq

namespace Numbering

def empty : Numbering := ⟨[], []⟩

def size (n : Numbering) : Nat := n.hashes.length

def isEmpty (n : Numbering) : Bool := n.hashes.isEmpty

def number? (n : Numbering) (hash : String) : Option CommitId := n.numbers.lookup hash

def hash? (n : Numbering) (id : CommitId) : Option String := n.hashes[id.toNat]?

/-- The hash's number, the next free one if the hash is new. -/
def assign (n : Numbering) (hash : String) : CommitId × Numbering :=
  match n.number? hash with
  | some id => (id, n)
  | none =>
    -- When all numbers are in use, they are given again from zero on.
    let id := UInt32.ofNat n.size
    (id, ⟨(hash, id) :: n.numbers, n.hashes ++ [hash]⟩)

def assignAll (n : Numbering) : List String → List CommitId × Numbering
  | [] => ([], n)
  | h :: hs =>
    let (id, n) := n.assign h
    let (ids, n) := n.assignAll hs
    (id :: ids, n)

/-- The characters of the longest beginning that takes `len` bytes exactly. -/
def bytePrefix? : Nat → List Char → Option (List Char)
  | 0, _ => some []
  | _, [] => none
  | len, c :: cs =>
    if c.utf8Size ≤ len then (bytePrefix? (len - c.utf8Size) cs).map (c :: ·) else none

/-- The first `len` bytes of a hash, or all of it where no character ends there. -/
def short? (n : Numbering) (id : CommitId) (len : Nat) : Option String :=
  (n.hash? id).map fun h => ((bytePrefix? len h.toList).map String.ofList).getD h

end Numbering

end CommitGraph
