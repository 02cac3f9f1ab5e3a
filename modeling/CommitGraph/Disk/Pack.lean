import CommitGraph.Disk.Inflate
import CommitGraph.Disk.Object

namespace CommitGraph

structure Pack where
  index : ByteArray
  bytes : ByteArray

namespace Pack

def byteAt (b : ByteArray) (i : Nat) : Nat := (b[i]?.getD 0).toNat

/-- The number in `n` bytes, highest first. -/
def numberAt (b : ByteArray) (i : Nat) (n : Nat) : Nat :=
  (List.range n).foldl (fun x k => 256 * x + byteAt b (i + k)) 0

def hashSize : Nat := 20

/-- The index starts with a mark and a version. -/
def fanStart : Nat := 8

/-- The number of hashes whose first byte is below `b`. -/
def below (p : Pack) (b : Nat) : Nat :=
  if b = 0 then 0 else numberAt p.index (fanStart + 4 * (b - 1)) 4

def size (p : Pack) : Nat := p.below 256

def hashStart : Nat := fanStart + 4 * 256

def hasHashAt (p : Pack) (hash : List Nat) (i : Nat) : Bool :=
  hash.zipIdx.all fun (b, k) => byteAt p.index (hashStart + hashSize * i + k) = b

/-- The place of an object's entry. Places that do not fit in 31 bits stand in a table of their
own. -/
def entryOf? (p : Pack) (hash : List Nat) : Option Nat :=
  let first := hash.headD 0
  let i? := ((List.range (p.below (first + 1) - p.below first)).map (p.below first + ·)).find?
    (p.hasHashAt hash)
  i?.map fun i =>
    let places := hashStart + (hashSize + 4) * p.size
    let place := numberAt p.index (places + 4 * i) 4
    if place < 0x80000000 then place
    else numberAt p.index (places + 4 * p.size + 8 * (place - 0x80000000)) 8

/-- A number in bytes of seven bits, lowest first, and the place after it. -/
def lowFirst (b : ByteArray) : Nat → Nat → Nat × Nat
  | 0, i => (0, i)
  | fuel + 1, i =>
    let byte := byteAt b i
    if byte < 128 then (byte, i + 1)
    else
      let (high, i) := lowFirst b fuel (i + 1)
      (byte - 128 + 128 * high, i)

/-- A number in bytes of seven bits, highest first, each but the last counted one up. -/
def highFirst (b : ByteArray) : Nat → Nat → Nat → Nat × Nat
  | 0, x, i => (x, i)
  | fuel + 1, x, i =>
    let byte := byteAt b i
    if byte < 128 then (128 * x + byte, i + 1)
    else highFirst b fuel (128 * x + (byte - 128) + 1) (i + 1)

def longestNumber : Nat := 10

/-- The bytes of a number that a change gives, those of the set bits in `mask`. -/
def chosen (b : ByteArray) : List Nat → Nat → Nat → Nat × Nat
  | [], _, i => (0, i)
  | weight :: weights, mask, i =>
    let (here, i) := if mask % 2 = 1 then (weight * byteAt b i, i + 1) else (0, i)
    let (rest, i) := chosen b weights (mask / 2) i
    (here + rest, i)

def wholeCopy : Nat := 0x10000

def changes (old delta : ByteArray) : Nat → Nat → ByteArray → Option ByteArray
  | 0, _, _ => none
  | fuel + 1, i, out =>
    if delta.size ≤ i then some out
    else
      let op := byteAt delta i
      if 128 ≤ op then
        -- Four bits of the mask are for where a copy starts, and three for its length.
      let (start, i) := chosen delta [1, 0x100, 0x10000, 0x1000000] op (i + 1)
        let (length, i) := chosen delta [1, 0x100, 0x10000] (op / 16) i
        let length := if length = 0 then wholeCopy else length
        changes old delta fuel i (out ++ old.extract start (start + length))
      else if op = 0 then none
      else changes old delta fuel (i + 1 + op) (out ++ delta.extract (i + 1) (i + 1 + op))

def change (old delta : ByteArray) : Option ByteArray :=
  let (_, i) := lowFirst delta longestNumber 0
  let (_, i) := lowFirst delta longestNumber i
  changes old delta (delta.size + 1) i .empty

def contents? (p : Pack) : Nat → Nat → Option (StoredObject.Kind × ByteArray)
  | 0, _ => none
  | fuel + 1, place => do
    let head := byteAt p.bytes place
    let start := if head < 128 then place + 1 else (lowFirst p.bytes longestNumber (place + 1)).2
    -- Changes apply to an entry so many bytes before this one (6) or to the object of a hash (7).
    match head / 16 % 8 with
    | 1 => return (.commit, ← Inflate.run p.bytes start)
    | 4 => return (.tag, ← Inflate.run p.bytes start)
    | 6 =>
      let (distance, start) := highFirst p.bytes longestNumber 0 start
      let (kind, old) ← p.contents? fuel (place - distance)
      return (kind, ← change old (← Inflate.run p.bytes start))
    | 7 =>
      let hash := (List.range hashSize).map fun k => byteAt p.bytes (start + k)
      let (kind, old) ← p.contents? fuel (← p.entryOf? hash)
      return (kind, ← change old (← Inflate.run p.bytes (start + hashSize)))
    | _ => return (.other, .empty)

def hashBytes : List Char → List Nat
  | a :: b :: cs => (16 * digit a + digit b) :: hashBytes cs
  | _ => []
where
  digit (c : Char) : Nat := if c.isDigit then c.toNat - '0'.toNat else c.toNat - 'a'.toNat + 10

def object? (p : Pack) (hash : String) : Option StoredObject := do
  let place ← p.entryOf? (hashBytes hash.toList)
  let (kind, bytes) ← p.contents? p.size place
  return .ofKind kind bytes

end Pack

end CommitGraph
