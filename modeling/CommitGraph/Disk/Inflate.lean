/-!
Decompression of the DEFLATE format (RFC 1951) inside a zlib wrapper (RFC 1950). The checksum at the
end is not looked at.
-/

namespace CommitGraph.Inflate

/-- Bytes with a place among their bits. The lowest bit of a byte comes first. -/
structure Bits where
  bytes : ByteArray
  place : Nat

namespace Bits

def next (b : Bits) : Option (Nat × Bits) :=
  b.bytes[b.place / 8]?.map fun byte =>
    ((byte.toNat >>> (b.place % 8)) % 2, { b with place := b.place + 1 })

/-- The number made of the next `n` bits, lowest bit first. -/
def number (b : Bits) : Nat → Option (Nat × Bits)
  | 0 => some (0, b)
  | n + 1 => do
    let (low, b) ← b.next
    let (high, b) ← b.number n
    return (low + 2 * high, b)

def align (b : Bits) : Bits := { b with place := (b.place + 7) / 8 * 8 }

end Bits

/-- A prefix code: how many words it has of each length from one on, and what the words stand for,
in order. -/
structure Code where
  counts : List Nat
  symbols : Array Nat

namespace Code

def longest : Nat := 15

/-- The code in which symbol `i` has a word of the `i`-th length, or none if that is zero. -/
def ofLengths (lengths : List Nat) : Code where
  counts := (List.range longest).map fun i => lengths.countP (· = i + 1)
  symbols := ((List.range longest).flatMap fun i =>
    lengths.zipIdx.filterMap fun (n, s) => if n = i + 1 then some s else none).toArray

/-- Reads one word. `word` is what has been read, `first` the first word of its length, and `before`
the number of shorter words. -/
def readFrom (symbols : Array Nat) : List Nat → Nat → Nat → Nat → Bits → Option (Nat × Bits)
  | [], _, _, _, _ => none
  | count :: counts, word, first, before, b => do
    let (bit, b) ← b.next
    let word := 2 * word + bit
    if word < first + count then
      return (← symbols[before + (word - first)]?, b)
    else readFrom symbols counts word (2 * (first + count)) (before + count) b

def read (c : Code) (b : Bits) : Option (Nat × Bits) := readFrom c.symbols c.counts 0 0 0 b

end Code

/-- Least lengths of a copy, with the number of bits that say how much more. -/
def copyLengths : Array (Nat × Nat) :=
  #[(3, 0), (4, 0), (5, 0), (6, 0), (7, 0), (8, 0), (9, 0), (10, 0), (11, 1), (13, 1), (15, 1),
    (17, 1), (19, 2), (23, 2), (27, 2), (31, 2), (35, 3), (43, 3), (51, 3), (59, 3), (67, 4),
    (83, 4), (99, 4), (115, 4), (131, 5), (163, 5), (195, 5), (227, 5), (258, 0)]

def copyDistances : Array (Nat × Nat) :=
  #[(1, 0), (2, 0), (3, 0), (4, 0), (5, 1), (7, 1), (9, 2), (13, 2), (17, 3), (25, 3), (33, 4),
    (49, 4), (65, 5), (97, 5), (129, 6), (193, 6), (257, 7), (385, 7), (513, 8), (769, 8),
    (1025, 9), (1537, 9), (2049, 10), (3073, 10), (4097, 11), (6145, 11), (8193, 12), (12289, 12),
    (16385, 13), (24577, 13)]

def amount (table : Array (Nat × Nat)) (i : Nat) (b : Bits) : Option (Nat × Bits) := do
  let (least, bits) ← table[i]?
  let (more, b) ← b.number bits
  return (least + more, b)

/-- Appends `n` bytes, each a copy of the one `distance` places before it. -/
def copyBack (distance : Nat) : Nat → ByteArray → Option ByteArray
  | 0, out => some out
  | n + 1, out =>
    if out.size < distance then none
    else (out[out.size - distance]?).bind fun byte => copyBack distance n (out.push byte)

def words (literals distances : Code) : Nat → Bits → ByteArray → Option (ByteArray × Bits)
  | 0, _, _ => none
  | fuel + 1, b, out => do
    let (symbol, b) ← literals.read b
    if symbol < 256 then words literals distances fuel b (out.push symbol.toUInt8)
    else if symbol = 256 then return (out, b)
    -- Bytes that have been written are written again.
    else
      let (length, b) ← amount copyLengths (symbol - 257) b
      let (symbol, b) ← distances.read b
      let (distance, b) ← amount copyDistances symbol b
      words literals distances fuel b (← copyBack distance length out)

def fixedLiterals : Code :=
  .ofLengths (List.replicate 144 8 ++ List.replicate 112 9 ++ List.replicate 24 7
    ++ List.replicate 8 8)

def fixedDistances : Code := .ofLengths (List.replicate 30 5)

/-- In this order the lengths are given for the code that the other lengths are written in. -/
def lengthOrder : List Nat := [16, 17, 18, 0, 8, 7, 9, 6, 10, 5, 11, 4, 12, 3, 13, 2, 14, 1, 15]

def smallNumbers : Nat → Nat → Bits → Option (List Nat × Bits)
  | 0, _, b => some ([], b)
  | n + 1, width, b => do
    let (x, b) ← b.number width
    let (xs, b) ← smallNumbers n width b
    return (x :: xs, b)

/-- Appends lengths, the last one first, until there are `n`. -/
def lengths (c : Code) (n : Nat) : Nat → Bits → List Nat → Option (List Nat × Bits)
  | 0, _, _ => none
  | fuel + 1, b, found =>
    if n ≤ found.length then some (found.reverse, b)
    else do
      let (symbol, b) ← c.read b
      -- The last length three to six times, or runs of zeros, short and long.
      match symbol with
      | 16 =>
        let (more, b) ← b.number 2
        lengths c n fuel b (List.replicate (3 + more) (← found.head?) ++ found)
      | 17 =>
        let (more, b) ← b.number 3
        lengths c n fuel b (List.replicate (3 + more) 0 ++ found)
      | 18 =>
        let (more, b) ← b.number 7
        lengths c n fuel b (List.replicate (11 + more) 0 ++ found)
      | s => lengths c n fuel b (s :: found)

def codes (b : Bits) : Option (Code × Code × Bits) := do
  let (literals, b) ← b.number 5
  let (distances, b) ← b.number 5
  let (given, b) ← b.number 4
  let (small, b) ← smallNumbers (given + 4) 3 b
  let named := lengthOrder.zip small
  let c := Code.ofLengths ((List.range lengthOrder.length).map fun i => (named.lookup i).getD 0)
  let total := literals + 257 + (distances + 1)
  let (found, b) ← lengths c total (total + 1) b []
  return (.ofLengths (found.take (literals + 257)), .ofLengths (found.drop (literals + 257)), b)

def stored (b : Bits) (out : ByteArray) : Option (ByteArray × Bits) := do
  let (length, b) ← b.align.number 16
  -- The number of bytes stands there once more, with its bits turned over.
  let (_, b) ← b.number 16
  let start := b.place / 8
  if b.bytes.size < start + length then none
  else return (out ++ b.bytes.extract start (start + length), { b with place := 8 * (start + length) })

def blocks (bound : Nat) : Nat → Bits → ByteArray → Option ByteArray
  | 0, _, _ => none
  | fuel + 1, b, out => do
    let (isLast, b) ← b.number 1
    let (kind, b) ← b.number 2
    let (out, b) ← match kind with
      | 0 => stored b out
      | 1 => words fixedLiterals fixedDistances bound b out
      | 2 => do
        let (literals, distances, b) ← codes b
        words literals distances bound b out
      | _ => none
    if isLast = 1 then return out else blocks bound fuel b out

def headerSize : Nat := 2

/-- The contents of the zlib stream that starts at a byte. No word is shorter than one bit. -/
def run (bytes : ByteArray) (start : Nat) : Option ByteArray :=
  let bits := 8 * bytes.size
  blocks bits bits ⟨bytes, 8 * (start + headerSize)⟩ .empty

end CommitGraph.Inflate
