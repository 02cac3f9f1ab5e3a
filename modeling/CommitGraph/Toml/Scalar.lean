import CommitGraph.Bounds
import CommitGraph.Toml.Value

namespace CommitGraph.Toml

/-- The digits of a run in which single underscores may part digits. -/
def ungroup (isDigit : Char → Bool) : List Char → Option (List Char)
  | [] => none
  | [d] => if isDigit d then some [d] else none
  | d :: '_' :: cs => if isDigit d then (ungroup isDigit cs).map (d :: ·) else none
  | d :: cs => if isDigit d then (ungroup isDigit cs).map (d :: ·) else none

def digitValue (c : Char) : Nat :=
  if c.isDigit then c.toNat - '0'.toNat
  else if 'a' ≤ c ∧ c ≤ 'f' then c.toNat - 'a'.toNat + 10
  else c.toNat - 'A'.toNat + 10

def isBaseDigit (base : Nat) (c : Char) : Bool :=
  (c.isDigit || ('a' ≤ c && c ≤ 'f') || ('A' ≤ c && c ≤ 'F')) && digitValue c < base

def natOfDigits (base : Nat) (ds : List Char) : Nat :=
  ds.foldl (fun n d => base * n + digitValue d) 0

def sign : List Char → Bool × List Char
  | '-' :: cs => (true, cs)
  | '+' :: cs => (false, cs)
  | cs => (false, cs)

def wholeDigits (cs : List Char) : Option (List Char) :=
  (ungroup Char.isDigit cs).filter fun ds => ds.head? ≠ some '0' || ds.length = 1

def inBase (base : Nat) (cs : List Char) : Option Int :=
  ((ungroup (isBaseDigit base) cs).map (natOfDigits base)).bind fun n =>
    if n < signedBound then some (n : Int) else none

def integer? (cs : List Char) : Option Int :=
  match cs with
  | '0' :: 'x' :: ds => inBase 16 ds
  | '0' :: 'o' :: ds => inBase 8 ds
  | '0' :: 'b' :: ds => inBase 2 ds
  | _ =>
    let (negative, ds) := sign cs
    (wholeDigits ds).bind fun ds =>
      let n := natOfDigits 10 ds
      if negative then if n ≤ signedBound then some (-n) else none
      else if n < signedBound then some n else none

/-- `m * 10 ^ e` lies above every 64-bit float, rounded to nearest. -/
def overflows (m : Nat) (e : Int) : Bool :=
  -- Half-way between the greatest float and the power of two above it.
  let limit := 1 <<< 1024 - 1 <<< 970
  -- Powers of ten are computed only where the answer is not clear without them.
  if m = 0 then false
  else if 400 < e then true
  else if 0 ≤ e then limit ≤ m * Nat.pow 10 e.toNat
  else if 400 + (Nat.toDigits 10 m).length < -e then false
  else limit * Nat.pow 10 (-e).toNat ≤ m

def isExponentMark (c : Char) : Bool := c = 'e' || c = 'E'

/-- The exponent after its mark; without a mark it is zero. -/
def exponent? : List Char → Option Int
  | [] => some 0
  | _ :: cs =>
    let (negative, ds) := sign cs
    (ungroup Char.isDigit ds).map fun ds =>
      let n : Int := natOfDigits 10 ds
      if negative then -n else n

/-- A float other than infinity and its like: whole digits with a fraction, an exponent or both. -/
def isFloat (cs : List Char) : Bool :=
  let (negative, cs) := sign cs
  let whole := cs.takeWhile fun c => c ≠ '.' && !isExponentMark c
  let rest := cs.drop whole.length
  let (fraction, power) := match rest with
    | '.' :: rest =>
      let f := rest.takeWhile (!isExponentMark ·)
      (ungroup Char.isDigit f, rest.drop f.length)
    | _ => (some [], rest)
  match wholeDigits whole, fraction, exponent? power with
  | some w, some f, some e =>
    rest ≠ [] && (negative || !overflows (natOfDigits 10 (w ++ f)) (e - f.length))
  | _, _, _ => false

def isNamedFloat (cs : List Char) : Bool :=
  let name := (sign cs).2
  name = ['i', 'n', 'f'] || name = ['n', 'a', 'n']

def digits? (n : Nat) (cs : List Char) : Option (Nat × List Char) :=
  let ds := cs.take n
  if ds.length = n ∧ ds.all Char.isDigit then some (natOfDigits 10 ds, cs.drop n) else none

def two? (lo hi : Nat) (cs : List Char) : Option (Nat × List Char) :=
  (digits? 2 cs).filter fun (n, _) => lo ≤ n && n ≤ hi

def char? (c : Char) : List Char → Option (List Char)
  | d :: cs => if d = c then some cs else none
  | [] => none

def monthLength (year month : Nat) : Nat :=
  if month = 2 then if year % 4 = 0 ∧ (year % 100 ≠ 0 ∨ year % 400 = 0) then 29 else 28
  else if month = 4 ∨ month = 6 ∨ month = 9 ∨ month = 11 then 30
  else 31

def afterDate? (cs : List Char) : Option (List Char) := do
  let (year, cs) ← digits? 4 cs
  let cs ← char? '-' cs
  let (month, cs) ← two? 1 12 cs
  let cs ← char? '-' cs
  let (_, cs) ← two? 1 (monthLength year month) cs
  return cs

/-- What follows a time of day. The second may be a leap second. -/
def afterTime? (cs : List Char) : Option (List Char) := do
  let (_, cs) ← two? 0 23 cs
  let cs ← char? ':' cs
  let (_, cs) ← two? 0 59 cs
  let cs ← char? ':' cs
  let (_, cs) ← two? 0 60 cs
  match cs with
  | '.' :: cs => if (cs.takeWhile Char.isDigit) = [] then none else some (cs.dropWhile Char.isDigit)
  | _ => some cs

def isOffset (cs : List Char) : Bool :=
  match cs with
  | [] | ['Z'] | ['z'] => true
  | s :: cs =>
    (s = '+' || s = '-') &&
      (do
        let (_, cs) ← two? 0 23 cs
        let cs ← char? ':' cs
        let (_, cs) ← two? 0 59 cs
        return cs) = some []

def isDateTime (cs : List Char) : Bool :=
  match afterDate? cs with
  | some [] => true
  | some (d :: cs) => (d = 'T' || d = 't' || d = ' ') && (afterTime? cs).any isOffset
  | none => afterTime? cs = some []

def scalar? (cs : List Char) : Option Value :=
  if cs = "true".toList then some (.boolean true)
  else if cs = "false".toList then some (.boolean false)
  else match integer? cs with
    | some i => some (.integer i)
    | none =>
      if isFloat cs || isNamedFloat cs then some .float
      else if isDateTime cs then some .dateTime
      else none

def isScalarChar (c : Char) : Bool :=
  c.isAlphanum || c = '+' || c = '-' || c = '_' || c = '.' || c = ':'

/-- The characters of a bare value, and the rest. A space may part a date from a time. -/
def scalarSpan (cs : List Char) : List Char × List Char :=
  let token := cs.takeWhile isScalarChar
  let rest := cs.drop token.length
  match afterDate? token, rest with
  | some [], ' ' :: d :: more =>
    if d.isDigit then
      let time := (d :: more).takeWhile isScalarChar
      (token ++ ' ' :: time, (d :: more).drop time.length)
    else (token, rest)
  | _, _ => (token, rest)

end CommitGraph.Toml
