import CommitGraph.Repository.Basic

namespace CommitGraph

namespace RefName

def isForbidden (c : Char) : Bool := c ≤ ' ' || "~^:\\?[*".toList.contains c

/-- Neither `..` nor `@` before an opening brace. -/
def hasForbiddenPair : List Char → Bool
  | '.' :: '.' :: _ => true
  | '@' :: '\x7b' :: _ => true
  | _ :: cs => hasForbiddenPair cs
  | [] => false

def isPart (cs : List Char) : Bool :=
  cs.head? ≠ some '.' && !cs.any isForbidden && !hasForbiddenPair cs && !".lock".toList.isSuffixOf cs

def isCapital (cs : List Char) : Bool :=
  cs.all (fun c => c.isUpper || c = '_') && cs.head? ≠ some '_' && cs.getLast? ≠ some '_'

/-- The name with single slashes, if it may name a reference. Only a capital name stands alone, and
none stands before others. -/
def normalize? (cs : List Char) : Option (List Char) :=
  let parts := cs.splitOn '/'
  let named := parts.filter (· ≠ [])
  let isPlaced := match named with
    | [] => false
    | [part] => isCapital part
    | part :: _ => !isCapital part
  if cs.head? ≠ some '/' && cs.getLast? ≠ some '/' && cs.getLast? ≠ some '.' && parts.all isPart
      && isPlaced then
    some (['/'].intercalate named)
  else none

end RefName

namespace RefTarget

def symbolicStart : List Char := "ref: ".toList

def hashLength : Nat := 40

def isHexDigit (c : Char) : Bool :=
  c.isDigit || ('a' ≤ c && c ≤ 'f') || ('A' ≤ c && c ≤ 'F')

def isSpace (c : Char) : Bool := c = ' ' || ('\t' ≤ c && c ≤ '\r')

/-- What a file refers to: after `ref: ` the reference of that name, or the object of a hash. -/
def read? (contents : String) : Option RefTarget :=
  let cs := contents.toList
  match Text.after? symbolicStart cs with
  | some name =>
    (RefName.normalize? (name.reverse.dropWhile isSpace).reverse).map fun name =>
      .symbolic (String.ofList name)
  | none =>
    let hash := cs.take hashLength
    if hash.length = hashLength && hash.all isHexDigit && (cs.drop hashLength).head?.all isSpace then
      some (.object (String.ofList (hash.map Char.toLower)))
    else none

/-- The references in a file of packed ones, a hash and a name on each line. Other lines say more
about them. -/
def packed (contents : String) : List (String × RefTarget) :=
  (contents.toList.splitOn '\n').filterMap fun l => do
    let (hash, name) ← Text.splitFirst [' '] l
    if hash.length = hashLength && hash.all isHexDigit then
      return (String.ofList name, .object (String.ofList hash))
    else none

end RefTarget

end CommitGraph
