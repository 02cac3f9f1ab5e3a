import CommitGraph.Toml.Quotation
import CommitGraph.Toml.Scalar

namespace CommitGraph.Toml

/-- Arrays, tables in braces and dotted keys go less deep than this. -/
def depthLimit : Nat := 80

def skipSpaces (cs : List Char) : List Char := cs.dropWhile isSpace

def isCommentChar (c : Char) : Bool := isTextChar c

def skipComment : List Char → List Char
  | '#' :: cs => cs.dropWhile isCommentChar
  | cs => cs

def nextLine? (cs : List Char) : Option (List Char) :=
  match skipComment (skipSpaces cs) with
  | [] => some []
  | cs => afterNewline? cs

/-- Spaces, comments and line ends, in at most `fuel` lines. A comment must end with its line. -/
def skipBlank : Nat → List Char → Option (List Char)
  | 0, cs => some cs
  | fuel + 1, cs =>
    match skipSpaces cs with
    | '#' :: cs => (afterNewline? (skipComment ('#' :: cs))).bind (skipBlank fuel)
    | cs =>
      match afterNewline? cs with
      | some rest => skipBlank fuel rest
      | none => some cs

def isBareKeyChar (c : Char) : Bool := c.isAlphanum || c = '-' || c = '_'

def simpleKey (cs : List Char) : Option (String × List Char) :=
  match cs with
  | '"' :: cs => (basic (cs.length + 1) cs).map fun (s, rest) => (String.ofList s, rest)
  | '\'' :: cs => (literal cs).map fun (s, rest) => (String.ofList s, rest)
  | cs =>
    match cs.takeWhile isBareKeyChar with
    | [] => none
    | k => some (String.ofList k, cs.drop k.length)

def keyParts : Nat → List Char → Option (List String × List Char)
  | 0, _ => none
  | fuel + 1, cs => do
    let (k, cs) ← simpleKey (skipSpaces cs)
    match skipSpaces cs with
    | '.' :: cs => (keyParts fuel cs).map fun (ks, rest) => (k :: ks, rest)
    | cs => some ([k], cs)

/-- A key: the path to its table, and its last part. -/
def key (cs : List Char) : Option (List String × String × List Char) := do
  let (parts, rest) ← keyParts (depthLimit - 1) cs
  let last ← parts.getLast?
  return (parts.dropLast, last, rest)

def elements (value : List Char → Option (Value × List Char)) :
    Nat → List Char → Option (List Value × List Char)
  | 0, _ => none
  | fuel + 1, cs => do
    -- A comma may stand after the last value.
    match ← skipBlank cs.length cs with
    | ']' :: rest => return ([], rest)
    | cs =>
      let (v, cs) ← value cs
      match ← skipBlank cs.length cs with
      | ']' :: rest => return ([v], rest)
      | ',' :: cs => (elements value fuel cs).map fun (vs, rest) => (v :: vs, rest)
      | _ => none

def keyValue (value : List Char → Option (Value × List Char)) (cs : List Char) :
    Option ((List String × String × Value) × List Char) := do
  let (path, k, cs) ← key cs
  match cs with
  | '=' :: cs =>
    let (v, rest) ← value (skipSpaces cs)
    return ((path, k, v), rest)
  | _ => none

def members (value : List Char → Option (Value × List Char)) :
    Nat → Table → List Char → Option (Table × List Char)
  | 0, _, _ => none
  | fuel + 1, t, cs => do
    let ((path, k, v), cs) ← keyValue value cs
    let t ← t.insertAt path k v
    match skipSpaces cs with
    | '\x7d' :: rest => return (t, rest)
    | ',' :: cs => members value fuel t cs
    | _ => none

def simpleValue (cs : List Char) : Option (Value × List Char) :=
  match cs with
  | '"' :: _ | '\'' :: _ => (string? cs).map fun (s, rest) => (.string s, rest)
  | _ =>
    let (token, rest) := scalarSpan cs
    (scalar? token).map fun v => (v, rest)

/-- A value with at most `depth` levels of brackets and braces. -/
def value : Nat → List Char → Option (Value × List Char)
  | depth + 1, '[' :: cs =>
    (elements (value depth) (cs.length + 1) cs).map fun (vs, rest) => (.array vs, rest)
  | depth + 1, '\x7b' :: cs =>
    match skipSpaces cs with
    | '\x7d' :: rest => some (.table [] .inline, rest)
    | cs => (members (value depth) (cs.length + 1) ⟨[], .inline⟩ cs).map fun (t, rest) =>
      (t.value, rest)
  | _, cs => simpleValue cs

structure Reading where
  root : Table
  /-- The table that keys go into. -/
  path : List String

namespace Reading

def header (r : Reading) (element : Bool) (path : List String) (k : String) : Option Reading :=
  (r.root.update .implied (if element then Table.defineElement k else Table.define k) path).map
    fun root => ⟨root, path ++ [k]⟩

def entry (r : Reading) (path : List String) (k : String) (v : Value) : Option Reading :=
  (r.root.update .implied (Table.insertAt path k v) r.path).map fun root => ⟨root, r.path⟩

def line (r : Reading) (cs : List Char) : Option (Reading × List Char) := do
  match cs with
  | '[' :: '[' :: cs =>
    let (path, k, cs) ← key cs
    match cs with
    | ']' :: ']' :: cs => return (← r.header true path k, ← nextLine? cs)
    | _ => none
  | '[' :: cs =>
    let (path, k, cs) ← key cs
    match cs with
    | ']' :: cs => return (← r.header false path k, ← nextLine? cs)
    | _ => none
  | cs =>
    let ((path, k, v), cs) ← keyValue (value (depthLimit - 1)) cs
    return (← r.entry path k v, ← nextLine? cs)

def lines : Nat → Reading → List Char → Option Table
  | 0, _, _ => none
  | fuel + 1, r, cs =>
    match skipSpaces cs with
    | [] => some r.root
    | '#' :: cs => (nextLine? ('#' :: cs)).bind (lines fuel r)
    | cs =>
      match afterNewline? cs with
      | some rest => lines fuel r rest
      | none => do
        let (r, rest) ← r.line cs
        lines fuel r rest

end Reading

/-- The table that a document describes; what is wrong with a text that is none is not told. A byte
order mark may stand before it. -/
def parse? (text : String) : Option Table :=
  let cs := match text.toList with
    | '\ufeff' :: cs => cs
    | cs => cs
  Reading.lines (cs.length + 1) ⟨⟨[], .header⟩, []⟩ cs

end CommitGraph.Toml
