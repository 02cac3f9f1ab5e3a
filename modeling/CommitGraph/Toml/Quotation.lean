namespace CommitGraph.Toml

def isTextChar (c : Char) : Bool := c = '\t' || (' ' ≤ c && c ≠ '\x7f')

def isSpace (c : Char) : Bool := c = ' ' || c = '\t'

def afterNewline? : List Char → Option (List Char)
  | '\n' :: cs => some cs
  | '\r' :: '\n' :: cs => some cs
  | _ => none

def hexValue? (c : Char) : Option Nat :=
  if c.isDigit then some (c.toNat - '0'.toNat)
  else if 'a' ≤ c ∧ c ≤ 'f' then some (c.toNat - 'a'.toNat + 10)
  else if 'A' ≤ c ∧ c ≤ 'F' then some (c.toNat - 'A'.toNat + 10)
  else none

/-- The character with the code in the first `n` characters, which are hexadecimal digits. -/
def codePoint? (n : Nat) (cs : List Char) : Option (Char × List Char) :=
  match (cs.take n).mapM hexValue? with
  | some ds =>
    let code := ds.foldl (fun m d => 16 * m + d) 0
    if ds.length = n ∧ code.isValidChar then some (Char.ofNat code, cs.drop n) else none
  | none => none

/-- The character that an escape stands for; the backslash has been read. -/
def escape? : List Char → Option (Char × List Char)
  | 'b' :: cs => some ('\x08', cs)
  | 't' :: cs => some ('\t', cs)
  | 'n' :: cs => some ('\n', cs)
  | 'f' :: cs => some ('\x0c', cs)
  | 'r' :: cs => some ('\r', cs)
  | '"' :: cs => some ('"', cs)
  | '\\' :: cs => some ('\\', cs)
  | 'u' :: cs => codePoint? 4 cs
  | 'U' :: cs => codePoint? 8 cs
  | _ => none

def basic : Nat → List Char → Option (List Char × List Char)
  | 0, _ => none
  | _, [] => none
  | _, '"' :: cs => some ([], cs)
  | fuel + 1, '\\' :: cs => do
    let (c, cs) ← escape? cs
    let (s, rest) ← basic fuel cs
    return (c :: s, rest)
  | fuel + 1, c :: cs =>
    if isTextChar c then (basic fuel cs).map fun (s, rest) => (c :: s, rest) else none

def literal : List Char → Option (List Char × List Char)
  | [] => none
  | '\'' :: cs => some ([], cs)
  | c :: cs => if isTextChar c then (literal cs).map fun (s, rest) => (c :: s, rest) else none

def skipLines : Nat → List Char → List Char
  | 0, cs => cs
  | fuel + 1, cs =>
    let cs := cs.dropWhile isSpace
    match afterNewline? cs with
    | some rest => skipLines fuel rest
    | none => cs

/-- Closing quotes: three close the string, and one or two right before them belong to it. -/
def closing (quote : Char) (cs : List Char) : Option (List Char × List Char) :=
  let run := (cs.takeWhile (· = quote)).take 5
  if 3 ≤ run.length then some (run.drop 3, cs.drop run.length) else none

def multiline (quote : Char) (escapes : Bool) : Nat → List Char → Option (List Char × List Char)
  | 0, _ => none
  | _, [] => none
  | fuel + 1, c :: cs =>
    match closing quote (c :: cs), afterNewline? (c :: cs) with
    | some done, _ => some done
    | none, some rest => (multiline quote escapes fuel rest).map fun (s, rest) => ('\n' :: s, rest)
    | none, none =>
      if c = '\\' && escapes then
        -- A backslash at the end of a line swallows blanks up to the next visible character.
        match afterNewline? (cs.dropWhile isSpace) with
        | some rest => multiline quote escapes fuel (skipLines rest.length rest)
        | none => do
          let (c, cs) ← escape? cs
          let (s, rest) ← multiline quote escapes fuel cs
          return (c :: s, rest)
      else if isTextChar c then
        (multiline quote escapes fuel cs).map fun (s, rest) => (c :: s, rest)
      else none

/-- A line end right after the opening quotes is dropped. -/
def afterOpening (cs : List Char) : List Char := (afterNewline? cs).getD cs

def string? (cs : List Char) : Option (String × List Char) :=
  (match cs with
  | '"' :: '"' :: '"' :: cs => multiline '"' true (cs.length + 1) (afterOpening cs)
  | '\'' :: '\'' :: '\'' :: cs => multiline '\'' false (cs.length + 1) (afterOpening cs)
  | '"' :: cs => basic (cs.length + 1) cs
  | '\'' :: cs => literal cs
  | _ => none).map fun (s, rest) => (String.ofList s, rest)

end CommitGraph.Toml
