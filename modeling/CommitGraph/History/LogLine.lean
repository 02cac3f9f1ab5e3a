import CommitGraph.Bounds
import CommitGraph.Text.Blank
import CommitGraph.Text.Fields
import CommitGraph.Text.Numeral
import CommitGraph.Text.Quoted

/-!
The text log: one commit a line, `time|-hash|-parents`. The time may be empty, and `hash|-parents`
leaves it out. Blank lines and lines that start with a number sign say nothing.
-/

namespace CommitGraph

open Text

structure LogLine where
  time : Int
  hash : String
  parents : List String
  deriving DecidableEq

inductive LogError where
  | noSeparator (line : String)
  | badTime (field line : String)
  | emptyHash (line : String)
  | badReference (spec : String)
  deriving DecidableEq

def LogError.message : LogError → String
  | .noSeparator line => "separator \"|-\" not found in line: " ++ line
  | .badTime field line => "invalid timestamp " ++ quoted field ++ " in line: " ++ line
  | .emptyHash line => "empty commit hash in line: " ++ line
  | .badReference spec => "invalid reference " ++ quoted spec ++ ", expected NAME=HASH"

namespace LogLine

def separator : List Char := ['|', '-']

def readTime (line : String) (field : List Char) : Except LogError Int :=
  match trim field with
  | [] => .ok 0
  | f =>
    match readInt signedBound f with
    | some t => .ok t
    | none => .error (.badTime (String.ofList f) line)

/-- The fields of a line: time, hash, parents. -/
def fields? (line : List Char) : Option (List Char × List Char × List Char) :=
  (splitFirst separator line).map fun (first, rest) =>
    match splitFirst separator rest with
    | some (hash, parents) => (first, hash, parents)
    -- With one separator the time is left out.
    | none => ([], first, rest)

def parse (line : String) : Except LogError LogLine :=
  match fields? line.toList with
  | none => .error (.noSeparator line)
  | some (time, hash, parents) => do
    let time ← readTime line time
    match trim hash with
    | [] => .error (.emptyHash line)
    | h => .ok ⟨time, String.ofList h, (words parents).map String.ofList⟩

def isSilent : List Char → Bool
  | [] => true
  | c :: _ => c = '#'

def parseLog (text : String) : Except LogError (List LogLine) :=
  (((lines text.toList).map trim).filter (!isSilent ·)).mapM fun l => parse (String.ofList l)

end LogLine

def readReference (spec : String) : Except LogError (String × String) :=
  match splitFirst ['='] spec.toList with
  | none => .error (.badReference spec)
  | some (name, hash) =>
    match trim name, trim hash with
    | [], _ | _, [] => .error (.badReference spec)
    | n, h => .ok (String.ofList n, String.ofList h)

end CommitGraph
