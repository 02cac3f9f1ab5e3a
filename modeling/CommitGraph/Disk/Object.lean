import CommitGraph.Bounds
import CommitGraph.Repository.Basic
import CommitGraph.Text.Blank
import CommitGraph.Text.Numeral

namespace CommitGraph.StoredObject

open Text

def charsOfBytes (bytes : ByteArray) : List Char := bytes.toList.map fun b => Char.ofNat b.toNat

def bytesOfChars (cs : List Char) : ByteArray := ⟨(cs.map fun c => c.toNat.toUInt8).toArray⟩

def fields (name : String) (header : List (List Char)) : List (List Char) :=
  header.filterMap (after? (name ++ " ").toList)

/-- The time after a name and an address in angle brackets; zero if it cannot be read. -/
def signatureTime (field : List Char) : Int :=
  let tail := (field.reverse.takeWhile (· ≠ '>')).reverse
  ((words tail).head?.bind (readInt signedBound)).getD 0

def headerAndText (cs : List Char) : List (List Char) × List Char :=
  match splitFirst ['\n', '\n'] cs with
  | some (header, text) => (lines header, text)
  | none => (lines cs, [])

/-- A commit whose lines are read as one character for each byte; its message is UTF-8. -/
def commitOfChars (cs : List Char) : StoredCommit :=
  let (header, message) := headerAndText cs
  ⟨(fields "parent" header).map String.ofList,
    ((fields "committer" header).head?.map signatureTime).getD 0,
    (String.fromUTF8? (bytesOfChars message)).getD ""⟩

inductive Kind where
  | commit
  | tag
  | other
  deriving DecidableEq

def ofKind (kind : Kind) (contents : ByteArray) : StoredObject :=
  match kind with
  | .commit => .commit (commitOfChars (charsOfBytes contents))
  | .tag =>
    match fields "object" (headerAndText (charsOfBytes contents)).1 with
    | hash :: _ => .tag (String.ofList hash)
    | [] => .other
  | .other => .other

/-- An object in a file of its own: kind, size, a zero byte, and the contents. -/
def ofFile? (bytes : ByteArray) : Option StoredObject :=
  (splitFirst ['\x00'] ((charsOfBytes (bytes.extract 0 32)))).map fun (head, _) =>
    let kind := match (words head).head?.map String.ofList with
      | some "commit" => .commit
      | some "tag" => .tag
      | _ => .other
    ofKind kind (bytes.extract (head.length + 1) bytes.size)

end CommitGraph.StoredObject
