import CommitGraph.Text.Extend
import CommitGraph.Text.Unprintable

namespace CommitGraph.Text

/-- A lone mark would attach to the quote before it, so it is shown by number too. -/
def isHidden (c : Char) : Bool := graphemeExtend.has c || unprintable.has c

def escape (c : Char) : List Char :=
  match c with
  | '\t' => ['\\', 't']
  | '\r' => ['\\', 'r']
  | '\n' => ['\\', 'n']
  | '\x00' => ['\\', '0']
  | '"' => ['\\', '"']
  | '\\' => ['\\', '\\']
  | _ =>
    if isHidden c then ['\\', 'u', '\x7b'] ++ Nat.toDigits 16 c.toNat ++ ['\x7d'] else [c]

def quoted (s : String) : String :=
  String.ofList ('"' :: s.toList.flatMap escape ++ ['"'])

end CommitGraph.Text
