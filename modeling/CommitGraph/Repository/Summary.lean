namespace CommitGraph

namespace Summary

def isSpace (c : Char) : Bool :=
  c = ' ' || c = '\t' || c = '\n' || c = '\x0b' || c = '\x0c' || c = '\r'

/-- After a line feed the paragraph ends where the message does, or at a line of spaces. -/
def endsParagraph (afterLineFeed : List Char) : Bool :=
  match afterLineFeed.dropWhile fun c => isSpace c && c ≠ '\n' with
  | [] => true
  | c :: _ => c = '\n'

/-- A run of spaces, given backwards; a run with a line feed in it becomes one space. -/
def gap (run : List Char) : List Char := if '\n' ∈ run then [' '] else run.reverse

def paragraph (run : List Char) : List Char → List Char
  | [] => []
  | c :: cs =>
    if c = '\n' && endsParagraph cs then []
    else if isSpace c then paragraph (c :: run) cs
    else gap run ++ c :: paragraph [] cs

/-- The first paragraph on one line. Line feeds at the start do not count. -/
def ofMessage (message : String) : String :=
  String.ofList (paragraph [] (message.toList.dropWhile (· = '\n')))

end Summary

end CommitGraph
