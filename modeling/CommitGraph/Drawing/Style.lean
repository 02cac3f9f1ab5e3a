import CommitGraph.Graph.Basic

namespace CommitGraph

inductive Charset where
  | utf8 | ascii
  deriving DecidableEq

structure Glyphs where
  commit : Char
  endCommit : Char
  edge : Char
  foldedEdge : Char
  stubDown : Char
  stubUp : Char
  /-- Down to the left. -/
  slash : Char
  /-- Down to the right. -/
  backslash : Char
  horizontal : Char
  deriving DecidableEq

def Charset.glyphs : Charset → Glyphs
  | .utf8 =>
    { commit := '●', endCommit := '○', edge := '│', foldedEdge := '┆', stubDown := '↓'
      stubUp := '↑', slash := '╱', backslash := '╲', horizontal := '─' }
  | .ascii =>
    { commit := '*', endCommit := 'o', edge := '|', foldedEdge := ':', stubDown := 'v'
      stubUp := '^', slash := '/', backslash := '\\', horizontal := '_' }

inductive Color where
  | default | red | green | yellow | blue | magenta | cyan
  deriving DecidableEq

namespace Color

def sequence (n : Nat) : List Char := '\x1b' :: '[' :: Nat.toDigits 10 n ++ ['m']

def code : Color → Nat
  | .default => 0
  | .red => 31
  | .green => 32
  | .yellow => 33
  | .blue => 34
  | .magenta => 35
  | .cyan => 36

def ansi (c : Color) : List Char := sequence c.code

def bold : List Char := sequence 1

def ofBranch (b : BranchId) : Color :=
  match b % 6 with
  | 0 => .blue
  | 1 => .green
  | 2 => .red
  | 3 => .yellow
  | 4 => .magenta
  | _ => .cyan

end Color

end CommitGraph
