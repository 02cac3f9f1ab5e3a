import CommitGraph.Text.Ranges

namespace CommitGraph.Text

/-- The property White_Space. -/
def blank : Ranges :=
  [(0x9, 0xd), (0x20, 0x20), (0x85, 0x85), (0xa0, 0xa0), (0x1680, 0x1680), (0x2000, 0x200a),
   (0x2028, 0x2029), (0x202f, 0x202f), (0x205f, 0x205f), (0x3000, 0x3000)]

def isBlank (c : Char) : Bool := blank.has c

def trimEnd (cs : List Char) : List Char := (cs.reverse.dropWhile isBlank).reverse

def trim (cs : List Char) : List Char := trimEnd (cs.dropWhile isBlank)

def words (cs : List Char) : List (List Char) := (cs.splitOnP isBlank).filter (· ≠ [])

def dropReturn (l : List Char) : List Char := if l.getLast? = some '\r' then l.dropLast else l

/-- A line ends with a line feed, which may follow a carriage return. The last one may lack its end,
and then a carriage return stays. -/
def lines (cs : List Char) : List (List Char) :=
  let pieces := cs.splitOn '\n'
  -- Nothing follows a final line feed, so an empty last piece is no line.
  pieces.dropLast.map dropReturn ++ (pieces.getLast?.filter (· ≠ [])).toList

end CommitGraph.Text
