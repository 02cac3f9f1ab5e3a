import CommitGraph.Bounds
import CommitGraph.Drawing.Basic
import CommitGraph.Drawing.Style

namespace CommitGraph

structure Mark where
  char : Char
  color : Color
  bold : Bool
  deriving DecidableEq

def Mark.blank : Mark := ⟨' ', .default, false⟩

/-- The characters of a mark, and around them, in colour, the control sequences that a visible mark
needs. -/
def Mark.text (colored : Bool) (m : Mark) : List Char :=
  if colored && m.char ≠ ' ' then
    (if m.bold then Color.bold else []) ++ m.color.ansi ++ m.char :: Color.default.ansi
  else [m.char]

structure Style where
  charset : Charset
  colored : Bool
  deriving DecidableEq

def Cell.glyph (g : Glyphs) (c : Cell) : Char :=
  match c.kind with
  | .commit => g.commit
  | .endCommit => g.endCommit
  | .edge => if c.folded then g.foldedEdge else g.edge
  | .stubDown => g.stubDown
  | .stubUp => g.stubUp

def Cell.mark (g : Glyphs) (c : Cell) : Mark := ⟨c.glyph g, .ofBranch c.branch, c.selected⟩

/-- The glyph that a link shows at place `x` of the connector line. A link that changes its column
starts or ends beside the upper cell and runs level to the lower one. -/
def Link.glyphAt? (g : Glyphs) (l : Link) (x : Nat) : Option Char :=
  -- In a cell's two places the glyph stands first, and the oblique stroke takes the second one.
  let up := 2 * l.upColumn
  let down := 2 * l.downColumn
  if up = down then
    if x = up then some (if l.folded then g.foldedEdge else g.edge) else none
  else if down < up then
    if x + 1 = up then some g.slash
    else if down < x ∧ x + 1 < up then some g.horizontal
    else none
  else
    if x = up + 1 then some g.backslash
    else if up + 1 < x ∧ x < down then some g.horizontal
    else none

def Link.paint (g : Glyphs) (line : List Mark) (l : Link) : List Mark :=
  line.mapIdx fun x m =>
    match l.glyphAt? g x with
    | some c => ⟨c, .ofBranch l.branch, l.selected⟩
    | none => m

namespace DrawnRow

/-- A line with room for `width` cells and for those of the row, each a glyph and a space. -/
def blankLine (r : DrawnRow) (width : Nat) : List Mark :=
  List.replicate (2 * max width r.width) .blank

/-- The line of a row's cells, unless one of them lies outside it. -/
def line? (g : Glyphs) (width : Nat) (r : DrawnRow) : Option (List Mark) :=
  if r.cells.all fun c => c.column < max width r.width then
    some (r.cells.foldl (fun line c => line.set (2 * c.column) (c.mark g)) (r.blankLine width))
  else none

/-- The line below a row, if it needs one; later links are drawn over earlier ones. -/
def connector? (g : Glyphs) (width : Nat) (r : DrawnRow) : Option (List Mark) :=
  if r.links.any (·.needsLine) then some (r.links.foldl (Link.paint g) (r.blankLine width)) else none

/-- A line of so many cells can be held in memory. -/
def fits (cells : Nat) : Bool := 16 * cells < signedBound

/-- The line of cells for any width asked for; there is none if it cannot be held. -/
def requestLine (g : Glyphs) (width : Nat) (r : DrawnRow) : Option (List Mark) :=
  if fits (max width r.width) then r.line? g width else none

/-- The connector line for any width and any links; it fails if it cannot be held or if the place
of a link is beyond 64 bits. -/
def requestConnector (g : Glyphs) (width : Nat) (r : DrawnRow) : Option (Option (List Mark)) :=
  if !r.links.any (·.needsLine) then some none
  else if fits (max width r.width)
      && r.links.all (fun l => 2 * max l.upColumn l.downColumn < unsignedBound) then
    some (r.connector? g width)
  else none

end DrawnRow

def dropSpaces (cs : List Char) : List Char := (cs.reverse.dropWhile (· = ' ')).reverse

def lineText (colored : Bool) (line : List Mark) : List Char := line.flatMap (Mark.text colored)

namespace Drawing

def rowLines (s : Style) (width : Nat) (label : String) (r : DrawnRow) : Option (List (List Char)) :=
  (r.line? s.charset.glyphs width).map fun line =>
    dropSpaces (lineText s.colored line ++ ' ' :: label.toList) ::
      (r.connector? s.charset.glyphs width).toList.map fun c => dropSpaces (lineText s.colored c)

def lines (s : Style) (label : DrawnRow → String) (d : Drawing) : Option (List (List Char)) :=
  (d.rows.mapM fun r => rowLines s d.width (label r) r).map List.flatten

def render (s : Style) (label : DrawnRow → String) (d : Drawing) : Option String :=
  (d.lines s label).map fun ls => String.ofList (ls.flatMap (· ++ ['\n']))

end Drawing

end CommitGraph
