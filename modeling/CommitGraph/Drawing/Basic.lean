import CommitGraph.Graph.Basic

namespace CommitGraph

structure DrawOptions where
  /-- Long edges run through every row that they cross. -/
  longEdgesInFull : Bool
  /-- Edges that span more visible rows than this are long. -/
  threshold : Nat
  deriving DecidableEq

namespace DrawOptions

def standard : DrawOptions := ⟨false, 30⟩

/-- A shortened edge needs a row between its two stubs. -/
def leastThreshold : Nat := 2

def effectiveThreshold (o : DrawOptions) : Nat := max o.threshold leastThreshold

end DrawOptions

inductive CellKind where
  | commit
  /-- A parent outside the loaded history. -/
  | endCommit
  /-- An edge on its way through the row. -/
  | edge
  /-- What is left of a shortened edge below its upper end. -/
  | stubDown
  /-- What is left of a shortened edge above its lower end. -/
  | stubUp
  deriving DecidableEq

structure Cell where
  column : Nat
  element : Element
  kind : CellKind
  branch : BranchId
  /-- The edge leads through a folded chain. -/
  folded : Bool
  selected : Bool
  deriving DecidableEq

/-- A piece of an edge between two consecutive visible rows. -/
structure Link where
  upColumn : Nat
  downColumn : Nat
  edge : EdgeId
  branch : BranchId
  folded : Bool
  selected : Bool
  deriving DecidableEq

/-- A link that a straight line of cells does not show. -/
def Link.needsLine (l : Link) : Bool := l.upColumn ≠ l.downColumn || l.folded

structure DrawnRow where
  /-- The row of the graph that is shown. -/
  row : Nat
  cells : List Cell
  /-- Links down to the next row of the drawing. -/
  links : List Link
  deriving DecidableEq

def DrawnRow.width (r : DrawnRow) : Nat := r.cells.length

structure Drawing where
  rows : List DrawnRow
  deriving DecidableEq

namespace Drawing

def size (d : Drawing) : Nat := d.rows.length

def isEmpty (d : Drawing) : Bool := d.rows.isEmpty

def width (d : Drawing) : Nat := (d.rows.map (·.width)).max?.getD 0

def position? (d : Drawing) (row : Nat) : Option Nat := d.rows.findIdx? (·.row = row)

/-- Where rows increase, as they do in what is drawn, a row has one place. So it does not matter how
it is searched for. -/
theorem position?_eq_some_iff {d : Drawing} (hrows : (d.rows.map (·.row)).Pairwise (· < ·))
    {row i : Nat} : d.position? row = some i ↔ ∃ r, d.rows[i]? = some r ∧ r.row = row := by
  rw [position?, List.findIdx?_eq_some_iff_getElem]
  constructor
  · rintro ⟨hlt, hrow, -⟩
    exact ⟨_, List.getElem?_eq_getElem hlt, of_decide_eq_true hrow⟩
  · rintro ⟨r, hr, rfl⟩
    obtain ⟨hlt, rfl⟩ := List.getElem?_eq_some_iff.mp hr
    refine ⟨hlt, decide_eq_true rfl, fun j hj => ?_⟩
    have hless := List.pairwise_iff_getElem.mp (List.pairwise_map.mp hrows) j i (by omega) hlt hj
    simp only [decide_eq_true_eq]
    omega

def elementAt? (d : Drawing) (position column : Nat) : Option Element := do
  let r ← d.rows[position]?
  let c ← r.cells.find? (·.column = column)
  return c.element

end Drawing

end CommitGraph
