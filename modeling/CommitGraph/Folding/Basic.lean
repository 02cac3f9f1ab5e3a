import CommitGraph.Graph.Basic

namespace CommitGraph

structure Folding where
  /-- Hidden or not, row by row. -/
  hidden : Array Bool
  deriving DecidableEq

namespace Folding

def unfolded (rows : Nat) : Folding := ⟨Array.replicate rows false⟩

def size (f : Folding) : Nat := f.hidden.size

/-- Rows that the folding does not know are visible. -/
def isVisible (f : Folding) (row : Nat) : Bool := !f.hidden[row]?.getD false

def isNodeVisible (f : Folding) (g : Graph) (n : NodeId) : Bool := f.isVisible (g.rowOf n)

def setHidden (f : Folding) (hide : Bool) (row : Nat) : Folding :=
  ⟨f.hidden.setIfInBounds row hide⟩

def visibleRows (f : Folding) : List Nat := (List.range f.size).filter f.isVisible

def hiddenCount (f : Folding) : Nat := f.hidden.toList.countP (· = true)

/-- How many visible rows stand above a row. -/
def visibleAbove (f : Folding) (row : Nat) : Nat := (List.range row).countP f.isVisible

/-- The place, among the visible rows, of the lowest one that is not below `row`. -/
def position? (f : Folding) (row : Nat) : Option Nat :=
  (((List.range f.size).take (row + 1)).filter f.isVisible).getLast?.map f.visibleAbove

end Folding

/-- A range of rows, both ends included. -/
structure RowSpan where
  first : Nat
  last : Nat
  first_le_last : first ≤ last
  deriving DecidableEq

namespace RowSpan

def between (a b : Nat) : RowSpan := ⟨min a b, max a b, by omega⟩

/-- All rows of a graph; one row even where there is none. -/
def all (rows : Nat) : RowSpan := between 0 (rows - 1)

def has (s : RowSpan) (row : Nat) : Bool := s.first ≤ row && row ≤ s.last

end RowSpan

end CommitGraph
