import CommitGraph.Graph.Basic

namespace CommitGraph

structure Selection where
  elements : List Element
  nodup : elements.Nodup

namespace Selection

def none : Selection := ⟨[], List.nodup_nil⟩

def insert (s : Selection) (el : Element) : Selection :=
  if h : el ∈ s.elements then s else ⟨el :: s.elements, List.nodup_cons.2 ⟨h, s.nodup⟩⟩

def ofList (els : List Element) : Selection := els.foldl insert none

def has (s : Selection) (el : Element) : Bool := s.elements.contains el

def size (s : Selection) : Nat := s.elements.length

def isEmpty (s : Selection) : Bool := s.elements.isEmpty

theorem mem_insert {s : Selection} {el x : Element} :
    x ∈ (s.insert el).elements ↔ x = el ∨ x ∈ s.elements := by
  unfold insert
  split
  · constructor
    · exact Or.inr
    · rintro (rfl | h) <;> assumption
  · simp

theorem mem_foldl_insert {els : List Element} {s : Selection} {x : Element} :
    x ∈ (els.foldl insert s).elements ↔ x ∈ s.elements ∨ x ∈ els := by
  induction els generalizing s with
  | nil => simp
  | cons el els ih => simp [ih, mem_insert, or_assoc, or_comm, or_left_comm]

theorem has_ofList {els : List Element} {x : Element} :
    (ofList els).has x = true ↔ x ∈ els := by
  simp [ofList, has, mem_foldl_insert, none]

end Selection

end CommitGraph
