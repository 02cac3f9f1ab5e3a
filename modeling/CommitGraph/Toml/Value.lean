namespace CommitGraph.Toml

/-- How a table came to be, which decides what may still be added to it. -/
inductive Origin where
  /-- By its own header, or as an element of an array of tables. -/
  | header
  /-- By a longer header. -/
  | implied
  /-- By a dotted key. -/
  | dotted
  /-- As a value in braces, which nothing may be added to. -/
  | inline
  deriving DecidableEq

inductive Value where
  | boolean (b : Bool)
  | integer (i : Int)
  | float
  | dateTime
  | string (s : String)
  | array (vs : List Value)
  | table (entries : List (String × Value)) (origin : Origin)
  /-- An array of tables made by headers, last table first. -/
  | tables (ts : List (List (String × Value)))

structure Table where
  entries : List (String × Value)
  origin : Origin

namespace Table

def find? (t : Table) (key : String) : Option Value := t.entries.lookup key

def set (t : Table) (key : String) (v : Value) : Table :=
  { t with entries := (t.entries.filter (·.1 ≠ key)) ++ [(key, v)] }

def value (t : Table) : Value := .table t.entries t.origin

/-- Applies `f` to the table at a path, making the missing tables on the way. A dotted key does not
lead into a table with a header of its own. -/
def update (missing : Origin) (f : Table → Option Table) : List String → Table → Option Table
  | [], t => f t
  | k :: ks, t =>
    match t.find? k with
    | none => (update missing f ks ⟨[], missing⟩).map fun c => t.set k c.value
    | some (.table es o) =>
      if o = .inline ∨ (missing = .dotted ∧ o = .header) then none
      else (update missing f ks ⟨es, o⟩).map fun c => t.set k c.value
    -- What goes into an array of tables goes into its last one.
    | some (.tables (es :: rest)) =>
      (update missing f ks ⟨es, .header⟩).map fun c => t.set k (.tables (c.entries :: rest))
    | some _ => none

def insert (key : String) (v : Value) (t : Table) : Option Table :=
  match t.find? key with
  | none => some (t.set key v)
  | some _ => none

/-- A key with a value. Before a dot only tables begun by dotted keys may stand. -/
def insertAt (path : List String) (key : String) (v : Value) (t : Table) : Option Table :=
  update .dotted
    (fun u => if path = [] ∨ u.origin = .dotted then u.insert key v else none) path t

/-- The header of a table, which may have been implied by a longer header but by nothing else. -/
def define (key : String) (t : Table) : Option Table :=
  match t.find? key with
  | none => some (t.set key (.table [] .header))
  | some (.table es .implied) => some (t.set key (.table es .header))
  | some _ => none

def defineElement (key : String) (t : Table) : Option Table :=
  match t.find? key with
  | none => some (t.set key (.tables [[]]))
  | some (.tables ts) => some (t.set key (.tables ([] :: ts)))
  | some _ => none

end Table

end CommitGraph.Toml
