import CommitGraph.Drawing.Basic
import CommitGraph.Drawing.Style
import CommitGraph.Toml.Document

namespace CommitGraph

structure Settings where
  drawing : DrawOptions
  foldOnLoad : Bool
  charset : Charset
  colored : Bool
  /-- Columns for the label of a row. -/
  labelWidth : Nat
  deriving DecidableEq

inductive SettingsError where
  /-- No TOML document, or a setting with a value of another type. -/
  | unreadable
  | thresholdTooSmall (n : Nat)
  deriving DecidableEq

def SettingsError.message? : SettingsError → Option String
  | .unreadable => none
  | .thresholdTooSmall n =>
    some ("print.long_edge_threshold must be at least " ++ toString DrawOptions.leastThreshold
      ++ ", got " ++ toString n)

namespace Settings

def standard : Settings := ⟨.standard, false, .utf8, true, 50⟩

open Toml (Value)

/-- The settings of a section. An array gives them in order, and a date gives none. -/
def section? : Value → Option (Nat → String → Option Value)
  | .table es _ => some fun _ name => es.lookup name
  | .array vs => some fun i _ => vs[i]?
  | .tables ts => some fun i _ => (ts.reverse[i]?).map fun es => .table es .header
  | .dateTime => some fun _ _ => none
  | _ => none

def bool? : Value → Option Bool
  | .boolean b => some b
  | _ => none

def nat? : Value → Option Nat
  | .integer (.ofNat n) => some n
  | _ => none

def charsetNamed? : String → Option Charset
  | "utf8" => some .utf8
  | "ascii" => some .ascii
  | _ => none

def isEmptyValue : Value → Bool
  | .array [] | .table [] _ | .tables [] => true
  | _ => false

/-- A charset is a name, or a table whose only key is the name and holds nothing. -/
def charset? : Value → Option Charset
  | .string s => charsetNamed? s
  | .table [(name, v)] _ => if isEmptyValue v then charsetNamed? name else none
  | _ => none

def orElse {α : Type} (read : Value → Option α) (standard : α) : Option Value → Option α
  | none => some standard
  | some v => read v

def ofTable? (t : Toml.Table) : Option Settings := do
  -- Keys that are not known are ignored, and all keys and sections may be left out.
  let part (name : String) : Option (Nat → String → Option Value) :=
    match t.find? name with
    | none => some fun _ _ => none
    | some v => section? v
  let print ← part "print"
  let fragments ← part "fragments"
  let render ← part "render"
  let inFull ← orElse bool? standard.drawing.longEdgesInFull (print 0 "show_long_edges")
  let threshold ← orElse nat? standard.drawing.threshold (print 1 "long_edge_threshold")
  let foldOnLoad ← orElse bool? standard.foldOnLoad (fragments 0 "collapse_on_load")
  let charset ← orElse charset? standard.charset (render 0 "charset")
  let colored ← orElse bool? standard.colored (render 1 "color")
  let labelWidth ← orElse nat? standard.labelWidth (render 2 "label_width")
  return ⟨⟨inFull, threshold⟩, foldOnLoad, charset, colored, labelWidth⟩

def parse (text : String) : Except SettingsError Settings :=
  match (Toml.parse? text).bind ofTable? with
  | none => .error .unreadable
  | some s =>
    if s.drawing.threshold < DrawOptions.leastThreshold then
      .error (.thresholdTooSmall s.drawing.threshold)
    else .ok s

end Settings

end CommitGraph
