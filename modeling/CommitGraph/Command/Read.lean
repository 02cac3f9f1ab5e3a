import CommitGraph.Bounds
import CommitGraph.Command.Basic
import CommitGraph.Text.Fields
import CommitGraph.Text.Numeral

/-!
Reading the command line, one word after the other. An argument that has been read is taken down
only when the next one is met or the words end, so that a later word nobody knows is told before a
value that is missing.
-/

namespace CommitGraph

namespace Command

structure Given where
  settings : Option String
  verbosity : Nat
  limit : Option Nat
  references : List String
  place : Option String
  flags : DisplayFlags
  deriving DecidableEq

namespace Given

def nothing : Given := ⟨none, 0, none, [], none, .none⟩

def mostVerbose : Nat := 255

def isFree (g : Given) : Parameter → Bool
  | .settings => g.settings.isNone
  | .limit => g.limit.isNone
  | .place => g.place.isNone
  | .reference => true

def put (g : Given) (value : String) : Parameter → Except UsageError Given
  | .settings => if value.isEmpty then .error .emptyValue else .ok { g with settings := some value }
  | .place => if value.isEmpty then .error .emptyValue else .ok { g with place := some value }
  | .reference => .ok { g with references := g.references ++ [value] }
  | .limit =>
    match Text.readNat unsignedBound value.toList with
    | some n => .ok { g with limit := some n }
    | none => .error (.badNumber value)

/-- A value is needed, and for all but references it may be given only once. -/
def take (g : Given) (p : Parameter) : Option String → Except UsageError Given
  | none => .error .missingValue
  | some value => if g.isFree p then g.put value p else .error .repeated

def raise (f : DisplayFlags) : Switch → Except UsageError DisplayFlags
  | .longEdges => if f.longEdges then .error .repeated else .ok { f with longEdges := true }
  | .fold => if f.fold then .error .repeated else .ok { f with fold := true }
  | .ascii => if f.ascii then .error .repeated else .ok { f with ascii := true }
  | .plain => if f.plain then .error .repeated else .ok { f with plain := true }
  | .verbose | .help => .ok f

def turnOn (g : Given) (command : Option CommandName) : Switch → Except UsageError Given
  | .help => .error (.help command)
  | .verbose => .ok { g with verbosity := min mostVerbose (g.verbosity + 1) }
  | s => (raise g.flags s).map fun f => { g with flags := f }

end Given

/-- What has been taken down, and the last argument if its value is still open or not yet looked
at. -/
structure Reading where
  given : Given
  pending : Option (Parameter × Option String)

namespace Reading

def start : Reading := ⟨.nothing, none⟩

def settle (r : Reading) : Except UsageError Given :=
  match r.pending with
  | none => .ok r.given
  | some (p, value) => r.given.take p value

def isWaiting (r : Reading) : Bool :=
  match r.pending with
  | some (_, none) => true
  | _ => false

def hasPlace (r : Reading) : Bool :=
  r.given.place.isSome || r.pending.any fun (p, _) => p = .place

def await (r : Reading) (p : Parameter) : Except UsageError Reading :=
  r.settle.map fun g => ⟨g, some (p, none)⟩

def take (r : Reading) (p : Parameter) (value : List Char) : Except UsageError Reading := do
  return ⟨← (← r.settle).take p (some (String.ofList value)), none⟩

def turnOn (r : Reading) (command : Option CommandName) (s : Switch) : Except UsageError Reading := do
  return ⟨← (← r.settle).turnOn command s, none⟩

/-- `--name` or `--name=value`. -/
def long (r : Reading) (command : Option CommandName) (name : List Char) (value : Option (List Char)) :
    Except UsageError Reading :=
  match named? command (String.ofList name), value with
  | none, _ => .error (.unknownArgument (String.ofList name))
  | some (.parameter p), some v => r.take p v
  | some (.parameter p), none => r.await p
  | some (.switch _), some v => .error (.unwantedValue (String.ofList v))
  | some (.switch s), none => r.turnOn command s

/-- The letters after one hyphen. What follows the letter of a parameter is its value. -/
def short (r : Reading) (command : Option CommandName) : List Char → Except UsageError Reading
  | [] => .ok r
  | c :: cs =>
    match lettered? command c, cs with
    | none, _ => .error (.unknownArgument c.toString)
    | some (.switch s), _ => do short (← r.turnOn command s) command cs
    | some (.parameter p), [] => r.await p
    | some (.parameter p), '=' :: value => r.take p value
    | some (.parameter p), value => r.take p value

/-- A word without hyphens, or one after `--`. There is room for one place. -/
def place (r : Reading) (word : String) : Except UsageError Reading :=
  if r.hasPlace then .error (.unknownArgument word)
  else r.settle.map fun g => ⟨g, some (.place, some word)⟩

def value (r : Reading) (word : String) : Reading :=
  { r with pending := r.pending.map fun (p, _) => (p, some word) }

end Reading

inductive Word where
  /-- All words after this one are places. -/
  | hyphens
  | long (name : List Char) (value : Option (List Char))
  | short (letters : List Char)
  | plain

def Word.ofChars : List Char → Word
  | ['-', '-'] => .hyphens
  | '-' :: '-' :: cs =>
    match Text.splitFirst ['='] cs with
    | some (name, value) => .long name (some value)
    | none => .long cs none
  | '-' :: c :: cs => .short (c :: cs)
  | _ => .plain

def readAfter (command : CommandName) : Bool → Reading → List String → Except UsageError Given
  | _, r, [] => r.settle
  | true, r, w :: ws => do readAfter command true (← r.place w) ws
  | false, r, w :: ws =>
    match Word.ofChars w.toList with
    | .hyphens => readAfter command true r ws
    | .long name value => do readAfter command false (← r.long (some command) name value) ws
    | .short cs => do readAfter command false (← r.short (some command) cs) ws
    | .plain => do
      readAfter command false (← if r.isWaiting then pure (r.value w) else r.place w) ws

def commandNamed? : String → Option CommandName
  | "show" => some .draw
  | "text" => some .drawLog
  | "stats" => some .count
  | _ => none

def helpWord : String := "help"

def helpOn : List String → UsageError
  | [] => .help none
  | [w] =>
    match commandNamed? w with
    | some c => .help (some c)
    | none => if w = helpWord then .help none else .unknownCommand w
  -- No command has commands of its own.
  | w :: rest :: _ =>
    if (commandNamed? w).isSome || w = helpWord then .unknownCommand rest else .unknownCommand w

def standardPlace : String := "."

def ofGiven (g : Given) : CommandName → Except UsageError Command
  | .draw => .ok (.draw (g.place.getD standardPlace) g.limit g.flags)
  | .count => .ok (.count (g.place.getD standardPlace) g.limit)
  | .drawLog =>
    match g.place with
    | some file => .ok (.drawLog file g.references g.flags)
    | none => .error .missingFile

/-- What is given after the command counts before what is given in front of it. -/
def invocation (command : Command) (before after : Given) : Invocation :=
  ⟨command, after.settings <|> before.settings,
    if after.verbosity = 0 then before.verbosity else after.verbosity⟩

/-- The words up to the command, and then those after it. -/
def readBefore : Bool → Reading → List String → Except UsageError Invocation
  | _, r, [] => do
    let g ← r.settle
    .error (if g = .nothing then .nothingGiven else .missingCommand)
  | true, _, w :: _ =>
    .error (if (commandNamed? w).isSome || w = helpWord then .unknownArgument w else .unknownCommand w)
  | false, r, w :: ws =>
    match Word.ofChars w.toList with
    | .hyphens => readBefore true r ws
    | .long name value => do readBefore false (← r.long none name value) ws
    | .short cs => do readBefore false (← r.short none cs) ws
    | .plain =>
      if r.isWaiting then readBefore false (r.value w) ws
      else if w = helpWord then .error (helpOn ws)
      else
        match commandNamed? w with
        | none => .error (.unknownCommand w)
        | some name => do
          let after ← readAfter name false .start ws
          -- A value that is missing before the command is told last.
          let command ← ofGiven after name
          return invocation command (← r.settle) after

def read (words : List String) : Except UsageError Invocation := readBefore false .start words

end Command

end CommitGraph
