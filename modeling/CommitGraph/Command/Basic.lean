import CommitGraph.Report

namespace CommitGraph

inductive Command where
  | draw (repository : String) (limit : Option Nat) (flags : DisplayFlags)
  | drawLog (file : String) (references : List String) (flags : DisplayFlags)
  | count (repository : String) (limit : Option Nat)
  deriving DecidableEq

structure Invocation where
  command : Command
  /-- The file with the settings. -/
  settings : Option String
  verbosity : Nat
  deriving DecidableEq

inductive CommandName where
  | draw
  | drawLog
  | count
  deriving DecidableEq

def CommandName.word : CommandName → String
  | .draw => "show"
  | .drawLog => "text"
  | .count => "stats"

inductive UsageError where
  | nothingGiven
  | missingCommand
  | unknownCommand (word : String)
  | unknownArgument (word : String)
  | missingValue
  | emptyValue
  | badNumber (word : String)
  | repeated
  /-- A value for an argument that takes none. -/
  | unwantedValue (word : String)
  | missingFile
  /-- Help is asked for, on one command or on the program. -/
  | help (command : Option CommandName)
  deriving DecidableEq

namespace Command

/-- An argument with a value; a place has no name and is told by where it stands. -/
inductive Parameter where
  | settings
  | limit
  | reference
  | place
  deriving DecidableEq

inductive Switch where
  | verbose
  | help
  | longEdges
  | fold
  | ascii
  | plain
  deriving DecidableEq

inductive Argument where
  | parameter (p : Parameter)
  | switch (s : Switch)
  deriving DecidableEq

def accepts : Option CommandName → Argument → Bool
  | _, .parameter .settings | _, .switch .verbose | _, .switch .help => true
  | some .draw, .parameter .limit | some .count, .parameter .limit => true
  | some .drawLog, .parameter .reference => true
  | some .draw, .switch _ | some .drawLog, .switch _ => true
  | _, _ => false

def longNames : List (String × Argument) :=
  [("config", .parameter .settings), ("limit", .parameter .limit), ("ref", .parameter .reference),
   ("verbose", .switch .verbose), ("help", .switch .help), ("long-edges", .switch .longEdges),
   ("collapse", .switch .fold), ("ascii", .switch .ascii), ("no-color", .switch .plain)]

def letters : List (Char × Argument) :=
  [('l', .parameter .limit), ('v', .switch .verbose), ('h', .switch .help)]

def named? (command : Option CommandName) (name : String) : Option Argument :=
  (longNames.lookup name).filter (accepts command)

def lettered? (command : Option CommandName) (c : Char) : Option Argument :=
  (letters.lookup c).filter (accepts command)

end Command

end CommitGraph
