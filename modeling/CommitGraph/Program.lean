import CommitGraph.Command.Help
import CommitGraph.Command.Read
import CommitGraph.File
import CommitGraph.Repository.Load

namespace CommitGraph

structure World (m : Type → Type) where
  readText : String → m (Except FileError String)
  openRepository : String → m (Except RepositoryError Repository)

inductive Outcome where
  | printed (text : String)
  | failed (f : Failure)
  | misused (e : UsageError)
  deriving DecidableEq

namespace Outcome

def exitCode : Outcome → Nat
  | .printed _ => 0
  | .failed _ => 1
  | .misused _ => 2

def output : Outcome → String
  | .printed text => text
  | _ => ""

def complaint : Outcome → Option String
  | .printed _ => none
  | .failed f => some ("Error: " ++ f.text)
  | .misused .nothingGiven => some (Help.text none)
  | .misused e => some ("error: " ++ Help.complaint e)

def ofExcept : Except Failure String → Outcome
  | .ok text => .printed text
  | .error f => .failed f

end Outcome

namespace Program

variable {m : Type → Type} [Monad m]

def plain (message : String) : Failure := ⟨message, none⟩

def settings (w : World m) : Option String → m (Except Failure Settings)
  | none => return .ok .standard
  | some path => do
    let contents ← w.readText path
    return (Settings.ofFile contents).mapError (·.at path)

def repositoryHistory (w : World m) (path : String) (limit : Option Nat) :
    m (Except Failure History) := do
  let repository ← w.openRepository path
  return (repository.bind fun r => r.load limit 0).mapError fun e => plain e.message

/-- The history of a text log. References are read before the file is. -/
def logHistory (w : World m) (path : String) (specs : List String) : m (Except Failure History) :=
  match specs.mapM readReference with
  | .error e => return .error (plain e.message)
  | .ok named => do
    let contents ← w.readText path
    return (History.ofFile contents named).mapError (·.at path)

def drawing (s : Settings) (flags : DisplayFlags) (h : Except Failure History) :
    Except Failure String := do
  ((← h).drawing s flags).mapError fun e => plain e.message

def counts (h : Except Failure History) : Except Failure String := do
  (← h).counts.mapError fun e => plain e.message

def perform (w : World m) (s : Settings) : Command → m (Except Failure String)
  | .draw path limit flags => return drawing s flags (← repositoryHistory w path limit)
  | .drawLog file specs flags => return drawing s flags (← logHistory w file specs)
  | .count path limit => return counts (← repositoryHistory w path limit)

def carryOut (w : World m) (i : Invocation) : m (Except Failure String) := do
  match ← settings w i.settings with
  | .error f => return .error f
  | .ok s => perform w s i.command

def run (w : World m) (words : List String) : m Outcome :=
  match Command.read words with
  | .error (.help c) => return .printed (Help.text c)
  | .error e => return .misused e
  | .ok i => return .ofExcept (← carryOut w i)

end Program

end CommitGraph
