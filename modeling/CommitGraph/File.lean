import CommitGraph.History.Basic
import CommitGraph.Settings

namespace CommitGraph

inductive FileError where
  | missing
  | directory
  /-- Something on the way to the file is no directory. -/
  | notDirectory
  | denied
  /-- The contents are not UTF-8. -/
  | notText
  deriving DecidableEq

def FileError.message : FileError → String
  | .missing => "No such file or directory (os error 2)"
  | .directory => "Is a directory (os error 21)"
  | .notDirectory => "Not a directory (os error 20)"
  | .denied => "Permission denied (os error 13)"
  | .notText => "stream did not contain valid UTF-8"

def textOfBytes (bytes : ByteArray) : Except FileError String :=
  match String.fromUTF8? bytes with
  | some text => .ok text
  | none => .error .notText

structure Failure where
  what : String
  why : Option String
  deriving DecidableEq

/-- The reason stands below, set in by four columns. -/
def Failure.text (f : Failure) : String :=
  match f.why with
  | none => f.what
  | some why => f.what ++ "\n\nCaused by:\n    " ++ "\n    ".intercalate (why.splitOn "\n")

namespace Settings

inductive FileFailure where
  | file (e : FileError)
  | settings (e : SettingsError)
  deriving DecidableEq

def ofFile (contents : Except FileError String) : Except FileFailure Settings := do
  let text ← contents.mapError .file
  (parse text).mapError .settings

def FileFailure.at (path : String) : FileFailure → Failure
  | .file e => ⟨"Failed to read config " ++ path, some e.message⟩
  | .settings e => ⟨"Invalid config " ++ path, e.message?⟩

end Settings

namespace History

inductive FileFailure where
  | file (e : FileError)
  | log (e : LoadError)
  deriving DecidableEq

def ofFile (contents : Except FileError String) (named : List (String × String)) :
    Except FileFailure History := do
  let text ← contents.mapError .file
  (ofLog text named).mapError .log

def FileFailure.at (path : String) : FileFailure → Failure
  | .file e => ⟨"Failed to read " ++ path, some e.message⟩
  | .log e => ⟨"Failed to load " ++ path, some e.message⟩

end History

end CommitGraph
