import CommitGraph.Disk.Pack
import CommitGraph.Program
import CommitGraph.Repository.Head
import Std.Data.HashSet

namespace CommitGraph

namespace Disk

def read (path : String) : IO (Except FileError ByteArray) := do
  try
    return .ok (← IO.FS.readBinFile path)
  catch
    | .noFileOrDirectory .. => return .error .missing
    | .permissionDenied .. => return .error .denied
    | .inappropriateType .. => return .error .directory
    | _ => return .error .notDirectory

def read? (path : String) : IO (Option ByteArray) := do return (← read path).toOption

def readText (path : String) : IO (Except FileError String) := do
  return (← read path).bind textOfBytes

def readText? (path : String) : IO (Option String) := do return (← readText path).toOption

def names? (path : String) : IO (Option (List String)) := do
  try
    let directory ← IO.FS.realPath path
    return some ((← directory.readDir).toList.map (·.fileName))
  catch _ => return none

def isRepository (path : String) : IO Bool := do
  return (← read? (path ++ "/HEAD")).isSome && (← names? (path ++ "/objects")).isSome
    && (← names? (path ++ "/refs")).isSome

/-- The directory that holds a repository: the one named, or one in it or named by a file in it. -/
def repositoryAt? (path : String) : IO (Option String) := do
  let inner := path ++ "/.git"
  if ← isRepository inner then return some inner
  let linked := ((← readText? inner).bind fun s => Text.after? "gitdir: ".toList s.toList).map
    fun cs => String.ofList (Text.trimEnd cs)
  match linked with
  | some other =>
    let other := if other.startsWith "/" then other else path ++ "/" ++ other
    return if ← isRepository other then some other else none
  | none => return if ← isRepository path then some path else none

/-- The references that have files of their own. -/
partial def looseRefs (repository name : String) : IO (List (String × RefTarget)) := do
  let path := repository ++ "/" ++ name
  match ← names? path with
  | some names => return (← names.mapM fun n => looseRefs repository (name ++ "/" ++ n)).flatten
  | none => return (((← readText? path).bind RefTarget.read?).map (name, ·)).toList

def refs (repository : String) : IO (List (String × RefTarget)) := do
  let loose ← looseRefs repository "refs"
  let packed := ((← readText? (repository ++ "/packed-refs")).map RefTarget.packed).getD []
  return loose ++ packed.filter fun (name, _) => (loose.lookup name).isNone

def packs (repository : String) : IO (List Pack) := do
  let directory := repository ++ "/objects/pack/"
  let names := ((← names? directory).getD []).filter (·.endsWith ".idx")
  names.filterMapM fun name => do
    let index ← read? (directory ++ name)
    let bytes ← read? (directory ++ (name.dropEnd 4).toString ++ ".pack")
    return match index, bytes with
      | some i, some b => some ⟨i, b⟩
      | _, _ => none

def object? (repository : String) (packs : List Pack) (hash : String) : IO (Option StoredObject) := do
  let file := repository ++ "/objects/" ++ (hash.take 2).toString ++ "/" ++ (hash.drop 2).toString
  match ← read? file with
  | some bytes => return (Inflate.run bytes 0).bind StoredObject.ofFile?
  | none => return packs.findSome? (·.object? hash)

/-- The objects met on the way from some, each once. -/
partial def objects (find : String → IO (Option StoredObject)) (seen : Std.HashSet String)
    (found : List (String × StoredObject)) : List String → IO (List (String × StoredObject))
  | [] => return found
  | hash :: todo => do
    if seen.contains hash then objects find seen found todo
    else
      let seen := seen.insert hash
      match ← find hash with
      | none => objects find seen found todo
      | some o =>
        let next := match o with
          | .commit c => c.parents
          | .tag target => [target]
          | .other => []
        objects find seen ((hash, o) :: found) (next ++ todo)

def openRepository (path : String) : IO (Except RepositoryError Repository) := do
  let some repository ← repositoryAt? path | return .error .cannotOpen
  let head := (← readText? (repository ++ "/HEAD")).bind RefTarget.read?
  let refs ← refs repository
  let packs ← packs repository
  let hashes := (head.toList ++ refs.map (·.2)).filterMap fun t => match t with
    | .object hash => some hash
    | .symbolic _ => none
  return .ok ⟨← objects (object? repository packs) {} [] hashes, refs, head⟩

def world : World IO := ⟨readText, openRepository⟩

end Disk

end CommitGraph

open CommitGraph in
def main (words : List String) : IO UInt32 := do
  let outcome ← Program.run Disk.world words
  IO.print outcome.output
  match outcome.complaint with
  | some text => IO.eprintln text
  | none => pure ()
  return outcome.exitCode.toUInt32
