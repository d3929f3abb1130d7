import LeveledTypes.CommandLine.Run

/-!
# The program

Reads the directories that a command works on, runs the command on what was read, and writes what it
changed.
-/
namespace LeveledTypes.Main

open CommandLine

/-- The directories that a command works on. -/
def places : Command → List FilePath
  | .check path cacheDir _ => path :: cacheDir.toList
  | .prelude dir => [dir]
  | .clean dir => [dir]

/-- The names that lead to a path from the root. -/
def absolute (working : List String) (p : FilePath) : List String :=
  p.names.foldl (fun place name =>
    if name = "." then place else if name = ".." then place.dropLast else place ++ [name])
    (if p.isAbsolute then [] else working)

def textOf (place : List String) : String := "/" ++ "/".intercalate place

/-- Whether the content of a file matters: it is a source or a cache entry. -/
def isRelevant (name : String) : Bool :=
  (FilePath.extension? name).any fun e => e = Source.fileExtension ∨ e = Work.cacheExtension

/-- Reads a file, or a directory with all that is below it. -/
partial def readNode (place : List String) : IO FileNode := do
  let path ← IO.FS.realPath (textOf place)
  if ← path.isDir then
    let entries ← path.readDir
    return .dir (← entries.toList.mapM fun e => do return (e.fileName,
      ← readNode (place ++ [e.fileName])))
  else if place.getLast?.any isRelevant then return .file (← IO.FS.readBinFile path)
  else return .file .empty

/-- Puts a place of the disk, and the directories that lead to it, into a tree. -/
def graft (root : FileNode) (place : List String) (n : FileNode) : FileNode :=
  let directories := (List.range place.length).foldl (fun (root : FileNode) k =>
    let start := place.take k
    if k = 0 ∨ (root.get? start).isSome then root else root.update start (some (.dir []))) root
  directories.update place (some n)

/-- The longest part of a chain of names that leads to a directory. -/
def existing : Nat → List String → IO (List String)
  | 0, _ => return []
  | n + 1, place => do
    let found ← (IO.FS.realPath (textOf place)).toBaseIO
    match found with
    | .ok path => if ← path.isDir then return place else existing n place.dropLast
    | .error _ => existing n place.dropLast

/-- Reads the places that are there. -/
def load (working : List String) (ps : List FilePath) : IO Disk := do
  let root ← ps.foldlM (fun root p => do
    let place := absolute working p
    let found ← (readNode place).toBaseIO
    match found with
    | .ok n => return graft root place n
    | .error _ =>
      let start ← existing place.length place
      return if (root.get? start).isSome then root else graft root start (.dir []))
    (graft (.dir []) working (.dir []))
  return { root, working }

/-- Writes a tree in place of another one. -/
partial def store (place : List String) (before after : Option FileNode) : IO Unit := do
  let text := textOf place
  match before, after with
  | none, none => return
  | some (.file _), none => IO.FS.removeFile text
  | some (.dir es), none =>
    for (name, n) in es do store (place ++ [name]) (some n) none
    IO.FS.removeDir text
  | some (.file old), some (.file new) => if old.data ≠ new.data then IO.FS.writeBinFile text new
  | some (.dir old), some (.dir new) =>
    for (name, n) in old do
      if (new.lookup name).isNone then store (place ++ [name]) (some n) none
    for (name, n) in new do store (place ++ [name]) (old.lookup name) (some n)
  | _, some (.file new) => IO.FS.writeBinFile text new
  | _, some (.dir new) =>
    IO.FS.createDirAll text
    for (name, n) in new do store (place ++ [name]) none (some n)

end LeveledTypes.Main

open LeveledTypes in
/-- Reads the part of the disk that the command needs, runs it, and writes back what has changed. -/
def main (args : List String) : IO UInt32 := do
  let working := FilePath.names ⟨toString (← IO.currentDir)⟩
  let before ← match CommandLine.read args with
    | .ok r => Main.load working (Main.places r.command)
    | .error _ => pure { working }
  let outcome := CommandLine.run args before
  IO.print outcome.output
  for e in outcome.complaint do IO.eprintln ("error: " ++ e.message)
  for e in outcome.events do IO.eprintln ("[" ++ e.severity.render ++ "] " ++ e.message)
  for d in outcome.diagnostics do IO.eprintln (d.headline ++ "\n  at " ++ d.place)
  let changed ← (Main.store [] (some before.root) (some outcome.disk.root)).toBaseIO
  match changed with
  | .ok () => return UInt32.ofNat outcome.exitCode
  | .error e =>
    IO.eprintln (toString e)
    return 1
