import LeveledTypes.Files.Path

/-!
# Files and directories

A disk is a tree of directories and files, seen from a working directory. Every operation either
gives the disk afterwards or the fault that kept it from being done.
-/
namespace LeveledTypes

/-- Why a file operation is not done. -/
inductive FileFault where
  | notFound
  | alreadyExists
  | notADirectory
  | isADirectory
  | invalid
  | notText
deriving DecidableEq

/-- The wording of the faults of an operating system, with their numbers. -/
def FileFault.message : FileFault → String
  | .notFound => "No such file or directory (os error 2)"
  | .alreadyExists => "File exists (os error 17)"
  | .notADirectory => "Not a directory (os error 20)"
  | .isADirectory => "Is a directory (os error 21)"
  | .invalid => "Invalid argument (os error 22)"
  | .notText => "stream did not contain valid UTF-8"

/-- A file with its content, or a directory with named entries. -/
inductive FileNode where
  | file (content : ByteArray)
  | dir (entries : List (String × FileNode))
deriving Inhabited

namespace FileNode

def isDir : FileNode → Bool
  | .dir _ => true
  | .file _ => false

def entries : FileNode → List (String × FileNode)
  | .dir es => es
  | .file _ => []

/-- What stands at the end of a chain of names. -/
def get? : FileNode → List String → Option FileNode
  | n, [] => some n
  | n, name :: names =>
    match n.entries.lookup name with
    | some m => m.get? names
    | none => none

/-- Puts an entry in place of the entry of that name, or behind all others. -/
def setEntry (es : List (String × FileNode)) (name : String) (n : FileNode) :
    List (String × FileNode) :=
  if (es.lookup name).isSome then es.map fun e => if e.1 = name then (name, n) else e
    else es ++ [(name, n)]

/-- Replaces what stands at the end of a chain of names, or removes it; the directories before it
have to be there. -/
def update : FileNode → List String → Option FileNode → FileNode
  | n, [], _ => n
  | .file c, _, _ => .file c
  | .dir es, [name], some m => .dir (setEntry es name m)
  | .dir es, [name], none => .dir (es.filter fun e => e.1 ≠ name)
  | .dir es, name :: names, m =>
    match es.lookup name with
    | some sub => .dir (setEntry es name (sub.update names m))
    | none => .dir es

mutual

/-- All files below a node, with the names that lead to them. -/
def files : FileNode → List (List String × ByteArray)
  | .file c => [([], c)]
  | .dir es => filesAll es

def filesAll : List (String × FileNode) → List (List String × ByteArray)
  | [] => []
  | (name, n) :: es => (files n).map (fun (names, c) => (name :: names, c)) ++ filesAll es

end

end FileNode

/-- The files and directories that there are. -/
structure Disk where
  root : FileNode := .dir []
  /-- The names that lead to the working directory. -/
  working : List String := []
deriving Inhabited

namespace Disk

/-- Follows the names of a path, given the names of the place reached so far, the latest first. All
places on the way have to be directories. -/
def walk (d : Disk) : List String → List String → Except FileFault (List String)
  | place, [] => .ok place.reverse
  | place, name :: names =>
    match d.root.get? place.reverse with
    | none => .error .notFound
    | some (.file _) => .error .notADirectory
    | some (.dir _) =>
      match name with
      | "." => d.walk place names
      | ".." => d.walk place.tail names
      | name => d.walk (name :: place) names

/-- The names that lead from the root to the place that a path stands for. -/
def locate (d : Disk) (p : FilePath) : Except FileFault (List String) :=
  if p.text = "" then .error .notFound else d.walk
    (if p.isAbsolute then [] else d.working.reverse) p.names

def node (d : Disk) (p : FilePath) : Except FileFault FileNode := do
  match d.root.get? (← d.locate p) with
  | some n => return n
  | none => throw .notFound

/-- The content of a file. -/
def read (d : Disk) (p : FilePath) : Except FileFault ByteArray := do
  match ← d.node p with
  | .file c => return c
  | .dir _ => throw .isADirectory

/-- A directory with all that is below it. -/
def directory (d : Disk) (p : FilePath) : Except FileFault FileNode := do
  match ← d.node p with
  | .dir es => return .dir es
  | .file _ => throw .notADirectory

def set (d : Disk) (place : List String) (n : Option FileNode) : Disk :=
  { d with root := d.root.update place n }

/-- Puts content into a file, which is made if there is none. Its directory has to be there. -/
def write (d : Disk) (p : FilePath) (content : ByteArray) : Except FileFault Disk := do
  let place ← d.locate p
  match d.root.get? place with
  | some (.dir _) => throw .isADirectory
  | _ => return d.set place (some (.file content))

/-- Moves a file, in place of the file that may be there. -/
def rename (d : Disk) (source target : FilePath) : Except FileFault Disk := do
  let place ← d.locate source
  let content ← d.read source
  return (← d.write target content).set place none

/-- Removes a file. -/
def removeFile (d : Disk) (p : FilePath) : Except FileFault Disk := do
  let place ← d.locate p
  discard (d.read p)
  return d.set place none

/-- Makes a directory where nothing is yet. -/
def createDir (d : Disk) (p : FilePath) : Except FileFault Disk := do
  let place ← d.locate p
  match d.root.get? place with
  | some _ => throw .alreadyExists
  | none => return d.set place (some (.dir []))

/-- Creates a directory, given the names of the place reached so far, the latest first, with all
directories before it. -/
def createFrom (d : Disk) : List String → List String → Except FileFault Disk
  | _, [] => .ok d
  | place, "." :: names => d.createFrom place names
  | place, ".." :: names => d.createFrom place.tail names
  | place, name :: names =>
    let place := name :: place
    match d.root.get? place.reverse with
    | some (.dir _) => d.createFrom place names
    | some (.file _) => .error (if names.isEmpty then .alreadyExists else .notADirectory)
    | none => (d.set place.reverse (some (.dir []))).createFrom place names

/-- Makes sure that a directory is there. -/
def createDirAll (d : Disk) (p : FilePath) : Except FileFault Disk :=
  d.createFrom (if p.isAbsolute then [] else d.working.reverse) p.names

/-- Removes a directory with all that is below it. A directory that is named by a dot is emptied,
and then not removed itself. Gives the disk also if there is a fault. -/
def removeDirAll (d : Disk) (p : FilePath) : Except FileFault Unit × Disk :=
  match d.locate p with
  | .error f => (.error f, d)
  | .ok place =>
    match d.root.get? place with
    | none => (.error .notFound, d)
    | some (.file _) => (.error .notADirectory, d)
    | some (.dir _) =>
      if p.names.getLast? = some "." ∨
        place = [] then (.error .invalid, d.set place (some (.dir [])))
      else (.ok (), d.set place none)

/-- The files below a directory with their contents, in the order of their paths. -/
def filesBelow (d : Disk) (p : FilePath) : List (List String × ByteArray) :=
  match d.directory p with
  | .ok n => n.files.mergeSort fun a b => decide ("/".intercalate a.1 ≤ "/".intercalate b.1)
  | .error _ => []

end Disk

end LeveledTypes
