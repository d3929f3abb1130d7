/-!
# File paths

A path is a text whose components are separated by slashes. Empty components and dots are left out,
except for a dot that starts a path, and a path that starts with a slash starts at the root. The
extension of a file name is what stands behind its last dot, unless that dot is the first character.
-/
namespace LeveledTypes

/-- A path as it is written. -/
structure FilePath where
  text : String
deriving DecidableEq, Inhabited

namespace FilePath

def isAbsolute (p : FilePath) : Bool := p.text.startsWith "/"

/-- The pieces of a text between slashes. -/
def pieces (cs : List Char) : List (List Char) :=
  match cs with
  | [] => [[]]
  | c :: cs =>
    if c = '/' then [] :: pieces cs
    else
      match pieces cs with
      | [] => [[c]]
      | p :: ps => (c :: p) :: ps

/-- The names between the slashes, without empty ones. -/
def names (p : FilePath) : List String := ((pieces p.text.toList).map String.ofList).filter (· ≠ "")

/-- The names in a path, with a slash or a dot in front if it starts so. Other dots say nothing. -/
def components (p : FilePath) : List String :=
  let kept := p.names.filter (· ≠ ".")
  if p.isAbsolute then "/" :: kept
  else if p.text = "." ∨ p.text.startsWith "./" then "." :: kept
  else kept

/-- The path of something below a directory; an absolute path stays as it is. -/
def join (dir p : FilePath) : FilePath :=
  if p.isAbsolute ∨ dir.text = "" then p
  else if dir.text.endsWith "/" then ⟨dir.text ++ p.text⟩
  else ⟨dir.text ++ "/" ++ p.text⟩

/-- Splits a file name into what stands before and behind the dot of its extension. -/
def splitExtension (name : String) : String × Option String :=
  if name = ".." then (name, none)
  else
    let cs := name.toList
    let ext := (cs.reverse.takeWhile (· ≠ '.')).reverse
    let stem := cs.take (cs.length - ext.length - 1)
    if stem.isEmpty then (name, none) else (String.ofList stem, some (String.ofList ext))

def stem (name : String) : String := (splitExtension name).1

def extension? (name : String) : Option String := (splitExtension name).2

/-- A file name with another extension, or without one if the new extension is empty. A name of two
dots has no extension, and a name that consists of a dot and an extension becomes two dots. -/
def withExtension (name ext : String) : String :=
  let stem := stem name
  if name = ".." ∨ stem = "." then ".."
  else if ext = "" then stem
  else stem ++ "." ++ ext

/-- The components of a path below a directory, if it is below it. -/
def below? (root p : FilePath) : Option (List String) :=
  let r := root.components
  let c := p.components
  if r.isPrefixOf c then some (c.drop r.length) else none

end FilePath

/-- The name of the module in a file below a root: the components of its path without the extension,
joined by dots. -/
def moduleName? (root path : FilePath) : Option String := do
  let cs ← FilePath.below? root path
  let name ← cs.getLast?
  let start := cs.dropLast
  let last := if name = "/" ∨ name = "." then name else FilePath.withExtension name ""
  return ".".intercalate (start ++ [last])

end LeveledTypes
