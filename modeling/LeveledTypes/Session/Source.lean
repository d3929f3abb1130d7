import LeveledTypes.Error
import LeveledTypes.Files.Disk

/-!
# Sources

The text of a module with its name and the file it stands in. The modules below a directory are the
files with the extension of the language; a module is named by the path of its file.
-/
namespace LeveledTypes

/-- The text of a module with the module's name and the path of its file. -/
structure Source where
  name : String
  path : FilePath
  text : String
deriving Inhabited

namespace Source

def fileExtension : String := "vc"

/-- The path of the file of a module: the dots in its name separate directories. -/
def pathOf (name : String) : FilePath :=
  ⟨String.ofList (name.toList.map fun c => if c = '.' then '/' else c) ++ "." ++ fileExtension⟩

/-- A module without a file of its own. -/
def ofText (name text : String) : Source := ⟨name, pathOf name, text⟩

/-- A file as a source, if it is one: what its content says has to be text. -/
def ofFile? (root : FilePath) (names : List String) (content : ByteArray) :
    Except Error (Option Source) :=
  let path := root.join ⟨"/".intercalate names⟩
  if names.getLast?.bind FilePath.extension? ≠ some fileExtension then .ok none
  else
    match moduleName? root path with
    | none => .ok none
    | some name =>
      match String.fromUTF8? content with
      | some text => .ok (some ⟨name, path, text⟩)
      | none => .error .io

/-- The sources below a directory, in the order of their module names. -/
def discover (d : Disk) (root : FilePath) : Except Error (List Source) :=
  match d.directory root with
  | .error _ => .error .io
  | .ok n => do
    let found ← n.files.mapM fun (names, content) => ofFile? root names content
    return (found.filterMap id).mergeSort fun a b => decide (a.name ≤ b.name)

end Source

end LeveledTypes
