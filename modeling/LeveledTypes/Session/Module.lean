import LeveledTypes.Elaboration.Declaration
import LeveledTypes.Scope
import LeveledTypes.Session.Event

/-!
# The declarations of a module

A module is elaborated declaration by declaration over a registry of shared definitions. One that
fails does not keep the others from being elaborated, but the module then has no outcome but its
errors.
-/
namespace LeveledTypes

open Surface

/-- What the elaboration of a module gives. -/
structure ModuleOutcome where
  definitions : List Definition := []
  warnings : List Warning := []
  errors : List Error := []
  events : List Event := []
deriving Inhabited

namespace ModuleOutcome

/-- What is reported of the elaboration of a declaration. One that mentions a failed declaration is
not elaborated. -/
def eventOf (d : Decl) : Except Error (List Definition) → List Event
  | .ok _ => [.declChecked d.name.text]
  | .error (.located (.dependencyFailed _ _) _) => []
  | .error e => [.declFailed d.name.text e]

/-- Adds one declaration, resolved or not; `names` are the names it introduces. -/
def step (base : Registry) (limits : Limits) (text : String) (acc : ModuleOutcome × Progress)
    (d : Except Error Decl × List GlobalName) : ModuleOutcome × Progress :=
  let (out, progress) := acc
  match d with
  | (.error e, names) => ({ out with errors := out.errors ++ [e] }, progress.poison names)
  | (.ok d, names) =>
    let (result, progress) := progress.add base limits text d
    let out := { out with events := out.events ++ eventOf d result }
    match result with
    | .ok ds => ({ out with definitions := out.definitions ++ ds }, progress)
    | .error e => ({ out with errors := out.errors ++ [e] }, progress.poison names)

end ModuleOutcome

/-- Resolves and elaborates the declarations of a module that sees the given names. -/
def elaborateModule (base : Registry) (limits : Limits) (text : String) (m : Surface.Module)
    (visible : List GlobalName) : ModuleOutcome :=
  let scope := Scope.importAll {} (visible.filterMap base.get?)
  let decls := (m.resolve scope).zip (m.decls.map (·.names))
  let (out, progress) := decls.foldl (ModuleOutcome.step base limits text) ({}, {})
  { out with warnings := progress.warnings }

end LeveledTypes
