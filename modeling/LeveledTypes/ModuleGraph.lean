import LeveledTypes.Error
import LeveledTypes.Primitive
import LeveledTypes.Surface.Basic

/-!
# The graph of imports

Modules are numbered by their places in a list. A wave consists of the modules that wait for no
other one any more: each module has a counter of the dependencies that are not done, and is in the
next wave when its counter comes to zero. The prelude is imported by every module and is no node of
the graph.
-/
namespace LeveledTypes.ModuleGraph

open Surface

/-- The last module of a name. -/
def indexOf? (names : List String) (n : String) : Option Nat :=
  (names.reverse.idxOf? n).map fun k => names.length - 1 - k

/-- The modules that imports mention, each once, and the errors for those that do not exist. -/
def resolveImports (names : List String) : List Import → List Nat × List Error
  | is => is.foldl (fun (found, errors) i =>
    if i.module = Primitive.preludeName then (found, errors)
    else
      match indexOf? names i.module with
      | some k => (if found.contains k then found else found ++ [k], errors)
      | none => (found, errors ++ [.located (.unknownModule i.module) i.span])) ([], [])

/-- For each module the modules it imports, or the errors in its imports. -/
def edges (modules : List (String × List Import)) : List (Except (List Error) (List Nat)) :=
  let names := modules.map (·.1)
  modules.map fun (_, is) =>
    match resolveImports names is with
    | (found, []) => .ok found
    | (_, errors) => .error errors

/-- The modules that depend on a module, once for every mention of it. -/
def users (deps : List (List Nat)) (d : Nat) : List Nat :=
  (List.range deps.length).flatMap fun i => List.replicate ((deps.getD i []).count d) i

/-- A module has one dependency less to wait for; with the last one it comes into the next wave. -/
def countDown : List Nat × List Nat → Nat → List Nat × List Nat
  | (pending, next), u =>
    let left := pending.getD u 0 - 1
    (pending.set u left, if left = 0 then next ++ [u] else next)

/-- The wave and those that can follow it, and what is pending after them. -/
def wavesFrom (deps : List (List Nat)) : Nat → List Nat → List Nat → List (List Nat) × List Nat
  | 0, pending, _ => ([], pending)
  | _ + 1, pending, [] => ([], pending)
  | n + 1, pending, wave =>
    let (pending, next) := (wave.flatMap (users deps)).foldl countDown (pending, [])
    let (waves, pending) := wavesFrom deps n pending next.mergeSort
    (wave :: waves, pending)

/-- Follows the first dependency that is pending itself until a module repeats; gives the part of
the path from that module back to it. The path is kept with the latest module first. -/
def cycleFrom (deps : List (List Nat)) (pending : List Nat) : Nat → Nat → List Nat → List Nat
  | 0, _, path => path.reverse
  | n + 1, current, path =>
    match (deps.getD current []).find? fun d => 0 < pending.getD d 0 with
    | none => path.reverse
    | some next =>
      if path.contains next then (path.reverse.dropWhile (· ≠ next)) ++ [next]
      else cycleFrom deps pending n next (next :: path)

/-- A cycle among the modules that are pending. -/
def cycle (deps : List (List Nat)) (pending : List Nat) : List Nat :=
  match (List.range deps.length).find? fun i => 0 < pending.getD i 0 with
  | none => []
  | some start => cycleFrom deps pending deps.length start [start]

/-- Groups modules into waves: every module comes in the wave after the last of its dependencies. -/
def waves (deps : List (List Nat)) (names : List String) : Except Error (List (List Nat)) :=
  let pending := deps.map (·.length)
  let first := (List.range deps.length).filter fun i => pending.getD i 0 = 0
  let (waves, pending) := wavesFrom deps deps.length pending first
  if waves.flatten.length < deps.length then .error
    (.cycle ((cycle deps pending).map fun i => names.getD i ""))
  else .ok waves

end LeveledTypes.ModuleGraph
