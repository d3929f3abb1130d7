import LeveledTypes.Definition
import Std.Data.HashMap

/-!
# Registries of definitions

A registry maps names to definitions and lists, in the order of registration, the instances of each
class and the classes that directly extend it. An environment is a shared registry under the
definitions of the module that is being checked.
-/
namespace LeveledTypes

/-- Definitions by their names, with the instances and the direct subclasses of each class in the
order in which they were registered. -/
structure Registry where
  definitions : Std.HashMap GlobalName Definition := {}
  instances : Std.HashMap GlobalName (List GlobalName) := {}
  subclasses : Std.HashMap GlobalName (List GlobalName) := {}
deriving Inhabited

namespace Registry

def get? (r : Registry) (n : GlobalName) : Option Definition := r.definitions[n]?

def contains (r : Registry) (n : GlobalName) : Bool := r.definitions.contains n

/-- The instances of a class, in the order of registration. -/
def instancesOf (r : Registry) (c : GlobalName) : List GlobalName := r.instances.getD c []

/-- The classes that directly extend a class, in the order of registration. -/
def subclassesOf (r : Registry) (c : GlobalName) : List GlobalName := r.subclasses.getD c []

def size (r : Registry) : Nat := r.definitions.size

/-- Puts a name at the end of the list of a class, if it is not in it. -/
def enlist (m : Std.HashMap GlobalName (List GlobalName)) (c n : GlobalName) :
    Std.HashMap GlobalName (List GlobalName) :=
  let ns := m.getD c []
  if ns.contains n then m else m.insert c (ns ++ [n])

/-- Takes a name out of the list of a class. -/
def delist (m : Std.HashMap GlobalName (List GlobalName)) (c n : GlobalName) :
    Std.HashMap GlobalName (List GlobalName) :=
  match m[c]? with
  | some ns => m.insert c (ns.filter (· ≠ n))
  | none => m

/-- Registers a definition, and lists it under its class if it is an instance, under its
superclasses if it is a class. -/
def insert (r : Registry) (d : Definition) : Registry :=
  let r := match d.body with
    | .inst c _ => { r with instances := enlist r.instances c d.name }
    | .cls _ supers =>
      { r with subclasses := supers.foldl (fun m s => enlist m s d.name) r.subclasses }
    | _ => r
  { r with definitions := r.definitions.insert d.name d }

theorem get?_insert (r : Registry) (d : Definition) (n : GlobalName) :
    (r.insert d).get? n = if d.name = n then some d else r.get? n := by
  unfold insert get?
  split <;> simp [Std.HashMap.getElem?_insert]

/-- Removes a definition and takes it out of the lists that it is in. -/
def erase (r : Registry) (n : GlobalName) : Registry :=
  match r.get? n with
  | none => r
  | some d =>
    let r := { r with definitions := r.definitions.erase n }
    match d.body with
    | .inst c _ => { r with instances := delist r.instances c n }
    | .cls _ supers => { r with subclasses := supers.foldl (fun m s => delist m s n) r.subclasses }
    | _ => r

def insertAll (r : Registry) (ds : List Definition) : Registry := ds.foldl insert r

def eraseAll (r : Registry) (ns : List GlobalName) : Registry := ns.foldl erase r

end Registry

/-- The definitions in scope of a module: the shared ones, and above them its own. -/
structure Environment where
  base : Registry
  own : Registry := {}
deriving Inhabited

namespace Environment

def get? (e : Environment) (n : GlobalName) : Option Definition := (e.own.get? n).or (e.base.get? n)

/-- A bound for the number of definitions. -/
def size (e : Environment) : Nat := e.base.size + e.own.size

/-- The shared names of a list of a class, then the names that only the module has. -/
def both (e : Environment) (f : Registry → List GlobalName) : List GlobalName :=
  f e.base ++ (f e.own).filter fun n => !e.base.contains n

def instancesOf (e : Environment) (c : GlobalName) : List GlobalName := e.both (·.instancesOf c)

def subclassesOf (e : Environment) (c : GlobalName) : List GlobalName := e.both (·.subclassesOf c)

/-- The fields of a class; a name that is no class has none. -/
def classFields (e : Environment) (c : GlobalName) : List ClassField :=
  match e.get? c with
  | some { body := .cls fs _, .. } => fs
  | _ => []

end Environment

end LeveledTypes
