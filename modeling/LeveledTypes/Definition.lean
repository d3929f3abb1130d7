import LeveledTypes.Digest.Basic
import LeveledTypes.Term.Binders
import LeveledTypes.Term.Printer
import LeveledTypes.Text.Span

/-!
# Definitions

What a declaration introduces: functions, data types with their constructors, classes with the
accessors of their fields, instances, and the primitives whose computation rules belong to the
language. A definition knows the other globals it mentions and a digest of its content.
-/
namespace LeveledTypes

/-- The constants that are not defined by terms. -/
inductive Primitive where
  | nat
  | zero
  | succ
  | natRec
  | interval
  | left
  | right
  | path
  | pathLam
  | at
deriving DecidableEq, Inhabited

/-- The number of arguments from which on a primitive takes its canonical form. -/
def Primitive.arity : Primitive → Nat
  | .nat | .zero | .interval | .left | .right => 0
  | .succ => 1
  | .pathLam => 2
  | .path => 3
  | .natRec => 4
  | .at => 5

/-- A class field. Its type is under the class parameters and the fields before it. -/
structure ClassField where
  name : GlobalName
  type : Term
  default : Option Term
  /-- Set for the hidden field that holds an instance of a superclass. -/
  superclass : Option GlobalName
deriving Inhabited

/-- What a global stands for, by the kind of its declaration. -/
inductive Body where
  /-- A function; a recursive one descends along a parameter. -/
  | func (body : Term) (decreasing : Option Nat)
  | data (constructors : List GlobalName)
  /-- A constructor with a number of leading implicit parameters: those of the data type, or the
  pattern variables of a guarded constructor, which has an index pattern for each parameter of the
  data type. -/
  | constructor (data : GlobalName) (index params : Nat) (patterns : Option (List Term))
  | cls (fields : List ClassField) (supers : List GlobalName)
  | field (cls : GlobalName) (index : Nat)
  | inst (cls : GlobalName) (body : Term)
  | primitive (p : Primitive)
  /-- The body is still being elaborated. -/
  | pending
deriving Inhabited

/-- Adds the globals that a body names to a list. -/
def Body.addRefs (acc : List GlobalName) : Body → List GlobalName
  | .func b _ | .inst _ b => b.addRefs acc
  | .data cs => cs.reverse ++ acc
  | .constructor d _ _ ps => d :: (ps.getD []).foldl Term.addRefs acc
  | .cls fs ss =>
    ss.reverse ++ fs.foldl (fun acc f =>
      (f.default.toList).foldl Term.addRefs (f.type.addRefs acc)) acc
  | .field c _ => c :: acc
  | .primitive _ | .pending => acc

/-- Applies a function to all terms of a body. -/
def Body.mapTerms (f : Term → Term) : Body → Body
  | .func b k => .func (f b) k
  | .inst c b => .inst c (f b)
  | .constructor d i n ps => .constructor d i n (ps.map (·.map f))
  | .cls fs ss => .cls (fs.map fun x => { x with type := f x.type, default := x.default.map f }) ss
  | b => b

/-- A global with its parameters, its type over them, and what it stands for. -/
structure Definition where
  span : Span
  name : GlobalName
  tele : Telescope Term
  type : Term
  body : Body
  /-- The other globals that the type or the body mention, in order. -/
  deps : List GlobalName := []
  digest : Digest := default
deriving Inhabited

namespace Definition

/-- The type of the global itself, at given levels. -/
def fullType (d : Definition) (u : Universe) : Term := (Term.pis d.tele d.type).substLevels u

/-- The other globals that the type or the body of a definition mention, in order and each once. -/
def mentioned (d : Definition) : List GlobalName :=
  let refs := Body.addRefs (d.type.addRefs
    (d.tele.foldl (fun acc p => p.type.addRefs acc) [])) d.body
  GlobalName.sortUnique (refs.filter (· ≠ d.name))

def withDeps (d : Definition) : Definition := { d with deps := d.mentioned }

/-- Leaves nothing of the variables of binders but their names. -/
def nameOnly (d : Definition) : Definition :=
  { d with
    tele := d.tele.map fun p => { p.toBinder.nameOnly with type := p.type.nameOnly }
    type := d.type.nameOnly
    body := d.body.mapTerms Term.nameOnly }

def renderTele (tele : Telescope Term) : String :=
  " ".intercalate (tele.map fun p => p.info.wrap (p.var.name ++ " : " ++ p.type.render))

/-- The definition as it is shown. -/
def render (d : Definition) : String :=
  let start := d.name.short ++ " " ++ renderTele d.tele
  match d.body with
  | .func b _ => "\\func " ++ start ++ " : " ++ d.type.render ++ " => " ++ b.render
  | .data cs => "\\data " ++ start ++ " " ++ " ".intercalate (cs.map fun c => "| " ++ c.short)
  | .constructor _ _ _ _ => "\\cons " ++ start ++ " : " ++ d.type.render
  | .cls fs _ =>
    "\\class " ++ start ++ " \x7b " ++
      " ".intercalate (fs.map fun f => "| " ++ f.name.short ++ " : " ++ f.type.render) ++ " \x7d"
  | .field _ _ => "\\field " ++ start ++ " : " ++ d.type.render
  | .inst _ b => "\\instance " ++ start ++ " : " ++ d.type.render ++ " => " ++ b.render
  | .primitive _ => "\\prim " ++ start ++ " : " ++ d.type.render
  | .pending => "\\func " ++ start ++ " : " ++ d.type.render

end Definition

end LeveledTypes
