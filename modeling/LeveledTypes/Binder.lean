/-!
# Variables, binders and telescopes

A local variable is a name together with the identity of the place that binds it. Binders come in
three kinds: the argument is written, left to be found by unification, or left to be found by
instance search.
-/
namespace LeveledTypes

/-- A local variable. Only the identity tells two variables apart; the name is for display. The
identity zero stands for a mere name, which no occurrence in a text refers to. -/
structure Variable where
  name : String
  id : Nat := 0
deriving DecidableEq, Inhabited

namespace Variable

/-- The name given to a binder that has none. -/
def anonymousName : String := "_"

def anonymous : Variable := ⟨anonymousName, 0⟩

def isNamed (v : Variable) : Bool := v.name != anonymousName

/-- Whether two variables are bound at the same place. -/
def same (v w : Variable) : Bool := v.id == w.id

end Variable

/-- How the argument for a parameter is given. -/
inductive BinderInfo where
  | explicit
  | implicit
  | inst
deriving DecidableEq, Inhabited, Hashable

namespace BinderInfo

/-- The brackets of a parameter, by how its argument is given. -/
def wrap : BinderInfo → String → String
  | .explicit, s => "(" ++ s ++ ")"
  | .implicit, s => "\x7b" ++ s ++ "\x7d"
  | .inst, s => "[" ++ s ++ "]"

end BinderInfo

/-- A variable with the way in which its argument is given. -/
structure Binder where
  var : Variable
  info : BinderInfo
deriving DecidableEq, Inhabited

/-- A binder whose variable is a mere name. -/
def Binder.named (name : String) (info : BinderInfo := .explicit) : Binder := ⟨⟨name, 0⟩, info⟩

/-- A binder with the type of its variable. -/
structure Param (α : Type) extends Binder where
  type : α
deriving Inhabited

namespace Param

def isExplicit (p : Param α) : Bool := p.info = .explicit

def map (f : α → β) (p : Param α) : Param β := { toBinder := p.toBinder, type := f p.type }

end Param

/-- A list of parameters, outermost first; each type may refer to the parameters before it. -/
abbrev Telescope (α : Type) := List (Param α)

end LeveledTypes
