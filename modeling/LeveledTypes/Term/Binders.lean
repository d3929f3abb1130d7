import LeveledTypes.Term.Basic

/-!
# The binders of a term

While a declaration is elaborated, the binders of its terms keep the identities of the variables of
the text. A finished term keeps their names only.
-/
namespace LeveledTypes

/-- The binder with a mere name for its variable. -/
def Binder.nameOnly (x : Binder) : Binder := .named x.var.name x.info

namespace Term

mutual

/-- Leaves nothing of the variables of binders but their names. -/
def nameOnly : Term → Term
  | .lam x a b => .lam x.nameOnly (nameOnly a) (nameOnly b)
  | .pi x a b => .pi x.nameOnly (nameOnly a) (nameOnly b)
  | .app f a => .app (nameOnly f) (nameOnly a)
  | .letIn x t a b => .letIn x.nameOnly (nameOnly t) (nameOnly a) (nameOnly b)
  | .sigma x a b => .sigma x.nameOnly (nameOnly a) (nameOnly b)
  | .pair a b => .pair (nameOnly a) (nameOnly b)
  | .proj a s => .proj (nameOnly a) s
  | .data n u ps => .data n u (nameOnlyAll ps)
  | .con n u ps xs => .con n u (nameOnlyAll ps) (nameOnlyAll xs)
  | .case a m bs => .case (nameOnly a) (nameOnly m) (nameOnlyBranches bs)
  | .record n u ps => .record n u (nameOnlyAll ps)
  | .new n u ps xs => .new n u (nameOnlyAll ps) (nameOnlyAll xs)
  | .field a n i => .field (nameOnly a) n i
  | .succ a => .succ (nameOnly a)
  | .natRec m z s t => .natRec (nameOnly m) (nameOnly z) (nameOnly s) (nameOnly t)
  | .path a x y => .path (nameOnly a) (nameOnly x) (nameOnly y)
  | .pathLam f => .pathLam (nameOnly f)
  | .at l r p i => .at (nameOnly l) (nameOnly r) (nameOnly p) (nameOnly i)
  | .univ u => .univ u
  | .var i => .var i
  | .ref n u => .ref n u
  | .hole m => .hole m
  | .nat => .nat
  | .zero => .zero
  | .interval => .interval
  | .left => .left
  | .right => .right

def nameOnlyAll : List Term → List Term
  | [] => []
  | t :: ts => nameOnly t :: nameOnlyAll ts

def nameOnlyBranches : List (Branch Term) → List (Branch Term)
  | [] => []
  | ⟨h, ns, b⟩ :: bs => ⟨h, ns, nameOnly b⟩ :: nameOnlyBranches bs

end

end Term

end LeveledTypes
