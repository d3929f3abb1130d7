import LeveledTypes.Term.Substitution

/-!
# Printed terms

Core terms are printed close to the surface syntax. A variable is printed by the name of its binder;
a name that is hidden by an inner binder, or that is no name, is followed by the index, and a
variable without a binder is its index alone. Universe arguments and the parameters of constructors
are left out.
-/
namespace LeveledTypes.Term

/-- The name of a variable in a context of names, the innermost first. -/
def renderVar (names : List String) (i : Nat) : String :=
  match names[i]? with
  | some n =>
    if (names.take i).contains n || n == Variable.anonymousName then n ++ "#" ++ toString i else n
  | none => "#" ++ toString i

/-- Whether a term printed as `s` can stand as an argument without parentheses. -/
def isAtom (t : Term) (s : String) : Bool :=
  match t with
  | .univ _ | .var _ | .hole _ | .nat | .zero | .interval | .left | .right | .pair _ _ | .proj _
    _ | .field _ _ _ => true
  | .ref _ _ | .data _ _ _ | .record _ _ _ => !s.contains ' '
  | .con _ _ _ xs => xs.isEmpty
  | .succ _ => t.number?.isSome
  | _ => false

def atomized (t : Term) (s : String) : String := if t.isAtom s then s else "(" ++ s ++ ")"

def renderHead : BranchHead → String
  | .con c => c.short
  | .zero => "zero"
  | .succ => "suc"

mutual

/-- Prints a term in a context of names, the innermost first. -/
def renderIn (names : List String) : Term → String
  | .univ u => "\\Type " ++ u.render
  | .var i => renderVar names i
  | .ref n _ => n.short
  | .hole m => "?" ++ toString m
  | .lam x _ b => "\\lam " ++ x.var.name ++ " => " ++ renderIn (x.var.name :: names) b
  | .pi x a b =>
    let cod := renderIn (x.var.name :: names) b
    if x.info = .explicit ∧ !b.hasVar 0 then atomized a (renderIn names a) ++ " -> " ++ cod
    else "\\Pi " ++ x.info.wrap (x.var.name ++ " : " ++ renderIn names a) ++ " -> " ++ cod
  | .app f a =>
    let s := renderIn names f
    (match f with
      | .app _ _ => s
      | _ => atomized f s) ++ " " ++ atomized a (renderIn names a)
  | .letIn x _ a b =>
    "\\let " ++ x.var.name ++ " := " ++ renderIn names a ++ " \\in " ++ renderIn
      (x.var.name :: names) b
  | .sigma x a b =>
    "\\Sigma " ++ x.info.wrap (x.var.name ++ " : " ++ renderIn names a) ++ " " ++ renderIn
      (x.var.name :: names) b
  | .pair a b => "(" ++ renderIn names a ++ ", " ++ renderIn names b ++ ")"
  | .proj a .fst => atomized a (renderIn names a) ++ ".1"
  | .proj a .snd => atomized a (renderIn names a) ++ ".2"
  | .data n _ ps => n.short ++ renderArgs names ps
  | .record n _ ps => n.short ++ renderArgs names ps
  | .con n _ _ xs => n.short ++ renderArgs names xs
  | .case a _ bs =>
    "\\case " ++ renderIn names a ++ " \\with \x7b " ++ " ".intercalate
      (renderBranches names bs) ++ " \x7d"
  | .new n _ _ fs => "\\new " ++ n.short ++ " \x7b " ++ " ".intercalate
    (renderFields names fs) ++ " \x7d"
  | .field a n i => atomized a (renderIn names a) ++ "." ++ n.short ++ "#" ++ toString i
  | .nat => "Nat"
  | .zero => "0"
  | .succ a =>
    match numberFrom? a 1 with
    | some n => toString n
    | none => "suc " ++ atomized a (renderIn names a)
  | .natRec _ z s t =>
    "Nat.rec " ++ atomized z (renderIn names z) ++ " " ++ atomized s (renderIn names s) ++ " " ++
      atomized t (renderIn names t)
  | .interval => "I"
  | .left => "left"
  | .right => "right"
  | .path a x y =>
    "Path " ++ atomized a (renderIn names a) ++ " " ++ atomized x (renderIn names x) ++ " " ++
      atomized y (renderIn names y)
  | .pathLam f => "path " ++ atomized f (renderIn names f)
  | .at _ _ p i => "at " ++ atomized p (renderIn names p) ++ " " ++ atomized i (renderIn names i)

def renderArgs (names : List String) : List Term → String
  | [] => ""
  | t :: ts => " " ++ atomized t (renderIn names t) ++ renderArgs names ts

def renderFields (names : List String) : List Term → List String
  | [] => []
  | t :: ts => ("| " ++ renderIn names t) :: renderFields names ts

def renderBranches (names : List String) : List (Branch Term) → List String
  | [] => []
  | ⟨h, ns, b⟩ :: bs =>
    ("| " ++ ns.foldl (fun s n => s ++ " " ++ n) (renderHead h) ++ " => " ++ renderIn
      (ns.reverse ++ names) b) :: renderBranches names bs

end

def render (t : Term) : String := t.renderIn []

end LeveledTypes.Term
