import LeveledTypes.Binder
import LeveledTypes.GlobalName
import LeveledTypes.Level.Expression
import LeveledTypes.Term.Basic
import LeveledTypes.Text.Span

/-!
# Surface syntax

Expressions, patterns and declarations as they are written, each with its place. A name starts out
unresolved and becomes a local variable or a global once its scope is known.
-/
namespace LeveledTypes.Surface

/-- A pattern as it is read. Names in it become variables or constructors when they are resolved. -/
inductive Pattern where
  /-- A name that is not resolved yet, applied to patterns. -/
  | name (span : Span) (n : String) (args : List Pattern)
  | var (span : Span) (v : Variable)
  | con (span : Span) (c : GlobalName) (args : List Pattern)
  | num (span : Span) (n : Nat)
  | absurd (span : Span)
deriving Inhabited

namespace Pattern

/-- The place of a pattern. -/
def span : Pattern → Span
  | .name s _ _ | .var s _ | .con s _ _ | .num s _ | .absurd s => s

mutual

def render : Pattern → String
  | .name _ n ps => GlobalName.short ⟨n⟩ ++ renderAll ps
  | .con _ c ps => c.short ++ renderAll ps
  | .var _ v => v.name
  | .num _ n => toString n
  | .absurd _ => "()"

def renderAll : List Pattern → String
  | [] => ""
  | p :: ps => " (" ++ render p ++ ")" ++ renderAll ps

end

mutual

/-- The constructors of a pattern, from left to right. -/
def globals : Pattern → List (GlobalName × Span)
  | .name _ _ ps => globalsAll ps
  | .con s c ps => (c, s) :: globalsAll ps
  | .var _ _ | .num _ _ | .absurd _ => []

def globalsAll : List Pattern → List (GlobalName × Span)
  | [] => []
  | p :: ps => globals p ++ globalsAll ps

end

end Pattern

/-- A clause; it has no right-hand side if a pattern is absurd. -/
structure Clause (α : Type) where
  span : Span
  patterns : List Pattern
  rhs : Option α

/-- The implementation of a class field. -/
structure Implementation (α : Type) where
  span : Span
  name : String
  body : α

/-- An expression as it is read, or with its names resolved. -/
inductive Expr where
  /-- A name that is not resolved yet. -/
  | name (span : Span) (n : String)
  | localVar (span : Span) (v : Variable)
  | globalRef (span : Span) (n : GlobalName)
  | univ (span : Span) (p h : Option LevelExpr)
  | pi (span : Span) (x : Binder) (dom cod : Expr)
  | lam (span : Span) (x : Binder) (dom body : Expr)
  | app (span : Span) (f : Expr) (info : BinderInfo) (a : Expr)
  | letIn (span : Span) (v : Variable) (type : Option Expr) (value body : Expr)
  | sigma (span : Span) (x : Binder) (dom cod : Expr)
  | pair (span : Span) (a b : Expr)
  | proj (span : Span) (a : Expr) (s : Side)
  | case (span : Span) (scrut : Expr) (v : Variable) (ret : Option Expr)
    (clauses : List (Clause Expr))
  | new (span : Span) (cls : Expr) (impls : List (Implementation Expr))
  | num (span : Span) (n : Nat)
  | hole (span : Span)
  | goal (span : Span)
deriving Inhabited

namespace Expr

/-- The place of an expression. -/
def span : Expr → Span
  | .name s _ | .localVar s _ | .globalRef s _ | .univ s _ _ | .pi s _ _ _ | .lam s _ _
    _ | .app s _ _ _
  | .letIn s _ _ _ _ | .sigma s _ _ _ | .pair s _ _ | .proj s _ _ | .case s _ _ _ _ | .new
    s _ _ | .num s _
  | .hole s | .goal s => s

/-- Function types over a telescope, each at the place of its domain. -/
def pis (tele : Telescope Expr) (e : Expr) : Expr :=
  tele.foldr (fun p b => .pi p.type.span p.toBinder p.type b) e

/-- Functions over a telescope, each at the place of its body. -/
def lams (tele : Telescope Expr) (e : Expr) : Expr :=
  tele.foldr (fun p b => .lam b.span p.toBinder p.type b) e

mutual

/-- The globals that an expression mentions, from left to right. -/
def globals : Expr → List (GlobalName × Span)
  | .globalRef s n => [(n, s)]
  | .pi _ _ a b | .lam _ _ a b | .sigma _ _ a b => globals a ++ globals b
  | .app _ a _ b | .pair _ a b => globals a ++ globals b
  | .letIn _ _ t a b => globalsOption t ++ (globals a ++ globals b)
  | .proj _ a _ => globals a
  | .case _ a _ t cs => globals a ++ (globalsOption t ++ globalsClauses cs)
  | .new _ c is => globals c ++ globalsImpls is
  | .name _ _ | .localVar _ _ | .univ _ _ _ | .num _ _ | .hole _ | .goal _ => []

def globalsOption : Option Expr → List (GlobalName × Span)
  | some e => globals e
  | none => []

def globalsClauses : List (Clause Expr) → List (GlobalName × Span)
  | [] => []
  | ⟨_, ps, e⟩ :: cs => Pattern.globalsAll ps ++ (globalsOption e ++ globalsClauses cs)

def globalsImpls : List (Implementation Expr) → List (GlobalName × Span)
  | [] => []
  | ⟨_, _, e⟩ :: is => globals e ++ globalsImpls is

end

/-- Splits an application into its head and its arguments, in front of further arguments. -/
def spineWith : Expr → List (BinderInfo × Expr) → Expr × List (BinderInfo × Expr)
  | .app _ f i a, args => spineWith f ((i, a) :: args)
  | e, args => (e, args)

def spine (e : Expr) : Expr × List (BinderInfo × Expr) := spineWith e []

/-- Prints an expression for a message: clauses and implementations are left out. -/
def render : Expr → String
  | .name _ n => n
  | .localVar _ v => v.name
  | .globalRef _ n => n.short
  | .univ _ _ _ => "\\Type"
  | .pi _ x a b => "\\Pi " ++ x.info.wrap (x.var.name ++ " : " ++ render a) ++ " -> " ++ render b
  | .lam _ x _ b => "\\lam " ++ x.info.wrap x.var.name ++ " => " ++ render b
  | .app _ f .explicit a => render f ++ " (" ++ render a ++ ")"
  | .app _ f _ a => render f ++ " \x7b" ++ render a ++ "\x7d"
  | .letIn _ v _ a b => "\\let " ++ v.name ++ " => " ++ render a ++ " \\in " ++ render b
  | .sigma _ x a b => "\\Sigma " ++ x.info.wrap (x.var.name ++ " : " ++ render a) ++
    " (" ++ render b ++ ")"
  | .pair _ a b => "(" ++ render a ++ ", " ++ render b ++ ")"
  | .proj _ a .fst => "(" ++ render a ++ ").1"
  | .proj _ a .snd => "(" ++ render a ++ ").2"
  | .case _ a _ _ _ => "\\case " ++ render a ++ " \\with \x7b ... \x7d"
  | .new _ c _ => "\\new " ++ render c ++ " \x7b ... \x7d"
  | .num _ n => toString n
  | .hole _ => "_"
  | .goal _ => "\x7b?\x7d"

end Expr

/-- What a function is defined by. -/
inductive FuncBody where
  | expr (e : Expr)
  | clauses (cs : List (Clause Expr))
deriving Inhabited

/-- A constructor of a data type. -/
structure CtorDecl where
  span : Span
  name : GlobalName
  /-- Patterns over all parameters of the data type, if the constructor builds only the instances
  they match. -/
  patterns : Option (List Pattern)
  tele : Telescope Expr

/-- A field of a class. -/
structure FieldDecl where
  span : Span
  name : GlobalName
  /-- The variable that stands for the field in the rest of the class. -/
  var : Variable
  type : Expr
  default : Option Expr

/-- What a declaration declares. -/
inductive DeclBody where
  | func (type : Option Expr) (body : FuncBody)
  | data (univ : Option Expr) (ctors : List CtorDecl)
  | cls (supers : List Expr) (fields : List FieldDecl)
  | inst (cls : Expr) (impls : List (Implementation Expr))
deriving Inhabited

/-- A declaration with its parameters. -/
structure Decl where
  span : Span
  name : GlobalName
  tele : Telescope Expr
  body : DeclBody
deriving Inhabited

namespace Decl

/-- The globals that a declaration introduces, itself first. -/
def names (d : Decl) : List GlobalName :=
  d.name :: match d.body with
    | .data _ cs => cs.map (·.name)
    | .cls _ fs => fs.map (·.name)
    | _ => []

def teleGlobals (tele : Telescope Expr) : List (GlobalName × Span) :=
  tele.flatMap fun p => p.type.globals

/-- The globals that a declaration mentions other than its own, in the order of the text. -/
def globals (d : Decl) : List (GlobalName × Span) :=
  let all := teleGlobals d.tele ++ match d.body with
    | .func t b => Expr.globalsOption t ++ match b with
      | .expr e => e.globals
      | .clauses cs => Expr.globalsClauses cs
    | .data u cs =>
      Expr.globalsOption u ++ cs.flatMap fun c => Pattern.globalsAll (c.patterns.getD []) ++
        teleGlobals c.tele
    | .cls ss fs => ss.flatMap Expr.globals ++ fs.flatMap fun f =>
      f.type.globals ++ Expr.globalsOption f.default
    | .inst c is => c.globals ++ Expr.globalsImpls is
  let own := d.names
  all.filter fun (n, _) => !own.contains n

/-- The part of the text of a module that a declaration takes up. -/
def source (d : Decl) (text : String) : String :=
  match String.fromUTF8? (text.toUTF8.extract d.span.start d.span.stop) with
  | some s => s
  | none => ""

end Decl

structure Import where
  span : Span
  module : String
deriving Inhabited

/-- A module that has been read. Its variables have identities below `variableCount`. -/
structure Module where
  name : String
  imports : List Import
  decls : List Decl
  variableCount : Nat
deriving Inhabited

end LeveledTypes.Surface
