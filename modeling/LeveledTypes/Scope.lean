import LeveledTypes.Error
import LeveledTypes.Registry
import LeveledTypes.Surface.Basic
import Std.Data.ExtHashMap
import Std.Data.HashSet

/-!
# Scopes

Names are resolved lexically: a name stands for the innermost binder of that name around it, or else
for the one global of that short name that is visible, where a global of the module itself comes
before those it imports. A name in a pattern stands for a visible constructor of that name, or else
binds a new variable. The local variables in scope are kept in one map: a binder enters its variable
for as long as its body is resolved, and then puts back what the name stood for.
-/
namespace LeveledTypes

open Surface

/-- The globals that a module sees, by their short names in the order in which they came into
scope. -/
structure Scope where
  globals : Std.HashMap String (List GlobalName) := {}
  ctors : Std.HashSet GlobalName := {}

namespace Scope

/-- Brings a global into scope under its short name, behind those that have the name already. -/
def declare (s : Scope) (n : GlobalName) (isCtor : Bool) : Scope :=
  let ns := s.globals.getD n.short []
  { globals := if ns.contains n then s.globals else s.globals.insert n.short (ns ++ [n])
    ctors := if isCtor then s.ctors.insert n else s.ctors }

def isConstructor (d : Definition) : Bool :=
  match d.body with
  | .constructor _ _ _ _ | .primitive .zero | .primitive .succ => true
  | _ => false

/-- Brings definitions of other modules into scope. -/
def importAll (s : Scope) (ds : List Definition) : Scope :=
  ds.foldl (fun s d => s.declare d.name (isConstructor d)) s

/-- Brings what a declaration introduces into scope. -/
def declareDecl (s : Scope) (d : Decl) : Scope :=
  let isData := match d.body with
    | .data _ _ => true
    | _ => false
  d.names.tail.foldl (fun s n => s.declare n isData) (s.declare d.name false)

end Scope

/-- What names are resolved in: the module and the globals that it sees. -/
structure Resolver where
  module : String
  scope : Scope

namespace Resolver

/-- What a map asks of its keys, found once for names. -/
instance (priority := 2000) : EquivBEq String := inferInstance

instance (priority := 2000) : LawfulHashable String := inferInstance

/-- The local variables that names stand for. -/
abbrev Locals := Std.ExtHashMap String Variable

/-- What changes during resolution: the local variables in scope, and the number of variables made
so far. -/
structure State where
  locals : Locals := ∅
  next : Nat

abbrev Resolve := EStateM Error State

def fail (p : Problem) (span : Span) : Resolve α := throw (.located p span)

def newVariable (name : String) : Resolve Variable :=
  fun s => .ok ⟨name, s.next⟩ { s with next := s.next + 1 }

/-- A variable comes into scope, unless it has no name. -/
def bind (ls : Locals) (v : Variable) : Locals := if v.isNamed then ls.insert v.name v else ls

def bindAll (ls : Locals) (vs : List Variable) : Locals := vs.foldl bind ls

/-- A name stands again for what it stood for. -/
def putBack (ls : Locals) : String × Option Variable → Locals
  | (n, some v) => ls.insert n v
  | (n, none) => ls.erase n

def modifyLocals (f : Locals → Locals) : Resolve Unit :=
  modify fun s => { s with locals := f s.locals }

/-- Runs with variables in scope. However that ends, their names stand again for what they stood
for. -/
def bodied (vs : List Variable) (x : Resolve α) : Resolve α := fun s =>
  let olds := vs.map fun v => (v.name, s.locals[v.name]?)
  let restore (s' : State) : State := { s' with locals := olds.reverse.foldl putBack s'.locals }
  match x { s with locals := bindAll s.locals vs } with
  | .ok a s' => .ok a (restore s')
  | .error e s' => .error e (restore s')

/-- Runs, and puts all local variables back however that ends. -/
def saving (x : Resolve α) : Resolve α := fun s =>
  match x s with
  | .ok a s' => .ok a { s' with locals := s.locals }
  | .error e s' => .error e { s' with locals := s.locals }

/-- The globals that a short name may stand for. -/
def candidates (r : Resolver) (n : String) : List GlobalName :=
  let all := r.scope.globals.getD n []
  match all.find? fun g => g.module == r.module with
  | some own => [own]
  | none => all

/-- The global that a name stands for: the only candidate. -/
def global (r : Resolver) (span : Span) (n : String) : Resolve GlobalName :=
  match r.candidates n with
  | [] => fail (.unresolvedName n) span
  | [g] => return g
  | gs => fail (.duplicateName (n ++ " (from " ++ ", ".intercalate (gs.map (·.module)) ++ ")")) span

def ctor? (r : Resolver) (n : String) : Option GlobalName :=
  (r.candidates n).find? fun g => r.scope.ctors.contains g

mutual

/-- Resolves a pattern, and adds the variables it binds to a list. -/
def pattern (r : Resolver) : Pattern → List Variable → Resolve (Pattern × List Variable)
  | .name span n args, vs =>
    match r.ctor? n, args with
    | some c, args => do
      let (args, vs) ← patternAll r args vs
      return (.con span c args, vs)
    | none, [] => do
      if vs.any (·.name == n) then fail (.duplicateName n) span
      let v ← newVariable n
      return (.var span v, vs ++ [v])
    | none, _ :: _ => fail (.unresolvedName n) span
  | .con span c args, vs => do
    let (args, vs) ← patternAll r args vs
    return (.con span c args, vs)
  | .var span v, vs => return (.var span v, vs)
  | .num span n, vs => return (.num span n, vs)
  | .absurd span, vs => return (.absurd span, vs)

/-- Resolves patterns from left to right, with the variables that they bind. -/
def patternAll (r : Resolver) :
    List Pattern → List Variable → Resolve (List Pattern × List Variable)
  | [], vs => return ([], vs)
  | p :: ps, vs => do
    let (p, vs) ← pattern r p vs
    let (ps, vs) ← patternAll r ps vs
    return (p :: ps, vs)

end

mutual

/-- Resolves the names of an expression; a local variable hides a global. -/
def expr (r : Resolver) : Expr → Resolve Expr
  | .name span n => do
    match (← get).locals[n]? with
    | some v => return .localVar span v
    | none => return .globalRef span (← r.global span n)
  | .pi span x a b => return .pi span x (← expr r a) (← bodied [x.var] (expr r b))
  | .lam span x a b => return .lam span x (← expr r a) (← bodied [x.var] (expr r b))
  | .sigma span x a b => return .sigma span x (← expr r a) (← bodied [x.var] (expr r b))
  | .app span f i a => return .app span (← expr r f) i (← expr r a)
  | .letIn span v t a b =>
    return .letIn span v (← exprOption r t) (← expr r a) (← bodied [v] (expr r b))
  | .pair span a b => return .pair span (← expr r a) (← expr r b)
  | .proj span a s => return .proj span (← expr r a) s
  | .case span a v t cs =>
    return .case span (← expr r a) v (← bodied [v] (exprOption r t)) (← clauses r cs)
  | .new span c is => return .new span (← expr r c) (← impls r is)
  | .localVar span v => return .localVar span v
  | .globalRef span n => return .globalRef span n
  | .univ span p h => return .univ span p h
  | .num span n => return .num span n
  | .hole span => return .hole span
  | .goal span => return .goal span

def exprOption (r : Resolver) : Option Expr → Resolve (Option Expr)
  | some e => return some (← expr r e)
  | none => return none

/-- Resolves clauses, each of which binds variables for its own right-hand side. -/
def clauses (r : Resolver) : List (Clause Expr) → Resolve (List (Clause Expr))
  | [] => return []
  | ⟨span, ps, e⟩ :: cs => do
    let (ps, vs) ← patternAll r ps []
    let e ← bodied vs (exprOption r e)
    return ⟨span, ps, e⟩ :: (← clauses r cs)

def impls (r : Resolver) : List (Implementation Expr) → Resolve (List (Implementation Expr))
  | [] => return []
  | ⟨span, n, e⟩ :: is => return ⟨span, n, ← expr r e⟩ :: (← impls r is)

end

/-- Resolves a telescope, and leaves its variables in scope. -/
def tele (r : Resolver) : Telescope Expr → Resolve (Telescope Expr)
  | [] => return []
  | p :: ps => do
    let type ← r.expr p.type
    modifyLocals (bind · p.var)
    return { p with type } :: (← r.tele ps)

/-- Resolves a constructor. One that is guarded by patterns sees their variables instead of the
parameters of the data type. -/
def guardedCtor (r : Resolver) (params : Telescope Expr) (c : CtorDecl) : Resolve CtorDecl :=
  match c.patterns with
  | none => return { c with tele := ← r.tele c.tele }
  | some ps => do
    if ps.length ≠ params.length then
      let count (n : Nat) := toString n ++ " patterns"
      fail (.mismatch (count params.length) (count ps.length)) c.span
    modifyLocals fun ls => params.foldl (fun ls p => ls.erase p.var.name) ls
    let (ps, vs) ← r.patternAll ps []
    modifyLocals (bindAll · vs)
    return { c with patterns := some ps, tele := ← r.tele c.tele }

def ctorDecl (r : Resolver) (params : Telescope Expr) (c : CtorDecl) : Resolve CtorDecl :=
  saving (r.guardedCtor params c)

/-- Resolves class fields; each comes into scope for those behind it. -/
def fields (r : Resolver) : List FieldDecl → Resolve (List FieldDecl)
  | [] => return []
  | f :: fs => do
    let type ← r.expr f.type
    let default ← r.exprOption f.default
    modifyLocals (bind · f.var)
    return { f with type, default } :: (← r.fields fs)

/-- The parameters that clauses match are reached through the patterns only. -/
def hideMatched (tele : Telescope Expr) (ls : Locals) : Locals :=
  tele.foldl (fun ls p => if p.isExplicit ∧
    ls[p.var.name]?.any p.var.same then ls.erase p.var.name else ls) ls

/-- Resolves a declaration, whose parameters are bound in all of its body. -/
def decl (r : Resolver) (d : Decl) : Resolve Decl := do
  let tele ← r.tele d.tele
  let body ← match d.body with
    | .func type body => do
      let type ← r.exprOption type
      match body with
      | .expr e => pure (.func type (.expr (← r.expr e)))
      | .clauses cs => do
        modifyLocals (hideMatched tele)
        pure (.func type (.clauses (← r.clauses cs)))
    | .data univ cs => pure (.data (← r.exprOption univ) (← cs.mapM (r.ctorDecl tele)))
    | .cls supers fs => pure (.cls (← supers.mapM r.expr) (← r.fields fs))
    | .inst c is => pure (.inst (← r.expr c) (← r.impls is))
  return { d with tele, body }

/-- The first name of a list that a declaration of the module has introduced before, and all names
introduced then. -/
def introduce : List GlobalName → List GlobalName → Option GlobalName × List GlobalName
  | own, [] => (none, own)
  | own, n :: ns => if own.contains n then (some n, own) else introduce (n :: own) ns

/-- Resolves the declarations of a module one by one, so that one failure does not hide the
others. -/
def decls (r : Resolver) (own : List GlobalName) (s : State) : List Decl → List (Except Error Decl)
  | [] => []
  | d :: ds =>
    match introduce own d.names with
    | (some n, own) => .error (.located (.duplicateName n.short) d.span) :: r.decls own s ds
    | (none, own) =>
      let r := { r with scope := r.scope.declareDecl d }
      match saving (r.decl d) s with
      | .ok d s => .ok d :: r.decls own s ds
      | .error e s => .error e :: r.decls own s ds

end Resolver

/-- Resolves the declarations of a module that sees the given scope. -/
def Surface.Module.resolve (m : Surface.Module) (scope : Scope) : List (Except Error Decl) :=
  Resolver.decls ⟨m.name, scope⟩ [] { next := m.variableCount } m.decls

end LeveledTypes
