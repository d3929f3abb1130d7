import LeveledTypes.Conversion

/-!
# The state of an elaboration

Elaboration turns expressions into core terms and leaves holes where something has to be found. It
runs in a context of typed variables over the definitions made so far, and keeps the holes, the
instance arguments that wait for their class to be known, and the goals of the user. Patterns bind
variables that stand for terms of the context; these are not in the context themselves, and are
called aliases.
-/
namespace LeveledTypes

/-- A variable of the context. -/
structure Entry where
  binder : Binder
  type : Term
  value : Option Term := none
deriving Inhabited

/-- A pattern variable: the term it stands for, its type, and the length of the context these were
made in. -/
structure Alias where
  value : Term
  type : Term
  depth : Nat
deriving Inhabited

/-- What local variables mean. The entries are innermost first; each type is over the entries behind
it. -/
structure Context where
  entries : List Entry := []
  aliases : List (Variable × Alias) := []
deriving Inhabited

namespace Context

def length (c : Context) : Nat := c.entries.length

def push (c : Context) (x : Binder) (type : Term) (value : Option Term := none) : Context :=
  { c with entries := ⟨x, type, value⟩ :: c.entries }

def pushTele (c : Context) (tele : Telescope Term) : Context :=
  tele.foldl (fun c p => c.push p.toBinder p.type) c

/-- The entries as parameters, outermost first. -/
def tele (c : Context) : Telescope Term :=
  c.entries.reverse.map fun e => { toBinder := e.binder, type := e.type }

def locals (c : Context) : Locals := c.entries.map (·.value)

/-- The names of the variables, the innermost first. -/
def names (c : Context) : List String := c.entries.map (·.binder.var.name)

def addAlias (c : Context) (v : Variable) (a : Alias) : Context :=
  { c with aliases := (v, a) :: c.aliases }

/-- A variable as a term with its type; variables of the context come before aliases. -/
def lookup? (c : Context) (v : Variable) : Option (Term × Term) :=
  match c.entries.findIdx? fun e => e.binder.var.same v with
  | some i => (c.entries[i]?).map fun e => (.var i, e.type.lift (i + 1))
  | none =>
    (c.aliases.find? fun p => p.1.same v).map fun (_, a) =>
      (a.value.lift (c.length - a.depth), a.type.lift (c.length - a.depth))

end Context

/-- An instance argument that waits for its class to be known, with the context it was made in. -/
structure Obligation where
  hole : Nat
  context : Context
  span : Span
deriving Inhabited

/-- What the elaboration of a declaration changes. -/
structure ElaborationState where
  /-- The definitions of the module. -/
  own : Registry := {}
  conversion : ConversionState := {}
  obligations : List Obligation := []
  /-- The holes that the user asks about. -/
  goals : List Nat := []
  warnings : List Warning := []
deriving Inhabited

abbrev Elab := EStateM Error ElaborationState

/-- What does not change during the elaboration of a declaration. -/
structure Elaborator where
  base : Registry
  limits : Limits
  /-- The names that the declaration introduces. They are mentioned at its own level parameters. -/
  current : List GlobalName := []
deriving Inhabited

/-- A class at a universe and at parameters. -/
structure ClassType where
  name : GlobalName
  univ : Universe
  params : List Term
deriving Inhabited

namespace ClassType

def term (c : ClassType) : Term := .record c.name c.univ c.params

/-- Instantiates the type or the default of a field, given the values of the fields before it. -/
def instantiate (c : ClassType) (fields : List Term) (t : Term) : Term :=
  (t.substLevels c.univ).substAll (c.params ++ fields)

end ClassType

namespace Elaborator

def fail (p : Problem) (span : Span) : Elab α := throw (.located p span)

def mismatch (expected actual : String) (span : Span) : Elab α :=
  throw (.mismatch expected actual span)

def store : Elab Store := return (← get).conversion.store

def modifyStore (f : Store → α × Store) : Elab α :=
  fun ⟨own, ⟨store, memo⟩, obligations, goals, warnings⟩ =>
  let (x, store) := f store
  .ok x ⟨own, ⟨store, memo⟩, obligations, goals, warnings⟩

def environment (e : Elaborator) : Elab Environment := return ⟨e.base, (← get).own⟩

/-- Runs a conversion over the present store. -/
def converting (f : Convert α) : Elab α := fun ⟨own, conversion, obligations, goals, warnings⟩ =>
  match f conversion with
  | .ok x conversion => .ok x ⟨own, conversion, obligations, goals, warnings⟩
  | .error err conversion => .error err ⟨own, conversion, obligations, goals, warnings⟩

def converter (e : Elaborator) (c : Context) (span : Span) : Elab Converter :=
  return ⟨← e.environment, c.locals, e.limits, span⟩

def whnf (e : Elaborator) (c : Context) (t : Term) (span : Span) : Elab Term := do
  let k ← e.converter c span
  converting (k.whnf 0 t)

/-- Prints a term with its holes filled. -/
def shown (c : Context) (t : Term) : Elab String := return ((← store).zonk t).renderIn c.names

/-- Compares two terms. Terms that differ anywhere are reported as a whole, in the state the
comparison ends in. -/
def convert (e : Elaborator) (c : Context) (cmp : Comparison) (lhs rhs : Term)
    (span : Span) : Elab Unit := do
  let k ← e.converter c span
  try converting (k.convert cmp lhs rhs)
  catch
    | .located (.mismatch _ _) _ => do mismatch (← shown c rhs) (← shown c lhs) span
    | err => throw err

def unify (e : Elaborator) (c : Context) (lhs rhs : Term) (span : Span) : Elab Unit :=
  e.convert c .eq lhs rhs span

/-- Compares an actual type with the expected one, which may be larger. -/
def subtype (e : Elaborator) (c : Context) (actual expected : Term) (span : Span) : Elab Unit :=
  e.convert c .le actual expected span

def fresh (c : Context) (type : Term) (kind : HoleKind) (span : Span) : Elab Term :=
  modifyStore fun s => s.fresh c.tele type kind span

def freshUniverse : Elab Universe := modifyStore Store.freshUniverse

/-- A hole for a type, in a fresh universe. -/
def freshType (c : Context) (span : Span) : Elab Term := do
  fresh c (.univ (← freshUniverse)) .implicit span

/-- A hole that the user asks about. -/
def goal (c : Context) (type : Term) (span : Span) : Elab Term := do
  let t ← fresh c type .goal span
  modify fun s => { s with goals := s.goals ++ t.headHole?.toList }
  return t

/-- The class that a type is an instance of. -/
def classType (e : Elaborator) (c : Context) (type : Term) (span : Span) : Elab ClassType := do
  match ← e.whnf c type span with
  | .record n u ps => return ⟨n, u, ps⟩
  | t => mismatch "a class" (← shown c t) span

/-- An argument that was left out: a hole, which waits for instance search if it is an instance
argument. -/
def implicitArg (e : Elaborator) (c : Context) (type : Term) (info : BinderInfo)
    (span : Span) : Elab Term := do
  if info ≠ .inst then fresh c type .implicit span
  else
    let cls ← e.classType c type span
    let t ← fresh c type (.inst cls.name) span
    modify fun s =>
      { s with obligations := s.obligations ++ t.headHole?.toList.map fun m => ⟨m, c, span⟩ }
    return t

def classFields (e : Elaborator) (n : GlobalName) : Elab (List ClassField) :=
  return (← e.environment).classFields n

/-- Demands that a universe is at most another one. -/
def universeLe (u v : Universe) (span : Span) : Elab Unit := do
  match ← modifyStore fun s =>
    let (s, err) := s.addUniverse .le u v span
    (err, s) with
  | none => return
  | some err => throw (.ofLevels err)

/-- A universe above two others: the larger one if both are known, or a fresh one. -/
def maxUniverse (u v : Universe) (span : Span) : Elab Universe := do
  if u = v then return u
  match u, v with
  | ⟨.const a, .const b⟩, ⟨.const c, .const d⟩ => return ⟨.const (max a c), .const (max b d)⟩
  | _, _ => do
    let w ← freshUniverse
    universeLe u w span
    universeLe v w span
    return w

/-- A global with its type, at fresh levels unless it is being defined. -/
def global (e : Elaborator) (n : GlobalName) (span : Span) : Elab (Term × Term) := do
  let u ← if e.current.contains n then pure .params else freshUniverse
  match (← e.environment).get? n with
  | some d => return (.ref n u, d.fullType u)
  | none => fail (.unresolvedName n.short) span

def localVar (c : Context) (v : Variable) (span : Span) : Elab (Term × Term) :=
  match c.lookup? v with
  | some r => return r
  | none => fail (.unresolvedName v.name) span

end Elaborator

end LeveledTypes
