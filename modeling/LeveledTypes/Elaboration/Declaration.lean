import LeveledTypes.Descent
import LeveledTypes.Digest.Blake3
import LeveledTypes.Elaboration.Expression

/-!
# Elaboration of declarations

A declaration is elaborated in parts that may leave holes and constraints behind. When all parts are
there, the constraints and the instance arguments that wait are taken up, the levels are solved, and
every hole has to have a solution. The definitions of a declaration are sealed with digests that
cover the text of the declaration and the definitions it depends on.

The declarations of a module are elaborated one after the other. One that fails leaves no definition
behind, and those that mention it fail too.
-/
namespace LeveledTypes

open Surface

namespace ElaborationState

/-- What is left to be found: instances, solutions of holes, and constraints. -/
def open? (s : ElaborationState) : Nat × Nat × Nat :=
  (s.obligations.length, s.conversion.store.unsolvedCount, s.conversion.store.constraints.length)

end ElaborationState

namespace Elaborator

/-- Takes up the constraints and the instance arguments that wait as long as that helps. It helps if
less is left to be found. -/
def settle (e : Elaborator) (force : Bool) (s : ElaborationState) :
    EStateM.Result Error ElaborationState Unit :=
  let before := s.open?
  let round : Elab Bool := do
    let retried ← converting (Converter.retryConstraints (← e.environment) e.limits)
    let found ← e.resolveObligations force
    return retried || found
  match round s with
  | .error err t => .error err t
  | .ok helped t =>
    if helped ∧ (t.open?.1 < before.1 ∨ t.open?.1 = before.1 ∧
        (t.open?.2.1 < before.2.1 ∨ t.open?.2.1 = before.2.1 ∧ t.open?.2.2 < before.2.2)) then
          e.settle force t
    else .ok () t
termination_by s.open?
decreasing_by
  simp only [Prod.lex_def]
  exact And.right (by assumption)

/-- Finds what is left to be found. Instance arguments whose type has holes wait until nothing else
helps. -/
def solveConstraints (e : Elaborator) : Elab Unit := do
  e.settle false
  e.settle true
  let s ← store
  match s.constraints with
  | k :: _ => fail (.unsolvedConstraint ((s.zonk k.lhs).render ++ " = " ++
    (s.zonk k.rhs).render)) k.span
  | [] => return

/-- The context of a hole and its type, printed. -/
def describeHole (s : Store) (h : Hole) : List (String × String) × String :=
  go (s.zonk h.type) h.arity []
where
  /-- The names are innermost first. -/
  go : Term → Nat → List String → List (String × String) × String
    | .pi x a b, n + 1, names =>
      let (context, type) := go b n (x.var.name :: names)
      ((x.var.name, a.renderIn names) :: context, type)
    | t, _, names => ([], t.renderIn names)

/-- Finds what is left to be found, then solves the levels. A goal of the user is reported before
anything else. -/
def solveAll (e : Elaborator) : Elab Unit := do
  let solved ← try e.solveConstraints; pure none catch err => pure (some err)
  let s ← store
  match (← get).goals.head?.bind fun m => s.holes[m]? with
  | some h =>
    let (context, expected) := describeHole s h
    fail (.goal expected context) h.span
  | none =>
    match solved with
    | some err => throw err
    | none =>
      match s.solveLevels with
      | .ok s => modifyStore fun _ => ((), s)
      | .error err => throw (.ofLevels err)

/-- Refuses terms that have holes left. -/
def ensureSolved (ts : List Term) : Elab Unit := do
  let s ← store
  match ts.findSome? fun t => t.holes.head? with
  | none => return
  | some m =>
    match s.holes[m]? with
    | none => return
    | some h => fail (.unsolvedHole ("?" ++ toString m ++ " : " ++ (describeHole s h).2)) h.span

/-- Elaborates a telescope. Gives the context under it and the universes of the types. -/
def tele (e : Elaborator) (c : Context) :
    Telescope Expr → Elab (Context × Telescope Term × List Universe)
  | [] => return (c, [], [])
  | p :: ps => do
    let (type, u) ← e.inferType c p.type
    let (c, tele, us) ← e.tele (c.push p.toBinder type) ps
    return (c, { p.toBinder with type } :: tele, u :: us)

def zonkTele (s : Store) (tele : Telescope Term) : Telescope Term := tele.map (·.map s.zonk)

def typesOf (tele : Telescope Term) : List Term := tele.map (·.type)

/-- The parameters as implicit ones. -/
def implicitTele (tele : Telescope Term) : Telescope Term :=
  tele.map fun p => { p with info := .implicit }

/-- Makes a definition known before its body is. -/
def announce (span : Span) (name : GlobalName) (tele : Telescope Term) (type : Term) : Elab Unit :=
  modify fun s => { s with own := s.own.insert { span, name, tele, type, body := .pending } }

/-- Elaborates a function. It is announced before its body is elaborated, which may call it. -/
def func (e : Elaborator) (d : Decl) (type : Option Expr) (body : FuncBody) :
    Elab (List Definition) := do
  let (c, tele, _) ← e.tele {} d.tele
  let ret ← match type with
    | some t => pure (← e.inferType c t).1
    | none => freshType c d.span
  announce d.span d.name tele ret
  let body ← match body with
    | .expr x => e.check c x ret
    | .clauses cs =>
      let explicit := (c.entries.zipIdx.filter fun (x, _) => x.binder.info = .explicit).reverse
      e.clauses e.recursion.check c cs
        (explicit.map fun (x, i) => ⟨.var i, x.type.lift (i + 1)⟩) ret d.span
  e.solveAll
  let s ← store
  let tele := zonkTele s tele
  let ret := s.zonk ret
  let body := s.zonk body
  ensureSolved (typesOf tele ++ [ret, body])
  let decreasing ← match Descent.check d.name tele.length body with
    | .notRecursive => pure none
    | .along k => pure (some k)
    | .rejected => fail (.notStructural d.name.short) d.span
  return [{ span := d.span, name := d.name, tele, type := ret, body := .func body decreasing }]

/-- What is elaborated of a constructor: its pattern variables with the index terms, if it is
guarded, and its fields. -/
structure CtorParts where
  guard? : Option (Telescope Term × List Term)
  fields : Telescope Term

namespace CtorParts

def zonk (s : Store) (p : CtorParts) : CtorParts :=
  ⟨p.guard?.map fun (vars, idx) => (zonkTele s vars, idx.map s.zonk), zonkTele s p.fields⟩

def vars (p : CtorParts) : Telescope Term := (p.guard?.map (·.1)).getD []

def indices (p : CtorParts) : List Term := (p.guard?.map (·.2)).getD []

end CtorParts

/-- Elaborates the fields of a constructor, whose universes are bounded by that of the data type. -/
def ctorFields (e : Elaborator) (c : Context) (k : CtorDecl) (u : Universe) :
    Elab (Telescope Term) := do
  let (_, fields, us) ← e.tele c k.tele
  (k.tele.zip us).forM fun (p, v) => universeLe v u p.type.span
  return fields

/-- Elaborates a constructor. One that is guarded sees the variables of its patterns only. -/
def ctorParts (e : Elaborator) (c : Context) (tele : Telescope Term) (u : Universe) (k : CtorDecl) :
    Elab CtorParts := do
  match k.patterns with
  | none => return ⟨none, ← e.ctorFields c k u⟩
  | some ps =>
    let (c, idx) ← e.guardPatterns {} ps tele []
    return ⟨some (c.tele, idx), ← e.ctorFields c k u⟩

/-- The definition of a constructor of the data type `d` with parameters `tele`. -/
def ctorDefinition (d : Decl) (tele : Telescope Term) (k : CtorDecl) (index : Nat) (p : CtorParts) :
    Definition :=
  let m := p.fields.length
  let n := tele.length
  let args := match p.guard? with
    | some (_, idx) => idx.map (·.lift m)
    | none => (List.range n).map fun i => .var (m + n - 1 - i)
  let params := match p.guard? with
    | some (vars, _) => vars
    | none => implicitTele tele
  { span := k.span
    name := k.name
    tele := params ++ p.fields
    type := .data d.name .params args
    body := .constructor d.name index params.length (p.guard?.map (·.2)) }

/-- Elaborates a data type with its constructors, whose fields must be in universes below that of
the type. -/
def data (e : Elaborator) (d : Decl) (univ : Option Expr) (ctors : List CtorDecl) :
    Elab (List Definition) := do
  let (c, tele, _) ← e.tele {} d.tele
  let u ← match univ with
    | none => pure .params
    | some x => do
      let (t, _) ← e.inferType c x
      match ← e.whnf c t x.span with
      | .univ u => pure u
      | _ => fail (.notAType x.render) x.span
  let ret := .univ u
  announce d.span d.name tele ret
  let parts ← ctors.mapM (e.ctorParts c tele u)
  e.solveAll
  let s ← store
  let tele := zonkTele s tele
  let parts := parts.map (·.zonk s)
  ensureSolved (typesOf tele ++ parts.flatMap (fun p => typesOf p.vars ++ typesOf p.fields) ++
    parts.flatMap (·.indices))
  let self :=
    { span := d.span, name := d.name, tele, type := ret, body := .data (ctors.map (·.name)) }
  return self :: ((ctors.zip parts).zipIdx.map fun ((k, p), i) => ctorDefinition d tele k i p)

/-- Elaborates the superclasses of a class; each becomes a hidden instance parameter of what
follows. -/
def superFields (e : Elaborator) (d : Decl) (c : Context) :
    List Expr → Elab (Context × List ClassField)
  | [] => return (c, [])
  | x :: xs => do
    let (type, _) ← e.inferType c x
    let sup := (← e.classType c type x.span).name
    let field :=
      { name := ⟨d.name.text ++ "." ++ sup.short⟩, type, default := none, superclass := some sup }
    let (c, fields) ← e.superFields d (c.push (.named sup.short .inst) type) xs
    return (c, field :: fields)

/-- Elaborates the fields of a class. -/
def ownFields (e : Elaborator) (c : Context) : List FieldDecl → Elab (List ClassField)
  | [] => return []
  | f :: fs => do
    let (type, u) ← e.inferType c f.type
    universeLe u .params f.span
    let default ← match f.default with
      | some x => some <$> e.check c x type
      | none => pure none
    let field := { name := f.name, type, default, superclass := none }
    return field :: (← e.ownFields (c.push ⟨f.var, .explicit⟩ type) fs)

/-- The accessor of a field. It takes the parameters of the class implicitly, and the instance. -/
def accessor (d : Decl) (tele : Telescope Term) (span : Span) (index : Nat) (f : ClassField) :
    Definition :=
  let n := tele.length
  let self : Param Term :=
    { Binder.named "self" .inst with
      type := .record d.name .params ((List.range n).reverse.map .var) }
  let params := (List.range n).map fun k => .var (n - k)
  let before := (List.range index).map fun j => .field (.var 0) d.name j
  { span
    name := f.name
    tele := implicitTele tele ++ [self]
    type := f.type.substAll (params ++ before)
    body := .field d.name index }

/-- Elaborates a class to a record with the fields of its superclasses first, and an accessor for
each field of its own. -/
def cls (e : Elaborator) (d : Decl) (supers : List Expr) (fields : List FieldDecl) :
    Elab (List Definition) := do
  let (c, tele, _) ← e.tele {} d.tele
  let (c, hidden) ← e.superFields d c supers
  let own ← e.ownFields c fields
  e.solveAll
  let s ← store
  let tele := zonkTele s tele
  let all := (hidden ++ own).map fun f =>
    { f with type := s.zonk f.type, default := f.default.map s.zonk }
  ensureSolved (typesOf tele ++ all.map (·.type) ++ all.filterMap (·.default))
  let accessors := ((all.zipIdx.drop hidden.length).zip fields).map fun ((f, i), k) =>
    accessor d tele k.span i f
  let self :=
    { span := d.span, name := d.name, tele, type := .univ .params, body :=
      .cls all (hidden.filterMap (·.superclass)) }
  return self :: accessors

/-- Elaborates an instance to a new object of its class. -/
def inst (e : Elaborator) (d : Decl) (x : Expr) (is : List (Implementation Expr)) :
    Elab (List Definition) := do
  let (c, tele, _) ← e.tele {} d.tele
  let (type, _) ← e.inferType c x
  let k ← e.classType c type x.span
  let values ← e.recursion.implementations e c k is d.span
  e.solveAll
  let s ← store
  let tele := zonkTele s tele
  let ret := s.zonk k.term
  let body := s.zonk (.new k.name k.univ k.params values)
  ensureSolved (typesOf tele ++ [ret, body])
  return [{ span := d.span, name := d.name, tele, type := ret, body := .inst k.name body }]

/-- Elaborates a declaration. -/
def decl (e : Elaborator) (d : Decl) : Elab (List Definition) :=
  match d.body with
  | .func type body => e.func d type body
  | .data univ ctors => e.data d univ ctors
  | .cls supers fields => e.cls d supers fields
  | .inst x is => e.inst d x is

end Elaborator

/-- Fills in dependencies and digests. All definitions of a declaration share the digest of its text
and of what they depend on. -/
def sealGroup (env : Environment) (source : String) (ds : List Definition) : List Definition :=
  let ds := ds.map fun d => d.nameOnly.withDeps
  let group := ds.map (·.name)
  let deps := GlobalName.sortUnique (ds.flatMap fun d => d.deps.filter fun n => !group.contains n)
  let shared := Digest.withDeps source.toUTF8 (deps.filterMap fun n => (env.get? n).map (·.digest))
  ds.map fun d => { d with digest := Digest.withDeps d.name.text.toUTF8 [shared] }

/-- What the declarations of a module have brought so far. -/
structure Progress where
  own : Registry := {}
  memo : Memo := {}
  warnings : List Warning := []
  /-- The names of declarations that failed. -/
  failed : List GlobalName := []
deriving Inhabited

namespace Progress

/-- Notes declarations that failed, also such as were never elaborated. -/
def poison (p : Progress) (ns : List GlobalName) : Progress := { p with failed := p.failed ++ ns }

/-- Elaborates one declaration of the module with the given text. -/
def add (base : Registry) (limits : Limits) (text : String) (p : Progress) (d : Decl) :
    Except Error (List Definition) × Progress :=
  match d.globals.find? fun (n, _) => p.failed.contains n with
  | some (n, span) => (.error (.located (.dependencyFailed d.name.short n.short) span),
    p.poison d.names)
  | none =>
    let ⟨own, memo, warnings, failed⟩ := p
    match Elaborator.decl ⟨base, limits, d.names⟩ d { own, conversion := { memo }, warnings } with
    | .ok ds s =>
      let ds := sealGroup ⟨base, s.own⟩ (d.source text) ds
      (.ok ds, ⟨s.own.insertAll ds, s.conversion.memo, s.warnings, failed⟩)
    | .error err s => (.error err,
      ⟨s.own.eraseAll d.names, s.conversion.memo, s.warnings, failed ++ d.names⟩)

end Progress

end LeveledTypes
