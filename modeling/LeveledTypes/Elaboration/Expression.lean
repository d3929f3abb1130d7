import LeveledTypes.Elaboration.Instance
import LeveledTypes.Elaboration.Matching

/-!
# Elaboration of expressions

An expression is checked against a type or its type is inferred. Arguments that are left out become
holes; where a function with implicit parameters is expected, the abstraction over them is added.
Both directions recurse on a bound for the nesting of calls, because an expected type may bring in
any number of implicit parameters.
-/
namespace LeveledTypes.Elaborator

open Surface

/-- How to elaborate the parts of an expression. -/
structure Recursion where
  check : Context → Expr → Term → Elab Term
  infer : Context → Expr → Elab Typed

def levelOf (l : Option LevelExpr) : Level := (l.map LevelExpr.toLevel).getD .param

namespace Recursion

/-- Elaborates a type and finds its universe. -/
def inferType (r : Recursion) (e : Elaborator) (c : Context) (x : Expr) :
    Elab (Term × Universe) := do
  let ⟨t, type⟩ ← r.infer c x
  match ← e.whnf c type x.span with
  | .univ u => return (t, u)
  | k =>
    if k.headHole?.isNone then fail (.notAType x.render) x.span
    let u ← freshUniverse
    e.unify c k (.univ u) x.span
    return (t, u)

/-- Elaborates the value of a local definition, whose type may be left out. -/
def letValue (r : Recursion) (e : Elaborator) (c : Context) (type : Option Expr) (value : Expr) :
    Elab Typed := do
  match type with
  | some t => do
    let (t, _) ← r.inferType e c t
    return ⟨← r.check c value t, t⟩
  | none => r.infer c value

/-- Elaborates a case split on an expression: clauses over one variable that stands for it. Without
a return type, the expected type is the type of the branches, or a hole if there is none. -/
def case (r : Recursion) (e : Elaborator) (c : Context) (scrut : Expr) (v : Variable)
    (ret : Option Expr) (cs : List (Clause Expr)) (expected : Option Term) (span : Span) :
    Elab Typed := do
  let ⟨s, type⟩ ← r.infer c scrut
  let outer ← match ret, expected with
    | some _, _ => pure none
    | none, some t => pure (some t)
    | none, none => some <$> freshType c span
  let d := c.push ⟨v, .explicit⟩ type
  let goal ← match ret, outer with
    | some t, _ => pure (← r.inferType e d t).1
    | none, some t => pure (t.lift 1)
    | none, none => freshType d span
  let body ← e.clauses r.check d cs [⟨.var 0, type.lift 1⟩] goal span
  let result := goal.subst s
  match ret, expected with
  | some _, some t => e.subtype c result t span
  | _, _ => pure ()
  return ⟨body.subst s, result⟩

/-- Applies a function to an argument, and to holes for the implicit parameters before it. -/
def apply (r : Recursion) (e : Elaborator) (c : Context) (f : Expr) (info : BinderInfo)
    (x : Expr) (span : Span) : Nat → Typed → Elab Typed
  | 0, _ => fail .nestingLimit span
  | gas + 1, ⟨t, type⟩ => do
    match ← e.whnf c type span with
    | .pi q dom cod =>
      if q.info = info then
        let x ← r.check c x dom
        return ⟨.app t x, cod.subst x⟩
      else if q.info ≠ .explicit ∧ info = .explicit then
        let a ← e.implicitArg c dom q.info span
        r.apply e c f info x span gas ⟨.app t a, cod.subst a⟩
      else mismatch (q.info.wrap Variable.anonymousName) (info.wrap x.render) x.span
    | k =>
      if k.headHole?.isNone then fail (.notAFunction f.render) f.span
      let b := Binder.named "x" info
      let dom ← freshType c span
      let cod ← freshType (c.push b dom) span
      e.unify c k (.pi b dom cod) span
      r.apply e c f info x span gas ⟨t, .pi b dom cod⟩

/-- Whether implementations name a field of a class or of its superclasses, up to a depth. -/
def implements (env : Environment) (is : List (Implementation Expr)) : Nat → GlobalName → Bool
  | 0, _ => false
  | n + 1, c => (env.classFields c).any fun f =>
    match f.superclass with
    | some s => implements env is n s
    | none => is.any fun i => i.name == f.name.short

/-- The values of the fields of a class, in order: those implemented, defaults, and instances of
superclasses. Also gives the places of the implementations that were used. -/
def fields (r : Recursion) (e : Elaborator) (c : Context)
    (is : List (Implementation Expr)) (span : Span) : Nat → ClassType → Elab (List Term × List Nat)
  | 0, _ => fail .nestingLimit span
  | depth + 1, cls => do
    let env ← e.environment
    (env.classFields cls.name).foldlM (fun (values, used) f => do
      let type := cls.instantiate values f.type
      let (v, here) ← match f.superclass with
        | some s =>
          if implements env is depth s then
            let sup ← e.classType c type span
            let (vs, here) ← r.fields e c is span depth sup
            pure (.new sup.name sup.univ sup.params vs, here)
          else pure (← e.implicitArg c type .inst span, [])
        | none =>
          match is.findIdx? fun i => i.name == f.name.short with
          | some k =>
            match is[k]? with
            | some i => pure (← r.check c i.body type, [k])
            | none => pure (.zero, [])
          | none =>
            match f.default with
            | some d => pure (cls.instantiate values d, [])
            | none => mismatch ("an implementation of " ++ f.name.short) "none" span
      return (values ++ [v], used ++ here)) ([], [])

/-- The values of the fields of a class; every implementation has to be used. -/
def implementations (r : Recursion) (e : Elaborator) (c : Context) (cls : ClassType)
    (is : List (Implementation Expr)) (span : Span) : Elab (List Term) := do
  let depth := (← e.environment).size + 1
  let (values, used) ← r.fields e c is span depth cls
  match is.zipIdx.find? fun (_, k) => !used.contains k with
  | some (i, _) => fail (.unresolvedName i.name) i.span
  | none => return values

end Recursion

/-- Applies a term to holes for its implicit parameters, as long as the expected type has no
parameter of the same kind. -/
def insertImplicits (e : Elaborator) (c : Context) (expected : Term) (span : Span) :
    Nat → Typed → Elab Typed
  | 0, _ => fail .nestingLimit span
  | gas + 1, x => do
    match ← e.whnf c x.type span with
    | .pi q dom cod =>
      let wanted : Bool := match expected with
        | .pi p _ _ => p.info == q.info
        | _ => false
      if q.info = .explicit ∨ wanted then return x
      let a ← e.implicitArg c dom q.info span
      e.insertImplicits c expected span gas ⟨.app x.term a, cod.subst a⟩
    | _ => return x

/-- Infers the type of an expression, given how to elaborate its parts. -/
def inferWith (e : Elaborator) (r : Recursion) (c : Context) (x : Expr) : Elab Typed := do
  let binder (p : Binder) (dom : Expr) (cod : Expr) : Elab (Term × Term × Universe) := do
    let (dom, u) ← r.inferType e c dom
    let (cod, v) ← r.inferType e (c.push p dom) cod
    return (dom, cod, ← maxUniverse u v x.span)
  match x with
  | .name span n => fail (.unresolvedName n) span
  | .localVar span v =>
    let (t, type) ← localVar c v span
    return ⟨t, type⟩
  | .globalRef span n =>
    let (t, type) ← e.global n span
    return ⟨t, type⟩
  | .univ span p h =>
    let u : Universe := ⟨levelOf p, levelOf h⟩
    match u.succ? with
    | some v =>
      if u.p = .top then fail (.inconsistentLevels (.noUniverse u)) span
      return ⟨.univ u, .univ v⟩
    | none => fail (.inconsistentLevels (.noUniverse u)) span
  | .pi _ p a b =>
    let (dom, cod, u) ← binder p a b
    return ⟨.pi p dom cod, .univ u⟩
  | .sigma _ p a b =>
    let (dom, cod, u) ← binder p a b
    return ⟨.sigma p dom cod, .univ u⟩
  | .lam _ p a b =>
    let dom ← match a with
      | .hole span => freshType c span
      | a => pure (← r.inferType e c a).1
    let ⟨body, type⟩ ← r.infer (c.push p dom) b
    return ⟨.lam p dom body, .pi p dom type⟩
  | .app span f info a =>
    r.apply e c f info a span unboundedGas (← r.infer c f)
  | .letIn _ v t a b =>
    let ⟨a, type⟩ ← r.letValue e c t a
    let ⟨body, bodyType⟩ ← r.infer (c.push ⟨v, .explicit⟩ type (some a)) b
    return ⟨.letIn ⟨v, .explicit⟩ type a body, bodyType.subst a⟩
  | .pair _ a b =>
    let ⟨a, s⟩ ← r.infer c a
    let ⟨b, t⟩ ← r.infer c b
    return ⟨.pair a b, .sigma (.named Variable.anonymousName) s (t.lift 1)⟩
  | .proj span a side =>
    let ⟨a, type⟩ ← r.infer c a
    match ← e.whnf c type span, side with
    | .sigma _ s _, .fst => return ⟨.proj a .fst, s⟩
    | .sigma _ _ t, .snd => return ⟨.proj a .snd, t.subst (.proj a .fst)⟩
    | k, _ => mismatch "a \\Sigma type" (← shown c k) span
  | .case span a v t cs => r.case e c a v t cs none span
  | .new span k is =>
    let (k, _) ← r.inferType e c k
    let cls ← e.classType c k span
    let xs ← r.implementations e c cls is span
    return ⟨.new cls.name cls.univ cls.params xs, cls.term⟩
  | .num _ n => return ⟨.numeral n, .nat⟩
  | .hole span =>
    let type ← freshType c span
    return ⟨← fresh c type .implicit span, type⟩
  | .goal span =>
    let type ← freshType c span
    return ⟨← goal c type span, type⟩

/-- Checks an expression against a type that is no function type over parameters of the same
kind. -/
def checkPlain (e : Elaborator) (r : Recursion) (c : Context) (x : Expr)
    (type expected : Term) : Elab Term := do
  match x, expected with
  | .pair _ a b, .sigma _ s t =>
    let a ← r.check c a s
    return .pair a (← r.check c b (t.subst a))
  | .letIn _ v t a b, _ =>
    let ⟨a, s⟩ ← r.letValue e c t a
    return .letIn ⟨v, .explicit⟩ s a (← r.check (c.push ⟨v, .explicit⟩ s (some a)) b (type.lift 1))
  | .case span a v t cs, _ => return (← r.case e c a v t cs (some type) span).term
  | .hole span, _ => fresh c type .implicit span
  | .goal span, _ => goal c type span
  | x, _ =>
    let y ← r.infer c x
    let y ← e.insertImplicits c expected x.span unboundedGas y
    e.subtype c y.type type x.span
    return y.term

/-- Checks an expression against a type, given how to elaborate its parts. -/
def checkWith (e : Elaborator) (r : Recursion) (c : Context) (x : Expr)
    (type : Term) : Elab Term := do
  let expected ← e.whnf c type x.span
  match expected with
  | .pi q dom cod =>
    let implicitLam : Elab Term := return .lam q dom (← r.check (c.push q dom) x cod)
    match x with
    | .lam _ p t b =>
      if p.info = q.info then
        let dom ← match t with
          | .hole _ => pure dom
          | t => do
            let (d, _) ← r.inferType e c t
            e.unify c dom d t.span
            pure d
        return .lam p dom (← r.check (c.push p dom) b cod)
      else if q.info ≠ .explicit then implicitLam
      else e.checkPlain r c x type expected
    | _ => if q.info ≠ .explicit then implicitLam else e.checkPlain r c x type expected
  | _ => e.checkPlain r c x type expected

mutual

def checkGas (e : Elaborator) : Nat → Context → Expr → Term → Elab Term
  | 0, _, x, _ => fail .nestingLimit x.span
  | gas + 1, c, x, type => e.checkWith ⟨e.checkGas gas, e.inferGas gas⟩ c x type

def inferGas (e : Elaborator) : Nat → Context → Expr → Elab Typed
  | 0, _, x => fail .nestingLimit x.span
  | gas + 1, c, x => e.inferWith ⟨e.checkGas gas, e.inferGas gas⟩ c x

end

/-- The elaboration of expressions, to any depth. -/
def recursion (e : Elaborator) : Recursion := ⟨e.checkGas unboundedGas, e.inferGas unboundedGas⟩

/-- Checks an expression against a type. -/
def check (e : Elaborator) (c : Context) (x : Expr) (type : Term) : Elab Term :=
  e.recursion.check c x type

/-- Elaborates an expression and infers its type. -/
def infer (e : Elaborator) (c : Context) (x : Expr) : Elab Typed := e.recursion.infer c x

def inferType (e : Elaborator) (c : Context) (x : Expr) : Elab (Term × Universe) :=
  e.recursion.inferType e c x

end LeveledTypes.Elaborator
