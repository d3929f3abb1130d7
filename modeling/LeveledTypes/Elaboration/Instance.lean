import LeveledTypes.Elaboration.Basic

/-!
# Instance search

An instance of a class is found among the instance parameters of the context, directly or through
the superclasses of their classes, the innermost parameter first. If none of these fits, exactly one
global instance has to: an instance of the class itself, or, if the class has no instances, an
instance of a class that extends it. A global instance fits if its type unifies with the goal and
all its own instance arguments can be found. A candidate that does not fit leaves no trace in the
store of holes.
-/
namespace LeveledTypes

/-- The hidden fields that lead from an instance of a class to one of a superclass, each with its
class. -/
abbrev SuperclassPath := List (GlobalName × Nat)

/-- A term together with its type. -/
structure Typed where
  term : Term
  type : Term
deriving Inhabited

namespace Environment

/-- The classes that are still to be visited, the next one first, with the way back to the class
sought, and all classes seen so far. -/
structure SubclassWalk where
  pending : List (GlobalName × SuperclassPath)
  seen : List GlobalName
  found : List (GlobalName × SuperclassPath) := []

/-- Visits one class that extends the class `c`. -/
def SubclassWalk.visit (e : Environment) (c : GlobalName) (path : SuperclassPath) (w : SubclassWalk)
    (sub : GlobalName) : SubclassWalk :=
  if w.seen.contains sub then w
  else
    let w := { w with seen := sub :: w.seen }
    match (e.classFields sub).findIdx? fun f => f.superclass = some c with
    | none => w
    | some i =>
      let path := (sub, i) :: path
      { w with
        pending := (sub, path) :: w.pending
        found := w.found ++ (e.instancesOf sub).map fun n => (n, path) }

/-- Walks on through a number of classes. -/
def SubclassWalk.run (e : Environment) : Nat → SubclassWalk → SubclassWalk
  | 0, w => w
  | n + 1, w =>
    match w.pending with
    | [] => w
    | (c, path) :: pending => run e n ((e.subclassesOf c).foldl (visit e c path) { w with pending })

/-- The instances of all classes that extend a class, with the way back to it. Each definition is
visited at most once. -/
def inheritedInstances (e : Environment) (c : GlobalName) : List (GlobalName × SuperclassPath) :=
  (SubclassWalk.run e (e.size + 1) ⟨[(c, [])], [c], []⟩).found

/-- The global instances that a search for a class tries, in order. -/
def instanceCandidates (e : Environment) (c : GlobalName) : List (GlobalName × SuperclassPath) :=
  match e.instancesOf c with
  | [] => e.inheritedInstances c
  | ns => ns.map fun n => (n, [])

end Environment

namespace Elaborator

/-- Field `i` of an instance, given the fields of its class. -/
def fieldOf (c : ClassType) (t : Term) (i : Nat) (f : ClassField) : Typed :=
  ⟨.field t c.name i, c.instantiate ((List.range i).map (.field t c.name)) f.type⟩

/-- The instances of a class that an instance gives: itself, or those in its superclass fields, the
last field first. -/
def provided (e : Elaborator) (c : Context) (cls : GlobalName) (span : Span) :
    Nat → Typed → Elab (List Typed)
  | 0, _ => fail .nestingLimit span
  | gas + 1, x => do
    match ← e.whnf c x.type span with
    | .record n u ps =>
      if n = cls then return [x]
      let supers := (← e.classFields n).zipIdx.filter fun (f, _) => f.superclass.isSome
      return (← supers.reverse.mapM fun (f, i) => e.provided c cls span gas
        (fieldOf ⟨n, u, ps⟩ x.term i f)).flatten
    | _ => return []

/-- The instances of a class that the instance parameters of the context give, the innermost
parameter first. -/
def localInstances (e : Elaborator) (c : Context) (cls : GlobalName) (span : Span) :
    Elab (List Typed) := do
  let params := c.entries.zipIdx.filter fun (x, _) => x.binder.info = .inst
  return (← params.mapM fun (x, i) =>
    e.provided c cls span unboundedGas ⟨.var i, x.type.lift (i + 1)⟩).flatten

/-- Runs a step that may fail; if it does, the store is as before. -/
def attempt (f : Elab α) : Elab (Option α) := fun s =>
  let saved := s.conversion.store
  match f s with
  | .ok x s => .ok (some x) s
  | .error _ s => .ok none { s with conversion := { s.conversion with store := saved } }

/-- Runs a step that may fail and gives the store it ends in along with its result; the store itself
stays as before. -/
def probe (f : Elab α) : Elab (Option (α × Store)) := fun s =>
  let saved := s.conversion.store
  let back (s : ElaborationState) := { s with conversion := { s.conversion with store := saved } }
  match f s with
  | .ok x s => .ok (some (x, s.conversion.store)) (back s)
  | .error _ s => .ok none (back s)

/-- The first of some instances whose type unifies with the goal. -/
def firstFit (e : Elaborator) (c : Context) (goal : Term) (span : Span) :
    List Typed → Elab (Option Term)
  | [] => return none
  | x :: xs => do
    match ← attempt (e.unify c x.type goal span) with
    | some () => return some x.term
    | none => e.firstFit c goal span xs

/-- Applies an instance to holes for its parameters, and lists the instance parameters. -/
def applyToHoles (e : Elaborator) (c : Context) (span : Span) :
    Nat → Typed → List Typed → Elab (Typed × List Typed)
  | 0, _, _ => fail .nestingLimit span
  | gas + 1, x, pending => do
    match ← e.whnf c x.type span with
    | .pi q dom cod =>
      let kind ← if q.info = .inst then pure (.inst (← e.classType c dom span).name)
          else pure .implicit
      let a ← fresh c dom kind span
      let pending := if q.info = .inst then pending ++ [⟨a, dom⟩] else pending
      e.applyToHoles c span gas ⟨.app x.term a, cod.subst a⟩ pending
    | _ => return (x, pending)

/-- Follows superclass fields. -/
def followPath (e : Elaborator) (c : Context) (span : Span) (x : Typed) (path : SuperclassPath) :
    Elab Typed :=
  path.foldlM (fun x (_, i) => do
    let cls ← e.classType c x.type span
    match (← e.classFields cls.name)[i]? with
    | some f => return fieldOf cls x.term i f
    | none => return x) x

/-- Tries a global instance, given how to search for its instance arguments. -/
def tryInstance (e : Elaborator) (c : Context) (goal : Term) (span : Span)
    (search : Term → Elab Term) (inst : GlobalName) (path : SuperclassPath) : Elab Term := do
  let (term, type) ← e.global inst span
  let (x, pending) ← e.applyToHoles c span unboundedGas ⟨term, type⟩ []
  let x ← e.followPath c span x path
  e.unify c x.type goal span
  for arg in pending do
    let found ← search ((← store).zonk arg.type)
    e.unify c arg.term found span
  return x.term

/-- All candidates that fit, each with the store that trying it ends in. -/
def fits (trial : GlobalName → SuperclassPath → Elab Term) :
    List (GlobalName × SuperclassPath) → Elab (List (GlobalName × Term × Store))
  | [] => return []
  | (n, path) :: rest => do
    let fit ← probe (trial n path)
    return (fit.map fun (t, s) => (n, t, s)).toList ++ (← fits trial rest)

/-- Finds an instance of the class type `goal`, with room for a number of nested searches. -/
def search (e : Elaborator) (c : Context) (span : Span) : Nat → Term → Elab Term
  | 0, goal => do
    fail (.noInstance (← e.classType c goal span).name.short) span
  | room + 1, goal => do
    let cls := (← e.classType c goal span).name
    match ← e.firstFit c goal span (← e.localInstances c cls span) with
    | some t => return t
    | none =>
      let candidates := (← e.environment).instanceCandidates cls
      match ← fits (e.tryInstance c goal span (e.search c span room)) candidates with
      | [] => fail (.noInstance cls.short) span
      | [(_, t, s)] =>
        modifyStore fun _ => ((), s)
        return t
      | found => fail (.ambiguousInstance cls.short (found.map (·.1.short))) span

/-- The type of a hole, in the context the hole was made in. -/
def holeGoal (s : Store) (m : Nat) : Term :=
  match s.holes[m]? with
  | some h => cod h.type h.arity
  | none => .hole m
where
  cod : Term → Nat → Term
    | .pi _ _ b, n + 1 => cod b n
    | t, _ => t

/-- Finds the instance that an obligation waits for, unless it is to be postponed: as long as its
type has holes and is not forced, or if it is solved already. Gives the obligations that still wait,
and whether an instance was found. -/
def resolveObligation (e : Elaborator) (force : Bool) (o : Obligation) :
    Elab (List Obligation × Bool) := do
  let s ← store
  if (s.solution? o.hole).isSome then return ([], false)
  let goal := s.zonk (holeGoal s o.hole)
  if !force && goal.hasHole then return ([o], false)
  let found ← e.search o.context o.span (e.limits.instanceDepth + 1) goal
  let target := (Term.hole o.hole).apps ((List.range o.context.length).reverse.map .var)
  e.unify o.context target found o.span
  return ([], true)

/-- Takes up the instance arguments that wait, and tells whether an instance was found. -/
def resolveObligations (e : Elaborator) (force : Bool) : Elab Bool := do
  let pending := (← get).obligations
  modify fun s => { s with obligations := [] }
  let rs ← pending.mapM (e.resolveObligation force)
  modify fun s => { s with obligations := s.obligations ++ rs.flatMap (·.1) }
  return rs.any (·.2)

end Elaborator

end LeveledTypes
