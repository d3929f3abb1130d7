import LeveledTypes.Hole
import LeveledTypes.Registry

/-!
# Reduction

Weak head normal forms and normal forms of core terms over an environment, a store of holes and the
values of the local variables. Each contraction takes one unit of fuel. Unfolding a function is
remembered when the application is closed and has no hole, and an application whose unfolding is
blocked by a case split stays as it is.

The functions recurse on a bound for the nesting of calls, called gas, which has nothing to do with
fuel: running out of gas is an outcome of its own.
-/
namespace LeveledTypes

/-- The weak head normal forms of closed applications of functions. -/
abbrev Memo := Std.HashMap Term Term

/-- Why a reduction stops without a result. -/
inductive Interrupt where
  | fuel
  | gas
deriving DecidableEq, Inhabited

def Interrupt.error (span : Span) : Interrupt → Error
  | .fuel => .located .reductionLimit span
  | .gas => .located .nestingLimit span

/-- What reduction uses up and what it remembers. -/
structure ReductionState where
  fuel : Nat
  memo : Memo

abbrev Reduce := EStateM Interrupt ReductionState

/-- What terms are reduced over. -/
structure Reducer where
  env : Environment
  store : Store
  /-- The values of the variables of the context. -/
  locals : Locals
deriving Inhabited

/-- A bound for the nesting of calls that no terminating run reaches. -/
def unboundedGas : Nat := 1000000000000000000

namespace Reducer

/-- Takes one unit of fuel. -/
def step : Reduce Unit := fun s =>
  match s.fuel with
  | 0 => .error .fuel s
  | fuel + 1 => .ok () { s with fuel }

/-- What is remembered of an application. -/
def remembered (key : Term) : Reduce (Option Term) := fun s => .ok s.memo[key]? s

/-- The value of a variable under binders inside the context. -/
def localValue? (r : Reducer) (depth i : Nat) : Option Term :=
  if i < depth then none
  else
    match r.locals[i - depth]? with
    | some (some v) => some (v.lift (i + 1))
    | _ => none

/-- The canonical form of a primitive. -/
def canonical (p : Primitive) (args : List Term) : Term :=
  let arg (i : Nat) := args.getD i .zero
  match p with
  | .nat => .nat
  | .zero => .zero
  | .succ => .succ (arg 0)
  | .natRec => .natRec (arg 0) (arg 1) (arg 2) (arg 3)
  | .interval => .interval
  | .left => .left
  | .right => .right
  | .path => .path (arg 0) (arg 1) (arg 2)
  | .pathLam => .pathLam (arg 1)
  | .at => .at (arg 1) (arg 2) (arg 3) (arg 4)

/-- Whether a term is blocked on a case split or a recursion. -/
def isStuck (t : Term) : Bool :=
  match t.head with
  | .case _ _ _ | .natRec _ _ _ _ => true
  | _ => false

/-- The constructor at the root of a term, with its arguments. -/
def constructor? : Term → Option (BranchHead × List Term)
  | .con n _ _ xs => some (.con n, xs)
  | .zero => some (.zero, [])
  | .succ a => some (.succ, [a])
  | _ => none

/-- Unfolds a function at arguments, one for each parameter; nothing if the unfolding is blocked. -/
def unfold (whnf : Term → Reduce Term) (n : GlobalName) (u : Universe) (body : Term)
    (args : List Term) : Reduce (Option Term) := do
  let key := (Term.ref n u).apps args
  let memoizable := key.isClosed && !key.hasHole
  match ← if memoizable then remembered key else pure none with
  | some t => return some t
  | none =>
    step
    let t ← whnf ((body.substLevels u).substAll args)
    if isStuck t then return none
    if memoizable then modify fun s => { s with memo := s.memo.insert key t }
    return some t

/-- The weak head normal form of a global applied to arguments. -/
def delta (r : Reducer) (whnf : Term → Reduce Term) (n : GlobalName) (u : Universe)
    (args : List Term) :
    Reduce Term := do
  let folded (args : List Term) := (Term.ref n u).apps args
  match r.env.get? n with
  | none => return folded args
  | some d =>
    let arity := d.tele.length
    if args.length < arity then return folded args
    let rest := args.drop arity
    let args := args.take arity
    match d.body with
    | .primitive p => whnf ((canonical p args).apps rest)
    | .func body _ =>
      match ← unfold whnf n u body args with
      | some t => whnf (t.apps rest)
      | none => return (folded args).apps rest
    | .data _ => whnf ((Term.data n u args).apps rest)
    | .constructor _ _ params _ =>
      whnf ((Term.con n u (args.take params) (args.drop params)).apps rest)
    | .cls _ _ => whnf ((Term.record n u args).apps rest)
    | .field c i =>
      match args.getLast? with
      | some a => whnf ((Term.field a c i).apps rest)
      | none => return folded args
    | .inst _ body =>
      step
      whnf (((body.substLevels u).substAll args).apps rest)
    | .pending => return (folded args).apps rest

/-- The weak head normal form of an application whose head is in that form. -/
def applySpine (r : Reducer) (whnf : Term → Reduce Term) (head : Term) (args : List Term) :
    Reduce Term :=
  match head, args with
  | .lam _ _ b, a :: args => do
    step
    whnf ((b.subst a).apps args)
  | .hole m, args =>
    match r.store.solution? m with
    | some t => whnf (t.apps args)
    | none => return (Term.hole m).apps args
  | .ref n u, args => r.delta whnf n u args
  | head, args => return head.apps args

/-- One round of head reduction, given how to continue. -/
def whnfWith (r : Reducer) (depth : Nat) (whnf : Term → Reduce Term) (t : Term) : Reduce Term :=
  match t with
  | .var i =>
    match r.localValue? depth i with
    | some v => whnf v
    | none => return t
  | .hole m =>
    match r.store.solution? m with
    | some s => whnf s
    | none => return t
  | .ref n u => r.delta whnf n u []
  | .app _ _ => do
    let (head, args) := t.spine
    let head ← whnf head
    r.applySpine whnf head args
  | .letIn _ _ a b => do
    step
    whnf (b.subst a)
  | .proj a side => do
    match ← whnf a with
    | .pair x y =>
      step
      match side with
      | .fst => whnf x
      | .snd => whnf y
    | a => return .proj a side
  | .field a c i => do
    match ← whnf a with
    | a@(.new _ _ _ fs) =>
      match fs[i]? with
      | some f =>
        step
        whnf f
      | none => return .field a c i
    | a => return .field a c i
  | .case a m bs => do
    let a ← whnf a
    match constructor? a with
    | some (head, args) =>
      match bs.find? fun b => b.head == head with
      | some b =>
        step
        whnf (b.body.substAll args)
      | none => return .case a m bs
    | none => return .case a m bs
  | .natRec m z s n => do
    match ← whnf n with
    | .zero =>
      step
      whnf z
    | .succ n =>
      step
      whnf (s.apps [n, .natRec m z s n])
    | n => return .natRec m z s n
  | .at l x p i => do
    match ← whnf i with
    | .left => whnf l
    | .right => whnf x
    | i =>
      match ← whnf p with
      | .pathLam f =>
        step
        whnf (.app f i)
      | p => return .at l x p i
  | t => return t

/-- The weak head normal form of a term under `depth` binders inside the context. -/
def whnfGas (r : Reducer) (depth : Nat) : Nat → Term → Reduce Term
  | 0, _ => throw .gas
  | gas + 1, t => r.whnfWith depth (r.whnfGas depth gas) t

/-- Normalizes the function part of an application that does not reduce, without unfolding its head
again. -/
def nfHead (nf : Term → Reduce Term) : Term → Reduce Term
  | .app f a => do return .app (← nfHead nf f) (← nf a)
  | t@(.ref _ _) => return t
  | t => nf t

/-- Normalizes the parts of a term in weak head normal form; `nf k` is for parts under `k` further
binders. -/
def nfParts (nf : Nat → Term → Reduce Term) (t : Term) : Reduce Term :=
  match t with
  | .lam x a b => do return .lam x (← nf 0 a) (← nf 1 b)
  | .pi x a b => do return .pi x (← nf 0 a) (← nf 1 b)
  | .sigma x a b => do return .sigma x (← nf 0 a) (← nf 1 b)
  | .app f a => do return .app (← nfHead (nf 0) f) (← nf 0 a)
  | .pair a b => do return .pair (← nf 0 a) (← nf 0 b)
  | .proj a s => do return .proj (← nf 0 a) s
  | .data n u ps => do return .data n u (← ps.mapM (nf 0))
  | .con n u ps xs => do return .con n u (← ps.mapM (nf 0)) (← xs.mapM (nf 0))
  | .record n u ps => do return .record n u (← ps.mapM (nf 0))
  | .new n u ps fs => do return .new n u (← ps.mapM (nf 0)) (← fs.mapM (nf 0))
  | .field a n i => do return .field (← nf 0 a) n i
  | .succ a => do return .succ (← nf 0 a)
  | .case a m bs => do
    return .case (← nf 0 a) (← nf 1 m)
      (← bs.mapM fun b => do return { b with body := ← nf b.arity b.body })
  | .natRec m z s n => do return .natRec (← nf 0 m) (← nf 0 z) (← nf 0 s) (← nf 0 n)
  | .path a x y => do return .path (← nf 0 a) (← nf 0 x) (← nf 0 y)
  | .pathLam f => do return .pathLam (← nf 0 f)
  | .at l x p i => do return .at (← nf 0 l) (← nf 0 x) (← nf 0 p) (← nf 0 i)
  | t => return t

/-- The normal form of a term under `depth` binders inside the context. -/
def nfGas (r : Reducer) : Nat → Nat → Term → Reduce Term
  | 0, _, _ => throw .gas
  | gas + 1, depth, t => do
    nfParts (fun k => r.nfGas gas (depth + k)) (← r.whnfGas depth gas t)

def whnf (r : Reducer) (depth : Nat) (t : Term) : Reduce Term := r.whnfGas depth unboundedGas t

def nf (r : Reducer) (depth : Nat) (t : Term) : Reduce Term := r.nfGas unboundedGas depth t

end Reducer

end LeveledTypes
