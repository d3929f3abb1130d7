import LeveledTypes.Limits
import LeveledTypes.Reduction

/-!
# Conversion

Two terms are convertible if their weak head normal forms have the same shape and convertible parts;
functions, pairs, records and paths are compared up to eta. A hole applied to distinct variables is
solved on the way, and any other problem with an unsolved hole at a head is kept as a constraint.
The comparison `le` lets the levels of universes and of data and class types grow.
-/
namespace LeveledTypes

/-- What a comparison changes: the holes and constraints, and what reduction remembers. -/
structure ConversionState where
  store : Store := {}
  memo : Memo := {}
deriving Inhabited

abbrev Convert := EStateM Error ConversionState

/-- What terms are compared over, and the place that is blamed. -/
structure Converter where
  env : Environment
  locals : Locals
  limits : Limits
  span : Span
deriving Inhabited

namespace Converter

def fail (c : Converter) (p : Problem) : Convert α := throw (.located p c.span)

def mismatch (c : Converter) (lhs rhs : Term) : Convert α :=
  c.fail (.mismatch rhs.render lhs.render)

/-- Reduces with the full fuel over the present store. -/
def reduce (c : Converter) (f : Reducer → Reduce α) : Convert α := fun s =>
  let memo := s.memo
  let s := { s with memo := {} }
  match f ⟨c.env, s.store, c.locals⟩ ⟨c.limits.reductionFuel, memo⟩ with
  | .ok x t => .ok x { s with memo := t.memo }
  | .error e t => .error (e.error c.span) { s with memo := t.memo }

def whnf (c : Converter) (binders : Nat) (t : Term) : Convert Term := c.reduce (·.whnf binders t)

/-- Relates two universes, or fails with the conflict. What was added before the conflict stays. -/
def addUniverse (c : Converter) (cmp : Comparison) (u v : Universe) : Convert Unit := fun s =>
  match s.store.addUniverse cmp u v c.span with
  | (store, none) => .ok () { s with store }
  | (store, some e) => .error (.ofLevels e) { s with store }

/-- Keeps a problem for later. Variables of binders inside the context have no value. -/
def defer (c : Converter) (binders : Nat) (cmp : Comparison) (lhs rhs : Term) : Convert Unit :=
  modify fun s =>
    let locals := List.replicate binders none ++ c.locals
    { s with store := { s.store with
      constraints := s.store.constraints ++ [⟨lhs, rhs, cmp, locals, c.span⟩] } }

/-- The distinct variables that a spine consists of. A variable counts as itself, not as its
value. -/
def patternVars (c : Converter) (binders : Nat) : List Term → List Nat → Convert (Option (List Nat))
  | [], vars => return some vars
  | a :: args, vars => do
    let a ← match a with
      | .var _ => pure a
      | a => c.whnf binders a
    match a with
    | .var i => if vars.contains i then return none else c.patternVars binders args (vars ++ [i])
    | _ => return none

/-- Drops abstractions of a solution that its body only passes on, the innermost first, and counts
the rest. -/
def contractEta : Term → Nat → Term × Nat
  | .app f (.var 0), k + 1 =>
    if f.hasVar 0 then (.app f (.var 0), k + 1) else contractEta (f.shift (-1) 0) k
  | t, k => (t, k)

/-- The first parameters of a function type; a parameter that the type does not have is called
`x`. -/
def solutionTele : Term → Nat → Telescope Term
  | _, 0 => []
  | .pi x a b, k + 1 => { toBinder := x, type := a } :: solutionTele b k
  | t, k + 1 => { toBinder := .named "x", type := .univ .zero } :: solutionTele t k

/-- Solves the hole `m` that heads `lhs`, if it is applied to distinct variables and these suffice
for `rhs`. -/
def solve (c : Converter) (binders : Nat) (m : Nat) (cmp : Comparison) (lhs rhs : Term) :
    Convert Unit := do
  match ← c.patternVars binders lhs.spine.2 [] with
  | none => c.defer binders cmp lhs rhs
  | some vars =>
    let rhs := (← get).store.zonk rhs
    if rhs.holes.contains m then c.mismatch lhs rhs
    let n := vars.length
    let rename (t : Term) := t.renameFree? fun i => (vars.idxOf? i).map fun j => n - 1 - j
    let assign (body : Term) : Convert Unit := do
      let type := (((← get).store.holes[m]?).map (·.type)).getD .zero
      let (body, k) := contractEta body n
      modify fun s => { s with store := s.store.assign m (Term.lams (solutionTele type k) body) }
    match rename rhs with
    | some body => assign body
    | none =>
      let rhs ← c.reduce (·.nf binders rhs)
      match rename rhs with
      | some body => assign body
      | none => c.defer binders cmp lhs rhs

/-- A term applied to the variable of one new binder. -/
def etaApp (t : Term) : Term := .app (t.lift 1) (.var 0)

/-- The point of a path under one new binder, whose path is a function on the interval. -/
def etaPoint (f p : Term) : Term :=
  let f := f.lift 1
  .at (.app f .left) (.app f .right) (p.lift 1) (.var 0)

/-- Compares two lists of arguments. -/
def all (c : Converter) (eq : Term → Term → Convert Unit) (xs ys : List Term) : Convert Unit :=
  if xs.length ≠ ys.length then
    let count (n : Nat) := toString n ++ " arguments"
    c.fail (.mismatch (count ys.length) (count xs.length))
  else (xs.zip ys).forM fun (x, y) => eq x y

/-- Compares two weak head normal forms neither of which is an introduction form. -/
def rigid (c : Converter) (conv : Nat → Comparison → Term → Term → Convert Unit) (cmp : Comparison)
    (l r : Term) : Convert Unit := do
  let eq := conv 0 .eq
  match l, r with
  | .univ u, .univ v => c.addUniverse cmp u v
  | .ref n u, .ref m v => if n = m then c.addUniverse .eq u v else c.mismatch l r
  | .pi x a b, .pi y d e =>
    if x.info = y.info then
      eq a d
      conv 1 cmp b e
    else c.mismatch l r
  | .sigma _ a b, .sigma _ d e =>
    conv 0 cmp a d
    conv 1 cmp b e
  | .data n u ps, .data m v qs | .record n u ps, .record m v qs =>
    if n = m then
      c.addUniverse cmp u v
      c.all eq ps qs
    else c.mismatch l r
  | .con n _ _ xs, .con m _ _ ys => if n = m then c.all eq xs ys else c.mismatch l r
  | .succ a, .succ b => eq a b
  | .proj a s, .proj b t => if s = t then eq a b else c.mismatch l r
  | .field a n i, .field b m j => if n = m ∧ i = j then eq a b else c.mismatch l r
  | .path a x y, .path b u v =>
    eq a b
    eq x u
    eq y v
  | .at _ _ p i, .at _ _ q j =>
    eq p q
    eq i j
  | .natRec _ z s n, .natRec _ y t m =>
    eq n m
    eq z y
    eq s t
  | .case a _ bs, .case b _ ds =>
    if bs.length = ds.length then
      eq a b
      (bs.zip ds).forM fun (x, y) =>
        if x.head ≠ y.head ∨ x.arity ≠ y.arity then c.mismatch l r
        else conv x.arity .eq x.body y.body
    else c.mismatch l r
  | .app f a, .app g b =>
    eq f g
    eq a b
  | _, _ => c.mismatch l r

/-- Compares two weak head normal forms that no unsolved hole heads; `conv k` is for parts under `k`
further binders. -/
def shapes (c : Converter) (conv : Nat → Comparison → Term → Term → Convert Unit) (cmp : Comparison)
    (l r : Term) : Convert Unit := do
  let eq := conv 0 .eq
  let recordLeft (n : GlobalName) (fs : List Term) (r : Term) : Convert Unit :=
    fs.zipIdx.forM fun (f, i) => eq f (.field r n i)
  match l, r with
  | .lam _ _ a, .lam _ _ b => conv 1 .eq a b
  | .lam _ _ a, r => conv 1 .eq a (etaApp r)
  | l, .lam _ _ b => conv 1 .eq (etaApp l) b
  | .pair a b, .pair x y =>
    eq a x
    eq b y
  | .pair a b, r =>
    eq a (.proj r .fst)
    eq b (.proj r .snd)
  | l, .pair x y =>
    eq (.proj l .fst) x
    eq (.proj l .snd) y
  | .new n _ _ fs, r@(.new m _ _ gs) =>
    if n = m ∧ fs.length = gs.length then c.all eq fs gs else recordLeft n fs r
  | .new n _ _ fs, r => recordLeft n fs r
  | l, .new n _ _ gs => gs.zipIdx.forM fun (g, i) => eq (.field l n i) g
  | .pathLam f, .pathLam g => eq f g
  | .pathLam f, r => conv 1 .eq (etaApp f) (etaPoint f r)
  | l, .pathLam g => conv 1 .eq (etaPoint g l) (etaApp g)
  | l, r => c.rigid conv cmp l r

/-- Compares two terms, given how to compare parts. -/
def convertWith (c : Converter) (binders : Nat) (conv : Nat → Comparison → Term →
    Term → Convert Unit) (cmp : Comparison) (lhs rhs : Term) : Convert Unit := do
  let l ← c.whnf binders lhs
  let r ← c.whnf binders rhs
  if l.same r then return
  let store := (← get).store
  let unsolvedHead (t : Term) : Option Nat := t.headHole?.filter fun m => (store.solution? m).isNone
  match unsolvedHead l with
  | some m => c.solve binders m cmp l r
  | none =>
    match unsolvedHead r with
    | some m => c.solve binders m cmp r l
    | none => c.shapes conv cmp l r

/-- Compares two terms under binders inside the context, with room for a number of nested
comparisons. -/
def convertIn (c : Converter) (room binders : Nat) (cmp : Comparison) (lhs rhs : Term) :
    Convert Unit :=
  if lhs.same rhs then return
  else
    match room with
    | 0 => c.fail .reductionLimit
    | room + 1 => c.convertWith binders (fun k => c.convertIn room (binders + k)) cmp lhs rhs

def convert (c : Converter) (cmp : Comparison) (lhs rhs : Term) : Convert Unit :=
  c.convertIn c.limits.conversionDepth 0 cmp lhs rhs

/-- Takes up the constraints once. -/
def retryOnce (env : Environment) (limits : Limits) : Convert Unit := do
  let pending := (← get).store.constraints
  modify fun s => { s with store := { s.store with constraints := [] } }
  pending.forM fun k => Converter.convert ⟨env, k.locals, limits, k.span⟩ k.cmp k.lhs k.rhs

/-- Takes up the constraints until that no longer helps, and tells whether it helped at all. It
helps if holes are solved, or if fewer constraints are left. -/
def retryFrom (env : Environment) (limits : Limits) (progress : Bool) (s : ConversionState) :
    EStateM.Result Error ConversionState Bool :=
  let unsolved := s.store.unsolvedCount
  let pending := s.store.constraints.length
  if pending = 0 then .ok progress s
  else
    match retryOnce env limits s with
    | .error e t => .error e t
    | .ok () t =>
      if t.store.unsolvedCount < unsolved ∨ t.store.unsolvedCount = unsolved ∧
        t.store.constraints.length < pending then
        retryFrom env limits true t
      else .ok progress t
termination_by (s.store.unsolvedCount, s.store.constraints.length)
decreasing_by
  simp only [Prod.lex_def]
  assumption

def retryConstraints (env : Environment) (limits : Limits) : Convert Bool :=
  retryFrom env limits false

end Converter

end LeveledTypes
