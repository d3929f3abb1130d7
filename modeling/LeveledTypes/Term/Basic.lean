import LeveledTypes.Binder
import LeveledTypes.GlobalName
import LeveledTypes.Level.Basic

/-!
# Core terms

Terms of the core language, with de Bruijn indices: `var 0` is the innermost binder. A hole is a
metavariable; it is closed, and stands applied to the variables of the context it was made in.

Terms are compared up to the names of their binders: `Term.same` looks at the kind of a binder and
at its type, and at the number of variables of a case branch, but at no name. `Term.hash` agrees
with it.
-/
namespace LeveledTypes

inductive Side where
  | fst
  | snd
deriving DecidableEq, Inhabited, Hashable

/-- The constructor that a branch of a case tree is for. -/
inductive BranchHead where
  | con (c : GlobalName)
  | zero
  | succ
deriving DecidableEq, Inhabited, Hashable

/-- One branch of a case tree. The body is under one variable for each name, the last constructor
argument being index zero. -/
structure Branch (α : Type) where
  head : BranchHead
  names : List String
  body : α
deriving Inhabited

def Branch.arity (b : Branch α) : Nat := b.names.length

/-- The terms of the core language, with variables counted from the innermost binder. -/
inductive Term where
  | univ (u : Universe)
  | var (i : Nat)
  | ref (n : GlobalName) (u : Universe)
  | hole (m : Nat)
  | lam (x : Binder) (dom body : Term)
  | pi (x : Binder) (dom cod : Term)
  | app (f a : Term)
  | letIn (x : Binder) (type value body : Term)
  | sigma (x : Binder) (dom cod : Term)
  | pair (a b : Term)
  | proj (a : Term) (s : Side)
  | data (n : GlobalName) (u : Universe) (params : List Term)
  | con (n : GlobalName) (u : Universe) (params args : List Term)
  /-- A case split; the motive is the result type under one variable for the scrutinee. -/
  | case (scrut motive : Term) (branches : List (Branch Term))
  | record (n : GlobalName) (u : Universe) (params : List Term)
  | new (n : GlobalName) (u : Universe) (params fields : List Term)
  | field (a : Term) (n : GlobalName) (i : Nat)
  | nat
  | zero
  | succ (a : Term)
  | natRec (motive zero succ target : Term)
  | interval
  | left
  | right
  | path (a x y : Term)
  | pathLam (f : Term)
  /-- The point of a path; the ends are kept for the computation rules at `left` and `right`. -/
  | at (lhs rhs path point : Term)
deriving Inhabited

namespace Term

mutual

/-- Equality up to the names of binders. -/
def same : Term → Term → Bool
  | .univ u, .univ v => u == v
  | .var i, .var j => i == j
  | .ref n u, .ref m v => n == m && u == v
  | .hole m, .hole n => m == n
  | .lam x a b, .lam y c d => x.info == y.info && same a c && same b d
  | .pi x a b, .pi y c d => x.info == y.info && same a c && same b d
  | .app f a, .app g b => same f g && same a b
  | .letIn x a b c, .letIn y d e f => x.info == y.info && same a d && same b e && same c f
  | .sigma x a b, .sigma y c d => x.info == y.info && same a c && same b d
  | .pair a b, .pair c d => same a c && same b d
  | .proj a s, .proj b t => same a b && s == t
  | .data n u ps, .data m v qs => n == m && u == v && sameAll ps qs
  | .con n u ps xs, .con m v qs ys => n == m && u == v && sameAll ps qs && sameAll xs ys
  | .case a m bs, .case b n cs => same a b && same m n && sameBranches bs cs
  | .record n u ps, .record m v qs => n == m && u == v && sameAll ps qs
  | .new n u ps xs, .new m v qs ys => n == m && u == v && sameAll ps qs && sameAll xs ys
  | .field a n i, .field b m j => same a b && n == m && i == j
  | .nat, .nat => true
  | .zero, .zero => true
  | .succ a, .succ b => same a b
  | .natRec a b c d, .natRec e f g h => same a e && same b f && same c g && same d h
  | .interval, .interval => true
  | .left, .left => true
  | .right, .right => true
  | .path a b c, .path d e f => same a d && same b e && same c f
  | .pathLam f, .pathLam g => same f g
  | .at a b c d, .at e f g h => same a e && same b f && same c g && same d h
  | _, _ => false

def sameAll : List Term → List Term → Bool
  | [], [] => true
  | a :: as, b :: bs => same a b && sameAll as bs
  | _, _ => false

def sameBranches : List (Branch Term) → List (Branch Term) → Bool
  | [], [] => true
  | ⟨h, ns, a⟩ :: as, ⟨g, ms, b⟩ :: bs => h == g && ns.length == ms.length && same a b &&
    sameBranches as bs
  | _, _ => false

end

instance : BEq Term := ⟨same⟩

mutual

/-- A hash that takes no name of a binder into account. -/
def hash : Term → UInt64
  | .univ u => mixHash 1 (Hashable.hash u)
  | .var i => mixHash 2 (Hashable.hash i)
  | .ref n u => mixHash 3 (mixHash (Hashable.hash n) (Hashable.hash u))
  | .hole m => mixHash 4 (Hashable.hash m)
  | .lam x a b => mixHash 5 (mixHash (Hashable.hash x.info) (mixHash (hash a) (hash b)))
  | .pi x a b => mixHash 6 (mixHash (Hashable.hash x.info) (mixHash (hash a) (hash b)))
  | .app f a => mixHash 7 (mixHash (hash f) (hash a))
  | .letIn x a b c => mixHash 8
    (mixHash (Hashable.hash x.info) (mixHash (hash a) (mixHash (hash b) (hash c))))
  | .sigma x a b => mixHash 9 (mixHash (Hashable.hash x.info) (mixHash (hash a) (hash b)))
  | .pair a b => mixHash 10 (mixHash (hash a) (hash b))
  | .proj a s => mixHash 11 (mixHash (hash a) (Hashable.hash s))
  | .data n _ ps => mixHash 12 (mixHash (Hashable.hash n) (hashAll ps))
  | .con n _ ps xs => mixHash 13 (mixHash (Hashable.hash n) (mixHash (hashAll ps) (hashAll xs)))
  | .case a m bs => mixHash 14 (mixHash (hash a) (mixHash (hash m) (hashBranches bs)))
  | .record n _ ps => mixHash 15 (mixHash (Hashable.hash n) (hashAll ps))
  | .new n _ ps xs => mixHash 16 (mixHash (Hashable.hash n) (mixHash (hashAll ps) (hashAll xs)))
  | .field a n i => mixHash 17 (mixHash (hash a) (mixHash (Hashable.hash n) (Hashable.hash i)))
  | .nat => 18
  | .zero => 19
  | .succ a => mixHash 20 (hash a)
  | .natRec a b c d => mixHash 21 (mixHash (mixHash (hash a) (hash b)) (mixHash (hash c) (hash d)))
  | .interval => 22
  | .left => 23
  | .right => 24
  | .path a b c => mixHash 25 (mixHash (hash a) (mixHash (hash b) (hash c)))
  | .pathLam f => mixHash 26 (hash f)
  | .at a b c d => mixHash 27 (mixHash (mixHash (hash a) (hash b)) (mixHash (hash c) (hash d)))

def hashAll : List Term → UInt64
  | [] => 31
  | a :: as => mixHash (hash a) (hashAll as)

def hashBranches : List (Branch Term) → UInt64
  | [] => 37
  | ⟨h, ns, a⟩ :: as =>
    mixHash (Hashable.hash h)
      (mixHash (Hashable.hash ns.length) (mixHash (hash a) (hashBranches as)))

end

instance : Hashable Term := ⟨hash⟩

/-- Applies a term to arguments in order. -/
def apps (f : Term) (args : List Term) : Term := args.foldl .app f

/-- The head and the arguments of an application, in front of further arguments. -/
def spineWith : Term → List Term → Term × List Term
  | .app f a, args => spineWith f (a :: args)
  | t, args => (t, args)

/-- Splits an application into its head and its arguments. -/
def spine (t : Term) : Term × List Term := spineWith t []

def head (t : Term) : Term := t.spine.1

/-- The hole that heads a term. -/
def headHole? (t : Term) : Option Nat :=
  match t.head with
  | .hole m => some m
  | _ => none

def universe? : Term → Option Universe
  | .univ u => some u
  | _ => none

def lams (tele : Telescope Term) (t : Term) : Term :=
  tele.foldr (fun p b => .lam p.toBinder p.type b) t

def pis (tele : Telescope Term) (t : Term) : Term :=
  tele.foldr (fun p b => .pi p.toBinder p.type b) t

/-- The type of functions whose result type does not mention the argument; the codomain is under one
binder. -/
def arrow (dom cod : Term) : Term := .pi (.named Variable.anonymousName) dom cod

/-- The numeral of a number. -/
def numeral : Nat → Term
  | 0 => .zero
  | n + 1 => .succ (numeral n)

/-- The number added to `n` that a chain of successors on zero stands for. -/
def numberFrom? : Term → Nat → Option Nat
  | .zero, n => some n
  | .succ a, n => numberFrom? a (n + 1)
  | _, _ => none

/-- The number that a term is the numeral of. -/
def number? (t : Term) : Option Nat := numberFrom? t 0

end Term

end LeveledTypes
