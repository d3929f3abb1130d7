import LeveledTypes.Term.Basic

/-!
# Traversals and substitution

One traversal rebuilds a term with its variables and universes replaced; shifting, the
substitutions, abstraction and the instantiation of level parameters are instances of it. A second
one folds over subterms, parents first. A third replaces holes by terms and contracts the
applications this uncovers.
-/
namespace LeveledTypes.Term

mutual

/-- Replaces variables and universes. `f c i` is put for variable `i` where `c` binders have been
crossed. -/
def replace (f : Nat → Nat → Term) (g : Universe → Universe) (c : Nat) : Term → Term
  | .univ u => .univ (g u)
  | .var i => f c i
  | .ref n u => .ref n (g u)
  | .hole m => .hole m
  | .lam x a b => .lam x (replace f g c a) (replace f g (c + 1) b)
  | .pi x a b => .pi x (replace f g c a) (replace f g (c + 1) b)
  | .app h a => .app (replace f g c h) (replace f g c a)
  | .letIn x t a b => .letIn x (replace f g c t) (replace f g c a) (replace f g (c + 1) b)
  | .sigma x a b => .sigma x (replace f g c a) (replace f g (c + 1) b)
  | .pair a b => .pair (replace f g c a) (replace f g c b)
  | .proj a s => .proj (replace f g c a) s
  | .data n u ps => .data n (g u) (replaceAll f g c ps)
  | .con n u ps xs => .con n (g u) (replaceAll f g c ps) (replaceAll f g c xs)
  | .case a m bs => .case (replace f g c a) (replace f g (c + 1) m) (replaceBranches f g c bs)
  | .record n u ps => .record n (g u) (replaceAll f g c ps)
  | .new n u ps xs => .new n (g u) (replaceAll f g c ps) (replaceAll f g c xs)
  | .field a n i => .field (replace f g c a) n i
  | .nat => .nat
  | .zero => .zero
  | .succ a => .succ (replace f g c a)
  | .natRec m z s t => .natRec (replace f g c m) (replace f g c z) (replace f g c s)
    (replace f g c t)
  | .interval => .interval
  | .left => .left
  | .right => .right
  | .path a x y => .path (replace f g c a) (replace f g c x) (replace f g c y)
  | .pathLam h => .pathLam (replace f g c h)
  | .at l r p i => .at (replace f g c l) (replace f g c r) (replace f g c p) (replace f g c i)

def replaceAll (f : Nat → Nat → Term) (g : Universe → Universe) (c : Nat) : List Term → List Term
  | [] => []
  | t :: ts => replace f g c t :: replaceAll f g c ts

def replaceBranches (f : Nat → Nat → Term) (g : Universe → Universe) (c : Nat) :
    List (Branch Term) → List (Branch Term)
  | [] => []
  | ⟨h, ns, b⟩ :: bs => ⟨h, ns, replace f g (c + ns.length) b⟩ :: replaceBranches f g c bs

end

/-- Replaces variables only. -/
def replaceVars (f : Nat → Nat → Term) (t : Term) : Term := t.replace f id 0

def mapUniverses (g : Universe → Universe) (t : Term) : Term := t.replace (fun _ i => .var i) g 0

/-- An index moved by a distance. Below zero it wraps around at the size of a machine word. -/
def shiftIndex (i : Nat) : Int → Nat
  | .ofNat n => i + n
  | .negSucc n => if n < i then i - (n + 1) else 0x10000000000000000 + i - (n + 1)

/-- Moves every free variable at or above the cutoff. -/
def shift (t : Term) (distance : Int) (cutoff : Nat) : Term :=
  if distance = 0 then t
  else t.replaceVars fun c i => if i ≥ c + cutoff then .var (shiftIndex i distance) else .var i

/-- Makes room for `n` further innermost binders. -/
def lift (t : Term) (n : Nat) : Term := t.shift n 0

/-- Replaces variable `j` and closes the gap it leaves. -/
def substAt (t : Term) (j : Nat) (r : Term) : Term :=
  t.replaceVars fun c i =>
    if i < c + j then .var i
    else if i = c + j then r.lift (c + j)
    else .var (i - 1)

/-- Instantiates the innermost binder. -/
def subst (t r : Term) : Term := t.substAt 0 r

/-- Instantiates the innermost binders at once, as many as there are arguments; the first argument
replaces the outermost of them. -/
def substAll (t : Term) (args : List Term) : Term :=
  if args.isEmpty then t
  else
    let values := args.reverse
    t.replaceVars fun c i =>
      if i < c then .var i
      else
        match values[i - c]? with
        | some a => a.lift c
        | none => .var (i - values.length)

/-- Turns free variable `i` into the variable of one new binder around the term. -/
def abstractVar (t : Term) (i : Nat) : Term :=
  t.replaceVars fun c v =>
    if v < c then .var v
    else if v = c + i then .var c
    else .var (v + 1)

/-- Instantiates the level parameters of a definition. -/
def substLevels (t : Term) (u : Universe) : Term :=
  if u = .params then t else t.mapUniverses (·.subst u)

mutual

/-- Whether some free variable satisfies a test, under `c` binders of the term. -/
def anyVarFrom (p : Nat → Bool) (c : Nat) : Term → Bool
  | .var i => i ≥ c && p (i - c)
  | .lam _ a b | .pi _ a b | .sigma _ a b => anyVarFrom p c a || anyVarFrom p (c + 1) b
  | .letIn _ t a b => anyVarFrom p c t || anyVarFrom p c a || anyVarFrom p (c + 1) b
  | .app a b | .pair a b => anyVarFrom p c a || anyVarFrom p c b
  | .proj a _ | .field a _ _ | .succ a | .pathLam a => anyVarFrom p c a
  | .data _ _ ps | .record _ _ ps => anyVarAll p c ps
  | .con _ _ ps xs | .new _ _ ps xs => anyVarAll p c ps || anyVarAll p c xs
  | .case a m bs => anyVarFrom p c a || anyVarFrom p (c + 1) m || anyVarBranches p c bs
  | .path a x y => anyVarFrom p c a || anyVarFrom p c x || anyVarFrom p c y
  | .natRec w x y z | .at w x y z =>
    anyVarFrom p c w || anyVarFrom p c x || anyVarFrom p c y || anyVarFrom p c z
  | .univ _ | .ref _ _ | .hole _ | .nat | .zero | .interval | .left | .right => false

def anyVarAll (p : Nat → Bool) (c : Nat) : List Term → Bool
  | [] => false
  | t :: ts => anyVarFrom p c t || anyVarAll p c ts

def anyVarBranches (p : Nat → Bool) (c : Nat) : List (Branch Term) → Bool
  | [] => false
  | ⟨_, ns, b⟩ :: bs => anyVarFrom p (c + ns.length) b || anyVarBranches p c bs

end

def anyVar (t : Term) (p : Nat → Bool) : Bool := t.anyVarFrom p 0

def hasVar (t : Term) (i : Nat) : Bool := t.anyVar (· == i)

def isClosed (t : Term) : Bool := !t.anyVar fun _ => true

/-- Renames free variables, unless some variable has no image. -/
def renameFree? (t : Term) (f : Nat → Option Nat) : Option Term :=
  if t.anyVar fun i => (f i).isNone then none
  else
    some (t.replaceVars fun c i => if i < c then .var i else .var ((f (i - c)).getD (i - c) + c))

mutual

/-- Folds over the subterms of a term, parents first and then from left to right. -/
def fold (f : α → Term → α) (acc : α) : Term → α
  | t@(.lam _ a b) | t@(.pi _ a b) | t@(.sigma _ a b) | t@(.app a b) | t@(.pair a b) =>
    fold f (fold f (f acc t) a) b
  | t@(.letIn _ a b c) | t@(.path a b c) => fold f (fold f (fold f (f acc t) a) b) c
  | t@(.proj a _) | t@(.field a _ _) | t@(.succ a) | t@(.pathLam a) => fold f (f acc t) a
  | t@(.data _ _ ps) | t@(.record _ _ ps) => foldAll f (f acc t) ps
  | t@(.con _ _ ps xs) | t@(.new _ _ ps xs) => foldAll f (foldAll f (f acc t) ps) xs
  | t@(.case a m bs) => foldBranches f (fold f (fold f (f acc t) a) m) bs
  | t@(.natRec a b c d) | t@(.at a b c d) => fold f (fold f (fold f (fold f (f acc t) a) b) c) d
  | t => f acc t

def foldAll (f : α → Term → α) (acc : α) : List Term → α
  | [] => acc
  | t :: ts => foldAll f (fold f acc t) ts

def foldBranches (f : α → Term → α) (acc : α) : List (Branch Term) → α
  | [] => acc
  | ⟨_, _, b⟩ :: bs => foldBranches f (fold f acc b) bs

end

section
variable {α β : Type} {f : α → Term → α} {g : β → Term → β}

mutual

/-- A fold can be followed by a function that goes along with its steps. -/
theorem fold_hom (h : α → β) (hstep : ∀ a t, h (f a t) = g (h a) t) (acc : α) :
    (t : Term) → h (t.fold f acc) = t.fold g (h acc)
  | .lam _ a b | .pi _ a b | .sigma _ a b | .app a b | .pair a b => by
    simp only [fold, fold_hom h hstep _ b, fold_hom h hstep _ a, hstep]
  | .letIn _ a b c | .path a b c => by
    simp only [fold, fold_hom h hstep _ c, fold_hom h hstep _ b, fold_hom h hstep _ a, hstep]
  | .proj a _ | .field a _ _ | .succ a | .pathLam a => by
    simp only [fold, fold_hom h hstep _ a, hstep]
  | .data _ _ ps | .record _ _ ps => by simp only [fold, foldAll_hom h hstep _ ps, hstep]
  | .con _ _ ps xs | .new _ _ ps xs => by
    simp only [fold, foldAll_hom h hstep _ xs, foldAll_hom h hstep _ ps, hstep]
  | .case a m bs => by
    simp only [fold, foldBranches_hom h hstep _ bs, fold_hom h hstep _ m, fold_hom h hstep _ a,
      hstep]
  | .natRec a b c d | .at a b c d => by
    simp only [fold, fold_hom h hstep _ d, fold_hom h hstep _ c, fold_hom h hstep _ b,
      fold_hom h hstep _ a, hstep]
  | .univ _ | .var _ | .ref _ _ | .hole _ | .nat | .zero | .interval | .left | .right => by
    simp only [fold, hstep]

theorem foldAll_hom (h : α → β) (hstep : ∀ a t, h (f a t) = g (h a) t) (acc : α) :
    (ts : List Term) → h (foldAll f acc ts) = foldAll g (h acc) ts
  | [] => rfl
  | t :: ts => by simp only [foldAll, foldAll_hom h hstep _ ts, fold_hom h hstep _ t]

theorem foldBranches_hom (h : α → β) (hstep : ∀ a t, h (f a t) = g (h a) t) (acc : α) :
    (bs : List (Branch Term)) → h (foldBranches f acc bs) = foldBranches g (h acc) bs
  | [] => rfl
  | ⟨_, _, b⟩ :: bs => by
    simp only [foldBranches, foldBranches_hom h hstep _ bs, fold_hom h hstep _ b]

end

end

/-- The subterms of a term, the term itself first. -/
def subterms (t : Term) : List Term := t.fold (fun ts s => ts ++ [s]) []

/-- The number of subterms, the term itself included. -/
def size (t : Term) : Nat := t.fold (fun n _ => n + 1) 0

/-- Puts an entry in front of a list that does not have it. -/
def insertFront [BEq α] (x : α) (xs : List α) : List α := if xs.contains x then xs else x :: xs

/-- The holes of a term, in the order in which they first occur. -/
def holes (t : Term) : List Nat :=
  (t.fold (fun acc s => match s with
    | .hole m => insertFront m acc
    | _ => acc) []).reverse

def hasHole (t : Term) : Bool :=
  t.fold (fun found s => match s with
    | .hole _ => true
    | _ => found) false

/-- The universe written at the root of a term. -/
def rootUniverse? : Term → Option Universe
  | .univ u | .ref _ u | .data _ u _ | .con _ u _ _ | .record _ u _ | .new _ u _ _ => some u
  | _ => none

/-- The level holes of a term, in the order in which they first occur. -/
def levelHoles (t : Term) : List Nat :=
  (t.fold (fun acc s =>
    match s.rootUniverse? with
    | some u => [u.p, u.h].foldl (fun acc l => match l.hole? with
      | some m => insertFront m acc
      | none => acc) acc
    | none => acc) []).reverse

/-- Adds the globals that a term names, in the order in which they first occur, to a list that holds
the latest first. -/
def addRefs (acc : List GlobalName) (t : Term) : List GlobalName :=
  t.fold (fun acc s => match s with
    | .ref n _ | .data n _ _ | .con n _ _ _ | .record n _ _ | .new n _ _ _ | .field _ n _ =>
      insertFront n acc
    | .case _ _ bs => bs.foldl (fun acc b => match b.head with
      | .con c => insertFront c acc
      | _ => acc) acc
    | _ => acc) acc

/-- The globals that a term names, in the order in which they first occur. -/
def refs (t : Term) : List GlobalName := (t.addRefs []).reverse

/-- Applies a term to arguments, contracting the abstractions it starts with. -/
def beta : Term → List Term → Term
  | t, [] => t
  | .lam _ _ b, a :: args => beta (b.subst a) args
  | t, args => t.apps args

mutual

/-- Replaces holes by terms, and contracts a hole so replaced with the arguments it was applied
to. -/
def fillWith (sol : Nat → Option Term) : Term → List Term → Term
  | .app f a, args => fillWith sol f (fillWith sol a [] :: args)
  | .hole m, args =>
    match sol m with
    | some t => t.beta args
    | none => (Term.hole m).apps args
  | .univ u, args => (Term.univ u).apps args
  | .var i, args => (Term.var i).apps args
  | .ref n u, args => (Term.ref n u).apps args
  | .lam x a b, args => (Term.lam x (fillWith sol a []) (fillWith sol b [])).apps args
  | .pi x a b, args => (Term.pi x (fillWith sol a []) (fillWith sol b [])).apps args
  | .letIn x t a b, args =>
    (Term.letIn x (fillWith sol t []) (fillWith sol a []) (fillWith sol b [])).apps args
  | .sigma x a b, args => (Term.sigma x (fillWith sol a []) (fillWith sol b [])).apps args
  | .pair a b, args => (Term.pair (fillWith sol a []) (fillWith sol b [])).apps args
  | .proj a s, args => (Term.proj (fillWith sol a []) s).apps args
  | .data n u ps, args => (Term.data n u (fillAll sol ps)).apps args
  | .con n u ps xs, args => (Term.con n u (fillAll sol ps) (fillAll sol xs)).apps args
  | .case a m bs, args => (Term.case (fillWith sol a []) (fillWith sol m [])
    (fillBranches sol bs)).apps args
  | .record n u ps, args => (Term.record n u (fillAll sol ps)).apps args
  | .new n u ps xs, args => (Term.new n u (fillAll sol ps) (fillAll sol xs)).apps args
  | .field a n i, args => (Term.field (fillWith sol a []) n i).apps args
  | .nat, args => Term.nat.apps args
  | .zero, args => Term.zero.apps args
  | .succ a, args => (Term.succ (fillWith sol a [])).apps args
  | .natRec m z s t, args =>
    (Term.natRec (fillWith sol m []) (fillWith sol z []) (fillWith sol s [])
      (fillWith sol t [])).apps args
  | .interval, args => Term.interval.apps args
  | .left, args => Term.left.apps args
  | .right, args => Term.right.apps args
  | .path a x y, args => (Term.path (fillWith sol a []) (fillWith sol x [])
    (fillWith sol y [])).apps args
  | .pathLam f, args => (Term.pathLam (fillWith sol f [])).apps args
  | .at l r p i, args =>
    (Term.at (fillWith sol l []) (fillWith sol r []) (fillWith sol p [])
      (fillWith sol i [])).apps args

def fillAll (sol : Nat → Option Term) : List Term → List Term
  | [] => []
  | t :: ts => fillWith sol t [] :: fillAll sol ts

def fillBranches (sol : Nat → Option Term) : List (Branch Term) → List (Branch Term)
  | [] => []
  | ⟨h, ns, b⟩ :: bs => ⟨h, ns, fillWith sol b []⟩ :: fillBranches sol bs

end

/-- Replaces holes by terms that are closed and are not filled further. -/
def fill (t : Term) (sol : Nat → Option Term) : Term := t.fillWith sol []

/-- Replaces holes by terms whose own holes are replaced in turn, down to the given depth. -/
def fillDeep (sol : Nat → Option Term) : Nat → Term → Term
  | 0, t => t
  | n + 1, t => t.fill fun m => (sol m).map (fillDeep sol n)

/-- Replaces level holes. -/
def fillLevels (t : Term) (sol : Nat → Option Level) : Term :=
  t.mapUniverses fun u => u.map fun l =>
    match l.hole? with
    | some m => match sol m with
      | some s => l.subst (.hole m) s
      | none => l
    | none => l

end LeveledTypes.Term
