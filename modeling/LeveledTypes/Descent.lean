import LeveledTypes.Definition

/-!
# Structural descent

A recursive function is accepted if some parameter descends in every recursive call: its argument
there is a variable that a branch of a case split on the parameter binds, or in turn a variable that
a split on such a variable binds.
-/
namespace LeveledTypes.Descent

/-- What a variable of the body is known to be. -/
inductive Origin where
  | param (k : Nat)
  /-- A part of parameter `k`. -/
  | below (k : Nat)
  | unknown
deriving DecidableEq, Inhabited

/-- What the variables are that a branch binds, if the scrutinee has the given origin. -/
def Origin.parts : Origin → Origin
  | .param k | .below k => .below k
  | .unknown => .unknown

/-- The origin of a variable, from the origins of all variables, the innermost first. -/
def origin (os : List Origin) (i : Nat) : Origin := os.getD i .unknown

/-- For each parameter, whether its argument in a recursive call is a part of it. -/
def descents (arity : Nat) (os : List Origin) (args : List Term) : List Bool :=
  (List.range arity).map fun k =>
    match (args[k]? : Option Term) with
    | some (.var i) => origin os i = .below k
    | _ => false

mutual

/-- The recursive calls of `f` in a term that is applied to arguments. -/
def calls (f : GlobalName) (arity : Nat) (os : List Origin) : Term → List Term → List (List Bool)
  | .app h a, args => calls f arity os h (a :: args) ++ calls f arity os a []
  | .ref n _, args => if n = f then [descents arity os args] else []
  | .lam _ a b, _ | .pi _ a b, _ | .sigma _ a b, _ =>
    calls f arity os a [] ++ calls f arity (.unknown :: os) b []
  | .letIn _ t a b, _ => calls f arity os t [] ++ calls f arity os a [] ++ calls f arity
    (.unknown :: os) b []
  | .case a m bs, _ =>
    let parts := match a with
      | .var i => (origin os i).parts
      | _ => .unknown
    calls f arity os a [] ++ calls f arity (.unknown :: os) m [] ++
      callsBranches f arity os parts bs
  | .pair a b, _ => calls f arity os a [] ++ calls f arity os b []
  | .proj a _, _ | .field a _ _, _ | .succ a, _ | .pathLam a, _ => calls f arity os a []
  | .data _ _ ps, _ | .record _ _ ps, _ => callsAll f arity os ps
  | .con _ _ ps xs, _ | .new _ _ ps xs, _ => callsAll f arity os ps ++ callsAll f arity os xs
  | .path a x y, _ => calls f arity os a [] ++ calls f arity os x [] ++ calls f arity os y []
  | .natRec a b c d, _ | .at a b c d, _ =>
    calls f arity os a [] ++ calls f arity os b [] ++ calls f arity os c [] ++ calls f arity os d []
  | .univ _, _ | .var _, _ | .hole _, _ | .nat, _ | .zero, _ | .interval, _ | .left,
    _ | .right, _ => []

def callsAll (f : GlobalName) (arity : Nat) (os : List Origin) : List Term → List (List Bool)
  | [] => []
  | t :: ts => calls f arity os t [] ++ callsAll f arity os ts

def callsBranches (f : GlobalName) (arity : Nat) (os : List Origin) (parts : Origin) :
    List (Branch Term) → List (List Bool)
  | [] => []
  | ⟨_, ns, b⟩ :: bs =>
    calls f arity (List.replicate ns.length parts ++ os) b [] ++ callsBranches f arity os parts bs

end

/-- The outcome of the test: no recursive call, a parameter that descends, or neither. -/
inductive Verdict where
  | notRecursive
  | along (k : Nat)
  | rejected
deriving DecidableEq

/-- Tests a function whose body is under its parameters, and finds the first parameter that
descends. -/
def check (f : GlobalName) (arity : Nat) (body : Term) : Verdict :=
  let os := (List.range arity).reverse.map .param
  match calls f arity os body [] with
  | [] => .notRecursive
  | cs =>
    match (List.range arity).find? fun k => cs.all fun c => c.getD k false with
    | some k => .along k
    | none => .rejected

end LeveledTypes.Descent
