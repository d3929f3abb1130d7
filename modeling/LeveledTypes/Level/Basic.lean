/-!
# Universe levels

A level is a natural number, the infinite level, or `max (v + add) floor` for a variable `v`, which
is the level parameter of the enclosing definition or a level hole. Finite levels are bounded by
`Level.bound`: a successor beyond it does not exist, and substitution stops there.
-/
namespace LeveledTypes

/-- The variable of a level. -/
inductive LevelVar where
  /-- The level parameter of the enclosing definition. -/
  | param
  | hole (m : Nat)
deriving DecidableEq, Inhabited, Hashable

/-- The level of a universe. There is at most one variable in it. -/
inductive Level where
  | const (n : Nat)
  /-- The level `max (v + add) floor`. -/
  | var (v : LevelVar) (add floor : Nat)
  | top
deriving DecidableEq, Inhabited, Hashable

namespace Level

/-- The largest finite level. -/
def bound : Nat := 0xFFFFFFFF

/-- The level `max (v + add) floor`, where a floor that can never win is dropped. -/
def ofVar (v : LevelVar) (add floor : Nat) : Level :=
  .var v add (if floor ≤ add then 0 else floor)

def param : Level := .ofVar .param 0 0

def hole (m : Nat) : Level := .ofVar (.hole m) 0 0

def boundedSucc? (n : Nat) : Option Nat := if n < bound then some (n + 1) else none

/-- The successor, unless a number in it would exceed the bound. -/
def succ? : Level → Option Level
  | .const n => (boundedSucc? n).map .const
  | .var v add floor => do
    let add ← boundedSucc? add
    let floor ← if floor = 0 then some 0 else boundedSucc? floor
    return .ofVar v add floor
  | .top => some .top

def boundedAdd (m n : Nat) : Nat := min (m + n) bound

/-- Replaces a variable by a level. Sums stop at the bound. -/
def subst (l : Level) (v : LevelVar) (r : Level) : Level :=
  match l with
  | .var w add floor =>
    if w = v then
      match r with
      | .const c => .const (max (boundedAdd c add) floor)
      | .var u a f => .ofVar u (boundedAdd a add)
        (if f = 0 then floor else max (boundedAdd f add) floor)
      | .top => .top
    else l
  | l => l

def hole? : Level → Option Nat
  | .var (.hole m) _ _ => some m
  | _ => none

def hasParam : Level → Bool
  | .var .param _ _ => true
  | _ => false

/-- Written form, in which the level parameter is spelled as given. -/
def renderWith (param : String) : Level → String
  | .const n => toString n
  | .top => "\\oo"
  | .var v add floor =>
    let v := match v with
      | .param => param
      | .hole m => "?l" ++ toString m
    let v := if add = 0 then v else v ++ "+" ++ toString add
    if floor = 0 then v else "\\max " ++ v ++ " " ++ toString floor

def render : Level → String := renderWith "\\l"

end Level

/-- The two levels of a universe: the size of its types and their homotopy rank. -/
structure Universe where
  p : Level
  h : Level
deriving DecidableEq, Hashable

namespace Universe

def zero : Universe := ⟨.const 0, .const 0⟩

instance : Inhabited Universe := ⟨zero⟩

/-- The universe at the level parameters of a definition. -/
def params : Universe := ⟨.param, .param⟩

def succ? (u : Universe) : Option Universe := do
  return ⟨← u.p.succ?, ← u.h.succ?⟩

/-- Instantiates the level parameters. -/
def subst (u s : Universe) : Universe := ⟨u.p.subst .param s.p, u.h.subst .param s.h⟩

def map (f : Level → Level) (u : Universe) : Universe := ⟨f u.p, f u.h⟩

def render (u : Universe) : String :=
  "(" ++ u.p.renderWith "\\lp" ++ ") (" ++ u.h.renderWith "\\lh" ++ ")"

end Universe

end LeveledTypes
