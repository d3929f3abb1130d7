import LeveledTypes.Level.Basic

/-!
# Levels as they are written

A written level mentions no hole and at most the one parameter that its place allows: it is a
number, the infinite level, or `max (param + add) floor`.
-/
namespace LeveledTypes

/-- A level as it is written. -/
inductive LevelExpr where
  | const (n : Nat)
  | param (add floor : Nat)
  | top
deriving DecidableEq, Inhabited

namespace LevelExpr

/-- The successor, unless a number in it would exceed the bound. -/
def succ? : LevelExpr → Option LevelExpr
  | .const n => (Level.boundedSucc? n).map .const
  | .param add floor => do
    let add ← Level.boundedSucc? add
    let floor ← if floor = 0 then some 0 else Level.boundedSucc? floor
    return .param add floor
  | .top => some .top

/-- The maximum, part by part. -/
def max : LevelExpr → LevelExpr → LevelExpr
  | .top, _ | _, .top => .top
  | .const a, .const b => .const (Nat.max a b)
  | .param add floor, .const c | .const c, .param add floor => .param add (Nat.max floor c)
  | .param a f, .param b g => .param (Nat.max a b) (Nat.max f g)

/-- The level that is meant. -/
def toLevel : LevelExpr → Level
  | .const n => .const n
  | .param add floor => .ofVar .param add floor
  | .top => .top

end LevelExpr

end LeveledTypes
