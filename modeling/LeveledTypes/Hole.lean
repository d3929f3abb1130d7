import LeveledTypes.Error
import LeveledTypes.Term.Substitution

/-!
# Holes

A hole is a term that elaboration still has to find. The store of one declaration holds its term
holes with their solutions, the universe holes, the level constraints on both levels, and the
conversion problems that wait for more holes to be solved. A store is a value: keeping an earlier
one is how a search goes back.
-/
namespace LeveledTypes

/-- What a hole was made for. -/
inductive HoleKind where
  /-- An argument that was left out, or an underscore. -/
  | implicit
  /-- An argument that instance search finds. -/
  | inst (cls : GlobalName)
  /-- A goal that the user asks about. -/
  | goal
deriving DecidableEq, Inhabited

/-- A term that is to be found. -/
structure Hole where
  span : Span
  kind : HoleKind
  /-- The type of the hole, closed by the parameters of the context it was made in. -/
  type : Term
  /-- The number of these parameters. -/
  arity : Nat
  /-- A closed term that takes the variables of the context as arguments. -/
  solution : Option Term := none
deriving Inhabited

/-- How two terms are compared. -/
inductive Comparison where
  | eq
  /-- Levels of universes and of data and class types may be smaller on the left. -/
  | le
deriving DecidableEq, Inhabited

/-- The values of the variables of a context, the innermost first; most variables have none. -/
abbrev Locals := List (Option Term)

/-- A conversion problem that could not be decided yet. -/
structure Constraint where
  lhs : Term
  rhs : Term
  cmp : Comparison
  locals : Locals
  span : Span
deriving Inhabited

/-- All that is to be found, with what is known about it: the holes of terms and levels, the
constraints on terms that wait, and the level graphs. -/
structure Store where
  holes : Array Hole := #[]
  levelCount : Nat := 0
  /-- The level holes for the first and for the second level of universe holes. -/
  pLevels : List Nat := []
  hLevels : List Nat := []
  levelSolutions : List (Nat × Level) := []
  constraints : List Constraint := []
  /-- The constraints on the first and on the second level. -/
  p : LevelGraph := {}
  h : LevelGraph := {}
deriving Inhabited

namespace Store

/-- Makes a hole of the given type in a context; the term is the hole applied to all variables of
the context. -/
def fresh (s : Store) (ctx : Telescope Term) (type : Term) (kind : HoleKind) (span : Span) :
    Term × Store :=
  let n := ctx.length
  ((Term.hole s.holes.size).apps ((List.range n).reverse.map .var),
    { s with holes := s.holes.push { span, kind, type := Term.pis ctx type, arity := n } })

/-- A universe whose two levels are to be found. -/
def freshUniverse (s : Store) : Universe × Store :=
  let p := s.levelCount
  let h := p + 1
  (⟨.hole p, .hole h⟩,
    { s with levelCount := p + 2, pLevels := s.pLevels ++ [p], hLevels := s.hLevels ++ [h] })

def solution? (s : Store) (m : Nat) : Option Term := s.holes[m]?.bind (·.solution)

def assign (s : Store) (m : Nat) (t : Term) : Store :=
  { s with holes := s.holes.modify m fun h => { h with solution := some t } }

def unsolvedCount (s : Store) : Nat :=
  s.holes.foldl (fun n h => if h.solution.isNone then n + 1 else n) 0

def levelSolution? (s : Store) (m : Nat) : Option Level := s.levelSolutions.lookup m

/-- Replaces solved holes and solved level holes by their solutions, whose own holes are replaced
too. Solutions do not mention each other in circles, so that the number of holes bounds the
nesting. -/
def zonk (s : Store) (t : Term) : Term :=
  (t.fillDeep s.solution? s.holes.size).fillLevels s.levelSolution?

/-- Puts in the solution of a level's hole, if there is one. -/
def zonkLevel (s : Store) (l : Level) : Level :=
  match l.hole? with
  | some m => match s.levelSolution? m with
    | some r => l.subst (.hole m) r
    | none => l
  | none => l

/-- Adds a constraint on both levels; what was added before a conflict stays. -/
def addUniverses (s : Store) (add : LevelGraph → Level → Level → Span →
    LevelGraph × Option LevelError) (u v : Universe) (span : Span) : Store × Option LevelError :=
  match add s.p u.p v.p span with
  | (p, some e) => ({ s with p }, some e)
  | (p, none) =>
    let (h, e) := add s.h u.h v.h span
    ({ s with p, h }, e)

def addUniverse (s : Store) (cmp : Comparison) :
    Universe → Universe → Span → Store × Option LevelError :=
  s.addUniverses (match cmp with
    | .eq => LevelGraph.addEq
    | .le => LevelGraph.addLe)

/-- Solves the level constraints; every level hole gets a level. A hole on both levels gets that of
the second one. -/
def solveLevels (s : Store) : Except LevelError Store := do
  let ps ← s.p.solve s.pLevels
  let hs ← s.h.solve s.hLevels
  return { s with levelSolutions := hs ++ ps }

end Store

end LeveledTypes
