import LeveledTypes.Level.Graph
import LeveledTypes.Text.Span

/-!
# Errors and warnings

Everything that can go wrong, as causes. A problem is found at a place of a text; file operations,
cycles of imports and damaged cache entries have no place. The wording of all of them is in
`Problem.message` and `Error.message`.
-/
namespace LeveledTypes

/-- What is wrong at a place of a text. -/
inductive Problem where
  /-- The text does not follow the grammar, or a part of it that does is refused for a reason. -/
  | malformed (reason : Option String)
  | unresolvedName (n : String)
  | duplicateName (n : String)
  | unknownModule (n : String)
  | mismatch (expected actual : String)
  | notAType (e : String)
  | notAFunction (e : String)
  | unsolvedHole (h : String)
  | unsolvedConstraint (c : String)
  | goal (expected : String) (context : List (String × String))
  | inconsistentLevels (c : LevelConflict)
  | missingClauses (missing : List String)
  | ambiguousInstance (cls : String) (candidates : List String)
  | noInstance (cls : String)
  | notStructural (f : String)
  | dependencyFailed (name failed : String)
  | reductionLimit
  /-- The bound on the nesting of calls is used up. -/
  | nestingLimit
deriving DecidableEq

/-- What is wrong with a stored cache entry. -/
inductive Corruption where
  | badMagic
  | badVersion (found expected : Nat)
  | damaged
deriving DecidableEq

/-- A problem at a place of a text, or one that is not about a place. -/
inductive Error where
  | located (p : Problem) (span : Span)
  | io
  | cycle (path : List String)
  | corruptEntry (c : Corruption)
deriving DecidableEq

/-- The kinds that errors are told apart by. -/
inductive ErrorKind where
  | io
  | parse
  | nameResolution
  | typeMismatch
  | unsolvedMetavariable
  | unsolvedConstraint
  | goal
  | levelInconsistency
  | nonExhaustiveMatch
  | ambiguousInstance
  | noInstanceFound
  | nonTerminationRejected
  | dependencyCycle
  | dependencyFailed
  | cacheCorrupt
  | reductionLimit
deriving DecidableEq

/-- The kind by which a problem is counted. -/
def Problem.kind : Problem → ErrorKind
  | .malformed _ => .parse
  | .unresolvedName _ | .duplicateName _ | .unknownModule _ => .nameResolution
  | .mismatch _ _ | .notAType _ | .notAFunction _ => .typeMismatch
  | .unsolvedHole _ => .unsolvedMetavariable
  | .unsolvedConstraint _ => .unsolvedConstraint
  | .goal _ _ => .goal
  | .inconsistentLevels _ => .levelInconsistency
  | .missingClauses _ => .nonExhaustiveMatch
  | .ambiguousInstance _ _ => .ambiguousInstance
  | .noInstance _ => .noInstanceFound
  | .notStructural _ => .nonTerminationRejected
  | .dependencyFailed _ _ => .dependencyFailed
  | .reductionLimit | .nestingLimit => .reductionLimit

def quoted (s : String) : String := "\"" ++ s ++ "\""

/-- The text of a problem. -/
def Problem.message : Problem → String
  | .malformed _ => "parse error"
  | .unresolvedName n => "unresolved name " ++ quoted n
  | .duplicateName n => "duplicate name " ++ quoted n
  | .unknownModule n => "unknown module " ++ quoted n
  | .mismatch e a => "expected " ++ quoted e ++ ", got " ++ quoted a
  | .notAType e => "expected a type, got " ++ quoted e
  | .notAFunction e => "expected a function, got " ++ quoted e
  | .unsolvedHole h => "unsolved metavariable of type " ++ quoted h
  | .unsolvedConstraint c => "unsolved constraint " ++ quoted c
  | .goal e _ => "goal " ++ quoted e
  | .inconsistentLevels c => "inconsistent levels: " ++ c.render
  | .missingClauses ms => "missing clauses: " ++ ", ".intercalate ms
  | .ambiguousInstance c xs => "ambiguous instances of " ++ quoted c ++ ": " ++ ", ".intercalate xs
  | .noInstance c => "no instance of " ++ quoted c
  | .notStructural f => quoted f ++ " is not structurally recursive"
  | .dependencyFailed n f => quoted n ++ " depends on failed " ++ quoted f
  | .reductionLimit | .nestingLimit => "reduction limit exceeded"

/-- The text of what is wrong with the bytes of an entry. -/
def Corruption.message : Corruption → String
  | .badMagic => "corrupt cache entry: bad magic"
  | .badVersion v e => "corrupt cache entry: format version " ++ toString v ++
    ", expected " ++ toString e
  | .damaged => "corrupt cache entry"

namespace Error

def kind : Error → ErrorKind
  | .located p _ => p.kind
  | .io => .io
  | .cycle _ => .dependencyCycle
  | .corruptEntry _ => .cacheCorrupt

/-- The text of an error, without its place. -/
def message : Error → String
  | .located p _ => p.message
  | .io => "IO error"
  | .cycle path => "dependency cycle: " ++ " -> ".intercalate path
  | .corruptEntry c => c.message

def span? : Error → Option Span
  | .located _ s => some s
  | _ => none

/-- A mismatch of what was expected and what was found. -/
def mismatch (expected actual : String) (span : Span) : Error :=
  .located (.mismatch expected actual) span

def ofLevels (e : LevelError) : Error := .located (.inconsistentLevels e.conflict) e.span

end Error

inductive Warning where
  /-- A clause that no value reaches. -/
  | redundantClause (span : Span)
deriving DecidableEq

namespace Warning

def message : Warning → String
  | .redundantClause _ => "redundant clause"

def span : Warning → Span
  | .redundantClause s => s

end Warning

end LeveledTypes
