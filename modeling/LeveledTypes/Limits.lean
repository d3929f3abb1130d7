/-!
# Limits

The numbers that bound how far a search or a reduction goes.
-/
namespace LeveledTypes

/-- The bounds that stop a session that would not end. -/
structure Limits where
  /-- The deepest nesting of instance search. -/
  instanceDepth : Nat := 8
  /-- The contractions that one call of reduction may take. -/
  reductionFuel : Nat := 1000000
  /-- The deepest nesting of conversion. -/
  conversionDepth : Nat := 512
deriving DecidableEq, Inhabited

end LeveledTypes
