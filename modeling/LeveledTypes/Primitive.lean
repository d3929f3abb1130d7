import LeveledTypes.Definition

/-!
# Primitive definitions

The natural numbers with their recursor, the interval with its ends, and paths over a family of
types on the interval. All other definitions of the prelude are written in the language.
-/
namespace LeveledTypes.Primitive

/-- The name of the module that every other module sees. -/
def preludeName : String := "Prelude"

def globalName (short : String) : GlobalName := .qualified preludeName short

private def implicitParam (name : String) (type : Term) : Param Term :=
  { Binder.named name .implicit with type }

private def explicitParam (name : String) (type : Term) : Param Term :=
  { Binder.named name with type }

private def define (short : String) (p : Primitive) (tele : Telescope Term) (type : Term) :
    Definition :=
  Definition.withDeps
    { span := default, name := globalName short, tele, type, body := .primitive p }

/-- Families of types on the interval. -/
private def family : Term := .arrow .interval (.univ .params)

/-- The primitives, in the order in which they are registered. -/
def definitions : List Definition :=
  let motive := Term.arrow .nat (.univ .params)
  let step := Term.pi (.named "n") .nat
    (.arrow (.app (.var 2) (.var 0)) (.app (.var 3) (.succ (.var 1))))
  let lam := Term.pi (.named "i") .interval (.app (.var 1) (.var 0))
  [define "Nat" .nat [] (.univ .zero),
    define "zero" .zero [] .nat,
    define "suc" .succ [explicitParam "n" .nat] .nat,
    define "Nat.rec" .natRec
      [implicitParam "P" motive, explicitParam "z" (.app (.var 0) .zero), explicitParam "s" step,
        explicitParam "n" .nat]
      (.app (.var 3) (.var 0)),
    define "I" .interval [] (.univ .zero),
    define "left" .left [] .interval,
    define "right" .right [] .interval,
    define "Path" .path
      [explicitParam "A" family, explicitParam "a" (.app (.var 0) .left),
        explicitParam "a'" (.app (.var 1) .right)]
      (.univ .params),
    define "path" .pathLam [implicitParam "A" family, explicitParam "f" lam]
      (.path (.var 1) (.app (.var 0) .left) (.app (.var 0) .right)),
    define "at" .at
      [implicitParam "A" family, implicitParam "a" (.app (.var 0) .left),
        implicitParam "a'" (.app (.var 1) .right),
        explicitParam "p" (.path (.var 2) (.var 1) (.var 0)), explicitParam "i" .interval]
      (.app (.var 4) (.var 0))]

end LeveledTypes.Primitive
