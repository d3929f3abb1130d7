/-!
# Names of globals

The full name of a global is the name of its module, a pair of colons and its short name. Names are
kept as one text, because names that no module introduced can stand in a term too; the parts are
read off at the last pair of colons. Names are ordered as texts, by code points.
-/
namespace LeveledTypes

/-- The name of a global, qualified by its module. -/
structure GlobalName where
  text : String
deriving DecidableEq, Hashable, Inhabited

namespace GlobalName

def separator : String := "::"

def qualified (module short : String) : GlobalName := ⟨module ++ separator ++ short⟩

/-- Splits at the last pair of colons, if there is one. -/
def splitAtLast : List Char → Option (List Char × List Char)
  | [] => none
  | c :: cs =>
    match splitAtLast cs with
    | some (l, r) => some (c :: l, r)
    | none =>
      match c, cs with
      | ':', ':' :: r => some ([], r)
      | _, _ => none

/-- The text after the last pair of colons; all of it if there is none. -/
def short (n : GlobalName) : String :=
  match splitAtLast n.text.toList with
  | some (_, r) => String.ofList r
  | none => n.text

/-- The text before the last pair of colons; empty if there is none. -/
def module (n : GlobalName) : String :=
  match splitAtLast n.text.toList with
  | some (l, _) => String.ofList l
  | none => ""

def le (a b : GlobalName) : Bool := decide (a.text ≤ b.text)

/-- The names of a list in order, each once. -/
def sortUnique (ns : List GlobalName) : List GlobalName := dedup (ns.mergeSort le)
where
  dedup : List GlobalName → List GlobalName
    | a :: b :: rest => if a = b then dedup (b :: rest) else a :: dedup (b :: rest)
    | ns => ns

end GlobalName

end LeveledTypes
