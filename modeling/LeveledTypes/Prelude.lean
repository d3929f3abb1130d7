/-!
# The text of the prelude

The part of the prelude that is written in the language: arithmetic by recursion, and equality as
paths in a constant family. The digest of the prelude covers this text to the byte.
-/
namespace LeveledTypes.Prelude

def lines : List String := [
  "-- Derived definitions over the primitive part of the prelude.",
  "",
  "\\func plus (m n : Nat) : Nat \\with",
  "  | zero, n => n",
  "  | suc m, n => suc (plus m n)",
  "",
  "\\func mul (m n : Nat) : Nat \\with",
  "  | zero, n => zero",
  "  | suc m, n => plus n (mul m n)",
  "",
  "\\func pred (n : Nat) : Nat \\with",
  "  | zero => zero",
  "  | suc n => n",
  "",
  "-- Truncated subtraction.",
  "\\func minus (m n : Nat) : Nat \\with",
  "  | m, zero => m",
  "  | zero, suc n => zero",
  "  | suc m, suc n => minus m n",
  "",
  "\\func Eq \x7bA : \\Type\x7d (a a' : A) : \\Type => Path (\\lam _ => A) a a'",
  "",
  "\\func idp \x7bA : \\Type\x7d \x7ba : A\x7d : Eq a a => path \x7b\\lam _ => A\x7d (\\lam _ => a)",
  "",
  "\\func pmap \x7bA B : \\Type\x7d (f : A -> B) \x7ba a' : A\x7d (p : Eq a a') : Eq (f a) (f a') =>",
  "  path \x7b\\lam _ => B\x7d (\\lam i => f (at p i))"]

def text : String := "\n".intercalate lines ++ "\n"

end LeveledTypes.Prelude
