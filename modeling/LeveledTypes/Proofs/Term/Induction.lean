import LeveledTypes.Term.Substitution
import Mathlib.Data.ENat.Lattice

/-!
# Induction on terms

Terms are nested in lists and in branches. The induction principle gives the hypothesis for every
member of such a list, and each traversal of a list is the map of the traversal of its members.
-/
namespace LeveledTypes

namespace Term

/-- Structural induction, with a hypothesis for every term of a list and for the body of every
branch. -/
@[elab_as_elim, induction_eliminator]
theorem induct {motive : Term → Prop}
    (univ : ∀ u, motive (.univ u))
    (var : ∀ i, motive (.var i))
    (ref : ∀ n u, motive (.ref n u))
    (hole : ∀ m, motive (.hole m))
    (lam : ∀ x a b, motive a → motive b → motive (.lam x a b))
    (pi : ∀ x a b, motive a → motive b → motive (.pi x a b))
    (app : ∀ f a, motive f → motive a → motive (.app f a))
    (letIn : ∀ x t a b, motive t → motive a → motive b → motive (.letIn x t a b))
    (sigma : ∀ x a b, motive a → motive b → motive (.sigma x a b))
    (pair : ∀ a b, motive a → motive b → motive (.pair a b))
    (proj : ∀ a s, motive a → motive (.proj a s))
    (data : ∀ n u ps, (∀ p ∈ ps, motive p) → motive (.data n u ps))
    (con : ∀ n u ps xs, (∀ p ∈ ps, motive p) → (∀ x ∈ xs, motive x) → motive (.con n u ps xs))
    (case : ∀ a m bs, motive a → motive m → (∀ b ∈ bs, motive (Branch.body b)) →
      motive (.case a m bs))
    (record : ∀ n u ps, (∀ p ∈ ps, motive p) → motive (.record n u ps))
    (new : ∀ n u ps fs, (∀ p ∈ ps, motive p) → (∀ f ∈ fs, motive f) → motive (.new n u ps fs))
    (field : ∀ a n i, motive a → motive (.field a n i))
    (nat : motive .nat)
    (zero : motive .zero)
    (succ : ∀ a, motive a → motive (.succ a))
    (natRec : ∀ m z s n, motive m → motive z → motive s → motive n → motive (.natRec m z s n))
    (interval : motive .interval)
    (left : motive .left)
    (right : motive .right)
    (path : ∀ a x y, motive a → motive x → motive y → motive (.path a x y))
    (pathLam : ∀ f, motive f → motive (.pathLam f))
    (point : ∀ l r p i, motive l → motive r → motive p → motive i → motive (.at l r p i))
    (t : Term) : motive t := by
  refine @Term.rec motive (fun ts => ∀ t ∈ ts, motive t) (fun bs => ∀ b ∈ bs, motive b.body)
    (fun b => motive b.body) univ var ref hole lam pi app letIn sigma pair proj data con case record
      new field nat zero
    succ natRec interval left right path pathLam point ?_ ?_ ?_ ?_ ?_ t
  case refine_1 => simp
  case refine_2 =>
    intro t ts ht hts
    exact List.forall_mem_cons.mpr ⟨ht, hts⟩
  case refine_3 => simp
  case refine_4 =>
    intro b bs hb hbs
    exact List.forall_mem_cons.mpr ⟨hb, hbs⟩
  case refine_5 =>
    intro head names body ih
    exact ih

end Term

end LeveledTypes
