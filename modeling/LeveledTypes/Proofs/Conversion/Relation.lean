import LeveledTypes.Hole
import LeveledTypes.Proofs.Level.Valuation
import LeveledTypes.Proofs.Reduction.Head

/-!
# Convertibility

Two terms are convertible under a solution of the holes if they are equal in the least congruence
that contains head reduction and the eta rules, and that takes no account of what types determine:
the domains of abstractions, the levels and the parameters stored in constructors and instances, the
motives of eliminations, and the ends of points of paths. Subtyping lets levels grow in the
codomains of functions and in both parts of pairs.

The eta rule for instances is there only for the classes and the numbers of fields of a signature,
and the rules for paths only if the signature has paths. So what does not occur in the terms of a
problem identifies nothing in it.
-/
namespace LeveledTypes

/-- A solution of the holes: terms for the holes, and at each value of the level parameter the
values of the level holes that stand in the first and in the second levels of universes. -/
structure Solution where
  hole : ℕ → Option Term
  first : ℕ → ℕ → ℕ∞
  second : ℕ → ℕ → ℕ∞

namespace Solution

/-- The universes have equal levels at every value of the level parameter. -/
def Agree (M : Solution) (u v : Universe) : Prop :=
  (∀ k, u.p.eval k (M.first k) = v.p.eval k (M.first k)) ∧
    ∀ k, u.h.eval k (M.second k) = v.h.eval k (M.second k)

/-- The levels of one universe are at most those of the other at every value of the level
parameter. -/
def Below (M : Solution) (u v : Universe) : Prop :=
  (∀ k, u.p.eval k (M.first k) ≤ v.p.eval k (M.first k)) ∧
    ∀ k, u.h.eval k (M.second k) ≤ v.h.eval k (M.second k)

end Solution

/-- Convertibility in a context where some variables have values. -/
inductive Conv (S : Signature) (env : Environment) (M : Solution) : Locals → Term → Term → Prop
  | same {L : Locals} {l r : Term} : l.same r = true → Conv S env M L l r
  | symm {L : Locals} {l r : Term} : Conv S env M L l r → Conv S env M L r l
  | trans {L : Locals} {l m r : Term} : Conv S env M L l m → Conv S env M L m r → Conv S env M L l r
  | step {L : Locals} {t t' : Term} : t.Over S ⊤ → HeadStep env M.hole L t t' → Conv S env M L t t'
  | univ {L : Locals} {u v : Universe} : M.Agree u v → Conv S env M L (.univ u) (.univ v)
  | ref {L : Locals} {n : GlobalName} {u v : Universe} : M.Agree u v →
    Conv S env M L (.ref n u) (.ref n v)
  | lam {L : Locals} {x y : Binder} {a b c d : Term} : Conv S env M (L.under 1) b d →
      Conv S env M L (.lam x a b) (.lam y c d)
  | pi {L : Locals} {x y : Binder} {a b c d : Term} : x.info = y.info → Conv S env M L a c →
      Conv S env M (L.under 1) b d → Conv S env M L (.pi x a b) (.pi y c d)
  | app {L : Locals} {f g a b : Term} : Conv S env M L f g → Conv S env M L a b →
      Conv S env M L (.app f a) (.app g b)
  | letIn {L : Locals} {x y : Binder} {t a b s c d : Term} : x.info = y.info → Conv S env M L t s →
      Conv S env M L a c → Conv S env M (L.under 1) b d →
      Conv S env M L (.letIn x t a b) (.letIn y s c d)
  | sigma {L : Locals} {x y : Binder} {a b c d : Term} : Conv S env M L a c →
    Conv S env M (L.under 1) b d →
      Conv S env M L (.sigma x a b) (.sigma y c d)
  | pair {L : Locals} {a b c d : Term} : Conv S env M L a c → Conv S env M L b d →
      Conv S env M L (.pair a b) (.pair c d)
  | proj {L : Locals} {a b : Term} {s : Side} : Conv S env M L a b →
    Conv S env M L (.proj a s) (.proj b s)
  | data {L : Locals} {n : GlobalName} {u v : Universe} {ps qs : List Term} : M.Agree u v →
    ps.length = qs.length →
      (∀ p ∈ ps.zip qs, Conv S env M L p.1 p.2) → Conv S env M L (.data n u ps) (.data n v qs)
  | con {L : Locals} {n : GlobalName} {u v : Universe} {ps qs xs ys : List Term} :
    xs.length = ys.length →
      (∀ p ∈ xs.zip ys, Conv S env M L p.1 p.2) → Conv S env M L (.con n u ps xs) (.con n v qs ys)
  | case {L : Locals} {a b m n : Term} {bs ds : List (Branch Term)} : Conv S env M L a b →
    bs.length = ds.length →
      (∀ p ∈ bs.zip ds, p.1.head = p.2.head ∧ p.1.arity = p.2.arity) →
      (∀ p ∈ bs.zip ds, Conv S env M (L.under p.1.arity) p.1.body p.2.body) →
      Conv S env M L (.case a m bs) (.case b n ds)
  | record {L : Locals} {n : GlobalName} {u v : Universe} {ps qs : List Term} : M.Agree u v →
    ps.length = qs.length →
      (∀ p ∈ ps.zip qs, Conv S env M L p.1 p.2) → Conv S env M L (.record n u ps) (.record n v qs)
  | new {L : Locals} {n : GlobalName} {u v : Universe} {ps qs fs gs : List Term} :
    fs.length = gs.length →
      (∀ p ∈ fs.zip gs, Conv S env M L p.1 p.2) → Conv S env M L (.new n u ps fs) (.new n v qs gs)
  | field {L : Locals} {a b : Term} {n : GlobalName} {i : ℕ} : Conv S env M L a b →
      Conv S env M L (.field a n i) (.field b n i)
  | succ {L : Locals} {a b : Term} : Conv S env M L a b → Conv S env M L (.succ a) (.succ b)
  | natRec {L : Locals} {m n z z' s s' t t' : Term} : Conv S env M L z z' → Conv S env M L s s' →
      Conv S env M L t t' → Conv S env M L (.natRec m z s t) (.natRec n z' s' t')
  | path {L : Locals} {a b x y u v : Term} : Conv S env M L a b → Conv S env M L x u →
    Conv S env M L y v →
      Conv S env M L (.path a x y) (.path b u v)
  | pathLam {L : Locals} {f g : Term} : Conv S env M L f g →
    Conv S env M L (.pathLam f) (.pathLam g)
  | point {L : Locals} {l r p i l' r' q j : Term} : Conv S env M L l l' → Conv S env M L r r' →
    Conv S env M L p q →
      Conv S env M L i j → Conv S env M L (.at l r p i) (.at l' r' q j)
  | ends {L : Locals} {l r p i l' r' : Term} : S.paths →
    Conv S env M L (.at l r p i) (.at l' r' p i)
  | etaFun {L : Locals} {x : Binder} {a t : Term} :
    Conv S env M L t (.lam x a (.app (t.lift 1) (.var 0)))
  | etaPair {L : Locals} {t : Term} : Conv S env M L t (.pair (.proj t .fst) (.proj t .snd))
  | etaRecord {L : Locals} {n : GlobalName} {u : Universe} {ps : List Term} {k : ℕ}
    {t : Term} : S.record n k →
      Conv S env M L t (.new n u ps ((List.range k).map (Term.field t n ·)))
  | etaPath {L : Locals} {f t : Term} : S.paths →
      Conv S env M (L.under 1) (.app (f.lift 1) (.var 0))
        (.at (.app (f.lift 1) .left) (.app (f.lift 1) .right) (t.lift 1) (.var 0)) →
      Conv S env M L (.pathLam f) t

/-- Subtyping: the levels of universes and of data and class types may grow. -/
inductive Subtyping (S : Signature) (env : Environment) (M : Solution) : Locals → Term → Term → Prop
  | refl {L : Locals} {l r : Term} : Conv S env M L l r → Subtyping S env M L l r
  | conv {L : Locals} {l l' r r' : Term} : Conv S env M L l l' → Subtyping S env M L l' r' →
    Conv S env M L r' r →
      Subtyping S env M L l r
  | univ {L : Locals} {u v : Universe} : M.Below u v → Subtyping S env M L (.univ u) (.univ v)
  | data {L : Locals} {n : GlobalName} {u v : Universe} {ps qs : List Term} : M.Below u v →
    ps.length = qs.length →
      (∀ p ∈ ps.zip qs, Conv S env M L p.1 p.2) → Subtyping S env M L (.data n u ps) (.data n v qs)
  | record {L : Locals} {n : GlobalName} {u v : Universe} {ps qs : List Term} : M.Below u v →
      ps.length = qs.length → (∀ p ∈ ps.zip qs, Conv S env M L p.1 p.2) →
      Subtyping S env M L (.record n u ps) (.record n v qs)
  | pi {L : Locals} {x y : Binder} {a b c d : Term} : x.info = y.info → Conv S env M L a c →
      Subtyping S env M (L.under 1) b d → Subtyping S env M L (.pi x a b) (.pi y c d)
  | sigma {L : Locals} {x y : Binder} {a b c d : Term} : Subtyping S env M L a c →
    Subtyping S env M (L.under 1) b d →
      Subtyping S env M L (.sigma x a b) (.sigma y c d)

/-- The relation of levels that a comparison asks for. -/
def Comparison.Holds : Comparison → ℕ∞ → ℕ∞ → Prop
  | .eq => (· = ·)
  | .le => (· ≤ ·)

/-- The levels of two universes are related as a comparison asks at every value of the level
parameter. -/
def Solution.Compares (M : Solution) (cmp : Comparison) (u v : Universe) : Prop :=
  (∀ k, cmp.Holds (u.p.eval k (M.first k)) (v.p.eval k (M.first k))) ∧
    ∀ k, cmp.Holds (u.h.eval k (M.second k)) (v.h.eval k (M.second k))

/-- The relation that a comparison is about. -/
def Related (S : Signature) (env : Environment) (M : Solution) :
    Comparison → Locals → Term → Term → Prop
  | .eq => Conv S env M
  | .le => Subtyping S env M

namespace Conv
variable {S : Signature} {env : Environment} {M : Solution} {L : Locals} {t t' : Term}

@[refl] theorem refl (t : Term) : Conv S env M L t t := same t.same_refl

/-- A reduct is convertible, if the solutions that the reduction used are among those of the
relation. -/
theorem of_reduces {sol : ℕ → Option Term} (henv : env.Over S) (hc : ContextOver S ⊤ sol L)
    (hsol : ∀ m s, S.hole m → sol m = some s → M.hole m = some s) (ht : t.Over S ⊤)
    (h : Reduces env sol L t t') :
    Conv S env M L t t' := by
  induction h with
  | refl => exact refl t
  | tail h hstep ih =>
    have hover := Reduces.preserves_over h henv hc ht
    exact ih.trans (hstep.elim
      (fun h => step hover (h.transport hsol (fun _ _ _ => id) hover)) same)

theorem related (h : Conv S env M L t t') (cmp : Comparison) : Related S env M cmp L t t' := by
  cases cmp with
  | eq => exact h
  | le => exact .refl h

theorem apps_congr {as bs : List Term} (h : Conv S env M L t t')
    (has : List.Forall₂ (Conv S env M L) as bs) : Conv S env M L (t.apps as) (t'.apps bs) := by
  induction has generalizing t t' with
  | nil => exact h
  | cons ha _ ih => exact ih (h.app ha)

theorem apps {as : List Term} (h : Conv S env M L t t') : Conv S env M L (t.apps as) (t'.apps as) :=
  h.apps_congr (List.forall₂_same.mpr fun a _ => refl a)

theorem lams {tele : Telescope Term} (h : Conv S env M (L.under tele.length) t t') :
    Conv S env M L (Term.lams tele t) (Term.lams tele t') := by
  induction tele generalizing L with
  | nil => exact h
  | cons p tele ih =>
    refine lam (ih ?_)
    rwa [Locals.under_add, Nat.add_comm]

/-- An instance is convertible to a term that has convertible fields. -/
theorem of_fields {m : GlobalName} {u : Universe} {ps fs : List Term}
    (hrecord : S.record m fs.length) (h : ∀ p ∈ fs.zipIdx, Conv S env M L p.1 (.field t m p.2)) :
    Conv S env M L (.new m u ps fs) t := by
  have heta : Conv S env M L t (.new m u ps ((List.range fs.length).map (Term.field t m ·))) :=
    .etaRecord hrecord
  refine (new (by simp) fun p hp => ?_).trans heta.symm
  rw [List.zip_map_right, List.range_eq_range', ← List.zipIdx_eq_zip_range', List.mem_map] at hp
  obtain ⟨q, hq, rfl⟩ := hp
  exact h q hq

end Conv

namespace Related
variable {S : Signature} {env : Environment} {M : Solution} {cmp : Comparison} {L : Locals}
  {n : GlobalName} {u v : Universe} {x y : Binder} {a b d e : Term} {ps qs : List Term}

theorem univ (h : M.Compares cmp u v) : Related S env M cmp L (.univ u) (.univ v) := by
  cases cmp with
  | eq => exact Conv.univ h
  | le => exact Subtyping.univ h

theorem data (h : M.Compares cmp u v) (hlen : ps.length = qs.length)
    (hps : ∀ p ∈ ps.zip qs, Conv S env M L p.1 p.2) :
    Related S env M cmp L (.data n u ps) (.data n v qs) := by
  cases cmp with
  | eq => exact Conv.data h hlen hps
  | le => exact Subtyping.data h hlen hps

theorem record (h : M.Compares cmp u v) (hlen : ps.length = qs.length)
    (hps : ∀ p ∈ ps.zip qs, Conv S env M L p.1 p.2) :
    Related S env M cmp L (.record n u ps) (.record n v qs) := by
  cases cmp with
  | eq => exact Conv.record h hlen hps
  | le => exact Subtyping.record h hlen hps

theorem pi (hx : x.info = y.info) (ha : Conv S env M L a d)
    (hb : Related S env M cmp (L.under 1) b e) : Related S env M cmp L (.pi x a b) (.pi y d e) := by
  cases cmp with
  | eq => exact Conv.pi hx ha hb
  | le => exact Subtyping.pi hx ha hb

theorem sigma (ha : Related S env M cmp L a d) (hb : Related S env M cmp (L.under 1) b e) :
    Related S env M cmp L (.sigma x a b) (.sigma y d e) := by
  cases cmp with
  | eq => exact Conv.sigma ha hb
  | le => exact Subtyping.sigma ha hb

/-- Comparing terms that are convertible to the given ones. -/
theorem conv {l l' r r' : Term} (hl : Conv S env M L l l') (h : Related S env M cmp L l' r')
    (hr : Conv S env M L r r') : Related S env M cmp L l r := by
  cases cmp with
  | eq => exact hl.trans (h.trans hr.symm)
  | le => exact Subtyping.conv hl h hr.symm

end Related

end LeveledTypes
