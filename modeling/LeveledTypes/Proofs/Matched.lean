import Mathlib.Data.List.Forall2

/-!
# Runs that match

Two runs match if from related states they end alike: both return, and what they return is related,
or both fail with errors of the same kind; the states they end in are related again. An error of no
kind breaks a run off, and then nothing is said. Matching runs are put together as runs are: one
after the other, over the entries of two lists, or with a failure taken up.
-/
namespace LeveledTypes

section Runs
variable {ε σ κ α β γ δ : Type}

/-- How two runs end that match. -/
inductive EndMatched (kind : ε → Option κ) (R : σ → σ → Prop) (V : α → β → Prop) :
    EStateM.Result ε σ α → EStateM.Result ε σ β → Prop
  | ok {a : α} {b : β} {s t : σ} : V a b → R s t → EndMatched kind R V (.ok a s) (.ok b t)
  | error {e e' : ε} {s t : σ} : kind e = kind e' → R s t →
    EndMatched kind R V (.error e s) (.error e' t)
  | left {e : ε} {s : σ} {r : EStateM.Result ε σ β} : kind e = none →
    EndMatched kind R V (.error e s) r
  | right {e : ε} {t : σ} {r : EStateM.Result ε σ α} : kind e = none →
    EndMatched kind R V r (.error e t)

/-- From related states two runs end alike, unless one of them is broken off. -/
def Matched (kind : ε → Option κ) (R : σ → σ → Prop) (V : α → β → Prop) (x : EStateM ε σ α)
    (y : EStateM ε σ β) : Prop :=
  ∀ s t, R s t → EndMatched kind R V (x s) (y t)

variable {kind : ε → Option κ} {R : σ → σ → Prop} {V W : α → β → Prop} {U : γ → δ → Prop} {s t : σ}

theorem EndMatched.mono {r : EStateM.Result ε σ α} {r' : EStateM.Result ε σ β}
    (h : EndMatched kind R V r r') (hVW : ∀ a b, V a b → W a b) : EndMatched kind R W r r' := by
  cases h with
  | ok h hst => exact .ok (hVW _ _ h) hst
  | error h hst => exact .error h hst
  | left h => exact .left h
  | right h => exact .right h

namespace Matched
variable {x : EStateM ε σ α} {y : EStateM ε σ β} {f : α → EStateM ε σ γ} {g : β → EStateM ε σ δ}

/-- What a run returns that matches itself. -/
theorem of_self {V : α → α → Prop} {x : EStateM ε σ α} {a : α}
    (h : Matched kind R V x x) (hs : R s s) (hx : x s = .ok a t) : V a a ∧ R t t := by
  have hend := h s s hs
  rw [hx] at hend
  cases hend with
  | ok ha ht => exact ⟨ha, ht⟩

theorem pure {a : α} {b : β} (h : V a b) : Matched kind R V (pure a) (pure b) :=
  fun _ _ hs => .ok h hs

theorem throw {e e' : ε} (h : kind e = kind e') : Matched kind R V (throw e) (throw e') :=
  fun _ _ hs => .error h hs

theorem mono (hx : Matched kind R V x y) (h : ∀ a b, V a b → W a b) : Matched kind R W x y :=
  fun s t hs => (hx s t hs).mono h

/-- Runs that match, followed by runs that match on values that correspond. -/
theorem bind (hx : Matched kind R V x y) (hf : ∀ a b, V a b → Matched kind R U (f a) (g b)) :
    Matched kind R U (x >>= f) (y >>= g) := by
  intro s t hs
  change EndMatched kind R U (EStateM.bind x f s) (EStateM.bind y g t)
  unfold EStateM.bind
  have hxs := hx s t hs
  generalize x s = a, y t = b at hxs ⊢
  cases hxs with
  | ok h hst => exact hf _ _ h _ _ hst
  | error h hst => exact .error h hst
  | left h => exact .left h
  | right h => exact .right h

theorem get_bind {f : σ → EStateM ε σ γ} {g : σ → EStateM ε σ δ}
    (h : ∀ s t, R s t → Matched kind R U (f s) (g t)) :
    Matched kind R U (get >>= f) (get >>= g) := fun s t hs => h s t hs s t hs

/-- A failure that is taken up is raised again in the same state, with an error of the same kind. -/
theorem tryCatch {f : ε → EStateM ε σ α} {g : ε → EStateM ε σ β} (hx : Matched kind R V x y)
    (hf : ∀ e s, ∃ e', f e s = .error e' s ∧ kind e' = kind e)
    (hg : ∀ e s, ∃ e', g e s = .error e' s ∧ kind e' = kind e) :
    Matched kind R V (tryCatch x f) (tryCatch y g) := by
  intro s t hs
  change EndMatched kind R V (EStateM.tryCatch x f s) (EStateM.tryCatch y g t)
  unfold EStateM.tryCatch
  have hxs := hx s t hs
  generalize x s = a, y t = b at hxs ⊢
  cases hxs with
  | ok h hst => exact .ok h hst
  | @error e e' s t h hst =>
    obtain ⟨d, hd, hkind⟩ := hf e s
    obtain ⟨d', hd', hkind'⟩ := hg e' t
    have hend : EndMatched kind R V (f e s) (g e' t) :=
      hd ▸ hd' ▸ .error (hkind.trans (h.trans hkind'.symm)) hst
    exact hend
  | @left e s _ h =>
    obtain ⟨d, hd, hkind⟩ := hf e s
    have hend (r : EStateM.Result ε σ β) : EndMatched kind R V (f e s) r :=
      hd ▸ .left (hkind.trans h)
    exact hend _
  | @right e t _ h =>
    obtain ⟨d, hd, hkind⟩ := hg e t
    have hend (r : EStateM.Result ε σ α) : EndMatched kind R V r (g e t) :=
      hd ▸ .right (hkind.trans h)
    exact hend _

end Matched

section Lists
variable {as : List α} {bs : List β}

theorem Matched.mapM {f : α → EStateM ε σ γ} {g : β → EStateM ε σ δ} (hs : List.Forall₂ V as bs)
    (h : ∀ a b, V a b → Matched kind R U (f a) (g b)) :
    Matched kind R (List.Forall₂ U) (as.mapM f) (bs.mapM g) := by
  induction hs with
  | nil => exact .pure .nil
  | cons hab _ ih =>
    rw [List.mapM_cons, List.mapM_cons]
    exact .bind (h _ _ hab) fun c d hcd => .bind ih fun cs ds hs => .pure (.cons hcd hs)

theorem Matched.forM {f : α → EStateM ε σ PUnit} {g : β → EStateM ε σ PUnit}
    (hs : List.Forall₂ V as bs) (h : ∀ a b, V a b → Matched kind R (fun _ _ => True) (f a) (g b)) :
    Matched kind R (fun _ _ => True) (as.forM f) (bs.forM g) := by
  induction hs with
  | nil => exact .pure trivial
  | cons hab _ ih => exact .bind (h _ _ hab) fun _ _ _ => ih

theorem Matched.forIn {f : α → PUnit → EStateM ε σ (ForInStep PUnit)}
    {g : β → PUnit → EStateM ε σ (ForInStep PUnit)} (hs : List.Forall₂ V as bs)
    (h : ∀ a b, V a b → Matched kind R Eq (f a ⟨⟩) (g b ⟨⟩)) :
    Matched kind R Eq (forIn as PUnit.unit f) (forIn bs PUnit.unit g) := by
  induction hs with
  | nil => exact .pure rfl
  | cons hab _ ih =>
    rw [List.forIn_cons, List.forIn_cons]
    refine .bind (h _ _ hab) fun step step' hstep => ?_
    subst hstep
    cases step with
    | done => exact .pure rfl
    | yield => exact ih

theorem Matched.foldlM {f : γ → α → EStateM ε σ γ} {g : δ → α → EStateM ε σ δ} {c : γ}
    {d : δ} (hcd : U c d) (h : ∀ a c d, U c d → Matched kind R U (f c a) (g d a)) :
    Matched kind R U (as.foldlM f c) (as.foldlM g d) := by
  induction as generalizing c d with
  | nil => exact .pure hcd
  | cons a as ih => exact .bind (h a c d hcd) fun _ _ => ih

end Lists

end Runs

end LeveledTypes
