import LeveledTypes.Proofs.Ensures
import LeveledTypes.Proofs.Matched

/-!
# Runs side by side

Two runs are coupled by a relation of states if from related states they end alike: both return the
same, or both fail with the same error, in states that are related again. Coupled runs are put
together as runs are: one after the other, over the entries of a list, or with a failure taken up.
-/
namespace LeveledTypes

section Runs
variable {ε σ α β : Type}

/-- Two runs have ended with the same value or the same error, in related states. -/
inductive EndAlike (R : σ → σ → Prop) : EStateM.Result ε σ α → EStateM.Result ε σ α → Prop
  | ok (a : α) {s t : σ} : R s t → EndAlike R (.ok a s) (.ok a t)
  | error (e : ε) {s t : σ} : R s t → EndAlike R (.error e s) (.error e t)

/-- From related states two runs end alike. -/
def Coupled (R : σ → σ → Prop) (x y : EStateM ε σ α) : Prop := ∀ s t, R s t → EndAlike R (x s) (y t)

/-- To end alike is to end matched with equal results and equal errors. -/
theorem endAlike_iff {R : σ → σ → Prop} {r r' : EStateM.Result ε σ α} :
    EndAlike R r r' ↔ EndMatched some R Eq r r' := by
  constructor
  · rintro (⟨_, h⟩ | ⟨_, h⟩)
    · exact .ok rfl h
    · exact .error rfl h
  · intro h
    cases h with
    | ok ha h => exact ha ▸ .ok _ h
    | error he h => exact Option.some.inj he ▸ .error _ h
    | left he => cases he
    | right he => cases he

/-- Coupled runs are those that match with the same values and the same errors. -/
theorem coupled_iff {R : σ → σ → Prop} {x y : EStateM ε σ α} :
    Coupled R x y ↔ Matched some R Eq x y :=
  forall₂_congr fun _ _ => imp_congr_right fun _ => endAlike_iff

theorem matched_of_coupled {R : σ → σ → Prop} {f g : α → EStateM ε σ β}
    (h : ∀ a, Coupled R (f a) (g a)) (a b : α) (hab : a = b) : Matched some R Eq (f a) (g b) :=
      hab ▸ coupled_iff.mp (h a)

namespace Coupled
variable {R : σ → σ → Prop} {x y : EStateM ε σ α} {f g : α → EStateM ε σ β}

theorem exists_ok {s s' t : σ} {a : α} (h : Coupled R x y) (hs : R s t) (hx : x s = .ok a s') :
    ∃ t', y t = .ok a t' ∧ R s' t' := by
  have hend := h s t hs
  rw [hx] at hend
  generalize y t = r at hend
  cases hend with
  | ok _ h => exact ⟨_, rfl, h⟩

theorem exists_error {s s' t : σ} {e : ε} (h : Coupled R x y) (hs : R s t)
    (hx : x s = .error e s') : ∃ t', y t = .error e t' ∧ R s' t' := by
  have hend := h s t hs
  rw [hx] at hend
  generalize y t = r at hend
  cases hend with
  | error _ h => exact ⟨_, rfl, h⟩

theorem pure (a : α) : Coupled R (pure a : EStateM ε σ α) (pure a) := fun _ _ h => .ok a h

theorem throw (e : ε) : Coupled R (throw e : EStateM ε σ α) (throw e) := fun _ _ h => .error e h

theorem bind (hx : Coupled R x y) (hf : ∀ a, Coupled R (f a) (g a)) :
    Coupled R (x >>= f) (y >>= g) :=
  coupled_iff.mpr (.bind (coupled_iff.mp hx) (matched_of_coupled hf))

/-- What a run returns from a state that is related to another one may be known. -/
theorem bind_of_ensures {P : α → Prop} (hx : Coupled R x y) (hP : Ensures (fun s => ∃ t, R s t) x P)
    (hf : ∀ a, P a → Coupled R (f a) (g a)) : Coupled R (x >>= f) (y >>= g) := by
  intro s t hs
  change EndAlike R (EStateM.bind x f s) (EStateM.bind y g t)
  unfold EStateM.bind
  have hxs := hx s t hs
  have hPs := hP s ⟨t, hs⟩
  generalize x s = a, y t = b at hxs hPs ⊢
  cases hxs with
  | ok a h => exact hf a hPs.2 _ _ h
  | error e h => exact .error e h

theorem map {g : α → β} (hx : Coupled R x y) : Coupled R (g <$> x) (g <$> y) := by
  rw [map_eq_pure_bind, map_eq_pure_bind]
  exact hx.bind fun a => .pure (g a)

theorem tryCatch {f g : ε → EStateM ε σ α} (hx : Coupled R x y) (hf : ∀ e, Coupled R (f e) (g e)) :
    Coupled R (tryCatch x f) (tryCatch y g) := by
  intro s t hs
  change EndAlike R (EStateM.tryCatch x f s) (EStateM.tryCatch y g t)
  unfold EStateM.tryCatch
  have hxs := hx s t hs
  generalize x s = a, y t = b at hxs ⊢
  cases hxs with
  | ok a h => exact .ok a h
  | error e h => exact hf e _ _ h

theorem modify {f g : σ → σ} (h : ∀ s t, R s t → R (f s) (g t)) :
    Coupled R (modify f : EStateM ε σ PUnit) (modify g) := fun s t hs => .ok PUnit.unit (h s t hs)

end Coupled

section Lists
variable {R : σ → σ → Prop} {as : List α}

theorem Coupled.mapM {f g : α → EStateM ε σ β} (h : ∀ a, Coupled R (f a) (g a)) :
    Coupled R (as.mapM f) (as.mapM g) := by
  have hmatched : Matched some R (List.Forall₂ Eq) (as.mapM f) (as.mapM g) :=
    .mapM (List.forall₂_refl as) (matched_of_coupled h)
  rw [List.forall₂_eq_eq_eq] at hmatched
  exact coupled_iff.mpr hmatched

theorem Coupled.filterMapM {f g : α → EStateM ε σ (Option β)} (h : ∀ a, Coupled R (f a) (g a)) :
    Coupled R (as.filterMapM f) (as.filterMapM g) := by
  induction as with
  | nil => exact .pure []
  | cons a as ih =>
    rw [List.filterMapM_cons, List.filterMapM_cons]
    refine .bind (h a) fun o => ?_
    cases o with
    | none => exact ih
    | some b => exact .bind ih fun bs => .pure (b :: bs)

theorem Coupled.forM {f g : α → EStateM ε σ PUnit} (h : ∀ a, Coupled R (f a) (g a)) :
    Coupled R (as.forM f) (as.forM g) := by
  have hmatched (a b : α) (hab : a = b) : Matched some R (fun _ _ => True) (f a) (g b) :=
    (matched_of_coupled h a b hab).mono fun _ _ _ => trivial
  exact coupled_iff.mpr ((Matched.forM (List.forall₂_refl as) hmatched).mono fun _ _ _ => rfl)

theorem Coupled.forIn {f g : α → PUnit → EStateM ε σ (ForInStep PUnit)}
    (h : ∀ a, Coupled R (f a ⟨⟩) (g a ⟨⟩)) :
    Coupled R (forIn as PUnit.unit f) (forIn as PUnit.unit g) :=
  coupled_iff.mpr (.forIn (List.forall₂_refl as) (matched_of_coupled h))

theorem Coupled.foldlM {f g : β → α → EStateM ε σ β} {b : β}
    (h : ∀ b a, Coupled R (f b a) (g b a)) : Coupled R (as.foldlM f b) (as.foldlM g b) :=
  coupled_iff.mpr (.foldlM rfl fun a b _ hbc => hbc ▸ coupled_iff.mp (h b a))

end Lists

end Runs

end LeveledTypes
