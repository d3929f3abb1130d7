import Mathlib.Data.List.Forall2

/-!
# What runs ensure

A run of a stateful computation keeps an invariant of the state, however it ends, and what it
returns is as said. Runs are put together from runs of their parts: one after the other, over the
entries of a list, or with a failure taken up.
-/
namespace LeveledTypes

section Runs
variable {ε σ α β : Type}

/-- A run from a state with the invariant keeps the invariant, however it ends, and a value that it
returns is as said. -/
def Ensures (I : σ → Prop) (x : EStateM ε σ α) (Q : α → Prop) : Prop :=
  ∀ s, I s → match x s with
    | .ok a s' => I s' ∧ Q a
    | .error _ s' => I s'

namespace Ensures
variable {I : σ → Prop} {x : EStateM ε σ α} {f : α → EStateM ε σ β} {P : α → Prop} {Q : β → Prop}

theorem ok {s s' : σ} {a : α} (h : Ensures I x P) (hs : I s) (hr : x s = .ok a s') :
    I s' ∧ P a := by
  simpa only [hr] using h s hs

theorem error {s s' : σ} {e : ε} (h : Ensures I x P) (hs : I s) (hr : x s = .error e s') :
    I s' := by
  simpa only [hr] using h s hs

/-- What is ensured, for one state at a time. -/
theorem of_forall (h : ∀ s, I s → (∀ a t, x s = .ok a t → I t ∧ P a) ∧ ∀ e t, x s = .error e t →
    I t) : Ensures I x P := by
  intro s hs
  obtain ⟨hok, herror⟩ := h s hs
  cases hr : x s with
  | ok a t => exact hok a t hr
  | error e t => exact herror e t hr

theorem pure {a : α} (h : P a) : Ensures I (pure a : EStateM ε σ α) P := fun _ hs => ⟨hs, h⟩

/-- What holds of the value of the first run is known in the second, which starts from a state with
the property. -/
theorem bind (hx : Ensures I x P) (hf : ∀ a, P a → Ensures I (f a) Q) : Ensures I (x >>= f) Q := by
  intro s hs
  have hxs := hx s hs
  change match EStateM.bind x f s with
    | .ok b s' => I s' ∧ Q b
    | .error _ s' => I s'
  unfold EStateM.bind
  cases h : x s with
  | ok a t =>
    simp only [h] at hxs
    exact hf a hxs.2 t hxs.1
  | error e t => simpa only [h] using hxs

theorem map {g : α → β} (hx : Ensures I x P) (hg : ∀ a, P a → Q (g a)) : Ensures I (g <$> x) Q := by
  rw [map_eq_pure_bind]
  exact hx.bind fun a ha => .pure (hg a ha)

theorem throw (e : ε) : Ensures I (throw e : EStateM ε σ α) P := fun _ hs => hs

theorem mono {P' : α → Prop} (hx : Ensures I x P) (h : ∀ a, P a → P' a) : Ensures I x P' := by
  intro s hs
  have hxs := hx s hs
  split at hxs
  · exact hxs.imp_right (h _)
  · exact hxs

end Ensures

/-- An error keeps the property as well, so that the handler starts from a state that has it. -/
theorem Ensures.tryCatch {I : σ → Prop} {x : EStateM ε σ α} {f : ε → EStateM ε σ α} {Q : α → Prop}
    (hx : Ensures I x Q) (hf : ∀ e, Ensures I (f e) Q) : Ensures I (tryCatch x f) Q := by
  intro s hs
  have hxs := hx s hs
  change match EStateM.tryCatch x f s with
    | .ok a s' => I s' ∧ Q a
    | .error _ s' => I s'
  unfold EStateM.tryCatch
  cases h : x s with
  | ok a s' => simpa only [h] using hxs
  | error e s' =>
    simp only [h] at hxs
    exact hf e s' hxs

section Lists
variable {I : σ → Prop} {as : List α}

theorem Ensures.mapM {f : α → EStateM ε σ β} {R : α → β → Prop}
    (h : ∀ a ∈ as, Ensures I (f a) (R a)) : Ensures I (as.mapM f) (List.Forall₂ R as) := by
  induction as with
  | nil => exact .pure .nil
  | cons a as ih =>
    rw [List.mapM_cons]
    refine .bind (h a (by simp)) fun b hb => ?_
    exact .bind (ih fun a ha => h a (by simp [ha])) fun bs hbs => .pure (.cons hb hbs)

theorem Ensures.filterMapM {f : α → EStateM ε σ (Option β)} {P : β → Prop}
    (h : ∀ a ∈ as, Ensures I (f a) fun o => ∀ b, o = some b → P b) :
    Ensures I (as.filterMapM f) fun bs => ∀ b ∈ bs, P b := by
  induction as with
  | nil => exact .pure (by simp)
  | cons a as ih =>
    obtain ⟨ha, has⟩ := List.forall_mem_cons.mp h
    rw [List.filterMapM_cons]
    refine .bind ha fun o ho => ?_
    cases o with
    | none => exact ih has
    | some b => exact .bind (ih has) fun bs hbs => .pure (List.forall_mem_cons.mpr ⟨ho b rfl, hbs⟩)

theorem Ensures.forM {f : α → EStateM ε σ Unit} (h : ∀ a ∈ as, Ensures I (f a) fun _ => True) :
    Ensures I (as.forM f) fun _ => True := by
  induction as with
  | nil => exact .pure trivial
  | cons a as ih =>
    obtain ⟨ha, has⟩ := List.forall_mem_cons.mp h
    exact .bind ha fun _ _ => ih has

theorem Ensures.forIn {f : α → PUnit → EStateM ε σ (ForInStep PUnit)}
    (h : ∀ a ∈ as, Ensures I (f a ⟨⟩) fun _ => True) :
    Ensures I (forIn as PUnit.unit f) fun _ => True := by
  induction as with
  | nil => exact .pure trivial
  | cons a as ih =>
    obtain ⟨ha, has⟩ := List.forall_mem_cons.mp h
    rw [List.forIn_cons]
    refine .bind ha fun step _ => ?_
    cases step with
    | done => exact .pure trivial
    | yield => exact ih has

/-- A fold whose invariant knows how many entries have been taken up. -/
theorem Ensures.foldlM_of_getElem? {f : β → α → EStateM ε σ β} {P : ℕ → β → Prop}
    {b : β} (hb : P 0 b) (h : ∀ i b a, as[i]? = some a → P i b → Ensures I (f b a) (P (i + 1))) :
    Ensures I (as.foldlM f b) (P as.length) := by
  induction as generalizing b P with
  | nil => exact .pure hb
  | cons a as ih =>
    refine .bind (h 0 b a rfl hb) fun b' hb' => ?_
    exact ih (P := fun i => P (i + 1)) hb' fun i b a ha => h (i + 1) b a ha

theorem Ensures.foldlM {f : β → α → EStateM ε σ β} {P : β → Prop} {b : β} (hb : P b)
    (h : ∀ b, ∀ a ∈ as, P b → Ensures I (f b a) P) : Ensures I (as.foldlM f b) P :=
  Ensures.foldlM_of_getElem? (P := fun _ => P) hb fun _ b a ha => h b a (List.mem_of_getElem? ha)

end Lists

section Bind
variable {x : EStateM ε σ α} {f : α → EStateM ε σ β} {s t : σ}

theorem bind_eq_ok {s' : σ} {b : β} :
    (x >>= f) s = .ok b s' ↔ ∃ a t, x s = .ok a t ∧ f a t = .ok b s' := by
  change EStateM.bind x f s = _ ↔ _
  unfold EStateM.bind
  cases x s <;> simp

theorem bind_eq_error {e : ε} :
    (x >>= f) s = .error e t ↔ x s = .error e t ∨ ∃ a u, x s = .ok a u ∧ f a u = .error e t := by
  change EStateM.bind x f s = _ ↔ _
  unfold EStateM.bind
  cases x s <;> simp

theorem bind_of_ok {a : α} (h : x s = .ok a t) : (x >>= f) s = f a t := by
  change EStateM.bind x f s = _
  rw [EStateM.bind, h]

theorem bind_of_error {e : ε} (h : x s = .error e t) : (x >>= f) s = .error e t := by
  change EStateM.bind x f s = _
  rw [EStateM.bind, h]

end Bind

/-- A run over a list is made of the runs on its members. -/
theorem runs_of_mapM {f : α → EStateM ε σ β} {P : α → σ → β → σ → Prop}
    {R : σ → σ → Prop} {as : List α} {bs : List β} {s t : σ}
    (hrefl : ∀ s, R s s) (htrans : ∀ s t u, R s t → R t u → R s u)
    (hf : ∀ a ∈ as, ∀ s b t, f a s = .ok b t → R s t ∧ P a s b t) (h : as.mapM f s = .ok bs t) :
    R s t ∧ List.Forall₂ (fun a b => ∃ u v, R s u ∧ P a u b v ∧ R v t) as bs := by
  induction as generalizing s bs with
  | nil =>
    obtain ⟨rfl, rfl⟩ := EStateM.Result.ok.inj h
    exact ⟨hrefl s, .nil⟩
  | cons a as ih =>
    rw [List.mapM_cons] at h
    rw [bind_eq_ok] at h
    obtain ⟨b, u, hb, h⟩ := h
    rw [bind_eq_ok] at h
    obtain ⟨bs', v, hbs, h⟩ := h
    obtain ⟨rfl, rfl⟩ := EStateM.Result.ok.inj h
    obtain ⟨hsu, hab⟩ := hf a (by simp) s b u hb
    obtain ⟨huv, hall⟩ := ih (fun a ha => hf a (List.mem_cons_of_mem _ ha)) hbs
    refine ⟨htrans _ _ _ hsu huv, .cons ⟨s, u, hrefl s, hab, huv⟩ (hall.imp ?_)⟩
    rintro a b ⟨u', v', hu', hrun, hv'⟩
    exact ⟨u', v', htrans _ _ _ hsu hu', hrun, hv'⟩

end Runs

end LeveledTypes
