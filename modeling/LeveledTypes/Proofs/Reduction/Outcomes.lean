import LeveledTypes.Proofs.Reduction.Transparency

/-!
# What reductions return

In a context that is consistent with the definitions, what runs return is what terms evaluate to, up
to the names of binders, and the other way around.
-/
namespace LeveledTypes.Reducer
variable {A : GlobalName → ℕ} {holes : Prop} {r : Reducer} {depth : ℕ} {t v : Term} {T : Trace Term}

/-- Reduction to weak head normal form under binders in the context returns the term up to names,
with some fuel and from some memo that is right. -/
def HeadNormalizes (A : GlobalName → ℕ) (r : Reducer) (depth : ℕ) (t v : Term) : Prop :=
  ∃ gas fuel memo w s, memo.Right r ∧ memo.Fits A ∧
    r.whnfGas depth gas t ⟨fuel, memo⟩ = .ok w s ∧ w.same v = true

/-- The same of normalization. -/
def Normalizes (A : GlobalName → ℕ) (r : Reducer) (depth : ℕ) (t v : Term) : Prop :=
  ∃ gas fuel memo w s, memo.Right r ∧ memo.Fits A ∧
    r.nfGas gas depth t ⟨fuel, memo⟩ = .ok w s ∧ w.same v = true

/-- Definitions and solutions are closed, and they and the values of the variables have the
arguments that branches ask for. If the terms in question have no holes, then the solutions do not
matter. -/
structure Consistent (A : GlobalName → ℕ) (holes : Prop) (r : Reducer) : Prop where
  env : r.env.Closed A
  solutions : holes → ∀ m t, r.store.solution? m = some t → t.Over (.ofArity A holes) 0
  values : ∀ v, some v ∈ r.locals → v.Over (.ofArity A holes) ⊤

namespace Consistent
variable (h : Consistent A holes r)

include h

theorem over_values (i : ℕ) (v : Term) (hv : r.localValue? depth i = some v) :
    v.Over (.ofArity A holes) ⊤ := by
  obtain ⟨w, hw, rfl⟩ := localValue?_eq_some hv
  exact ((h.values w (Locals.mem_under.mp (List.mem_of_getElem? hw))).lift (i + 1)).top

theorem agree (depth : ℕ) : Agree (.ofArity A holes) ⊤ r depth r depth :=
  .refl (fun m t hm ht => (h.solutions hm m t ht).top) fun i v _ => h.over_values i v

theorem empty_right : Memo.Right r {} ∧ Memo.Fits A {} := (backed_iff h.env).mp Memo.backed_empty

theorem evals_of_normalizes (hn : Normalizes A r depth t v) (ht : t.Over (.ofArity A holes) ⊤) :
    ∃ w T, Evals r (r.round (.nf depth t)) w T ∧ w.anonymize = v.anonymize := by
  obtain ⟨gas, fuel, memo, x, s, hright, hfits, hrun, hsame⟩ := hn
  rw [← run_nf] at hrun
  obtain ⟨-, w, T, hw, hwx⟩ :=
    (keeps_run h.env gas (.nf (h.agree depth) ht rfl)).ok (backed_of_right h.env hright hfits) hrun
  exact ⟨w, T, hw, hwx.trans (Term.same_iff.mp hsame)⟩

theorem evals_of_headNormalizes (hn : HeadNormalizes A r depth t v)
    (ht : t.Over (.ofArity A holes) ⊤) :
    ∃ w T, Evals r (r.round (.whnf depth t)) w T ∧ w.anonymize = v.anonymize := by
  obtain ⟨gas, fuel, memo, x, s, hright, hfits, hrun, hsame⟩ := hn
  rw [← run_whnf] at hrun
  obtain ⟨-, w, T, hw, hwx⟩ :=
    (keeps_run h.env gas (.whnf (h.agree depth) ht rfl)).ok
      (backed_of_right h.env hright hfits) hrun
  exact ⟨w, T, hw, hwx.trans (Term.same_iff.mp hsame)⟩

theorem alike_of_headNormalizes {w : Term} (hv : HeadNormalizes A r depth t v)
    (hw : HeadNormalizes A r depth t w) (ht : t.Over (.ofArity A holes) ⊤) :
    v.anonymize = w.anonymize := by
  obtain ⟨x, T, hx, hxv⟩ := h.evals_of_headNormalizes hv ht
  obtain ⟨y, U, hy, hyw⟩ := h.evals_of_headNormalizes hw ht
  obtain ⟨rfl, -⟩ := hx.unique hy
  exact hxv.symm.trans hyw

theorem headNormalizes_of_evals (hv : Evals r (r.round (.whnf depth t)) v T)
    (ht : t.Over (.ofArity A holes) ⊤) :
    HeadNormalizes A r depth t v := by
  obtain ⟨gas, w, s, hw, hvw⟩ :=
    hv.exists_run h.env (.whnf (h.agree depth) ht rfl) Memo.backed_empty
  rw [run_whnf] at hw
  obtain ⟨hright, hfits⟩ := h.empty_right
  exact ⟨gas, _, {}, w, s, hright, hfits, hw, Term.same_iff.mpr hvw.symm⟩

/-- Names do not matter for what a term reduces to. -/
theorem headNormalizes_of_alike {t' w : Term} (hv : HeadNormalizes A r depth t v)
    (ht : t.Over (.ofArity A holes) ⊤) (htt : t.anonymize = t'.anonymize)
    (hvw : v.anonymize = w.anonymize) : HeadNormalizes A r depth t' w := by
  obtain ⟨x, T, hx, hxv⟩ := h.evals_of_headNormalizes hv ht
  have hcall : Call.Agrees (.ofArity A holes) r r ⊤ (.whnf depth t) (.whnf depth t') :=
    .whnf (h.agree depth) ht htt
  obtain ⟨x', hx', -, hxx⟩ := hx.transport h.env.closedIn (hcall.round h.env.closedIn)
  obtain ⟨gas, fuel, memo, y, s, hright, hfits, hrun, hsame⟩ :=
    h.headNormalizes_of_evals hx' (Term.over_of_alike ht htt)
  have hyw : y.anonymize = w.anonymize :=
    (Term.same_iff.mp hsame).trans (hxx.symm.trans (hxv.trans hvw))
  exact ⟨gas, fuel, memo, y, s, hright, hfits, hrun, Term.same_iff.mpr hyw⟩

end Consistent

end LeveledTypes.Reducer
