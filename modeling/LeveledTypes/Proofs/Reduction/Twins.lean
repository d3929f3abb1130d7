import LeveledTypes.Proofs.Matched
import LeveledTypes.Proofs.Reduction.Memo
import LeveledTypes.Proofs.Reduction.Whnf

/-!
# Reduction of twins

Terms that differ in names only are reduced to such terms, over definitions that agree about the
globals that the terms may name, whatever either run remembers and however much fuel it has. A run
that meets the limit on fuel or on nesting is broken off.
-/
namespace LeveledTypes

/-- Two terms over a signature that differ in the names of binders only. -/
structure Term.Twins (S : Signature) (t t' : Term) : Prop where
  over_left : t.Over S ⊤
  alike : t.anonymize = t'.anonymize

namespace Term.Twins
variable {S : Signature} {t t' a a' : Term}

theorem refl (ht : t.Over S ⊤) : t.Twins S t := ⟨ht, rfl⟩

theorem over_right (h : t.Twins S t') : t'.Over S ⊤ := over_of_alike h.over_left h.alike

theorem lift (h : t.Twins S t') (k : ℕ) : (t.lift k).Twins S (t'.lift k) :=
  ⟨(h.over_left.lift k).top, lift_alike h.alike k⟩

theorem subst (h : t.Twins S t') (ha : a.Twins S a') : (t.subst a).Twins S (t'.subst a') :=
  ⟨Over.subst h.over_left ha.over_left, subst_alike h.alike ha.alike⟩

theorem forall₂_of_map {ts ts' : List Term} (hts : ∀ t ∈ ts, t.Over S ⊤)
    (h : ts.map anonymize = ts'.map anonymize) : List.Forall₂ (Twins S) ts ts' := by
  rw [← List.forall₂_eq_eq_eq, List.forall₂_map_left_iff, List.forall₂_map_right_iff] at h
  induction h with
  | nil => exact .nil
  | cons halike _ ih =>
    obtain ⟨ht, hts⟩ := List.forall_mem_cons.mp hts
    exact .cons ⟨ht, halike⟩ (ih hts)

end Term.Twins

/-- Two environments of closed definitions, which define some globals alike; these name no
others. -/
structure Environment.Twins (G : GlobalName → Prop) (A : GlobalName → ℕ) (env env' : Environment) :
    Prop where
  closed : env.Closed A
  closed_right : env'.Closed A
  closedIn : env.ClosedIn G A
  get? : ∀ n, G n → env'.get? n = env.get? n

/-- What is remembered of applications that name these globals only is right in both
environments. -/
theorem Environment.Twins.backed {G : GlobalName → Prop} {A : GlobalName → ℕ}
    {env env' : Environment} (h : env.Twins G A env') {memo : Memo} (hmemo : memo.Backed A env)
    (hkeys : ∀ k ∈ memo, k.Over (.naming G A True) ⊤) : memo.Backed A env' := by
  intro k v hk
  obtain ⟨w, T, hw, hwv⟩ := hmemo k v hk
  have hkey := hkeys k (Std.HashMap.mem_iff_isSome_getElem?.mpr (by simp [hk]))
  have hground := hkey.ground hw.ground.isClosed_eq_true (hw.ground.hasHole_eq_false fun _ => id)
  obtain ⟨c, u, body, args, rfl, hc, hevals⟩ := hw.evals
  obtain ⟨⟨hG, -⟩, hargs⟩ := Term.over_apps.mp hground
  have hctx : Reducer.Agree (.naming G A False) 0 (Reducer.bare env) 0 (Reducer.bare env') 0 :=
    .ground_naming h.get? 0 0
  have hagrees := Reducer.Round.agrees_unfolding (u := u) h.closedIn hctx hG hc hargs rfl
  obtain ⟨w', hw', -, halike⟩ := hevals.transport h.closedIn hagrees
  obtain ⟨d, decreasing, hd, hbody⟩ := hc
  have hc' : env'.Saturates c body args := ⟨d, decreasing, (h.get? c hG).trans hd, hbody⟩
  exact ⟨w', T, ⟨hw.ground, Reducer.isStuck_alike halike ▸ hw.stuck, c, u, body, args, rfl, hc',
    hw'⟩, halike.symm.trans hwv⟩

namespace Reducer

/-- Two contexts of reduction that differ in the definitions of globals that are not named, and in
names. -/
structure Twins (G : GlobalName → Prop) (A : GlobalName → ℕ) (r r' : Reducer) : Prop where
  env : r.env.Twins G A r'.env
  solutions : ∀ m, (r'.store.solution? m).map Term.anonymize =
    (r.store.solution? m).map Term.anonymize
  locals : r'.locals = r.locals
  over_solutions : ∀ m t, r.store.solution? m = some t → t.Over (.naming G A True) ⊤
  over_locals : ∀ v, some v ∈ r.locals → v.Over (.naming G A True) ⊤

namespace Twins
variable {G : GlobalName → Prop} {A : GlobalName → ℕ} {r r' : Reducer} {depth : ℕ} {t t' : Term}

theorem agree (h : Twins G A r r') (depth : ℕ) : Agree (.naming G A True) ⊤ r depth r' depth where
  env := h.env.get?
  solutions m _ := h.solutions m
  values i _ := by rw [localValue?, localValue?, h.locals]
  over_solutions m t _ := h.over_solutions m t
  over_values i v _ hv := by
    obtain ⟨w, hw, rfl⟩ := localValue?_eq_some hv
    exact ((h.over_locals w (Locals.mem_under.mp (List.mem_of_getElem? hw))).lift (i + 1)).top

/-- What is remembered in both runs is backed. -/
def Remember (A : GlobalName → ℕ) (r r' : Reducer) (s s' : ReductionState) : Prop :=
  s.memo.Backed A r.env ∧ s'.memo.Backed A r'.env

/-- Runs of calls that agree match. The runs are those of evaluation without a memo, in either
context, and evaluation is the same in both. -/
theorem matched_run (h : Twins G A r r') (gas : ℕ) {c c' : Call}
    (hc : Call.Agrees (.naming G A True) r r' ⊤ c c')
    (hleft : Call.Agrees (.ofArity A True) r r ⊤ c c)
    (hright : Call.Agrees (.ofArity A True) r' r' ⊤ c' c') :
    Matched (fun _ => (none : Option Unit)) (Remember A r r')
      (Term.Twins (.naming G A True)) (r.run gas c) (r'.run gas c') := by
  rintro s s' ⟨hs, hs'⟩
  have hkeeps := keeps_run h.env.closed gas hleft s hs
  have hkeeps' := keeps_run h.env.closed_right gas hright s' hs'
  cases hrun : r.run gas c s with
  | error e t => exact .left rfl
  | ok v t =>
    cases hrun' : r'.run gas c' s' with
    | error e t => exact .right rfl
    | ok v' t' =>
      simp only [hrun] at hkeeps
      simp only [hrun'] at hkeeps'
      obtain ⟨ht, w, T, hw, hwv⟩ := hkeeps
      obtain ⟨ht', w', T', hw', hwv'⟩ := hkeeps'
      obtain ⟨x, hx, hover, halike⟩ := hw.transport h.env.closedIn (hc.round h.env.closedIn)
      obtain ⟨rfl, -⟩ := hx.unique hw'
      exact .ok ⟨Term.over_of_alike hover hwv, hwv.symm.trans (halike.trans hwv')⟩ ⟨ht, ht'⟩

theorem agree_left (h : Twins G A r r') (depth : ℕ) : Agree (.ofArity A True) ⊤ r depth r depth :=
  .refl (fun m t hm ht => ((h.agree depth).over_solutions m t hm ht).ofArity)
    fun i v hi hv => ((h.agree depth).over_values i v hi hv).ofArity

theorem agree_right (h : Twins G A r r') (depth : ℕ) :
    Agree (.ofArity A True) ⊤ r' depth r' depth := by
  refine .refl (fun m t _ ht => ?_) fun i v hi hv => ?_
  · obtain ⟨u, hu, halike⟩ :=
      Option.map_eq_some_iff.mp ((h.solutions m).symm.trans (congrArg (Option.map _) ht))
    exact (Term.over_of_alike (h.over_solutions m u hu) halike).ofArity
  · exact ((h.agree depth).over_values i v hi ((h.agree depth).values i hi ▸ hv)).ofArity

theorem matched_whnf (h : Twins G A r r') (ht : t.Twins (.naming G A True) t') (depth : ℕ) :
    Matched (fun _ => (none : Option Unit)) (Remember A r r') (Term.Twins (.naming G A True))
      (r.whnf depth t) (r'.whnf depth t') := by
  rw [whnf, whnf, ← run_whnf, ← run_whnf]
  exact h.matched_run _ (.whnf (h.agree depth) ht.over_left ht.alike)
    (.whnf (h.agree_left depth) ht.over_left.ofArity rfl)
    (.whnf (h.agree_right depth) ht.over_right.ofArity rfl)

theorem matched_nf (h : Twins G A r r') (ht : t.Twins (.naming G A True) t') (depth : ℕ) :
    Matched (fun _ => (none : Option Unit)) (Remember A r r')
      (Term.Twins (.naming G A True)) (r.nf depth t) (r'.nf depth t') := by
  rw [nf, nf, ← run_nf, ← run_nf]
  exact h.matched_run _ (.nf (h.agree depth) ht.over_left ht.alike)
    (.nf (h.agree_left depth) ht.over_left.ofArity rfl)
    (.nf (h.agree_right depth) ht.over_right.ofArity rfl)

end Twins

end Reducer

end LeveledTypes
