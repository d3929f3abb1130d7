import LeveledTypes.Proofs.Reduction.Evaluation

/-!
# Applications of terms that evaluate

An application evaluates as the application of what its function evaluates to, unless this is a
global with some of its arguments, but not all of them: such a global is not unfolded when the other
arguments come.
-/
namespace LeveledTypes

/-- The term is a global that is applied to arguments, but to too few. -/
def Environment.Unsaturated (env : Environment) (t : Term) : Prop :=
  ∃ n u args d, t = (Term.ref n u).apps args ∧ args ≠ [] ∧ env.get? n = some d ∧
    args.length < d.tele.length

theorem Environment.Unsaturated.of_alike {env : Environment} {t t' : Term} (h : env.Unsaturated t)
    (ht : t.anonymize = t'.anonymize) : env.Unsaturated t' := by
  obtain ⟨n, u, args, d, rfl, hne, hd, hlt⟩ := h
  obtain ⟨args', rfl, has⟩ := Term.exists_apps_of_alike ht
  have hlen : args.length = args'.length := by simpa using congrArg List.length has
  refine ⟨n, u, args', d, rfl, fun h => hne ?_, hd, hlen ▸ hlt⟩
  rwa [← List.length_eq_zero_iff, hlen, List.length_eq_zero_iff]

theorem Term.exists_app_of_apps {g : Term} {as : List Term} (has : as ≠ []) :
    ∃ f a, g.apps as = .app f a := by
  induction as using List.reverseRecOn with
  | nil => exact absurd rfl has
  | append_singleton as a => exact ⟨g.apps as, a, apps_append g as [a]⟩

/-- A term is a root that is no application, applied to arguments. -/
theorem Term.exists_root_apps (t : Term) :
    ∃ (g : Term) (as : List Term), (∀ f a, g ≠ app f a) ∧ t = g.apps as :=
  ⟨t.spine.1, t.spine.2, head_ne_app t, (apps_spine t).symm⟩

namespace Reducer
variable {r : Reducer} {depth : ℕ} {t v w : Term} {T U : Trace Term}

theorem Evals.whnf (h : Evals r (r.round (.whnf depth t)) v T) :
    Evals r (.whnf depth t) v (.seq T .skip) := .call h (.ret v)

theorem Evals.of_whnf (h : Evals r (.whnf depth t) v T) :
    ∃ U, T = .seq U .skip ∧ Evals r (r.round (.whnf depth t)) v U := by
  cases h with
  | call h hret =>
    cases hret
    exact ⟨_, rfl, h⟩

/-- The round of an application reduces the root first. -/
theorem round_apps {g : Term} {as : List Term} (hg : ∀ f a, g ≠ .app f a) (has : as ≠ []) :
    r.round (.whnf depth (g.apps as)) = .call (.whnf depth g) fun g => .spine r depth g as := by
  have hspine : (g.apps as).spine = (g, as) := by
    rw [Term.spine, Term.spineWith_apps, List.append_nil]
    cases g
    case app f a => exact absurd rfl (hg f a)
    all_goals rfl
  obtain ⟨f, a, hfa⟩ := Term.exists_app_of_apps (g := g) has
  have happ : r.round (.whnf depth (.app f a)) =
      .call (.whnf depth (Term.app f a).spine.1) fun g => .spine r depth g (Term.app f a).spine.2 :=
        rfl
  rw [hfa, happ, ← hfa, hspine]

theorem Evals.ret_of_eq (h : w = t) : Evals r (.ret t) w .skip := h ▸ .ret w

theorem Evals.of_step {k : Round} (h : Evals r (.step k) v T) :
    ∃ U, T = .seq .tick U ∧ Evals r k v U := by
  cases h with
  | step h => exact ⟨_, rfl, h⟩

section Append
variable {g : Term} {as args : List Term}

/-- An application that does not reduce takes further arguments as they are. -/
theorem eq_of_spine_apps (has : as ≠ []) (h : Evals r (.spine r depth (g.apps as) args) w U) :
    w = g.apps (as ++ args) := by
  rw [Term.apps_append]
  obtain ⟨f, a, hfa⟩ := Term.exists_app_of_apps (g := g) has
  rw [hfa] at h ⊢
  cases h
  rfl

variable (hv : ¬r.env.Unsaturated v) (hw : Evals r (.spine r depth v args) w U)
  (next : ∀ t' T', sizeOf T' < sizeOf T → Evals r (r.round (.whnf depth t')) v T' →
    ∃ T'', Evals r (r.round (.whnf depth (t'.apps args))) w T'')

include hv hw next

/-- A global that reduces at some arguments reduces in the same way when more follow, unless it had
too few of them. -/
theorem Evals.delta_append {n : GlobalName} {u : Universe} (has : as ≠ [])
    (h : Evals r (.delta r depth n u as) v T) :
    ∃ T', Evals r (.delta r depth n u (as ++ args)) w T' := by
  -- Where the global does not reduce, the arguments are put behind each other.
  have hfolded (hv : v = (Term.ref n u).apps as) : w = (Term.ref n u).apps (as ++ args) :=
    eq_of_spine_apps has (hv ▸ hw)
  have hnext {t' : Term} {T' : Trace Term} (hT : sizeOf T' ≤ sizeOf T)
      (h : Evals r (.whnf depth t') v T') : ∃ T'', Evals r (.whnf depth (t'.apps args)) w T'' := by
    obtain ⟨U', rfl, ht'⟩ := h.of_whnf
    rw [Trace.seq.sizeOf_spec] at hT
    obtain ⟨T'', h⟩ := next t' U' (by omega) ht'
    exact ⟨_, h.whnf⟩
  unfold Round.delta at h ⊢
  cases hd : r.env.get? n with
  | none =>
    simp only [hd] at h ⊢
    cases h
    exact ⟨_, .ret_of_eq (hfolded rfl)⟩
  | some d =>
    simp only [hd] at h ⊢
    split at h
    case isTrue hlt =>
      cases h
      exact absurd ⟨n, u, as, d, rfl, has, hd, hlt⟩ hv
    case isFalse hle =>
      have htake : (as ++ args).take d.tele.length = as.take d.tele.length :=
        List.take_append_of_le_length (not_lt.mp hle)
      have hdrop : (as ++ args).drop d.tele.length = as.drop d.tele.length ++ args :=
        List.drop_append_of_le_length (not_lt.mp hle)
      have hblocked (hv : v = ((Term.ref n u).apps (as.take d.tele.length)).apps
          (as.drop d.tele.length)) :
          w = ((Term.ref n u).apps (as.take d.tele.length)).apps
            (as.drop d.tele.length ++ args) := by
        rw [← Term.apps_append, List.take_append_drop] at hv
        rw [← Term.apps_append, ← List.append_assoc, List.take_append_drop]
        exact hfolded hv
      rw [if_neg (by rw [List.length_append]; omega), htake, hdrop]
      cases hb : d.body with
      | func body decreasing =>
        simp only [hb] at h ⊢
        cases h with
        | @unfold _ _ _ _ _ _ x _ T₁ T₂ hx hk =>
          cases ho : unblocked? x with
          | none =>
            simp only [ho] at hk
            cases hk
            exact ⟨_, .unfold hx (by simpa only [ho] using .ret_of_eq (hblocked rfl))⟩
          | some t' =>
            simp only [ho] at hk
            obtain ⟨T'', h⟩ := hnext (by rw [Trace.seq.sizeOf_spec]; omega) hk
            exact ⟨_, .unfold hx (by simpa only [ho, Term.apps_append] using h)⟩
      | inst k body =>
        simp only [hb] at h ⊢
        obtain ⟨T', rfl, hk⟩ := h.of_step
        obtain ⟨T'', h⟩ := hnext (by rw [Trace.seq.sizeOf_spec]; omega) hk
        exact ⟨_, .step (by simpa only [Term.apps_append] using h)⟩
      | field c i =>
        simp only [hb] at h ⊢
        cases hlast : (as.take d.tele.length).getLast? with
        | some a =>
          simp only [hlast] at h ⊢
          simpa only [Term.apps_append] using hnext le_rfl h
        | none =>
          -- The accessor has no parameters, and stays what it is at any arguments.
          simp only [hlast] at h ⊢
          have hnil : as.take d.tele.length = [] := List.getLast?_eq_none_iff.mp hlast
          have hzero : d.tele.length = 0 := by
            have hlen := congrArg List.length hnil
            rw [List.length_take, List.length_nil] at hlen
            have hpos := List.length_pos_iff.mpr has
            omega
          rw [hnil] at h ⊢
          cases h
          have hdelta : Round.spine r depth (.ref n u) args = .ret (.ref n u) := by
            simp [Round.spine, Round.delta, hd, hb, hzero]
          rw [Term.apps_nil, hdelta] at hw
          exact ⟨_, hw⟩
      | pending =>
        simp only [hb] at h ⊢
        cases h
        exact ⟨_, .ret_of_eq (hblocked rfl)⟩
      | _ =>
        simp only [hb] at h ⊢
        simpa only [Term.apps_append] using hnext le_rfl h

/-- More arguments follow after the evaluation of a spine, whatever its root is. -/
theorem Evals.spine_append (has : as ≠ []) (h : Evals r (.spine r depth g as) v T) :
    ∃ T', Evals r (.spine r depth g (as ++ args)) w T' := by
  have hfolded (h : Evals r (.ret (g.apps as)) v T) :
      ∃ T', Evals r (.ret (g.apps (as ++ args))) w T' := by
    cases h
    exact ⟨_, .ret_of_eq (eq_of_spine_apps has hw)⟩
  obtain ⟨a, as, rfl⟩ := List.exists_cons_of_ne_nil has
  cases g with
  | lam x s b =>
    obtain ⟨T', rfl, hk⟩ := Evals.of_step h
    obtain ⟨U', rfl, hb⟩ := hk.of_whnf
    obtain ⟨T'', h⟩ := next _ U' (by simp only [Trace.seq.sizeOf_spec]; omega) hb
    rw [← Term.apps_append] at h
    exact ⟨_, .step h.whnf⟩
  | hole m =>
    simp only [Round.spine] at h ⊢
    cases hm : r.store.solution? m with
    | none =>
      simp only [hm] at h ⊢
      exact hfolded h
    | some s =>
      simp only [hm] at h ⊢
      obtain ⟨U', rfl, hs⟩ := h.of_whnf
      obtain ⟨T'', h⟩ := next _ U' (by simp only [Trace.seq.sizeOf_spec]; omega) hs
      rw [← Term.apps_append] at h
      exact ⟨_, h.whnf⟩
  | ref n u => exact Evals.delta_append hv hw next has h
  | _ => exact hfolded h

end Append

/-- An application evaluates as what its function evaluates to does at the arguments. -/
theorem Evals.apps {args : List Term} (h : Evals r (r.round (.whnf depth t)) v T)
    (hv : ¬r.env.Unsaturated v) (hargs : args ≠ []) (hw : Evals r (.spine r depth v args) w U) :
    ∃ T', Evals r (r.round (.whnf depth (t.apps args))) w T' := by
  induction hk : sizeOf T using Nat.strong_induction_on generalizing t T with
  | h k ih =>
    obtain ⟨g, as, hg, rfl⟩ := t.exists_root_apps
    by_cases has : as = []
    case pos =>
      subst has
      rw [Term.apps_nil] at h ⊢
      rw [round_apps hg hargs]
      exact ⟨_, .call h hw⟩
    case neg =>
      rw [← Term.apps_append, round_apps hg (by simp [has])]
      rw [round_apps hg has] at h
      cases h with
      | call hhead hspine =>
        rw [Trace.seq.sizeOf_spec] at hk
        obtain ⟨T', h⟩ := Evals.spine_append hv hw
          (fun t' T' hT h => ih _ (by omega) h rfl) has hspine
        exact ⟨_, .call hhead h⟩

end Reducer

end LeveledTypes
