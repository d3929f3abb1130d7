import LeveledTypes.Proofs.Reduction.Agreement
import LeveledTypes.Proofs.Reduction.Trace
import LeveledTypes.Proofs.Reduction.Unfolding

/-!
# Evaluation without a memo

A call evaluates to a term in a course of its own, whatever is remembered and however much fuel
there is. Evaluation is deterministic, it is the same in contexts that agree, and so the outcome of
unfolding a closed application without holes belongs to the application alone: what it says is what
a memo may say.
-/
namespace LeveledTypes

/-- An application of a global, up to names, is an application of the same global. -/
theorem Term.exists_apps_of_alike {n : GlobalName} {u : Universe} {args : List Term} {k : Term}
    (h : ((Term.ref n u).apps args).anonymize = k.anonymize) :
    ∃ args', k = (Term.ref n u).apps args' ∧ args.map anonymize = args'.map anonymize := by
  have hnil : ([] : List Term).map anonymize = [].map anonymize := rfl
  have hspine := spineWith_alike h hnil
  rw [spineWith_apps, List.append_nil] at hspine
  obtain ⟨hhead, hargs⟩ : (ref n u).anonymize = k.spine.1.anonymize ∧
      args.map anonymize = k.spine.2.map anonymize := hspine
  have hk := apps_spine k
  generalize k.spine.1 = head at hhead hk
  cases alike hhead
  exact ⟨k.spine.2, hk.symm, hargs⟩

theorem Term.apps_ref_inj {n n' : GlobalName} {u u' : Universe} {args args' : List Term}
    (h : (Term.ref n u).apps args = (Term.ref n' u').apps args') : n = n' ∧ u = u' ∧
    args = args' := by
  have hspine := congrArg (Term.spineWith · []) h
  simp only [Term.spineWith_apps, List.append_nil] at hspine
  simpa [Term.spineWith, and_assoc] using hspine

namespace Reducer

/-- The call that unfolds a function at arguments. -/
abbrev Call.unfold (depth : ℕ) (u : Universe) (body : Term) (args : List Term) : Call :=
  .whnf depth ((body.substLevels u).substAll args)

theorem unblocked?_alike {v v' : Term} (h : v.anonymize = v'.anonymize) :
    (unblocked? v).map Term.anonymize = (unblocked? v').map Term.anonymize := by
  unfold unblocked?
  rw [isStuck_alike h]
  cases isStuck v' <;> simp [h]

theorem over_unblocked? {S : Signature} {n : ℕ∞} {v : Term} (h : v.Over S n) :
    ∀ t ∈ unblocked? v, t.Over S n := by
  intro t ht
  exact (mem_unblocked?_iff.mp ht).2 ▸ h

/-- The course of an unfolding: the outcome is remembered if the unfolding is not blocked, and the
application is closed and has no holes. -/
def unfolding (key v : Term) (T : Trace Term) : Trace Term :=
  if !isStuck v && (key.isClosed && !key.hasHole) then .call key.anonymize T else .seq .tick T

theorem unfolding_alike {key key' v v' : Term} (h : key.anonymize = key'.anonymize)
    (hv : v.anonymize = v'.anonymize) (T : Trace Term) :
    unfolding key v T = unfolding key' v' T := by
  rw [unfolding, unfolding, isStuck_alike hv, Term.isClosed_alike h, Term.hasHole_alike h, h]

/-- What a round returns, and its course, when nothing is remembered and fuel and gas are no
matter. -/
inductive Evals (r : Reducer) : Round → Term → Trace Term → Prop
  | ret (t : Term) : Evals r (.ret t) t .skip
  | step {k : Round} {v : Term} {T : Trace Term} : Evals r k v T →
    Evals r (.step k) v (.seq .tick T)
  | call {c : Call} {k : Term → Round} {v w : Term} {T U : Trace Term} : Evals r (r.round c) v T →
    Evals r (k v) w U →
      Evals r (.call c k) w (.seq T U)
  | unfold {depth : ℕ} {n : GlobalName} {u : Universe} {body : Term} {args : List Term}
    {k : Option Term → Round}
      {v w : Term} {T U : Trace Term} : Evals r (r.round (.unfold depth u body args)) v T →
      Evals r (k (unblocked? v)) w U →
      Evals r (.unfold depth n u body args k) w (.seq (unfolding ((Term.ref n u).apps args) v T) U)

/-- Evaluation is deterministic. -/
theorem Evals.unique {r : Reducer} {ρ : Round} {v v' : Term} {T T' : Trace Term} (h : Evals r ρ v T)
    (h' : Evals r ρ v' T') : v = v' ∧ T = T' := by
  induction h generalizing v' T' with
  | ret t =>
    cases h'
    exact ⟨rfl, rfl⟩
  | step _ ih =>
    cases h' with
    | step h =>
      obtain ⟨rfl, rfl⟩ := ih h
      exact ⟨rfl, rfl⟩
  | call _ _ ihc ihk =>
    cases h' with
    | call hc hk =>
      obtain ⟨rfl, rfl⟩ := ihc hc
      obtain ⟨rfl, rfl⟩ := ihk hk
      exact ⟨rfl, rfl⟩
  | unfold _ _ ihc ihk =>
    cases h' with
    | unfold hc hk =>
      obtain ⟨rfl, rfl⟩ := ihc hc
      obtain ⟨rfl, rfl⟩ := ihk hk
      exact ⟨rfl, rfl⟩

section Agreement
variable {G : GlobalName → Prop} {A : GlobalName → ℕ} {holes : Prop} {n : ℕ∞} {r r' : Reducer}
  {depth depth' : ℕ} {c : GlobalName} {u : Universe} {body : Term} {args args' : List Term}

/-- Unfoldings of a function at arguments that differ in names only. -/
theorem Call.agrees_unfold (henv : r.env.ClosedIn G A)
    (hctx : Agree (.naming G A holes) n r depth r' depth') (hG : G c)
    (hc : r.env.Saturates c body args) (hargs : ∀ a ∈ args, a.Over (.naming G A holes) n)
    (has : args.map Term.anonymize = args'.map Term.anonymize) :
    Agrees (.naming G A holes) r r' n (.unfold depth u body args)
      (.unfold depth' u body args') := by
  obtain ⟨d, decreasing, hd, hb, hlen⟩ := hc
  have hover : ((body.substLevels u).substAll args).Over (.naming G A holes) n :=
    henv.contractum? (u := u) hG hd hargs hlen (by simp [Definition.contractum?, hb])
  exact .whnf hctx hover (Term.substAll_alike rfl has)

theorem Round.agrees_unfolding (henv : r.env.ClosedIn G A)
    (hctx : Agree (.naming G A holes) n r depth r' depth') (hG : G c)
    (hc : r.env.Saturates c body args) (hargs : ∀ a ∈ args, a.Over (.naming G A holes) n)
    (has : args.map Term.anonymize = args'.map Term.anonymize) :
    Agrees (.naming G A holes) r r' n (r.round (.unfold depth u body args))
      (r'.round (.unfold depth' u body args')) :=
  (Call.agrees_unfold henv hctx hG hc hargs has).round henv

/-- Evaluation is the same in contexts that agree. -/
theorem Evals.transport {ρ ρ' : Round} {v : Term} {T : Trace Term} (henv : r.env.ClosedIn G A)
    (h : Evals r ρ v T) (hρ : Round.Agrees (.naming G A holes) r r' n ρ ρ') :
    ∃ v', Evals r' ρ' v' T ∧ v.Over (.naming G A holes) n ∧ v.anonymize = v'.anonymize := by
  induction h generalizing n ρ' with
  | ret t =>
    cases hρ with
    | ret hover halike => exact ⟨_, .ret _, hover, halike⟩
  | step _ ih =>
    cases hρ with
    | step hk =>
      obtain ⟨v', hv', h⟩ := ih hk
      exact ⟨v', .step hv', h⟩
  | call _ _ ihc ihk =>
    cases hρ with
    | call hc hk =>
      obtain ⟨v', hv', hover, halike⟩ := ihc (hc.round henv)
      obtain ⟨w', hw', h⟩ := ihk (hk _ v' hover halike)
      exact ⟨w', .call hv' hw', h⟩
  | unfold _ _ ihc ihk =>
    cases hρ with
    | unfold hctx hG hc hargs has hk =>
      obtain ⟨v', hv', hover, halike⟩ := ihc (Round.agrees_unfolding henv hctx hG hc hargs has)
      obtain ⟨w', hw', h⟩ := ihk
        (hk _ (unblocked? v') (over_unblocked? hover) (unblocked?_alike halike))
      rw [unfolding_alike (Term.apps_alike rfl has) halike]
      exact ⟨w', .unfold hv' hw', h⟩

end Agreement

/-- Definitions alone, without holes or values of variables. -/
abbrev bare (env : Environment) : Reducer := ⟨env, {}, []⟩

/-- The outcome of unfolding a closed application of a function without holes, and its course. -/
structure Outcome (A : GlobalName → ℕ) (env : Environment) (key v : Term) (T : Trace Term) :
    Prop where
  ground : key.Over (.ofArity A False) 0
  stuck : isStuck v = false
  evals : ∃ c u body args, key = (Term.ref c u).apps args ∧ env.Saturates c body args ∧
    Evals (bare env) ((bare env).round (.unfold 0 u body args)) v T

namespace Outcome
variable {A : GlobalName → ℕ} {env : Environment} {key key' v v' : Term} {T T' : Trace Term}

/-- The outcome is one of every application that differs in names only. -/
theorem of_alike (henv : env.Closed A) (h : Outcome A env key v T)
    (hkey : key.anonymize = key'.anonymize) :
    ∃ v', Outcome A env key' v' T ∧ v.anonymize = v'.anonymize := by
  obtain ⟨hover, hstuck, c, u, body, args, rfl, hc, hv⟩ := h
  obtain ⟨args', rfl, has⟩ := Term.exists_apps_of_alike hkey
  have hargs := (Term.over_apps.mp hover).2
  have hlen : args'.length = args.length := by simpa using (congrArg List.length has).symm
  obtain ⟨v', hv', -, halike⟩ :=
    hv.transport henv.closedIn
      (Round.agrees_unfolding henv.closedIn (.ground rfl 0 0) trivial hc hargs has)
  refine ⟨v', ⟨?_, isStuck_alike halike ▸ hstuck, c, u, body, args', rfl, hc.of_length hlen, hv'⟩,
    halike⟩
  rwa [← Term.over_anonymize, ← hkey, Term.over_anonymize]

/-- The unfolding evaluates to the outcome in every context. -/
theorem evals_unfolding {r : Reducer} {c : GlobalName} {u : Universe} {body : Term}
    {args : List Term} (henv : r.env.Closed A) (h : Outcome A r.env ((Term.ref c u).apps args) v T)
    (hc : r.env.Saturates c body args) (depth : ℕ) :
    ∃ v', Evals r (r.round (.unfold depth u body args)) v' T ∧ v.anonymize = v'.anonymize := by
  obtain ⟨hover, -, c', u', body', args', heq, hc', hv⟩ := h
  obtain ⟨rfl, rfl, rfl⟩ := Term.apps_ref_inj heq
  obtain rfl := hc.body_eq hc'
  have hargs := (Term.over_apps.mp hover).2
  have henv' : (bare r.env).env.ClosedIn (fun _ => True) A := henv.closedIn
  have hctx : Agree (.ofArity A False) 0 (bare r.env) 0 r depth := .ground (by rfl) 0 depth
  have hagrees := Round.agrees_unfolding (u := u) henv' hctx trivial hc hargs rfl
  obtain ⟨v', hv', -, halike⟩ := hv.transport henv' hagrees
  exact ⟨v', hv', halike⟩

theorem unique (henv : env.Closed A) (h : Outcome A env key v T) (h' : Outcome A env key' v' T')
    (hkey : key.anonymize = key'.anonymize) : v.anonymize = v'.anonymize ∧ T = T' := by
  obtain ⟨w, ⟨-, -, c, u, body, args, rfl, hc, hw⟩, halike⟩ := h.of_alike henv hkey
  obtain ⟨-, -, c', u', body', args', heq, hc', hv'⟩ := h'
  obtain ⟨rfl, rfl, rfl⟩ := Term.apps_ref_inj heq
  obtain rfl := hc.body_eq hc'
  obtain ⟨rfl, rfl⟩ := hw.unique hv'
  exact ⟨halike, rfl⟩

end Outcome

/-- The courses of the outcomes that a memo may remember. -/
noncomputable def courses (A : GlobalName → ℕ) (env : Environment) (key : Term) : Trace Term :=
  Classical.epsilon fun T => ∃ k v, k.anonymize = key ∧ Outcome A env k v T

theorem Outcome.courses_eq {A : GlobalName → ℕ} {env : Environment} {key v : Term} {T : Trace Term}
    (henv : env.Closed A) (h : Outcome A env key v T) : courses A env key.anonymize = T := by
  obtain ⟨k, w, hk, hw⟩ := Classical.epsilon_spec (p :=
    fun T => ∃ k v, k.anonymize = key.anonymize ∧ Outcome A env k v T) ⟨T, key, v, rfl, h⟩
  exact (hw.unique henv h hk).2

section Courses
variable {A : GlobalName → ℕ} {holes : Prop} {n : ℕ∞} {r r' : Reducer} {depth : ℕ}
  {c : GlobalName} {u : Universe} {body : Term} {args : List Term}

/-- What the unfolding of a closed application without holes evaluates to in any context is its
outcome. -/
theorem Evals.outcome {v : Term} {T : Trace Term} (henv : r.env.Closed A)
    (h : Evals r (r.round (.unfold depth u body args)) v T) (hstuck : isStuck v = false)
    (hc : r.env.Saturates c body args) (hargs : ∀ a ∈ args, a.Over (.ofArity A holes) n)
    (hkey : (((Term.ref c u).apps args).isClosed && !((Term.ref c u).apps args).hasHole) = true) :
    ∃ v', Outcome A r.env ((Term.ref c u).apps args) v' T ∧ v.anonymize = v'.anonymize := by
  rw [Bool.and_eq_true, Bool.not_eq_true'] at hkey
  have hover : ((Term.ref c u).apps args).Over (.ofArity A holes) n :=
    Term.over_apps.mpr ⟨⟨trivial, Signature.admits_naming _ A holes u⟩, hargs⟩
  have hground : ((Term.ref c u).apps args).Over (.ofArity A False) 0 := hover.ground hkey.1 hkey.2
  have hargs' := (Term.over_apps.mp hground).2
  have hctx : Agree (.ofArity A False) 0 r depth (bare r.env) 0 := .ground (by rfl) depth 0
  have hagrees := Round.agrees_unfolding (u := u) henv.closedIn hctx trivial hc hargs' rfl
  obtain ⟨v', hv', -, halike⟩ := h.transport henv.closedIn hagrees
  exact ⟨v', ⟨hground, isStuck_alike halike ▸ hstuck, c, u, body, args, rfl, hc, hv'⟩, halike⟩

/-- The parts of a course whose outcomes are remembered take the courses of these outcomes. -/
theorem Evals.follows {ρ ρ' : Round} {v : Term} {T : Trace Term} (henv : r.env.Closed A)
    (h : Evals r ρ v T) (hρ : Round.Agrees (.ofArity A holes) r r' n ρ ρ') :
    T.Follows (courses A r.env) := by
  induction h generalizing n ρ' with
  | ret t => trivial
  | step _ ih =>
    cases hρ with
    | step hk => exact ⟨trivial, ih hk⟩
  | call hv _ ihc ihk =>
    cases hρ with
    | call hc hk =>
      have hround := hc.round henv.closedIn
      obtain ⟨-, -, hover, -⟩ := hv.transport henv.closedIn hround
      exact ⟨ihc hround, ihk (hk _ _ hover rfl)⟩
  | @unfold _ _ u _ _ _ _ _ _ _ hv _ ihc ihk =>
    cases hρ with
    | unfold hctx hG hc hargs has hk =>
      have hround := Round.agrees_unfolding (u := u) henv.closedIn hctx hG hc hargs has
      obtain ⟨-, -, hover, -⟩ := hv.transport henv.closedIn hround
      refine ⟨?_, ihk (hk _ _ (over_unblocked? hover) rfl)⟩
      unfold unfolding
      split
      case isTrue h =>
        obtain ⟨hstuck, hkey⟩ := Bool.and_eq_true_iff.mp h
        obtain ⟨v', hv', -⟩ := hv.outcome henv (by simpa using hstuck) hc hargs hkey
        exact ⟨(hv'.courses_eq henv).symm, ihc hround⟩
      case isFalse => exact ⟨trivial, ihc hround⟩

end Courses

end Reducer

end LeveledTypes
