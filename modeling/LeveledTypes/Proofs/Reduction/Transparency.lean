import LeveledTypes.Proofs.Reduction.Memo
import LeveledTypes.Proofs.Reduction.Whnf
import LeveledTypes.Proofs.Registry

/-!
# Reduction is transparent

Fuel and the memo decide whether a reduction returns, never what it returns.
-/
namespace LeveledTypes

/-- What a memo may remember in a context: the weak head normal forms of closed applications of
functions without holes to exactly their parameters, as their unfoldings come out from an empty
memo, unless they are blocked. -/
def Memo.Right (r : Reducer) (memo : Memo) : Prop :=
  ∀ k v : Term, memo[k]? = some v → k.isClosed = true ∧ k.hasHole = false ∧
    Reducer.isStuck v = false ∧
    ∃ c u body args, k.same ((Term.ref c u).apps args) = true ∧ r.env.Saturates c body args ∧
      ∃ gas fuel w s, r.whnfGas 0 gas ((body.substLevels u).substAll args) ⟨fuel, {}⟩ =
        .ok w s ∧ w.same v = true

/-- Constructors in remembered applications have the arguments that branches ask for. -/
def Memo.Fits (A : GlobalName → ℕ) (memo : Memo) : Prop :=
  ∀ k ∈ memo, k.Over (.ofArity A True) ⊤

/-- Fuel and the memo decide whether a reduction returns, never what it returns, if the memo has a
property that runs keep. Gas bounds the nesting of calls only. -/
structure Transparent (I : Memo → Prop) (x : ℕ → Reduce Term) : Prop where
  /-- Two runs that return return the same. -/
  same {gas gas' fuel fuel' : ℕ} {memo memo' : Memo} {v v' : Term} {s s' : ReductionState} :
    I memo → I memo' →
    x gas ⟨fuel, memo⟩ = .ok v s → x gas' ⟨fuel', memo'⟩ = .ok v' s' → v.same v' = true
  /-- More fuel changes nothing about a run that returns. -/
  more_fuel {gas fuel fuel' : ℕ} {memo : Memo} {v : Term} {s : ReductionState} :
    x gas ⟨fuel, memo⟩ = .ok v s → fuel ≤ fuel' → ∃ s', x gas ⟨fuel', memo⟩ = .ok v s'
  /-- With more fuel and a larger memo a run still returns, given enough gas. -/
  more_known {gas fuel fuel' : ℕ} {memo memo' : Memo} {v : Term} {s : ReductionState} :
    I memo → I memo' → x gas ⟨fuel, memo⟩ = .ok v s → fuel ≤ fuel' → (∀ k ∈ memo, k ∈ memo') →
      (∃ enough, ∀ gas' ≥ enough, ∃ v' s', x gas' ⟨fuel', memo'⟩ = .ok v' s') ∧
        ∀ gas' s', x gas' ⟨fuel', memo'⟩ ≠ .error .fuel s'
  /-- Every run keeps the property of the memo, however it ends. -/
  keeps (gas fuel : ℕ) {memo : Memo} : I memo → match x gas ⟨fuel, memo⟩ with
    | .ok _ s => I s.memo
    | .error _ s => I s.memo

namespace Reducer

/-- More fuel is left over, and changes nothing else about a run that returns. -/
def Frugal {α : Type} (x : Reduce α) : Prop :=
  ∀ fuel extra memo a s, x ⟨fuel, memo⟩ = .ok a s →
    x ⟨fuel + extra, memo⟩ = .ok a ⟨s.fuel + extra, s.memo⟩

namespace Frugal
variable {α β : Type} {x : Reduce α} {f : α → Reduce β}

theorem pure (a : α) : Frugal (pure a) := by
  rintro fuel extra memo b s ⟨⟩
  rfl

theorem throw (e : Interrupt) : Frugal (throw e : Reduce α) := by
  rintro fuel extra memo b s ⟨⟩

theorem step : Frugal step := by
  intro fuel extra memo a s h
  cases fuel with
  | zero => cases h
  | succ fuel =>
    cases h
    rw [Nat.succ_add]
    rfl

theorem bind (hx : Frugal x) (hf : ∀ a, Frugal (f a)) : Frugal (x >>= f) := by
  intro fuel extra memo b s h
  obtain ⟨a, t, ha, hb⟩ := bind_eq_ok.mp h
  exact (bind_of_ok (hx _ extra _ _ _ ha)).trans (hf a _ extra _ _ _ hb)

theorem conclude (key t : Term) : Frugal (conclude key t) := by
  intro fuel extra memo a s h
  rw [conclude_eq] at h ⊢
  cases h
  split <;> rfl

/-- More fuel is left over by an unfolding if it is by the reduction after it. -/
theorem unfold {whnf : Term → Reduce Term} (hw : ∀ t, Frugal (whnf t)) (n : GlobalName)
    (u : Universe) (body : Term) (args : List Term) : Frugal (unfold whnf n u body args) := by
  intro fuel extra memo a s h
  by_cases hk : (((Term.ref n u).apps args).isClosed && !((Term.ref n u).apps args).hasHole) =
    true →
      memo[(Term.ref n u).apps args]? = none
  · rw [unfold_of_unknown rfl hk] at h ⊢
    exact (step.bind fun _ => hw _).bind (conclude _) _ extra _ _ _ h
  · push Not at hk
    obtain ⟨hkey, hk⟩ := hk
    obtain ⟨t, ht⟩ := Option.ne_none_iff_exists'.mp hk
    rw [unfold_of_known rfl hkey ht] at h ⊢
    cases h
    rfl

theorem round {f : Call → Reduce Term} (hf : ∀ c, Frugal (f c)) (ρ : Round) : Frugal (ρ.run f) := by
  induction ρ with
  | ret t => exact pure t
  | step k ih => exact step.bind fun _ => ih
  | call c k ih => exact (hf c).bind ih
  | unfold depth n u body args k ih =>
    exact (unfold (fun t => hf (.whnf depth t)) n u body args).bind ih

theorem run (r : Reducer) (gas : ℕ) (c : Call) : Frugal (r.run gas c) := by
  induction gas generalizing c with
  | zero => exact throw _
  | succ gas ih => exact round ih (r.round c)

end Frugal

variable {A : GlobalName → ℕ} {r : Reducer}

/-- An outcome of an unfolding is what the unfolding returns with enough gas and fuel and nothing
remembered. -/
theorem right_of_backed (henv : r.env.Closed A) {memo : Memo} (h : memo.Backed A r.env) :
    memo.Right r := by
  intro k v hk
  obtain ⟨w, T, hw, hwv⟩ := h k v hk
  obtain ⟨c, u, body, args, rfl, hc, -⟩ := hw.evals
  obtain ⟨v', hv', hvv⟩ := hw.evals_unfolding henv hc 0
  have hargs := (Term.over_apps.mp hw.ground).2
  have hctx : Agree (.ofArity A False) 0 r 0 r 0 := .ground rfl 0 0
  have hcall := Call.agrees_unfold (u := u) henv.closedIn hctx trivial hc hargs rfl
  obtain ⟨gas, x, s, hx, hvx⟩ := hv'.exists_run henv hcall Memo.backed_empty
  rw [run_whnf] at hx
  have hxv : x.anonymize = v.anonymize := hvx.symm.trans (hvv.symm.trans hwv)
  exact ⟨hw.ground.isClosed_eq_true, hw.ground.hasHole_eq_false fun _ => id,
    isStuck_alike hwv ▸ hw.stuck,
    c, u, body, args, Term.same_refl _, hc, gas, _, x, s, hx, Term.same_iff.mpr hxv⟩

theorem fits_of_backed {memo : Memo} (h : memo.Backed A r.env) : memo.Fits A := by
  intro k hk
  obtain ⟨w, T, hw, -⟩ := h k _ (Std.HashMap.getElem?_eq_some_getElem hk)
  exact (Term.Over.of_ground (S := .ofArity A True) hw.ground).top

/-- A run without a memo is evaluation, so that what it returned is an outcome. -/
theorem backed_of_right (henv : r.env.Closed A) {memo : Memo} (hright : memo.Right r)
    (hfits : memo.Fits A) :
    memo.Backed A r.env := by
  intro k v hk
  obtain ⟨hclosed, hhole, hstuck, c, u, body, args, hsame, hc, gas, fuel, w, s, hrun, hwv⟩ :=
    hright k v hk
  have hkey := hfits k (Std.HashMap.mem_iff_isSome_getElem?.mpr (by simp [hk]))
  have hground : k.Over (.ofArity A False) 0 := hkey.ground hclosed hhole
  have halike := Term.same_iff.mp hsame
  have hargs := (Term.over_apps.mp (Term.over_of_alike hground halike)).2
  have hctx : Agree (.ofArity A False) 0 r 0 r 0 := .ground rfl 0 0
  have hcall := Call.agrees_unfold (u := u) henv.closedIn hctx trivial hc hargs rfl
  rw [← run_whnf] at hrun
  obtain ⟨-, x, T, hx, hxw⟩ := (keeps_run henv gas hcall).ok Memo.backed_empty hrun
  have hxv := hxw.trans (Term.same_iff.mp hwv)
  have hmemoizable : (((Term.ref c u).apps args).isClosed && !((Term.ref c u).apps args).hasHole) =
      true := by
    rw [← Term.isClosed_alike halike, ← Term.hasHole_alike halike, hclosed, hhole]
    rfl
  obtain ⟨y, hy, hxy⟩ := hx.outcome henv ((isStuck_alike hxv).trans hstuck) hc hargs hmemoizable
  obtain ⟨z, hz, hyz⟩ := hy.of_alike henv halike.symm
  exact ⟨z, T, hz, hyz.symm.trans (hxy.symm.trans hxv)⟩

/-- The memos that remember outcomes of unfoldings are those that are right. -/
theorem backed_iff (henv : r.env.Closed A) {memo : Memo} :
    memo.Backed A r.env ↔ memo.Right r ∧ memo.Fits A :=
  ⟨fun h => ⟨right_of_backed henv h, fits_of_backed h⟩, fun h => backed_of_right henv h.1 h.2⟩

/-- Runs of calls over a context that fits are transparent. -/
theorem transparent_run (henv : r.env.Closed A) {c : Call}
    (hc : Call.Agrees (.ofArity A True) r r ⊤ c c) :
    Transparent (fun memo => memo.Right r ∧ memo.Fits A) fun gas => r.run gas c where
  same {gas gas' fuel fuel' memo memo' v v' s s'} hmemo hmemo' h h' := by
    obtain ⟨-, w, T, hw, hwv⟩ := (keeps_run henv gas hc).ok ((backed_iff henv).mpr hmemo) h
    obtain ⟨-, w', T', hw', hwv'⟩ := (keeps_run henv gas' hc).ok ((backed_iff henv).mpr hmemo') h'
    obtain ⟨rfl, -⟩ := hw.unique hw'
    exact Term.same_iff.mpr (hwv.symm.trans hwv')
  more_fuel {gas fuel fuel' memo v s} h hle := by
    obtain ⟨extra, rfl⟩ := Nat.exists_eq_add_of_le hle
    exact ⟨_, Frugal.run r gas c _ extra _ _ _ h⟩
  more_known {gas fuel fuel' memo memo' v s} hmemo hmemo' h hle hknown := by
    have hbacked := (backed_iff henv).mpr hmemo
    obtain ⟨-, w, T, hw, hwv⟩ := (keeps_run henv gas hc).ok hbacked h
    obtain ⟨k, hpays⟩ := hw.pays henv True
    have hrun (gas : ℕ) := pays_run_of_round (fun gas => hpays ⊤ _ gas (hc.round henv.closedIn)) gas
    have hspends := hrun gas ⟨fuel, memo⟩ hbacked
    rw [h] at hspends
    have hcost : T.cost (courses A r.env) memo'.known ≤ fuel' :=
      (Trace.cost_antitone (Memo.known_mono hknown) T).trans (hspends.cost_le.trans hle)
    have hspends' (gas' : ℕ) := hrun gas' ⟨fuel', memo'⟩ ((backed_iff henv).mpr hmemo')
    refine ⟨⟨k + 1, fun gas' hgas => ?_⟩, fun gas' s' => (hspends' gas').ne_error_fuel hcost s'⟩
    obtain ⟨v', s', hv', -⟩ := (hspends' gas').exists_ok hcost hgas
    exact ⟨v', s', hv'⟩
  keeps gas fuel memo hmemo := by
    have hkeeps := keeps_run henv gas hc ⟨fuel, memo⟩ ((backed_iff henv).mpr hmemo)
    cases h : r.run gas c ⟨fuel, memo⟩ with
    | ok v s =>
      rw [h] at hkeeps
      exact (backed_iff henv).mp hkeeps.1
    | error e s =>
      rw [h] at hkeeps
      exact (backed_iff henv).mp hkeeps

/-- Reduction to weak head normal form and normalization are transparent, over closed definitions
without holes that agree with the context, the term and the memo about the arguments of
constructors. -/
theorem transparent_whnf_nf (henv : r.env.Closed A)
    (hstore : ∀ m t, r.store.solution? m = some t → t.Over (.ofArity A True) ⊤)
    (hlocals : ∀ v, some v ∈ r.locals → v.Over (.ofArity A True) ⊤) {t : Term}
    (ht : t.Over (.ofArity A True) ⊤) (depth : ℕ) :
    Transparent (fun memo => memo.Right r ∧ memo.Fits A) (fun gas => r.whnfGas depth gas t) ∧
      Transparent (fun memo => memo.Right r ∧ memo.Fits A) fun gas => r.nfGas gas depth t := by
  have hctx : Agree (.ofArity A True) ⊤ r depth r depth := by
    refine .refl (fun m t _ => hstore m t) fun i v _ hv => ?_
    obtain ⟨w, hw, rfl⟩ := localValue?_eq_some hv
    exact ((hlocals w (Locals.mem_under.mp (List.mem_of_getElem? hw))).lift (i + 1)).top
  simp only [← run_whnf, ← run_nf]
  exact ⟨transparent_run henv (.whnf hctx ht rfl), transparent_run henv (.nf hctx ht rfl)⟩

section Example

/-- `\func id (x : Nat) : Nat => x` -/
def idDefinition : Definition :=
  { span := default, name := ⟨"index::id"⟩, tele :=
    [{ Binder.named "x" with type := .ref ⟨"Prelude::Nat"⟩ .zero }]
    type := .ref ⟨"Prelude::Nat"⟩ .zero, body := .func (.var 0) none }

/-- The function `id`, in a context whose only variable has the value seven. -/
def withId : Reducer := ⟨⟨{}, ({} : Registry).insert idDefinition⟩, {}, [some (.numeral 7)]⟩

theorem get?_withId (n : GlobalName) :
    withId.env.get? n = if ⟨"index::id"⟩ = n then some idDefinition else none := by
  have hempty : ({} : Registry).get? n = none := by simp [Registry.get?]
  rw [withId, Environment.get?, Registry.get?_insert, hempty, Option.or_none]
  rfl

theorem closed_withId : withId.env.Closed fun _ => 0 := by
  intro n d h
  rw [get?_withId] at h
  split at h
  case isTrue =>
    obtain rfl := Option.some.inj h
    exact (Nat.cast_lt (α := ℕ∞)).mpr Nat.one_pos
  case isFalse => cases h

/-- The function `id` at an argument. -/
def idOf (a : Term) : Term := (Term.ref ⟨"index::id"⟩ .zero).apps [a]

theorem saturates_withId (a : Term) : withId.env.Saturates ⟨"index::id"⟩ (.var 0) [a] :=
  ⟨idDefinition, none, by simp [get?_withId], rfl, rfl⟩

theorem whnfGas_idOf {depth gas : ℕ} {a : Term} {s : ReductionState} :
    withId.whnfGas depth (gas + 2) (idOf a) s = (do
      match ← unfold (withId.whnfGas depth (gas + 1)) ⟨"index::id"⟩ .zero (.var 0) [a] with
      | some t => withId.whnfGas depth (gas + 1) t
      | none => return idOf a) s :=
  whnfGas_apps_func (by simp [get?_withId]; rfl) rfl rfl

theorem whnfGas_idOf_of_known {depth gas : ℕ} {a v : Term} {s : ReductionState}
    (h : ((idOf a).isClosed && !(idOf a).hasHole) = true) (hk : s.memo[idOf a]? = some v) :
    withId.whnfGas depth (gas + 2) (idOf a) s = withId.whnfGas depth (gas + 1) v s := by
  rw [whnfGas_idOf]
  exact bind_of_ok (unfold_of_known rfl h hk)

theorem right_empty : Memo.Right withId {} := by
  intro k v h
  simp at h

/-- The function `id` at zero, with what a run from an empty memo comes to remember. -/
theorem transparent_whnf_nf_id : (withId.env.Closed fun _ => 0) ∧
    (∀ m t, withId.store.solution? m = some t → t.Over (.ofArity (fun _ => 0) True) ⊤) ∧
    (∀ v, some v ∈ withId.locals → v.Over (.ofArity (fun _ => 0) True) ⊤) ∧
    (idOf .zero).Over (.ofArity (fun _ => 0) True) ⊤ ∧
    Transparent (fun memo => memo.Right withId ∧ memo.Fits fun _ => 0)
      (fun gas => withId.whnfGas 0 gas (idOf .zero)) ∧
    Transparent (fun memo => memo.Right withId ∧ memo.Fits fun _ => 0)
      (fun gas => withId.nfGas gas 0 (idOf .zero)) ∧
    ∃ s, withId.whnfGas 0 3 (idOf .zero) ⟨1, {}⟩ = .ok .zero s ∧ s.memo[idOf .zero]? = some .zero ∧
      s.memo.Right withId := by
  have hstore : ∀ m t, withId.store.solution? m = some t →
      t.Over (.ofArity (fun _ => 0) True) ⊤ := by
    intro m t h
    simp [withId, Store.solution?] at h
  have hlocals : ∀ v, some v ∈ withId.locals → v.Over (.ofArity (fun _ => 0) True) ⊤ := by
    intro v h
    obtain rfl : v = .numeral 7 := by simpa [withId] using h
    simp [Term.numeral]
  have hterm : (idOf .zero).Over (.ofArity (fun _ => 0) True) ⊤ := by
    simp only [idOf, Term.apps_cons, Term.apps_nil, Term.Over, Signature.admits_ofArity]
    exact ⟨⟨trivial, trivial⟩, trivial⟩
  have htransparent := transparent_whnf_nf closed_withId hstore hlocals hterm 0
  have hunfold : unfold (withId.whnfGas 0 2) ⟨"index::id"⟩ .zero (.var 0) [.zero] ⟨1, {}⟩ =
      .ok (some .zero) ⟨0, Std.HashMap.insert {} (idOf .zero) .zero⟩ :=
    (unfold_of_unknown rfl fun _ => Std.HashMap.getElem?_empty).trans rfl
  have hrun : withId.whnfGas 0 3 (idOf .zero) ⟨1, {}⟩ =
      .ok .zero ⟨0, Std.HashMap.insert {} (idOf .zero) .zero⟩ :=
    whnfGas_idOf.trans ((bind_of_ok hunfold).trans rfl)
  have hkeeps := htransparent.1.keeps 3 1 ⟨right_empty, fun k h => absurd h (by simp)⟩
  rw [hrun] at hkeeps
  exact ⟨closed_withId, hstore, hlocals, hterm, htransparent.1, htransparent.2, _, hrun,
    Std.HashMap.getElem?_insert_self, hkeeps.1⟩

/-- A branch with a variable for a constructor without arguments. -/
def stray : Term := .case .zero .nat [⟨.zero, ["y"], .var 0⟩]

/-- In the context itself the unfolding returns this number, so that the memo is right. -/
theorem right_stray : Memo.Right withId (Std.HashMap.insert {} (idOf stray) (.numeral 7)) := by
  intro k v h
  rw [Std.HashMap.getElem?_insert] at h
  split at h
  case isFalse => simp at h
  case isTrue hsame =>
    obtain rfl := Option.some.inj h
    have halike := Term.beq_iff.mp hsame
    refine ⟨(Term.isClosed_alike halike).symm, (Term.hasHole_alike halike).symm, rfl, ⟨"index::id"⟩,
      .zero, .var 0, [stray],
      Term.same_symm hsame, saturates_withId stray, 5, 1, .numeral 7, ⟨0, {}⟩, rfl, rfl⟩

theorem whnfGas_stray :
    withId.whnfGas 1 8 (idOf stray) ⟨10, {}⟩ =
      .ok (.var 0) ⟨8, Std.HashMap.insert {} (idOf stray) (.var 0)⟩ := by
  have hunfold : unfold (withId.whnfGas 1 7) ⟨"index::id"⟩ .zero (.var 0) [stray] ⟨10, {}⟩ =
      .ok (some (.var 0)) ⟨8, Std.HashMap.insert {} (idOf stray) (.var 0)⟩ :=
    (unfold_of_unknown rfl fun _ => Std.HashMap.getElem?_empty).trans rfl
  exact whnfGas_idOf.trans ((bind_of_ok hunfold).trans rfl)

/-- A function on an application of `id` that is closed, but whose normal form is not. -/
def strayLam : Term := .lam (Binder.named "x") .nat (idOf stray)

theorem nfGas_strayLam {s s' : ReductionState} {v : Term}
    (hv : withId.whnfGas 1 8 (idOf stray) s = .ok v s')
    (hn : nfParts (fun k => withId.nfGas 8 (1 + k)) v s' = .ok v s') :
    withId.nfGas 10 0 strayLam s = .ok (.lam (Binder.named "x") .nat v) s' := by
  have hlam : withId.nfGas 10 0 strayLam s =
      (withId.nfGas 9 1 (idOf stray) >>= fun b => pure (.lam (Binder.named "x") .nat b)) s := rfl
  have hbody : withId.nfGas 9 1 (idOf stray) s = .ok v s' := (bind_of_ok hv).trans hn
  exact hlam.trans ((bind_of_ok hbody).trans rfl)

/-- Where a branch has a variable that the constructor has no argument for, the variable is taken
from the context, and the memo brings its value into other contexts. -/
theorem not_transparent_stray : (withId.env.Closed fun _ => 0) ∧ Memo.Right withId {} ∧
    Memo.Right withId (Std.HashMap.insert {} (idOf stray) (.numeral 7)) ∧
    (∃ s, withId.nfGas 10 0 strayLam ⟨10, {}⟩ = .ok (.lam (Binder.named "x") .nat (.var 0)) s) ∧
    (∃ s, withId.nfGas 10 0 strayLam ⟨10, Std.HashMap.insert {} (idOf stray) (.numeral 7)⟩ =
      .ok (.lam (Binder.named "x") .nat (.numeral 7)) s) ∧
    ¬Transparent (fun memo => memo.Right withId) fun gas => withId.nfGas gas 0 strayLam := by
  have hfresh := nfGas_strayLam whnfGas_stray rfl
  have hknown := nfGas_strayLam (s := ⟨10, Std.HashMap.insert {} (idOf stray) (.numeral 7)⟩)
    ((whnfGas_idOf_of_known rfl Std.HashMap.getElem?_insert_self).trans rfl) rfl
  refine ⟨closed_withId, right_empty, right_stray, ⟨_, hfresh⟩, ⟨_, hknown⟩, fun h => ?_⟩
  exact absurd (h.same right_empty right_stray hfresh hknown) (by decide)

end Example

end Reducer

end LeveledTypes
