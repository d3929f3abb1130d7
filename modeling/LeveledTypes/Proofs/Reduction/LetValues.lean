import LeveledTypes.Proofs.Reduction.Outcomes
import LeveledTypes.Proofs.Reduction.Replacement

/-!
# Values of variables and substitution

A variable with a value is as good as its value: normalizing a term in a context that gives a
variable a value, substituting the value first, and binding it by a definition all come to the same
normal form.
-/
namespace LeveledTypes

namespace Term

/-- Substituting for a variable and making room for it again only replaces the variable. -/
theorem shift_inst_push (t a : Term) (k : ℕ) :
    (t.inst (up k (push a var))).shift 1 k = t.inst
      (up k (push (a.lift 1) fun i => var (i + 1))) := by
  have hshift := shift_eq_inst (t.inst (up k (push a var))) 1 k
  rw [inst_up_inst_up] at hshift
  refine hshift.trans ?_
  congr 2
  funext i
  cases i with
  | zero => rw [push, push, lift_eq_inst]
  | succ i => rw [push, push, inst]

theorem shift_alike {t t' : Term} (h : t.anonymize = t'.anonymize) (n k : ℕ) :
    (t.shift n k).anonymize = (t'.shift n k).anonymize := by
  rw [shift_eq_inst, shift_eq_inst]
  exact inst_alike h fun _ => rfl

theorem Over.substAt {S : Signature} {t a : Term} (ht : t.Over S ⊤) (ha : a.Over S ⊤) (k : ℕ) :
    (t.substAt k a).Over S ⊤ := by
  rw [substAt_eq_inst]
  refine ht.inst fun i _ => ?_
  unfold up
  split
  case isTrue => exact ENat.natCast_lt_top i
  case isFalse =>
    cases i - k with
    | zero => exact (ha.lift k).top
    | succ j => exact (lift_var j k).symm ▸ ENat.natCast_lt_top (j + k)

end Term

namespace Reducer
variable {A : GlobalName → ℕ} {holes : Prop} {r : Reducer} {depth : ℕ} {t v w : Term}
  {T : Trace Term}

namespace Consistent
variable (h : Consistent A holes r)

include h

/-- A renaming that takes each variable to one with the same value. -/
theorem replaces_of_rename {r' : Reducer} {depth' : ℕ} {ρ : ℕ → ℕ} (henv : r'.env = r.env)
    (hstore : r'.store = r.store) (hρ : ∀ i, r'.localValue? depth' (ρ i) =
      (r.localValue? depth i).map (Term.inst fun i => .var (ρ i))) :
    Replaces A holes r depth r' depth' fun i => .var (ρ i) :=
  ⟨henv, hstore, h.solutions, h.over_values, fun i => .inl ⟨ρ i, rfl, hρ i⟩⟩

/-- Binders that a term does not mention may be taken for variables outside of the context. -/
theorem replaces_lower (depth k : ℕ) : Replaces A holes r (depth + k) r depth fun i =>
    .var (if i < k then i + depth + r.locals.length else i - k) := by
  refine h.replaces_of_rename rfl rfl fun i => ?_
  rw [localValue?_add]
  by_cases hi : i < k
  · rw [if_pos hi, if_pos hi, Option.map_none, localValue?, if_neg (by omega),
      List.getElem?_eq_none (by omega)]
  · rw [if_neg hi, if_neg hi, Option.map_map]
    cases r.localValue? depth (i - k) with
    | none => rfl
    | some w => simp [Term.lift_eq_inst, Term.inst_inst]

/-- If the weak head normal form of a term is no global with too few arguments, this stays so under
binders. -/
theorem full_of_headNormalizes (ht : t.Over (.ofArity A holes) ⊤)
    (hfull : ∀ v, HeadNormalizes A r depth t v → ¬r.env.Unsaturated v) : r.Full depth t := by
  intro k v T hv
  have hctx := h.replaces_lower depth k
  obtain ⟨⟨T', hw⟩, -⟩ := hv.replaced h.env (Round.replaced_head h.env hctx (ht.lift k).top)
  have hback : (t.lift k).inst
      (fun i => .var (if i < k then i + depth + r.locals.length else i - k)) = t := by
    rw [Term.lift_eq_inst, Term.inst_inst]
    simp
  rw [hback] at hw
  rintro ⟨n, u, args, d, rfl, hne, hd, hlt⟩
  refine hfull _ (h.headNormalizes_of_evals hw ht) ?_
  exact ⟨n, u, _, d, Term.inst_apps .., by simpa using hne, hd, by simpa using hlt⟩

end Consistent

section Value
variable {env : Environment} {store : Store} {L : Locals}

/-- The innermost variable of the context is replaced by its value. -/
theorem Consistent.replaces_value (h : Consistent A holes ⟨env, store, some v :: L⟩)
    (hfull : Full ⟨env, store, L⟩ 0 v) (depth : ℕ) :
    Replaces A holes ⟨env, store, some v :: L⟩ depth ⟨env, store, L⟩ depth
      (Term.up depth (Term.push v .var)) := by
  have hzero : Replaces A holes ⟨env, store, some v :: L⟩ 0 ⟨env, store, L⟩ 0
      (Term.push v .var) := by
    refine ⟨rfl, rfl, h.solutions, h.over_values, fun i => ?_⟩
    cases i with
    | zero =>
      exact .inr ⟨v.lift 1, rfl, by rw [Term.lift_inst_push]; exact (Term.inst_id v).symm, hfull⟩
    | succ i =>
      refine .inl ⟨i, rfl, ?_⟩
      simp only [localValue?, Nat.not_lt_zero, if_false, Nat.sub_zero, List.getElem?_cons_succ]
      cases L[i]? with
      | none => rfl
      | some o =>
        cases o with
        | none => rfl
        | some w =>
          exact congrArg some ((Term.lift_eq_inst w _).trans
            (Term.lift_inst_push w v .var (i + 1)).symm)
  simpa using hzero.under depth

/-- Normal forms do not mention a variable that has a value. -/
theorem Bare.shift_inst (h : Bare ⟨env, store, some v :: L⟩ depth w) :
    (w.inst (Term.up depth (Term.push v .var))).shift 1 depth = w := by
  rw [Term.shift_inst_push]
  refine (h _ .var fun i hi => ?_).trans (Term.inst_id w)
  rcases lt_trichotomy i depth with hlt | rfl | hlt
  · rw [Term.up_of_lt hlt]
  · simp [localValue?] at hi
  · obtain ⟨j, rfl⟩ := Nat.exists_eq_add_of_lt hlt
    rw [Term.up_of_le (by omega), show depth + j + 1 - depth = j + 1 by omega, Term.push,
      Term.lift_var]
    congr 1
    omega

/-- A definition takes a step to the instance of its body. -/
theorem Evals.of_letIn {x : Binder} {a b : Term}
    (h : Evals r (r.round (.nf depth (.letIn x a b t))) v T) :
    ∃ T', Evals r (r.round (.nf depth (t.subst b))) v T' := by
  cases h with
  | call hlet hparts =>
    obtain ⟨U, -, hwhnf⟩ := Evals.of_step hlet
    obtain ⟨U', -, hwhnf⟩ := hwhnf.of_whnf
    exact ⟨_, .call hwhnf hparts⟩

/-- A normal form in a context that gives the innermost variable a value is the normal form, without
that variable, of the term in which the value is substituted, under any number of binders. This is
also what a definition with a value normalizes to. The weak head normal form of the value must be no
global with too few arguments, which would not be unfolded where the variable is applied to the
other ones. -/
theorem normalizes_value (h : Consistent A holes ⟨env, store, some v :: L⟩)
    (hfull : ∀ w, HeadNormalizes A ⟨env, store, L⟩ 0 v w → ¬env.Unsaturated w)
    (ht : t.Over (.ofArity A holes) ⊤) (depth : ℕ) :
    (∀ w w', Normalizes A ⟨env, store, some v :: L⟩ depth t w →
      Normalizes A ⟨env, store, L⟩ depth (t.substAt depth v) w' →
      w.same (w'.shift 1 depth) = true) ∧
    ∀ x a b w w', a.Over (.ofArity A holes) ⊤ → b.Over (.ofArity A holes) ⊤ →
      Normalizes A ⟨env, store, L⟩ depth (.letIn x a b t) w →
      Normalizes A ⟨env, store, L⟩ depth (t.subst b) w' → w.same w' = true := by
  have hL : Consistent A holes ⟨env, store, L⟩ :=
    ⟨h.env, h.solutions, fun w hw => h.values w (List.mem_cons_of_mem _ hw)⟩
  have hv : v.Over (.ofArity A holes) ⊤ := h.values v List.mem_cons_self
  constructor
  case left =>
    intro w w' hw hw'
    have hctx := h.replaces_value (hL.full_of_headNormalizes hv hfull) depth
    obtain ⟨x, T, hx, hxw⟩ := h.evals_of_normalizes hw ht
    obtain ⟨y, U, hy, hyw⟩ := hL.evals_of_normalizes hw' (ht.substAt hv depth)
    rw [Term.substAt_eq_inst] at hy
    obtain ⟨⟨U', hz⟩, -, hbare⟩ := hx.replaced h.env (Call.Replaced.round h.env (.nf hctx ht rfl))
    obtain ⟨rfl, -⟩ := hy.unique hz
    rw [Term.same_iff, ← hxw, ← hbare.shift_inst]
    exact Term.shift_alike hyw 1 depth
  case right =>
    intro x a b w w' ha hb hw hw'
    obtain ⟨y, T, hy, hyw⟩ := hL.evals_of_normalizes hw ⟨ha, hb, by simpa using ht⟩
    obtain ⟨z, U, hz, hzw⟩ := hL.evals_of_normalizes hw' (Term.Over.subst (by simpa using ht) hb)
    obtain ⟨T', hy⟩ := hy.of_letIn
    obtain ⟨rfl, -⟩ := hy.unique hz
    exact Term.same_iff.mpr (hyw.symm.trans hzw)

section Example

/-- `\lam (y : Nat) => suc y` -/
def successor : Term := .lam (.named "y") .nat (.succ (.var 0))

/-- The successor function is the value of a variable that is applied to zero under a binder, and of
a definition. -/
theorem normalizes_value_successor :
    (∀ w, HeadNormalizes (fun _ => 0) ⟨withId.env, {}, []⟩ 0 successor w →
      ¬withId.env.Unsaturated w) ∧
    Normalizes (fun _ => 0) ⟨withId.env, {}, [some successor]⟩ 1
      (.app (.var 1) .zero) (.succ .zero) ∧
    Normalizes (fun _ => 0) ⟨withId.env, {}, []⟩ 1
      ((Term.app (.var 1) .zero).substAt 1 successor) (.succ .zero) ∧
    (Term.succ .zero).same ((Term.succ .zero).shift 1 1) = true := by
  have hcontext : Consistent (fun _ => 0) False ⟨withId.env, {}, [some successor]⟩ := by
    refine ⟨closed_withId, fun h => h.elim, fun v hv => ?_⟩
    obtain rfl : v = successor := by simpa using hv
    simp [successor]
  have hfull : ∀ w, HeadNormalizes (fun _ => 0) ⟨withId.env, {}, []⟩ 0 successor w →
      ¬withId.env.Unsaturated w := by
    rintro w ⟨gas, fuel, memo, x, s, -, -, hrun, hsame⟩ ⟨n, u, args, d, rfl, hne, -⟩
    cases gas with
    | zero => cases hrun
    | succ gas =>
      obtain ⟨f, a, hfa⟩ := Term.exists_app_of_apps (g := .ref n u) hne
      rw [hfa] at hsame
      cases hrun
      cases hsame
  have hempty (L : Locals) : Memo.Right ⟨withId.env, {}, L⟩ {} ∧ Memo.Fits (fun _ => 0) {} :=
    (backed_iff (r := ⟨withId.env, {}, L⟩) closed_withId).mp Memo.backed_empty
  have hvalue : Normalizes (fun _ => 0) ⟨withId.env, {}, [some successor]⟩ 1 (.app (.var 1) .zero)
      (.succ .zero) :=
    ⟨9, 9, {}, .succ .zero, ⟨8, {}⟩, (hempty [some successor]).1, (hempty []).2, rfl, rfl⟩
  have hsubst : Normalizes (fun _ => 0) ⟨withId.env, {}, []⟩ 1
      ((Term.app (.var 1) .zero).substAt 1 successor)
      (.succ .zero) := ⟨9, 9, {}, .succ .zero, ⟨8, {}⟩, (hempty []).1, (hempty []).2, rfl, rfl⟩
  exact ⟨hfull, hvalue, hsubst, (normalizes_value hcontext hfull (by simp) 1).1 _ _ hvalue hsubst⟩

end Example

end Value

end Reducer

end LeveledTypes
