import LeveledTypes.Proofs.Conversion.PatternRule

/-!
# What a pattern solution cancels

The solution of a hole that is applied to distinct variables has no free variables: renaming leaves
those of its abstractions only, and every abstraction that is left out as an eta expansion takes its
variable along. Zonked with the solution in place, the application is the zonked other side to the
letter, in whatever order the variables stand and whether or not they have values.
-/
namespace LeveledTypes

namespace Term

theorem replace_ne_var {t : Term} {f : ℕ → ℕ → Term} {g : Universe → Universe} {c : ℕ}
    (ht : ∀ i, t ≠ .var i) (i : ℕ) : t.replace f g c ≠ .var i := by
  cases t <;> simp_all [replace]

/-- The free variables of a renamed term are the new names of its free variables. -/
theorem anyVar_rename (t : Term) (ρ : ℕ → ℕ) (p : ℕ → Bool) :
    (t.inst fun i => .var (ρ i)).anyVar p = t.anyVar fun i => p (ρ i) := by
  rw [inst_eq_replaceVars, replaceVars, anyVar, anyVar]
  generalize 0 = c
  induction t using induct_parts generalizing c with
  | step t ih =>
    by_cases hv : ∃ i, t = .var i
    · obtain ⟨i, rfl⟩ := hv
      by_cases hi : i < c
      · simp [replace, up_of_lt hi, anyVarFrom, not_le.mpr hi]
      · simp [replace, up_of_le (not_lt.mp hi), anyVarFrom, not_lt.mp hi]
    · push Not at hv
      rw [anyVarFrom_eq_any_parts c (replace_ne_var hv), anyVarFrom_eq_any_parts c hv,
        parts_replace c hv, List.any_map, Bool.eq_iff_iff, List.any_eq_true, List.any_eq_true]
      exact exists_congr fun q => and_congr_right fun hq => by rw [Function.comp_apply, ih q hq]

theorem anyVar_eq_false {t : Term} {p : ℕ → Bool} (h : ∀ i, t.hasVar i = true → p i = false) :
    t.anyVar p = false := by
  by_contra hany
  obtain ⟨i, hi, hvar⟩ := exists_of_anyVarFrom (Bool.not_eq_false _ ▸ hany)
  rw [h i hvar] at hi
  contradiction

/-- A test that no free variable passes fails for each of them. -/
theorem not_of_anyVar_eq_false {t : Term} {p : ℕ → Bool} {i : ℕ} (h : t.anyVar p = false)
    (hi : t.hasVar i = true) : ¬p i = true := by
  rw [hasVar, anyVar] at hi
  rw [anyVar] at h
  generalize 0 = c at h hi
  induction t using induct_parts generalizing c with
  | step t ih =>
    by_cases hv : ∃ j, t = .var j
    · obtain ⟨j, rfl⟩ := hv
      simp only [anyVarFrom, Bool.and_eq_true, decide_eq_true_eq, beq_iff_eq] at hi
      obtain ⟨hc, rfl⟩ := hi
      simpa [anyVarFrom, hc] using h
    · push Not at hv
      rw [anyVarFrom_eq_any_parts c hv, List.any_eq_true] at hi
      rw [anyVarFrom_eq_any_parts c hv, List.any_eq_false] at h
      obtain ⟨q, hq, hvar⟩ := hi
      exact ih q hq (c + q.1) (Bool.eq_false_iff.mpr (h q hq)) hvar

theorem anonymize_hole_apps (m : ℕ) (vars : List ℕ) :
    ((hole m).apps (vars.map .var)).anonymize = (hole m).apps (vars.map .var) := by
  induction vars using List.reverseRecOn with
  | nil => rfl
  | append_singleton vars i ih =>
    rw [List.map_append, apps_append]
    exact congrArg (Term.app · (.var i)) ih

/-- Names of binders do not matter for a hole that is applied to variables. -/
theorem eq_of_anonymize_eq {t : Term} {m : ℕ} {vars : List ℕ}
    (h : t.anonymize = (hole m).apps (vars.map .var)) : t = (hole m).apps (vars.map .var) := by
  induction vars using List.reverseRecOn generalizing t with
  | nil => cases t <;> simp_all [anonymize, apps]
  | append_singleton vars i ih =>
    rw [List.map_append, apps_append] at h ⊢
    cases t with
    | app f a =>
      obtain ⟨hf, ha⟩ := Term.app.inj h
      rw [ih hf]
      cases a <;> simp_all [anonymize]
    | _ => simp [anonymize] at h

end Term

namespace Store
variable {s : Store} {m : ℕ}

theorem solution?_assign_of_lt (hm : m < s.holes.size) (u : Term) (k : ℕ) :
    (s.assign m u).solution? k = if k = m then some u else s.solution? k := by
  rw [solution?_assign]
  split
  case isTrue h =>
    subst h
    rw [Array.getElem?_eq_getElem hm, if_pos rfl]
    rfl
  case isFalse h => rw [if_neg (Ne.symm h)]

/-- A hole without a solution that is applied to variables is zonked to itself. -/
theorem zonk_hole_apps (hm : s.solution? m = none) (vars : List ℕ) :
    s.zonk ((Term.hole m).apps (vars.map .var)) = (Term.hole m).apps (vars.map .var) := by
  have hhole : (Term.hole m).HolesIn (· = m) fun _ => False :=
    Term.holesIn_iff.mpr ⟨⟨fun k hk => (Term.hole.inj hk).symm, by simp [Term.rootUniverse?]⟩,
      by simp [Term.parts]⟩
  have hholes : ((Term.hole m).apps (vars.map .var)).HolesIn (· = m) fun _ => False :=
    hhole.apps (List.forall_mem_map.mpr fun i _ => Term.holesIn_var i)
  rw [zonk, Term.fillDeep_eq_self fun k hk => ?_]
  · exact Term.fillLevels_eq_self (hholes.mono (fun _ => id) fun _ => False.elim)
  · rw [hholes.of_mem_holes (Term.mem_holes_iff.mpr hk), hm]

/-- What the pattern rule is used for is not the hole that is applied to something. -/
theorem Abstractable.not_same {vars : List ℕ} {t : Term} (h : s.Abstractable m vars t) :
    ¬((Term.hole m).apps (vars.map .var)).same t = true := by
  intro hsame
  have hanon : t.anonymize = (Term.hole m).apps (vars.map .var) := by
    rw [← Term.same_iff.mp hsame, Term.anonymize_hole_apps]
  refine h.absent ?_
  rw [Term.eq_of_anonymize_eq hanon, zonk_hole_apps h.unsolved]
  exact Term.mem_holes_iff.mpr (Converter.hole_mem_subterms_apps m _)

end Store

namespace Converter
variable {c : Converter} {s : ConversionState} {t : Term} {m : ℕ} {vars : List ℕ}

/-- Eta contraction leaves no variable of the abstractions that it drops. -/
theorem anyVar_contractEta {k : ℕ} (ht : t.anyVar (k ≤ ·) = false) :
    (contractEta t k).1.anyVar ((contractEta t k).2 ≤ ·) = false := by
  induction t, k using contractEta.induct with
  | case1 f k hvar => simpa [contractEta, hvar] using ht
  | case2 f k hvar ih =>
    have hvar : f.hasVar 0 = false := by simpa using hvar
    have hf : f.anyVar (k + 1 ≤ ·) = false := (Bool.or_eq_false_iff.mp ht).1
    rw [contractEta, if_neg (by simp [hvar])]
    refine ih ?_
    rw [Term.shift_neg_one hvar, Term.anyVar_rename]
    refine Term.anyVar_eq_false fun i hi => ?_
    have hne : i ≠ 0 := by
      rintro rfl
      rw [hvar] at hi
      contradiction
    have hle := Term.not_of_anyVar_eq_false hf hi
    simp only [decide_eq_true_eq, decide_eq_false_iff_not] at hle ⊢
    omega
  | case3 t k h => rwa [contractEta.eq_2 _ _ h]

/-- The body of a solution has no variables but those of its abstractions. -/
theorem anyVar_of_patternName {body : Term} (h : t.renameFree? (patternName vars) = some body) :
    body.anyVar (vars.length ≤ ·) = false := by
  obtain ⟨hvars, rfl⟩ := Term.renameFree?_eq_some h
  rw [Term.anyVar_rename]
  refine Term.anyVar_eq_false fun i hi => ?_
  have hsome := Term.not_of_anyVar_eq_false hvars hi
  obtain ⟨k, hk⟩ : ∃ k, patternName vars i = some k :=
    Option.ne_none_iff_exists'.mp (by simpa using hsome)
  obtain ⟨j, hj, rfl⟩ := Option.map_eq_some_iff.mp hk
  obtain ⟨hlt, -⟩ := List.idxOf?_eq_some_iff.mp hj
  rw [hk, Option.getD_some, decide_eq_false_iff_not]
  omega

/-- What the pattern rule leaves. A hole that is applied to distinct variables, compared with a weak
head normal form that it can be abstracted from, is the only one to get a solution. No constraint
and no edge between levels is added, the body of the solution has no variables but those of its
abstractions, and zonked with the solution in place the application is the other side as it was
zonked before. -/
theorem convert_abstractable (c : Converter) (cmp : Comparison)
    (hdepth : 0 < c.limits.conversionDepth) (h : s.store.Abstractable m vars t)
    (ht : ∃ s', c.whnf 0 t s = .ok t s') :
    ∃ s' tele body, c.convert cmp ((Term.hole m).apps (vars.map .var)) t s = .ok () s' ∧
      s'.store = s.store.assign m (Term.lams tele body) ∧
      (∀ k, s'.store.solution? k = if k = m then some (Term.lams tele body)
        else s.store.solution? k) ∧
      s'.store.constraints = s.store.constraints ∧ s'.store.p = s.store.p ∧ s'.store.h = s.store.h ∧
      (∀ i, body.hasVar i = true → i < tele.length) ∧
      s'.store.zonk ((Term.hole m).apps (vars.map .var)) = s.store.zonk t := by
  obtain ⟨depth, hdepth⟩ := Nat.exists_eq_add_one_of_ne_zero hdepth.ne'
  obtain ⟨s₁, hwhnf⟩ := ht
  obtain ⟨⟨memo, rfl⟩, hhead⟩ := headNormal_of_whnf hwhnf
  obtain ⟨body, hbody, hsolve, hzonk⟩ :=
    solve_abstractable (c := c) (s := { s with memo }) h hhead 0 cmp
  have hheadHole : ((Term.hole m).apps (vars.map .var)).headHole? = some m := by
    rw [Term.headHole?, Term.head_apps]; rfl
  have hunsolved : ((some m).filter fun m => (s.store.solution? m).isNone) = some m := by
    simp [h.unsolved]
  have hget : (get : Convert ConversionState) { s with memo } = .ok { s with memo }
      { s with memo } := rfl
  let tele := solutionTele (s.store.holeType m) (contractEta body vars.length).2
  let inner := (contractEta body vars.length).1
  change c.solve 0 m cmp _ t _ = .ok () ⟨s.store.assign m (Term.lams tele inner), memo⟩ at hsolve
  have hsolution : ∀ k, (s.store.assign m (Term.lams tele inner)).solution? k =
      if k = m then some (Term.lams tele inner) else s.store.solution? k :=
        Store.solution?_assign_of_lt h.known _
  refine ⟨⟨s.store.assign m (Term.lams tele inner), memo⟩, tele, inner, ?_, rfl, hsolution, rfl,
    rfl, rfl, fun i hi => ?_, hzonk⟩
  · rw [convert, hdepth, convertIn, if_neg h.not_same, convertWith,
      bind_of_ok (whnf_hole_apps h.unsolved _), bind_of_ok hwhnf, if_neg h.not_same]
    refine (bind_of_ok hget).trans ?_
    simpa only [hheadHole, hunsolved] using hsolve
  · have hlt := Term.not_of_anyVar_eq_false (anyVar_contractEta (anyVar_of_patternName hbody)) hi
    simpa [tele] using hlt

section Example

/-- The last of two numbers has a value. -/
def letConverter : Converter := { emptyConverter with locals := [some .zero, none] }

/-- The second function at the successor of the last number and at the first one. -/
def crossedValue : Term := .app (.app (.hole 1) (.succ (.var 0))) (.var 1)

/-- The second function may stand in a solution of the first: it is another hole without a solution,
and both variables are arguments of the pattern. -/
theorem abstractable_crossedValue : functionStore.Abstractable 0 [0, 1] crossedValue where
  known := by decide
  unsolved := solution?_functionStore 0
  nodup := by decide
  filled := Term.holesIn_of_holes (fun m _ => solution?_functionStore m) fun _ _ => rfl
  absent := by
    have hholes : (functionStore.zonk crossedValue).holes = [1] := rfl
    simp [hholes]
  vars i hi := by
    have hzonk : functionStore.zonk crossedValue = crossedValue := rfl
    rw [hzonk] at hi
    have hi : 0 = i ∨ 1 = i := by
      simpa [crossedValue, Term.hasVar, Term.anyVar, Term.anyVarFrom] using hi
    rcases hi with rfl | rfl <;> simp

/-- The first function at two variables, the last of which has a value, is compared with the second
one at the successor of the last variable and at the first one. The variables change places, the
value stays unused, and eta contraction applies. -/
theorem convert_abstractable_crossedValue : 0 < letConverter.limits.conversionDepth ∧
    functionStore.Abstractable 0 [0, 1] crossedValue ∧
    (∃ s', letConverter.whnf 0 crossedValue { store := functionStore } = .ok crossedValue s') ∧
    ∃ s' tele body, letConverter.convert .eq (.app (.app (.hole 0) (.var 0)) (.var 1)) crossedValue
        { store := functionStore } = .ok () s' ∧
      s'.store = functionStore.assign 0 (Term.lams tele body) ∧
      (∀ k, s'.store.solution? k = if k = 0 then some (Term.lams tele body)
        else functionStore.solution? k) ∧
      s'.store.constraints = [] ∧ s'.store.p = {} ∧ s'.store.h = {} ∧
      (∀ i, body.hasVar i = true → i < tele.length) ∧
      s'.store.zonk (.app (.app (.hole 0) (.var 0)) (.var 1)) = crossedValue := by
  have hdepth : 0 < letConverter.limits.conversionDepth := by decide
  have hwhnf : ∃ s', letConverter.whnf 0 crossedValue { store := functionStore } =
    .ok crossedValue s' := ⟨_, rfl⟩
  exact ⟨hdepth, abstractable_crossedValue, hwhnf,
    convert_abstractable (s :=
      { store := functionStore }) letConverter .eq hdepth abstractable_crossedValue hwhnf⟩

end Example

end Converter

end LeveledTypes
