import LeveledTypes.Proofs.Conversion.Blocked
import LeveledTypes.Proofs.Conversion.Solving
import LeveledTypes.Proofs.Reduction.HeadNormal
import LeveledTypes.Proofs.Term.Names

/-!
# The pattern rule

A hole that is applied to distinct variables is solved by any term over these variables that does
not lead back to the hole. Filled with its solution, the application is this term to the letter: the
abstractions of the solution, those that were left out as eta expansions, and the variables that
were renamed all cancel out. The hole may head either side, but the left side is looked at first.
-/
namespace LeveledTypes

namespace Term
variable {sol : ℕ → Option Term} {t : Term} {H L : ℕ → Prop}

theorem beta_eq_apps (h : ∀ x d b, t ≠ .lam x d b) (args : List Term) :
    t.beta args = t.apps args := by
  cases args with
  | nil => simp [beta]
  | cons a args => rw [beta.eq_3 _ _ (by simp) fun x d b _ _ ht _ => h x d b ht]

/-- Arguments may be given in two lots. -/
theorem beta_append (t : Term) (as bs : List Term) : t.beta (as ++ bs) = (t.beta as).beta bs := by
  induction t, as using Term.beta.induct with
  | case1 t => simp [beta]
  | case2 x d b a as ih => simpa only [List.cons_append, beta] using ih
  | case3 t as hnil hlam =>
    have hlam (x : Binder) (d b : Term) : t ≠ .lam x d b := by
      rintro rfl
      obtain ⟨a, as, rfl⟩ := List.exists_cons_of_ne_nil hnil
      exact hlam x d b a as rfl rfl
    have hne (x : Binder) (d b : Term) : t.apps as ≠ .lam x d b := by
      obtain ⟨as, a, rfl⟩ := (List.eq_nil_or_concat' as).resolve_left hnil
      rw [apps_append]
      simp
    rw [beta_eq_apps hlam, beta_eq_apps hlam, beta_eq_apps hne, apps_append]

/-- A variable that is free in a term and passes a test. -/
theorem exists_of_anyVarFrom {p : ℕ → Bool} {c : ℕ} (h : t.anyVarFrom p c = true) :
    ∃ i, p i = true ∧ t.anyVarFrom (· == i) c = true := by
  induction t using induct_parts generalizing c with
  | step t ih =>
    by_cases hv : ∃ i, t = .var i
    · obtain ⟨i, rfl⟩ := hv
      simp only [anyVarFrom, Bool.and_eq_true, decide_eq_true_eq] at h
      exact ⟨i - c, h.2, by simpa [anyVarFrom] using h.1⟩
    · push Not at hv
      rw [anyVarFrom_eq_any_parts c hv, List.any_eq_true] at h
      obtain ⟨q, hq, hany⟩ := h
      obtain ⟨i, hi, hvar⟩ := ih q hq hany
      refine ⟨i, hi, ?_⟩
      rw [anyVarFrom_eq_any_parts c hv, List.any_eq_true]
      exact ⟨q, hq, hvar⟩

end Term

namespace Converter
variable {sol : ℕ → Option Term} {H L : ℕ → Prop} {t body rz : Term} {vars : List ℕ} {k : ℕ}

/-- Variables for all free variables are variables. -/
theorem pushAll_vars (vars : List ℕ) :
    Term.pushAll (vars.map .var) .var = fun i =>
      .var ((vars.reverse[i]?).getD (i - vars.length)) := by
  funext i
  rw [Term.pushAll, ← List.map_reverse, List.getElem?_map, List.length_map]
  cases vars.reverse[i]? <;> rfl

theorem holesIn_rename (h : t.HolesIn H L) (ρ : ℕ → ℕ) :
    (t.inst fun i => .var (ρ i)).HolesIn H L := by
  rw [Term.inst_eq_replaceVars]
  refine h.replaceVars fun c i => ?_
  unfold Term.up
  split
  · exact Term.holesIn_var i
  · exact Term.lift_var _ _ ▸ Term.holesIn_var _

theorem holesIn_contractEta (h : t.HolesIn H L) : (contractEta t k).1.HolesIn H L := by
  induction t, k using contractEta.induct with
  | case1 f k hvar => simpa [contractEta, hvar] using h
  | case2 f k hvar ih =>
    rw [contractEta, if_neg hvar]
    refine ih ?_
    rw [Term.shift_neg_one (by simpa using hvar)]
    exact holesIn_rename ((Term.holesIn_iff.mp h).2 (0, f) (by simp [Term.parts])) _
  | case3 t k h' => rwa [contractEta.eq_2 _ _ h']

/-- The abstractions that are left and the ones that were dropped take variables for arguments. -/
theorem beta_contractEta (ht : t.HeadNormal sol) {tele : Telescope Term}
    (htele : tele.length = (contractEta t k).2) (hvars : vars.length = k) :
    (Term.lams tele (contractEta t k).1).beta (vars.map .var) = t.inst
      (Term.pushAll (vars.map .var) .var) := by
  induction t, k using contractEta.induct generalizing vars with
  | case1 f k hvar =>
    rw [contractEta, if_pos hvar] at htele ⊢
    exact (Term.beta_lams (by simp [htele, hvars]) _).trans (Term.substAll_eq_inst _ _)
  | case2 f k hvar ih =>
    rw [contractEta, if_neg hvar] at htele ⊢
    obtain ⟨vars, i, rfl⟩ : ∃ vars' i, vars = vars' ++ [i] :=
      ⟨_, _, (List.dropLast_append_getLast (by rintro rfl; simp at hvars)).symm⟩
    have hvars : vars.length = k := by simpa using hvars
    have hvar : f.hasVar 0 = false := by simpa using hvar
    have hhead : (Term.app f (.var 0)).head = f.head := Term.fst_spineWith f [.var 0]
    have hlam (x : Binder) (d b : Term) : f.head ≠ .lam x d b :=
      fun h => absurd (ht.lam x d b (hhead.trans h)) (by simp)
    have hf : f.HeadNormal sol :=
      ⟨fun x d b h => absurd h (hlam x d b), fun m hm => ht.hole m (hhead.trans hm)⟩
    have hshift : (f.shift (-1) 0).HeadNormal sol :=
      Term.shift_neg_one hvar ▸ hf.rename fun i => i - 1
    have hinst : (f.shift (-1) 0).inst (Term.pushAll (vars.map .var) .var) =
        f.inst (Term.pushAll ((vars ++ [i]).map .var) .var) := by
      nth_rewrite 2 [← Term.lift_shift_neg_one hvar]
      rw [Term.lift_eq_inst, Term.inst_inst]
      congr 1
      funext j
      simp [Term.pushAll]
    have hne (x : Binder) (d b : Term) : f.inst (Term.pushAll ((vars ++ [i]).map .var) .var) ≠
        .lam x d b := by
      rw [pushAll_vars]
      cases f with
      | lam y e a => exact absurd rfl (hlam y e a)
      | _ => simp
    rw [List.map_append, Term.beta_append, ih hshift htele hvars, hinst, Term.beta_eq_apps hne,
      ← List.map_append]
    simp [Term.pushAll]
  | case3 t k h =>
    rw [contractEta.eq_2 _ _ h] at htele ⊢
    exact (Term.beta_lams (by simp [htele, hvars]) _).trans (Term.substAll_eq_inst _ _)

/-- The body of a solution, applied to the variables that it was made for, is the term that was
solved for. -/
theorem beta_of_patternName (ht : t.HeadNormal sol)
    (hbody : t.renameFree? (patternName vars) = some body) {tele : Telescope Term}
    (htele : tele.length = (contractEta body vars.length).2) :
    (Term.lams tele (contractEta body vars.length).1).beta (vars.map .var) = t := by
  have hname : body.HeadNormal sol := (Term.renameFree?_eq_some hbody).2 ▸ ht.rename _
  rw [beta_contractEta hname htele rfl, inst_patternName hbody]

theorem exists_renameFree? (h : ∀ i, t.hasVar i = true → i ∈ vars) :
    ∃ body, t.renameFree? (patternName vars) = some body := by
  have hvars : t.anyVar (fun i => (patternName vars i).isNone) = false := by
    by_contra hany
    obtain ⟨i, hi, hvar⟩ := Term.exists_of_anyVarFrom (Bool.not_eq_false _ ▸ hany)
    have hmem := h i hvar
    simp [patternName, List.idxOf?_eq_none_iff, hmem] at hi
  simp [Term.renameFree?, hvars]

section Spine
variable {c : Converter} {s : ConversionState} {m binders : ℕ}

/-- A hole without a solution is in weak head normal form, whatever it is applied to. -/
theorem whnf_hole_apps (hm : s.store.solution? m = none) (args : List Term) :
    c.whnf binders ((Term.hole m).apps args) s = .ok ((Term.hole m).apps args) s := by
  have hhole (gas : ℕ) (s' : ReductionState) :
      Reducer.whnfGas ⟨c.env, s.store, c.locals⟩ binders (gas + 1) (.hole m) s' =
      .ok (.hole m) s' := by
    rw [Reducer.whnfGas, Reducer.whnfWith]
    simp only [hm]
    rfl
  suffices hrun : Reducer.whnf ⟨c.env, s.store, c.locals⟩ binders ((Term.hole m).apps args)
      ⟨c.limits.reductionFuel, s.memo⟩ =
        .ok ((Term.hole m).apps args) ⟨c.limits.reductionFuel, s.memo⟩ from
    whnf_eq_ok hrun
  rcases List.eq_nil_or_concat' args with rfl | ⟨args, a, rfl⟩
  · exact hhole _ _
  · have hspine : (Term.app ((Term.hole m).apps args) a).spine = (.hole m, args ++ [a]) := by
      have h := Term.spineWith_apps (.hole m) (args ++ [a]) []
      rwa [Term.apps_append, List.append_nil] at h
    rw [Term.apps_append]
    change Reducer.whnfWith _ binders _ (.app ((Term.hole m).apps args) a) _ = _
    rw [Reducer.whnfWith, hspine]
    refine (bind_of_ok (hhole _ _)).trans ?_
    simp only [Reducer.applySpine, hm]
    rw [Term.apps_append]
    rfl

/-- Distinct variables without values are a pattern, and finding that out leaves the state as it is.
-/
theorem patternVars_vars (xs : List ℕ) (hnodup : (xs ++ vars).Nodup) :
    c.patternVars binders (vars.map .var) xs s = .ok (some (xs ++ vars)) s := by
  induction vars generalizing xs with
  | nil =>
    rw [List.append_nil]
    rfl
  | cons i vars ih =>
    have hi : xs.contains i = false := by
      rw [List.nodup_append] at hnodup
      simpa using fun h => hnodup.2.2 i h i (by simp) rfl
    have hrest := ih (xs ++ [i]) (by simpa using hnodup)
    rw [List.append_assoc, List.singleton_append] at hrest
    rw [List.map_cons, patternVars]
    refine (bind_of_ok (a := Term.var i) rfl).trans ?_
    simpa only [hi, Bool.false_eq_true, if_false] using hrest

end Spine

end Converter

/-- What a hole that is applied to distinct variables is compared with: a term that does not lead
back to the hole, and has no variables but these. -/
structure Store.Solvable (s : Store) (m : ℕ) (vars : List ℕ) (t : Term) : Prop where
  known : m < s.holes.size
  unsolved : s.solution? m = none
  nodup : vars.Nodup
  absent : ¬Term.LeadsTo s.solution? t m
  vars : ∀ i, (s.zonk t).hasVar i = true → i ∈ vars

/-- What a solution that takes variables for arguments is made from: a term that zonking fills to
the end, where it neither mentions the hole nor has other variables. -/
structure Store.Abstractable (s : Store) (m : ℕ) (vars : List ℕ) (t : Term) : Prop where
  known : m < s.holes.size
  unsolved : s.solution? m = none
  nodup : vars.Nodup
  filled : (s.zonk t).HolesIn (fun k => s.solution? k = none) fun k => s.levelSolution? k = none
  absent : m ∉ (s.zonk t).holes
  vars : ∀ i, (s.zonk t).hasVar i = true → i ∈ vars

/-- Solutions do not lead back to their holes, and those of level holes have no level holes. -/
structure Store.Orderly (s : Store) : Prop where
  acyclic : Term.Acyclic s.solution?
  levels : ∀ m l, s.levelSolution? m = some l → l.hole? = none

namespace Store
variable {s : Store} {t u : Term} {m : ℕ} {vars : List ℕ}

theorem lt_size_of_solution? (h : (s.solution? m).isSome) : m < s.holes.size := by
  by_contra hm
  simp [solution?, Array.getElem?_eq_none (not_lt.mp hm)] at h

/-- Zonking leaves holes without solutions only, which the term leads to. -/
theorem Orderly.holesIn_zonk (hs : s.Orderly) (t : Term) :
    (s.zonk t).HolesIn (fun m => s.solution? m = none ∧ Term.LeadsTo s.solution? t m) fun m =>
      s.levelSolution? m = none := by
  have hfill : (t.fillDeep s.solution? s.holes.size).HolesIn (fun m => s.solution? m = none ∧
      Term.LeadsTo s.solution? t m) fun _ => True :=
    Term.holesIn_fillDeep hs.acyclic (fun m => lt_size_of_solution?) ∅ (by simp) (by simp) (by simp)
  exact (hfill.fillLevels hs.levels).mono (fun _ => id) fun m hm => hm.2

theorem Orderly.abstractable (hs : s.Orderly) (h : s.Solvable m vars t) :
    s.Abstractable m vars t where
  known := h.known
  unsolved := h.unsolved
  nodup := h.nodup
  filled := (hs.holesIn_zonk t).mono (fun _ hk => hk.1) fun _ => id
  absent hm := h.absent ((hs.holesIn_zonk t).of_mem_holes hm).2
  vars := h.vars

/-- Zonking a term does not depend on the holes that it does not lead to. -/
theorem zonk_assign (h : ¬Term.LeadsTo s.solution? t m) (u : Term) :
    (s.assign m u).zonk t = s.zonk t := by
  have hsize : (s.assign m u).holes.size = s.holes.size := Array.size_modify ..
  have hfill : t.fillDeep (s.assign m u).solution? s.holes.size =
      t.fillDeep s.solution? s.holes.size := by
    refine (Term.fillDeep_congr (fun k hk => ?_) _).symm
    rw [solution?_assign, if_neg]
    rintro rfl
    exact h hk
  rw [zonk, hsize, hfill]
  rfl

/-- Zonking does not touch the head of a weak head normal form. -/
theorem headNormal_zonk (ht : t.HeadNormal s.solution?) : (s.zonk t).HeadNormal s.solution? := by
  refine Term.HeadNormal.replace ?_ (fun _ i => ⟨i, rfl⟩) 0
  cases s.holes.size with
  | zero => exact ht
  | succ n =>
    let σ (m : ℕ) : Option Term := (s.solution? m).map (Term.fillDeep s.solution? n)
    have hσ : t.HeadNormal σ := ⟨ht.lam, fun m hm => by simp [σ, ht.hole m hm]⟩
    have hfill : (t.fillDeep s.solution? (n + 1)).HeadNormal σ := hσ.fillWith
    exact ⟨hfill.lam, fun m hm => by simpa [σ] using hfill.hole m hm⟩

/-- A hole with a pattern solution, applied to the variables that it was made for. -/
theorem zonk_patternSolution (h : s.Abstractable m vars t)
    (ht : t.HeadNormal s.solution?) {body : Term}
    (hbody : (s.zonk t).renameFree? (Converter.patternName vars) = some body) (type : Term) :
    (s.assign m (Converter.patternSolution type body vars.length)).zonk
      ((Term.hole m).apps (vars.map .var)) =
      s.zonk t := by
  generalize hs' : s.assign m (Converter.patternSolution type body vars.length) = s'
  have hsol (k : ℕ) : s'.solution? k =
      if m = k then s.holes[k]?.map fun _ => Converter.patternSolution type body vars.length
        else s.solution? k := by
    rw [← hs', solution?_assign]
  have hsize : s'.holes.size = s.holes.size := hs' ▸ Array.size_modify ..
  have hlevels : s'.levelSolution? = s.levelSolution? := hs' ▸ rfl
  obtain ⟨n, hn⟩ := Nat.exists_eq_add_one_of_ne_zero (Nat.ne_zero_of_lt h.known)
  -- Nothing is left to be filled in the body of the solution.
  have hzonk : (s.zonk t).HolesIn (fun k => k ≠ m ∧ s.solution? k = none) fun k =>
      s.levelSolution? k = none :=
    Term.holesIn_of_holes (fun k hk => ⟨fun hkm => h.absent (hkm ▸ hk), h.filled.of_mem_holes hk⟩)
      fun k hk => h.filled.of_mem_levelHoles hk
  have hclosed : ((Converter.contractEta body vars.length).1.fillDeep s'.solution? n) =
      (Converter.contractEta body vars.length).1 := by
    refine Term.fillDeep_eq_self (fun k hk => ?_) n
    have hname : body.HolesIn _ _ :=
      (Term.renameFree?_eq_some hbody).2 ▸ Converter.holesIn_rename hzonk _
    obtain ⟨hkm, hnone⟩ := (Converter.holesIn_contractEta hname).of_mem_holes
      (Term.mem_holes_iff.mpr hk)
    rw [hsol, if_neg hkm.symm, hnone]
  obtain ⟨tele, hlen, hfill⟩ := Term.fillDeep_lams s'.solution?
    (Converter.solutionTele type (Converter.contractEta body vars.length).2)
    (Converter.contractEta body vars.length).1 n
  rw [Converter.length_solutionTele] at hlen
  have hvars : (vars.map Term.var).map
      (·.fillWith (fun k => (s'.solution? k).map (Term.fillDeep s'.solution? n)) []) =
      vars.map .var := by simp [Term.fillWith]
  have hm : s'.solution? m = some (Converter.patternSolution type body vars.length) := by
    rw [hsol, if_pos rfl, Array.getElem?_eq_getElem h.known, Option.map_some]
  rw [zonk, hsize, hn, Term.fillDeep, Term.fill, Term.fillWith_apps, hvars, List.append_nil,
    Term.fillWith, hm, Option.map_some]
  simp only
  rw [Converter.patternSolution, hfill, hclosed,
    Converter.beta_of_patternName (headNormal_zonk ht) hbody hlen, hlevels]
  exact Term.fillLevels_eq_self hzonk

end Store

namespace Converter
variable {c : Converter} {s : ConversionState} {t : Term} {m : ℕ} {vars : List ℕ}

theorem spine_hole_apps (m : ℕ) (args : List Term) :
    ((Term.hole m).apps args).spine = (.hole m, args) := by
  rw [Term.spine, Term.spineWith_apps, List.append_nil]
  rfl

/-- A hole that is applied to distinct variables is solved, and is then the other side as it was
zonked before. -/
theorem solve_abstractable (h : s.store.Abstractable m vars t)
    (ht : t.HeadNormal s.store.solution?) (binders : ℕ) (cmp : Comparison) :
    ∃ body, (s.store.zonk t).renameFree? (patternName vars) = some body ∧
      c.solve binders m cmp ((Term.hole m).apps (vars.map .var)) t s =
        .ok () { s with
          store := s.store.assign m (patternSolution (s.store.holeType m) body vars.length) } ∧
      (s.store.assign m (patternSolution (s.store.holeType m) body vars.length)).zonk
        ((Term.hole m).apps (vars.map .var)) = s.store.zonk t := by
  obtain ⟨body, hbody⟩ := exists_renameFree? h.vars
  refine ⟨body, hbody, ?_, Store.zonk_patternSolution h ht hbody _⟩
  have habsent : (s.store.zonk t).holes.contains m = false := by simpa using h.absent
  rw [solve, spine_hole_apps]
  refine (bind_of_ok (patternVars_vars [] h.nodup)).trans ?_
  unfold patternName at hbody
  have hget : (get : Convert ConversionState) s = .ok s s := rfl
  dsimp only [List.nil_append]
  refine (bind_of_ok hget).trans ?_
  simp only [habsent, hbody]
  rfl

/-- A hole that is applied to distinct variables is solved, and is then the other side. -/
theorem solve_vars (hs : s.store.Orderly) (h : s.store.Solvable m vars t)
    (ht : t.HeadNormal s.store.solution?) (binders : ℕ) (cmp : Comparison) :
    ∃ u, c.solve binders m cmp ((Term.hole m).apps (vars.map .var)) t s =
        .ok () { s with store := s.store.assign m u } ∧
      (s.store.assign m u).zonk ((Term.hole m).apps (vars.map .var)) =
      (s.store.assign m u).zonk t := by
  obtain ⟨body, -, hsolve, hzonk⟩ := solve_abstractable (c := c) (hs.abstractable h) ht binders cmp
  exact ⟨_, hsolve, by rw [hzonk, Store.zonk_assign h.absent]⟩

theorem hole_mem_subterms_apps (m : ℕ) (args : List Term) :
    .hole m ∈ ((Term.hole m).apps args).subterms := by
  induction args using List.reverseRecOn with
  | nil => exact Term.mem_subterms_self _
  | append_singleton args a ih =>
    rw [Term.apps_append]
    exact Term.mem_subterms_of_part (p := (0, (Term.hole m).apps args)) (by simp [Term.parts]) ih

/-- A term that does not lead to a hole is not the hole applied to something. -/
theorem not_same_of_absent (h : ¬Term.LeadsTo s.store.solution? t m) (args : List Term) :
    ¬((Term.hole m).apps args).same t = true := by
  intro hsame
  have hmem := hole_mem_subterms_apps m args
  rw [← Term.hole_mem_subterms_anonymize, Term.same_iff.mp hsame,
    Term.hole_mem_subterms_anonymize] at hmem
  exact h (.hole hmem)

/-- Weak head reduction changes what is remembered only. -/
theorem headNormal_of_whnf {v : Term} {s' : ConversionState} (h : c.whnf binders t s = .ok v s') :
    (∃ memo, s' = { s with memo }) ∧ v.HeadNormal s.store.solution? := by
  unfold whnf reduce at h
  extract_lets memo s₁ at h
  split at h
  case h_1 w u hw =>
    obtain ⟨rfl, rfl⟩ := EStateM.Result.ok.inj h
    exact ⟨⟨u.memo, rfl⟩, Reducer.headNormal_of_whnf hw⟩
  case h_2 => contradiction

/-- The pattern rule. A hole that is applied to distinct variables, compared with a weak head normal
form that does not lead to it and has no other variables, is solved, and nothing is kept for later.
This is so when the hole is on the left, and it is so when the hole is on the right and no hole
heads the left side, which is looked at first. -/
theorem convert_vars (c : Converter) (cmp : Comparison) (hdepth : 0 < c.limits.conversionDepth)
    (hs : s.store.Orderly) (h : s.store.Solvable m vars t) (ht : ∃ s', c.whnf 0 t s = .ok t s') :
    (∃ s' u, c.convert cmp ((Term.hole m).apps (vars.map .var)) t s = .ok () s' ∧
      s'.store = s.store.assign m u ∧ s'.store.constraints = s.store.constraints ∧
      s'.store.zonk ((Term.hole m).apps (vars.map .var)) = s'.store.zonk t) ∧
    (t.headHole? = none → ∃ s' u,
      c.convert cmp t ((Term.hole m).apps (vars.map .var)) s = .ok () s' ∧
      s'.store = s.store.assign m u ∧ s'.store.constraints = s.store.constraints ∧
      s'.store.zonk t = s'.store.zonk ((Term.hole m).apps (vars.map .var))) := by
  obtain ⟨depth, hdepth⟩ := Nat.exists_eq_add_one_of_ne_zero hdepth.ne'
  obtain ⟨s₁, hwhnf⟩ := ht
  obtain ⟨⟨memo, rfl⟩, hhead⟩ := headNormal_of_whnf hwhnf
  have hsame := not_same_of_absent h.absent (vars.map .var)
  have hheadHole : ((Term.hole m).apps (vars.map .var)).headHole? = some m := by
    rw [Term.headHole?, Term.head_apps]; rfl
  obtain ⟨u, hsolve, hzonk⟩ := solve_vars (c := c) (s := { s with memo }) hs h hhead 0 cmp
  have hget : (get : Convert ConversionState) { s with memo } = .ok { s with memo }
      { s with memo } := rfl
  have hunsolved : ((some m).filter fun m => (s.store.solution? m).isNone) = some m := by
    simp [h.unsolved]
  refine ⟨⟨⟨s.store.assign m u, memo⟩, u, ?_, rfl, rfl, hzonk⟩,
    fun hnone => ⟨⟨s.store.assign m u, memo⟩, u, ?_, rfl, rfl, hzonk.symm⟩⟩
  · rw [convert, hdepth, convertIn, if_neg hsame, convertWith,
      bind_of_ok (whnf_hole_apps h.unsolved _), bind_of_ok hwhnf, if_neg hsame]
    refine (bind_of_ok hget).trans ?_
    simpa only [hheadHole, hunsolved] using hsolve
  · have hsame : ¬t.same ((Term.hole m).apps (vars.map .var)) = true :=
      fun h => hsame (Term.same_symm h)
    rw [convert, hdepth, convertIn, if_neg hsame, convertWith, bind_of_ok hwhnf,
      bind_of_ok (whnf_hole_apps (s := { s with memo }) h.unsolved _), if_neg hsame]
    refine (bind_of_ok hget).trans ?_
    simpa only [hnone, Option.filter_none, hheadHole, hunsolved] using hsolve

section Example

/-- Two functions on the numbers that are not known yet. -/
def functionStore : Store where
  holes := #[
    { span := default, kind := .implicit, type := .pi (.named "x") .nat .nat, arity := 0 },
    { span := default, kind := .implicit, type := .pi (.named "x") .nat .nat, arity := 0 }]

theorem solution?_functionStore (m : ℕ) : functionStore.solution? m = none := by
  match m with
  | 0 | 1 => rfl
  | _ + 2 => rfl

theorem orderly_functionStore : functionStore.Orderly where
  acyclic m t h := by simp [solution?_functionStore] at h
  levels m l h := by simp [Store.levelSolution?, functionStore] at h

/-- The successor of a value of the second function. -/
def nextValue : Term := .succ (.app (.hole 1) (.var 0))

/-- The successor of the variable can solve the hole that is applied to the variable. -/
theorem solvable_nextValue : functionStore.Solvable 0 [0] nextValue where
  known := by decide
  unsolved := solution?_functionStore 0
  nodup := by simp
  absent h := by
    have hsubterms : nextValue.subterms = [nextValue, .app (.hole 1) (.var 0), .hole 1, .var 0] :=
      rfl
    cases h with
    | hole hm =>
      rw [hsubterms] at hm
      simp [nextValue] at hm
    | solution _ hs => simp [solution?_functionStore] at hs
  vars i hi := by
    have hzonk : functionStore.zonk nextValue = nextValue := rfl
    rw [hzonk] at hi
    obtain rfl : 0 = i := by simpa [nextValue, Term.hasVar, Term.anyVar, Term.anyVarFrom] using hi
    simp

/-- A hole at the variable, compared with the successor of this variable. -/
theorem convert_vars_nextValue : 0 < emptyConverter.limits.conversionDepth ∧ functionStore.Orderly ∧
    functionStore.Solvable 0 [0] nextValue ∧
    (∃ s', emptyConverter.whnf 0 nextValue { store := functionStore } = .ok nextValue s') ∧
    (∃ s' u, emptyConverter.convert .eq (.app (.hole 0) (.var 0)) nextValue
      { store := functionStore } = .ok () s' ∧
      s'.store = functionStore.assign 0 u ∧ s'.store.constraints = [] ∧
      s'.store.zonk (.app (.hole 0) (.var 0)) = s'.store.zonk nextValue) ∧
    ∃ s' u, emptyConverter.convert .eq nextValue (.app (.hole 0) (.var 0))
      { store := functionStore } = .ok () s' ∧
      s'.store = functionStore.assign 0 u ∧ s'.store.constraints = [] ∧
      s'.store.zonk nextValue = s'.store.zonk (.app (.hole 0) (.var 0)) := by
  have hdepth : 0 < emptyConverter.limits.conversionDepth := by decide
  have hwhnf : ∃ s', emptyConverter.whnf 0 nextValue { store := functionStore } =
    .ok nextValue s' := ⟨_, rfl⟩
  obtain ⟨hleft, hright⟩ :=
    convert_vars (s := { store := functionStore }) emptyConverter .eq hdepth orderly_functionStore
    solvable_nextValue hwhnf
  exact ⟨hdepth, orderly_functionStore, solvable_nextValue, hwhnf, hleft, hright rfl⟩

end Example

end Converter

end LeveledTypes
