import LeveledTypes.Proofs.Term.Instantiation

/-!
# Laws of substitution

Instantiating the variables further out than one that is substituted commutes with the substitution.
Shifts and further substitutions are such instantiations, so both trade places with a substitution,
whatever binders are crossed. Several variables that are instantiated at once are as well
instantiated one by one, or by contracting abstractions.
-/
namespace LeveledTypes.Term

section Instantiate
variable {σ ρ : ℕ → Term}

/-- Two instantiations under the same binders are one under these binders. -/
theorem inst_up_inst_up (t : Term) (k : ℕ) :
    (t.inst (up k σ)).inst (up k ρ) = t.inst (up k fun i => (σ i).inst ρ) := by
  rw [inst_inst]
  congr 1
  funext i
  rcases lt_or_ge i k with h | h
  · rw [up_of_lt h, up_of_lt h, inst, up_of_lt h]
  · rw [up_of_le h, up_of_le h, lift_inst_up]

/-- A value for a variable that does not occur. -/
theorem lift_inst_push (t a : Term) (σ : ℕ → Term) (k : ℕ) :
    (t.lift (k + 1)).inst (push a σ) = t.inst fun i => σ (i + k) := by
  rw [lift_eq_inst, inst_inst]
  rfl

theorem lift_one_inst_push (t a : Term) : (t.lift 1).inst (push a σ) = t.inst σ :=
  lift_inst_push t a σ 0

/-- Instantiating the variables that are further out than the one that is substituted. -/
theorem inst_up_substAt (t a : Term) (j : ℕ) :
    (t.substAt j a).inst (up j ρ) = (t.inst (up (j + 1) ρ)).substAt j (a.inst ρ) := by
  rw [substAt_eq_inst, substAt_eq_inst, Nat.add_comm j 1, ← up_up, inst_up_inst_up, inst_up_inst_up]
  congr 2
  funext i
  cases i with
  | zero => rw [push, up_of_lt Nat.one_pos, inst, push]
  | succ i => rw [up_of_le (by omega), Nat.add_sub_cancel, lift_one_inst_push, inst_id, push, inst]

theorem inst_subst (t a : Term) (ρ : ℕ → Term) :
    (t.subst a).inst ρ = (t.inst (up 1 ρ)).subst (a.inst ρ) := by
  have h := inst_up_substAt (ρ := ρ) t a 0
  rwa [up_zero] at h

end Instantiate

theorem subst_lift (t a : Term) :
    (t.lift 1).subst a = t := by rw [subst_eq_inst, lift_one_inst_push, inst_id]

theorem shift_substAt (t a : Term) (j k d : ℕ) :
    (t.substAt j a).shift d (j + k) = (t.shift d (j + 1 + k)).substAt j (a.shift d k) := by
  rw [shift_eq_inst, shift_eq_inst, shift_eq_inst, Nat.add_comm j k, Nat.add_comm (j + 1) k,
    ← up_up, ← up_up]
  exact inst_up_substAt t a j

theorem substAt_substAt (t a b : Term) (i j : ℕ) :
    (t.substAt i a).substAt (i + j) b = (t.substAt (i + j + 1) b).substAt i (a.substAt j b) := by
  rw [substAt_eq_inst _ (i + j), substAt_eq_inst t (i + j + 1), substAt_eq_inst a j,
    Nat.add_comm i j, Nat.add_assoc, ← up_up, ← up_up]
  exact inst_up_substAt t a i

/-- A substitution trades places with a shift and with a substitution further out, and a value for a
variable that does not occur changes nothing. -/
theorem substAt_interchange (e a b : Term) (i j k d : ℕ) :
    (e.substAt j a).shift d (j + k) = (e.shift d (j + 1 + k)).substAt j (a.shift d k) ∧
      (e.substAt i a).substAt (i + j) b = (e.substAt (i + j + 1) b).substAt i (a.substAt j b) ∧
      (e.lift 1).subst a = e :=
  ⟨shift_substAt e a j k d, substAt_substAt e a b i j, subst_lift e a⟩

section Lists
variable {as : List Term} {σ : ℕ → Term} {i : ℕ}

theorem pushAll_of_lt (h : i < as.length) : pushAll as σ i = as[as.length - 1 - i] := by
  rw [pushAll, List.getElem?_eq_getElem (by simpa using h), Option.getD_some, List.getElem_reverse]

theorem pushAll_of_le (h : as.length ≤ i) : pushAll as σ i = σ (i - as.length) := by
  rw [pushAll, List.getElem?_eq_none (by simpa using h), Option.getD_none]

theorem pushAll_cons (a : Term) (as : List Term) (σ : ℕ → Term) :
    pushAll (a :: as) σ = pushAll as (push a σ) := by
  funext i
  rcases lt_trichotomy i as.length with h | rfl | h
  · rw [pushAll_of_lt h, pushAll_of_lt (by simp; omega)]
    have hindex : as.length + 1 - 1 - i = as.length - 1 - i + 1 := by omega
    simp only [List.length_cons, hindex, List.getElem_cons_succ]
  · rw [pushAll_of_le le_rfl, Nat.sub_self, push, pushAll_of_lt (by simp)]
    simp
  · have hindex : i - as.length = i - as.length - 1 + 1 := by omega
    rw [pushAll_of_le h.le, hindex, push, pushAll_of_le (by simpa using h)]
    simp only [List.length_cons, Nat.sub_add_eq]

theorem lift_inst_pushAll (t : Term) (as : List Term) (σ : ℕ → Term) :
    (t.lift as.length).inst (pushAll as σ) = t.inst σ := by
  rw [lift_eq_inst, inst_inst]
  congr 1
  funext i
  rw [inst, pushAll_of_le (by omega), Nat.add_sub_cancel]

theorem up_inst_pushAll (as : List Term) (ρ : ℕ → Term) (i : ℕ) :
    (up as.length ρ i).inst (pushAll as var) = pushAll as ρ i := by
  rcases lt_or_ge i as.length with h | h
  · rw [up_of_lt h, inst, pushAll_of_lt h, pushAll_of_lt h]
  · rw [up_of_le h, lift_inst_pushAll, inst_id, pushAll_of_le h]

theorem pushAll_inst (as : List Term) (σ ρ : ℕ → Term) (i : ℕ) :
    (pushAll as σ i).inst ρ = pushAll (as.map (inst ρ)) (fun i => (σ i).inst ρ) i := by
  rcases lt_or_ge i as.length with h | h
  · rw [pushAll_of_lt h, pushAll_of_lt (by simpa using h)]
    simp
  · rw [pushAll_of_le h, pushAll_of_le (by simpa using h), List.length_map]

/-- Instantiating under binders before the binders themselves. -/
theorem inst_up_substAll (t : Term) (as : List Term) (ρ : ℕ → Term) :
    (t.inst (up as.length ρ)).substAll as = t.inst (pushAll as ρ) := by
  rw [substAll_eq_inst, inst_inst]
  congr 1
  funext i
  exact up_inst_pushAll as ρ i

theorem inst_substAll (t : Term) (as : List Term) (ρ : ℕ → Term) :
    (t.substAll as).inst ρ = (t.inst (up as.length ρ)).substAll (as.map (inst ρ)) := by
  rw [← List.length_map (inst ρ), inst_up_substAll, substAll_eq_inst, inst_inst]
  congr 1
  funext i
  rw [pushAll_inst]
  rfl

theorem inst_lams (σ : ℕ → Term) (tele : Telescope Term) (t : Term) :
    ∃ tele' : Telescope Term, tele'.length = tele.length ∧
      (lams tele t).inst σ = lams tele' (t.inst (up tele.length σ)) := by
  induction tele generalizing σ with
  | nil => exact ⟨[], rfl, by simp [lams]⟩
  | cons p tele ih =>
    obtain ⟨tele', hlen, h⟩ := ih (up 1 σ)
    refine ⟨{ toBinder := p.toBinder, type := p.type.inst σ } :: tele', by simp [hlen], ?_⟩
    rw [up_up, Nat.add_comm] at h
    exact congrArg (Term.lam p.toBinder (p.type.inst σ)) h

/-- A value for the variable of the first of some abstractions. -/
theorem subst_lams (tele : Telescope Term) (t a : Term) :
    ∃ tele' : Telescope Term, tele'.length = tele.length ∧
      (lams tele t).subst a = lams tele' (t.inst (up tele.length (push a var))) := by
  rw [subst_eq_inst]
  exact inst_lams (push a var) tele t

/-- The first of some arguments for the outermost of as many variables, and the others for the rest
of them. -/
theorem substAll_cons (t a : Term) (as : List Term) :
    (t.inst (up as.length (push a var))).substAll as = t.substAll (a :: as) := by
  rw [inst_up_substAll, substAll_eq_inst, pushAll_cons]

/-- Abstractions applied to as many arguments. -/
theorem beta_lams {tele : Telescope Term} {args : List Term}
    (h : tele.length = args.length) (t : Term) : (lams tele t).beta args = t.substAll args := by
  induction args generalizing tele t with
  | nil =>
    obtain rfl := List.length_eq_zero_iff.mp h
    rfl
  | cons a args ih =>
    obtain ⟨p, tele, rfl⟩ := List.exists_cons_of_length_eq_add_one h
    have hlen : tele.length = args.length := by simpa using h
    obtain ⟨tele', hlen', hsubst⟩ := subst_lams tele t a
    calc (lams (p :: tele) t).beta (a :: args) = ((lams tele t).subst a).beta args := rfl
      _ = (t.inst (up args.length (push a var))).substAll args := by
        rw [hsubst, ih (hlen'.trans hlen), hlen]
      _ = t.substAll (a :: args) := substAll_cons t a args

/-- Instantiates the innermost binders one after the other, the innermost first: each argument makes
room for the binders that are left. -/
def substEach (t : Term) (args : List Term) : Term :=
  args.zipIdx.foldr (fun (a, i) t => t.subst (a.lift i)) t

/-- Substituting for the last variable first, each value lifted over those to come, is substitution
at once. -/
theorem foldr_subst (t : Term) (args : List Term) (k : ℕ) :
    (args.zipIdx k).foldr (fun (a, i) t => t.subst (a.lift i)) t = t.substAll
    (args.map (·.lift k)) := by
  induction args generalizing k with
  | nil => rfl
  | cons a args ih =>
    have hlift (x : Term) : (x.lift (k + 1)).inst (push (a.lift k) var) = x.lift k := by
      rw [← lift_lift, lift_one_inst_push, inst_id]
    calc ((a :: args).zipIdx k).foldr (fun (a, i) t => t.subst (a.lift i)) t
        = ((args.zipIdx (k + 1)).foldr (fun (a, i) t => t.subst (a.lift i)) t).subst (a.lift k) :=
          rfl
      _ = (t.substAll (args.map (·.lift (k + 1)))).inst (push (a.lift k) var) := by
        rw [ih, subst_eq_inst]
      _ = (t.inst (up args.length (push (a.lift k) var))).substAll (args.map (·.lift k)) := by
        simp only [inst_substAll, List.map_map, Function.comp_def, hlift, List.length_map]
      _ = t.substAll ((a :: args).map (·.lift k)) := by
        rw [List.map_cons, ← substAll_cons, List.length_map]

/-- Arguments that are put in one by one give what they give at once. -/
theorem substEach_eq_substAll (t : Term) (args : List Term) :
    t.substEach args = t.substAll args := by
  rw [substEach, foldr_subst]
  simp only [lift_zero, List.map_id']

end Lists

end LeveledTypes.Term
