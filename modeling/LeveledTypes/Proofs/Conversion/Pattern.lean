import LeveledTypes.Conversion
import LeveledTypes.Proofs.Conversion.Normal
import LeveledTypes.Proofs.Term.Substitution

/-!
# Pattern solutions

A hole applied to variables is solved by the term that takes these variables as arguments. Applied
to them, the solution reduces to the term that the hole was compared with; the abstractions that the
solution leaves out are eta expansions.
-/
namespace LeveledTypes

namespace Converter
variable {S : Signature} {env : Environment} {M : Solution} {L : Locals}

attribute [local simp] contractEta solutionTele

theorem over_contractEta {t : Term} {k : ℕ} (ht : t.Over S ⊤) : (contractEta t k).1.Over S ⊤ := by
  induction t, k using contractEta.induct with
  | case1 f k hvar => simpa [hvar] using ht
  | case2 f k hvar ih =>
    rw [contractEta, if_neg hvar]
    refine ih ?_
    rw [Term.shift_neg_one (by simpa using hvar)]
    exact ht.1.inst fun i _ => ENat.natCast_lt_top _
  | case3 t k h => rwa [contractEta.eq_2 _ _ h]

theorem contractEta_le (t : Term) (k : ℕ) : (contractEta t k).2 ≤ k := by
  induction t, k using contractEta.induct with
  | case1 f k hvar => simp [hvar]
  | case2 f k hvar ih =>
    rw [contractEta, if_neg hvar]
    exact ih.trans (Nat.le_succ k)
  | case3 t k h => rw [contractEta.eq_2 _ _ h]

/-- The abstractions that are dropped from a solution are eta expansions. -/
theorem conv_contractEta (tele : Telescope Term) (t : Term) :
    Conv S env M L (Term.lams tele t)
      (Term.lams (tele.take (contractEta t tele.length).2) (contractEta t tele.length).1) := by
  generalize hk : tele.length = k
  induction t, k using contractEta.induct generalizing tele with
  | case1 f k hvar =>
    simp only [contractEta, hvar, if_true]
    rw [List.take_of_length_le hk.le]
  | case2 f k hvar ih =>
    rw [contractEta, if_neg hvar]
    obtain ⟨tele, p, rfl⟩ : ∃ tele' p, tele = tele' ++ [p] := by
      refine ⟨tele.dropLast, tele.getLast (by rintro rfl; simp at hk),
        (List.dropLast_append_getLast _).symm⟩
    have hk : tele.length = k := by simpa using hk
    have heta : Conv S env M (L.under tele.length) (.lam p.toBinder p.type (.app f (.var 0)))
        (f.shift (-1) 0) := by
      have hf := Term.lift_shift_neg_one (t := f) (by simpa using hvar)
      nth_rewrite 1 [← hf]
      exact .symm .etaFun
    have hlams : Term.lams (tele ++ [p]) (.app f (.var 0)) =
        Term.lams tele (.lam p.toBinder p.type (.app f (.var 0))) := by simp [Term.lams]
    rw [hlams, List.take_append_of_le_length (hk ▸ contractEta_le _ _)]
    exact (Conv.lams heta).trans (ih tele hk)
  | case3 t k h =>
    rw [contractEta.eq_2 _ _ h]
    dsimp only
    rw [List.take_of_length_le hk.le]

theorem over_solutionTele {t : Term} (ht : t.Over S ⊤) (k : ℕ) :
    ∀ p ∈ solutionTele t k, p.type.Over S ⊤ := by
  induction t, k using solutionTele.induct with
  | case1 t => simp
  | case2 x a b k ih => exact List.forall_mem_cons.mpr ⟨ht.1, ih ht.2⟩
  | case3 t k h ih =>
    rw [solutionTele.eq_3 _ _ h]
    refine List.forall_mem_cons.mpr ⟨?_, ih ht⟩
    exact ⟨by simp [Universe.zero, Level.hole?], by simp [Universe.zero, Level.hole?]⟩

@[simp] theorem length_solutionTele (t : Term) (k : ℕ) : (solutionTele t k).length = k := by
  induction t, k using solutionTele.induct with
  | case1 t => rfl
  | case2 x a b k ih => simp [ih]
  | case3 t k h ih => simp [ih]

/-- A shorter solution has the first parameters of a longer one. -/
theorem take_solutionTele {t : Term} {j k : ℕ} (h : j ≤ k) :
    (solutionTele t k).take j = solutionTele t j := by
  induction t, k using solutionTele.induct generalizing j with
  | case1 t =>
    obtain rfl : j = 0 := by simpa using h
    rfl
  | case2 x a b k ih =>
    cases j with
    | zero => rfl
    | succ j => simp [ih (Nat.le_of_succ_le_succ h)]
  | case3 t k hpi ih =>
    cases j with
    | zero => rfl
    | succ j => simp [ih (Nat.le_of_succ_le_succ h)]

theorem over_lams {tele : Telescope Term} {t : Term} (htele : ∀ p ∈ tele, p.type.Over S ⊤)
    (ht : t.Over S ⊤) : (Term.lams tele t).Over S ⊤ := by
  induction tele with
  | nil => exact ht
  | cons p tele ih =>
    obtain ⟨hp, htele⟩ := List.forall_mem_cons.mp htele
    exact ⟨hp, ih htele⟩

/-- The solution of a hole of a type that takes distinct variables for arguments, from its body
under all of them. -/
def patternSolution (type body : Term) (n : ℕ) : Term :=
  Term.lams (solutionTele type (contractEta body n).2) (contractEta body n).1

theorem over_patternSolution {type body : Term} (htype : type.Over S ⊤)
    (hbody : body.Over S ⊤) (n : ℕ) : (patternSolution type body n).Over S ⊤ :=
  over_lams (over_solutionTele htype _) (over_contractEta hbody)

/-- The name of a variable in the body of a solution that takes variables for arguments. -/
def patternName (vars : List ℕ) (i : ℕ) : Option ℕ :=
  (vars.idxOf? i).map fun j => vars.length - 1 - j

theorem over_of_renameFree? {t t' : Term} {f : ℕ → Option ℕ} (ht : t.Over S ⊤)
    (h : t.renameFree? f = some t') : t'.Over S ⊤ := by
  obtain ⟨-, rfl⟩ := Term.renameFree?_eq_some h
  exact ht.inst fun i _ => ENat.natCast_lt_top _

/-- Renaming a term and putting the variables back. -/
theorem inst_patternName {vars : List ℕ} {t t' : Term}
    (h : t.renameFree? (patternName vars) = some t') :
    t'.inst (Term.pushAll (vars.map .var) .var) = t := by
  obtain ⟨hvars, rfl⟩ := Term.renameFree?_eq_some h
  rw [Term.inst_inst]
  refine (Term.inst_congr hvars fun i hi => ?_).trans t.inst_id
  obtain ⟨k, hk⟩ := Option.isSome_iff_exists.mp (by simpa using hi)
  obtain ⟨j, hj, rfl⟩ := Option.map_eq_some_iff.mp hk
  obtain ⟨hlt, hget, -⟩ := List.idxOf?_eq_some_iff.mp hj
  rw [hk, Option.getD_some, Term.inst, Term.pushAll_of_lt (by simp; omega)]
  have hindex : vars.length - 1 - (vars.length - 1 - j) = j := by omega
  simp only [List.length_map, List.getElem_map, hindex, hget]

/-- A hole that has a pattern solution is convertible to the term that the solution is from. -/
theorem conv_patternSolution {m : ℕ} {vars : List ℕ} {args : List Term}
    {type rhs body : Term} (hm : S.hole m)
    (hsol : M.hole m = some (patternSolution type body vars.length))
    (hargs : List.Forall₂ (fun a i => Conv S env M L a (.var i)) args vars) (htype : type.Over S ⊤)
    (hrhs : rhs.Over S ⊤) (hbody : rhs.renameFree? (patternName vars) = some body) :
    Conv S env M L ((Term.hole m).apps args) rhs := by
  have hover : (Term.lams (solutionTele type vars.length) body).Over S ⊤ :=
    over_lams (over_solutionTele htype _) (over_of_renameFree? hrhs hbody)
  have hvars : ∀ a ∈ vars.map Term.var, a.Over S ⊤ :=
    List.forall_mem_map.mpr fun i _ => ENat.natCast_lt_top i
  have hbeta : Conv S env M L _ _ := (Replaceable.beta hover hvars).2 L
  rw [Term.beta_lams (by simp), Term.substAll_eq_inst, inst_patternName hbody] at hbeta
  have heta : Conv S env M L (Term.lams (solutionTele type vars.length) body)
      (patternSolution type body vars.length) := by
    have h : Conv S env M L _ _ := conv_contractEta (solutionTele type vars.length) body
    rwa [length_solutionTele, take_solutionTele (contractEta_le _ _)] at h
  have hhole : Conv S env M L (.hole m) (Term.lams (solutionTele type vars.length) body) :=
    .trans (.step hm (.hole hsol)) heta.symm
  have happs : List.Forall₂ (Conv S env M L) args (vars.map .var) := by
    rw [List.forall₂_map_right_iff]
    exact hargs
  exact (hhole.apps_congr happs).trans hbeta

end Converter

end LeveledTypes
