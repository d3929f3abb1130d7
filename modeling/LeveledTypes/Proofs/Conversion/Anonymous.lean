import LeveledTypes.Proofs.Conversion.Growth
import LeveledTypes.Proofs.Term.Anonymous

/-!
# Stores without names

The store of holes without the names of binders. Every change of a store commutes with forgetting
names, so that stores that differ in names only are taken to such stores by changes that do.
-/
namespace LeveledTypes

def Hole.anonymize (h : Hole) : Hole :=
  { h with type := h.type.anonymize, solution := h.solution.map Term.anonymize }

def Constraint.anonymize (k : Constraint) : Constraint :=
  { k with lhs := k.lhs.anonymize, rhs := k.rhs.anonymize }

/-- Forgets the names of the binders in the terms of a store. -/
def Store.anonymize (s : Store) : Store :=
  { s with holes := s.holes.map Hole.anonymize, constraints :=
    s.constraints.map Constraint.anonymize }

namespace Store
variable {s s' : Store} {t t' : Term} {m : ℕ}

theorem solution?_anonymize (s : Store) (m : ℕ) :
    s.anonymize.solution? m = (s.solution? m).map Term.anonymize := by
  rw [solution?, solution?, anonymize, Array.getElem?_map]
  cases s.holes[m]? <;> rfl

theorem anonymize_assign (s : Store) (m : ℕ) (t : Term) :
    (s.assign m t).anonymize = s.anonymize.assign m t.anonymize := by
  simp only [anonymize, assign, Store.mk.injEq, and_true]
  refine Array.ext_getElem? fun i => ?_
  simp only [Array.getElem?_map, Array.getElem?_modify]
  split
  · cases s.holes[i]? <;> rfl
  · rfl

theorem anonymize_addUniverse (s : Store) (cmp : Comparison) (u v : Universe) (span : Span) :
    s.anonymize.addUniverse cmp u v span =
      ((s.addUniverse cmp u v span).1.anonymize, (s.addUniverse cmp u v span).2) := by
  unfold addUniverse addUniverses
  have hp : s.anonymize.p = s.p := rfl
  have hh : s.anonymize.h = s.h := rfl
  rw [hp, hh]
  split <;> rfl

section Alike
variable (h : s.anonymize = s'.anonymize)

include h

theorem solution?_alike (m : ℕ) :
    (s.solution? m).map Term.anonymize = (s'.solution? m).map Term.anonymize := by
  rw [← solution?_anonymize, h, solution?_anonymize]

theorem isNone_solution?_alike (m : ℕ) : (s.solution? m).isNone = (s'.solution? m).isNone := by
  have hm := congrArg Option.isNone (solution?_alike h m)
  rwa [Option.isNone_map, Option.isNone_map] at hm

theorem size_alike : s.holes.size = s'.holes.size := by
  simpa [anonymize] using congrArg (fun s : Store => s.holes.size) h

theorem levelSolutions_alike : s.levelSolutions = s'.levelSolutions := by
  have hl := congrArg Store.levelSolutions h
  exact hl

/-- The types of holes in stores that differ in names differ in names; a hole that one of them does
not have is missing in the other. -/
theorem holeType_alike (m : ℕ) : (s.holeType m).anonymize = (s'.holeType m).anonymize := by
  have hget : s.holes[m]?.map Hole.anonymize = s'.holes[m]?.map Hole.anonymize := by
    rw [← Array.getElem?_map, ← Array.getElem?_map]
    exact congrArg (fun s : Store => s.holes[m]?) h
  unfold holeType
  cases hm : s.holes[m]? with
  | none =>
    have hm' : s'.holes[m]? = none := by simpa [hm] using hget.symm
    rw [hm']
  | some x =>
    obtain ⟨x', hm', hx⟩ := Option.map_eq_some_iff.mp (hget.symm.trans (congrArg (Option.map _) hm))
    rw [hm']
    exact (congrArg Hole.type hx).symm

theorem assign_alike (ht : t.anonymize = t'.anonymize) (m : ℕ) :
    (s.assign m t).anonymize = (s'.assign m t').anonymize := by
  rw [anonymize_assign, anonymize_assign, h, ht]

theorem zonk_alike (ht : t.anonymize = t'.anonymize) :
    (s.zonk t).anonymize = (s'.zonk t').anonymize := by
  have hsol : (fun m => (s.solution? m).map Term.anonymize) = fun m =>
      (s'.solution? m).map Term.anonymize :=
    funext (solution?_alike h)
  have hlevels : s.levelSolution? = s'.levelSolution? := by
    funext m
    rw [levelSolution?, levelSolution?, levelSolutions_alike h]
  rw [zonk, zonk, Term.anonymize_fillLevels, Term.anonymize_fillLevels, Term.anonymize_fillDeep,
    Term.anonymize_fillDeep, hsol, hlevels, size_alike h, ht]

theorem fresh_alike (ht : t.anonymize = t'.anonymize) (ctx : Telescope Term)
    (kind : HoleKind) (span : Span) : (s.fresh ctx t kind span).1 = (s'.fresh ctx t' kind span).1 ∧
      (s.fresh ctx t kind span).2.anonymize = (s'.fresh ctx t' kind span).2.anonymize := by
  obtain ⟨hholes, hcount, hp, hh, hlevels, hconstraints, hpg, hhg⟩ := Store.mk.inj h
  refine ⟨by simp only [fresh, size_alike h], ?_⟩
  simp only [fresh, anonymize, Store.mk.injEq, Array.map_push, hholes, Hole.anonymize,
    Term.anonymize_pis_congr ctx ht, true_and]
  exact ⟨hcount, hp, hh, hlevels, hconstraints, hpg, hhg⟩

theorem freshUniverse_alike : s.freshUniverse.1 = s'.freshUniverse.1 ∧
    s.freshUniverse.2.anonymize = s'.freshUniverse.2.anonymize := by
  obtain ⟨hholes, hcount, hp, hh, hlevels, hconstraints, hpg, hhg⟩ := Store.mk.inj h
  refine ⟨by simp only [freshUniverse, show s.levelCount = s'.levelCount from hcount], ?_⟩
  simp_all [freshUniverse, anonymize]

theorem addUniverse_alike (cmp : Comparison) (u v : Universe) (span : Span) :
    (s.addUniverse cmp u v span).1.anonymize = (s'.addUniverse cmp u v span).1.anonymize ∧
      (s.addUniverse cmp u v span).2 = (s'.addUniverse cmp u v span).2 := by
  have hadd := anonymize_addUniverse s cmp u v span
  rw [h, anonymize_addUniverse] at hadd
  exact ⟨(congrArg Prod.fst hadd).symm, (congrArg Prod.snd hadd).symm⟩

end Alike

end Store

namespace Converter
variable {t t' body body' : Term}

/-- Eta contraction drops the same abstractions whatever the binders are called. -/
theorem contractEta_anonymize (t : Term) (k : ℕ) :
    contractEta t.anonymize k = ((contractEta t k).1.anonymize, (contractEta t k).2) := by
  induction t, k using contractEta.induct with
  | case1 f k hvar =>
    have hvar' : f.anonymize.hasVar 0 = true := (Term.anyVar_anonymize f _).trans hvar
    rw [contractEta, if_pos hvar]
    simp only [Term.anonymize]
    rw [contractEta, if_pos hvar']
  | case2 f k hvar ih =>
    have hvar' : ¬f.anonymize.hasVar 0 = true :=
      fun h => hvar ((Term.anyVar_anonymize f _).symm.trans h)
    rw [contractEta, if_neg hvar, ← ih, Term.anonymize_shift]
    simp only [Term.anonymize]
    rw [contractEta, if_neg hvar']
  | case3 t k h =>
    rw [contractEta.eq_2 _ _ h, contractEta.eq_2]
    rintro f j ht rfl
    cases t with
    | app g a =>
      cases a with
      | var i => exact h g j (by simpa [Term.anonymize] using (Term.app.inj ht).2) rfl
      | _ => simp [Term.anonymize] at ht
    | _ => simp [Term.anonymize] at ht

/-- Solutions for types that differ in names have as many abstractions. -/
theorem lams_solutionTele_alike (h : t.anonymize = t'.anonymize)
    (hbody : body.anonymize = body'.anonymize) (k : ℕ) :
    (Term.lams (solutionTele t k) body).anonymize =
    (Term.lams (solutionTele t' k) body').anonymize := by
  induction k generalizing t t' with
  | zero => simpa [solutionTele, Term.lams] using hbody
  | succ k ih =>
    cases Term.alike h with
    | pi hx ha hb =>
      simp only [solutionTele, Term.lams, List.foldr_cons, Term.anonymize,
        Binder.anonymize_eq_iff.mpr hx, ha]
      exact congrArg _ (ih hb)
    | _ => exact congrArg (Term.lam (Binder.named "x").anonymize (.univ .zero)) (ih h)

theorem patternSolution_alike {n : ℕ} (h : t.anonymize = t'.anonymize)
    (hbody : body.anonymize = body'.anonymize) :
    (patternSolution t body n).anonymize = (patternSolution t' body' n).anonymize := by
  have heta := contractEta_anonymize body n
  rw [hbody, contractEta_anonymize] at heta
  obtain ⟨hcontract, hcount⟩ := Prod.mk.inj heta
  rw [patternSolution, patternSolution, hcount]
  exact lams_solutionTele_alike h hcontract.symm _

end Converter

end LeveledTypes
