import LeveledTypes.Proofs.Term.Filling
import LeveledTypes.Proofs.Term.Names

/-!
# Terms without names

Forgetting the names of binders commutes with substitution, with filling holes, and with renaming.
So what is made of terms that differ in names only, with solutions that do so too, differs in names
only.
-/
namespace LeveledTypes.Term
variable {t t' : Term}

theorem anonymize_replaceVars (t : Term) (f : ℕ → ℕ → Term) :
    (t.replaceVars f).anonymize = t.anonymize.replaceVars fun c i => (f c i).anonymize :=
  anonymize_replace t 0

theorem anonymize_shift (t : Term) (distance : ℤ) (cutoff : ℕ) :
    (t.shift distance cutoff).anonymize = t.anonymize.shift distance cutoff := by
  unfold shift
  split
  case isTrue => rfl
  case isFalse =>
    rw [anonymize_replaceVars]
    congr 1
    funext c i
    split <;> rfl

theorem anonymize_lift (t : Term) (n : ℕ) : (t.lift n).anonymize = t.anonymize.lift n :=
  anonymize_shift t n 0

theorem anonymize_subst (t a : Term) : (t.subst a).anonymize = t.anonymize.subst a.anonymize := by
  unfold subst substAt
  rw [anonymize_replaceVars]
  congr 1
  funext c i
  split
  · rfl
  · split
    · exact anonymize_lift a _
    · rfl

theorem anonymize_beta (t : Term) (args : List Term) :
    (t.beta args).anonymize = t.anonymize.beta (args.map anonymize) := by
  induction t, args using Term.beta.induct with
  | case1 t => simp [beta]
  | case2 x d b a args ih => rw [beta, ih, anonymize_subst, anonymize, List.map_cons, beta]
  | case3 t args hnil hlam =>
    rw [beta.eq_3 _ _ (by simpa using hnil) (by simpa using hlam), anonymize_apps]
    cases t with
    | lam x d b =>
      cases args with
      | nil => exact absurd rfl hnil
      | cons a args => exact absurd rfl (hlam x d b a args rfl)
    | _ => rw [anonymize, beta.eq_3 _ _ (by simpa using hnil) (by simp)]

/-- Names are taken off before or after holes are filled, and off the solutions as well. -/
theorem anonymize_fillWith (sol : ℕ → Option Term) (t : Term) (args : List Term) :
    (t.fillWith sol args).anonymize = t.anonymize.fillWith (fun m => (sol m).map anonymize)
    (args.map anonymize) := by
  induction t generalizing args with
  | hole m =>
    simp only [anonymize, fillWith]
    cases sol m with
    | none => exact anonymize_apps _ args
    | some s => exact anonymize_beta s args
  | univ | var | ref | nat | zero | interval | left | right =>
    simp only [fillWith, anonymize, anonymize_apps]
  | _ =>
    simp only [fillWith, anonymize, anonymize_apps]
    congr 1
    simp_all [anonymizeBranch]

/-- Names may be taken off before solutions are filled into each other. -/
theorem anonymize_fillDeep (sol : ℕ → Option Term) (n : ℕ) (t : Term) :
    (t.fillDeep sol n).anonymize = t.anonymize.fillDeep (fun m => (sol m).map anonymize) n := by
  induction n generalizing t with
  | zero => rfl
  | succ n ih =>
    have hsol : (fun m => ((sol m).map (fillDeep sol n)).map anonymize) =
        fun m => ((sol m).map anonymize).map (fillDeep (fun m => (sol m).map anonymize) n) := by
      funext m
      cases sol m with
      | none => rfl
      | some s => exact congrArg some (ih s)
    rw [fillDeep, fill, anonymize_fillWith, hsol]
    rfl

theorem anonymize_fillLevels (sol : ℕ → Option Level) (t : Term) :
    (t.fillLevels sol).anonymize = t.anonymize.fillLevels sol :=
  anonymize_replace t 0

theorem anyVar_anonymize (t : Term) (p : ℕ → Bool) : t.anonymize.anyVar p = t.anyVar p :=
  anyVarFrom_anonymize t p 0

theorem anonymize_renameFree? (t : Term) (f : ℕ → Option ℕ) :
    (t.renameFree? f).map anonymize = t.anonymize.renameFree? f := by
  unfold renameFree?
  rw [anyVar_anonymize]
  split
  · rfl
  · rw [Option.map_some, anonymize_replaceVars]
    congr 2
    funext c i
    split <;> rfl

theorem mem_holes_alike (h : t.anonymize = t'.anonymize) (m : ℕ) : m ∈ t.holes ↔ m ∈ t'.holes := by
  rw [mem_holes_iff, mem_holes_iff, ← hole_mem_subterms_anonymize, h, hole_mem_subterms_anonymize]

theorem same_alike {u u' : Term} (h : t.anonymize = t'.anonymize)
    (hu : u.anonymize = u'.anonymize) : t.same u = t'.same u' := by
  rw [Bool.eq_iff_iff, same_iff, same_iff, h, hu]

theorem headHole?_alike (h : t.anonymize = t'.anonymize) : t.headHole? = t'.headHole? := by
  have hhead : t.head.anonymize = t'.head.anonymize := (spineWith_alike h rfl).1
  unfold headHole?
  generalize t.head = a, t'.head = b at hhead
  cases alike hhead <;> rfl

theorem anonymize_pis_congr (tele : Telescope Term) (h : t.anonymize = t'.anonymize) :
    (pis tele t).anonymize = (pis tele t').anonymize := by
  induction tele with
  | nil => exact h
  | cons p tele ih => exact congrArg (pi p.toBinder.anonymize p.type.anonymize) ih

end LeveledTypes.Term
