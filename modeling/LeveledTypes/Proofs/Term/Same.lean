import LeveledTypes.Proofs.Term.Instantiation
import Std.Data.HashMap.Lemmas

/-!
# Terms up to the names of binders

Two terms are the same if they are equal once all names of binders are forgotten. So `Term.same` is
an equivalence, and `Term.hash` respects it: a hash map with terms for keys is one with classes of
terms for keys.
-/
namespace LeveledTypes

/-- The binder without the variable. -/
def Binder.anonymize (x : Binder) : Binder := ⟨default, x.info⟩

theorem Binder.anonymize_eq_iff {x y : Binder} : x.anonymize = y.anonymize ↔ x.info = y.info := by
  simp [anonymize]

namespace Term

mutual

/-- Forgets the names of all binders. -/
def anonymize : Term → Term
  | .lam x a b => .lam x.anonymize (anonymize a) (anonymize b)
  | .pi x a b => .pi x.anonymize (anonymize a) (anonymize b)
  | .app f a => .app (anonymize f) (anonymize a)
  | .letIn x t a b => .letIn x.anonymize (anonymize t) (anonymize a) (anonymize b)
  | .sigma x a b => .sigma x.anonymize (anonymize a) (anonymize b)
  | .pair a b => .pair (anonymize a) (anonymize b)
  | .proj a s => .proj (anonymize a) s
  | .data n u ps => .data n u (anonymizeAll ps)
  | .con n u ps xs => .con n u (anonymizeAll ps) (anonymizeAll xs)
  | .case a m bs => .case (anonymize a) (anonymize m) (anonymizeBranches bs)
  | .record n u ps => .record n u (anonymizeAll ps)
  | .new n u ps xs => .new n u (anonymizeAll ps) (anonymizeAll xs)
  | .field a n i => .field (anonymize a) n i
  | .succ a => .succ (anonymize a)
  | .natRec m z s t => .natRec (anonymize m) (anonymize z) (anonymize s) (anonymize t)
  | .path a x y => .path (anonymize a) (anonymize x) (anonymize y)
  | .pathLam f => .pathLam (anonymize f)
  | .at l r p i => .at (anonymize l) (anonymize r) (anonymize p) (anonymize i)
  | .univ u => .univ u
  | .var i => .var i
  | .ref n u => .ref n u
  | .hole m => .hole m
  | .nat => .nat
  | .zero => .zero
  | .interval => .interval
  | .left => .left
  | .right => .right

def anonymizeAll : List Term → List Term
  | [] => []
  | t :: ts => anonymize t :: anonymizeAll ts

def anonymizeBranches : List (Branch Term) → List (Branch Term)
  | [] => []
  | ⟨h, ns, b⟩ :: bs => ⟨h, ns.map fun _ => "", anonymize b⟩ :: anonymizeBranches bs

end

@[simp] theorem anonymizeAll_eq_map (ts : List Term) : anonymizeAll ts = ts.map anonymize := by
  induction ts with
  | nil => rfl
  | cons t ts ih => simp [anonymizeAll, ih]

/-- The branch without the names of its variables. -/
def anonymizeBranch (b : Branch Term) : Branch Term :=
  ⟨b.head, b.names.map fun _ => "", b.body.anonymize⟩

@[simp] theorem anonymizeBranches_eq_map (bs : List (Branch Term)) :
    anonymizeBranches bs = bs.map anonymizeBranch := by
  induction bs with
  | nil => rfl
  | cons b bs ih => simp [anonymizeBranches, anonymizeBranch, ih]

theorem sameAll_iff {as bs : List Term} (ih : ∀ a ∈ as, ∀ b, a.same b = true ↔
    a.anonymize = b.anonymize) : sameAll as bs = true ↔ as.map anonymize = bs.map anonymize := by
  induction as generalizing bs with
  | nil => cases bs <;> simp [sameAll]
  | cons a as ih' =>
    obtain ⟨ha, has⟩ := List.forall_mem_cons.mp ih
    cases bs with
    | nil => simp [sameAll]
    | cons b bs => simp [sameAll, ha, ih' has]

/-- Branches are the same if their heads, their numbers of binders and their bodies without names
are. -/
theorem sameBranches_iff {as bs : List (Branch Term)}
    (ih : ∀ a ∈ as, ∀ b, a.body.same b = true ↔ a.body.anonymize = b.anonymize) :
    sameBranches as bs = true ↔ as.map anonymizeBranch = bs.map anonymizeBranch := by
  induction as generalizing bs with
  | nil => cases bs <;> simp [sameBranches]
  | cons a as ih' =>
    obtain ⟨ha, has⟩ := List.forall_mem_cons.mp ih
    cases bs with
    | nil => simp [sameBranches]
    | cons b bs => simp [sameBranches, anonymizeBranch, ha, ih' has, and_assoc]

attribute [local simp] anonymize hash

/-- Two terms are the same if they are equal without their names. The induction is on the first
term, with one case for each form. -/
theorem same_iff {a b : Term} : a.same b = true ↔ a.anonymize = b.anonymize := by
  -- Both sides are evaluated, as the equations of `same` would be about all pairs of constructors.
  induction a generalizing b with
  | nat | zero | interval | left | right =>
    cases b <;> try exact iff_of_false Bool.false_ne_true fun h => Term.noConfusion h
    exact iff_of_true rfl rfl
  | univ _ | var _ | hole _ =>
    cases b <;> try exact iff_of_false Bool.false_ne_true fun h => Term.noConfusion h
    change (_ == _) = true ↔ _
    simp
  | ref _ _ =>
    cases b <;> try exact iff_of_false Bool.false_ne_true fun h => Term.noConfusion h
    change (_ == _ && _ == _) = true ↔ _
    simp
  | succ _ ih | pathLam _ ih =>
    cases b <;> try exact iff_of_false Bool.false_ne_true fun h => Term.noConfusion h
    refine ih.trans ?_
    simp
  | app _ _ iha ihb | pair _ _ iha ihb =>
    cases b <;> try exact iff_of_false Bool.false_ne_true fun h => Term.noConfusion h
    change (same _ _ && same _ _) = true ↔ _
    simp [iha, ihb]
  | lam _ _ _ iha ihb | pi _ _ _ iha ihb | sigma _ _ _ iha ihb =>
    cases b <;> try exact iff_of_false Bool.false_ne_true fun h => Term.noConfusion h
    change (_ == _ && same _ _ && same _ _) = true ↔ _
    simp [Binder.anonymize_eq_iff, iha, ihb, and_assoc]
  | letIn _ _ _ _ iht iha ihb =>
    cases b <;> try exact iff_of_false Bool.false_ne_true fun h => Term.noConfusion h
    change (_ == _ && same _ _ && same _ _ && same _ _) = true ↔ _
    simp [Binder.anonymize_eq_iff, iht, iha, ihb, and_assoc]
  | proj _ _ ih =>
    cases b <;> try exact iff_of_false Bool.false_ne_true fun h => Term.noConfusion h
    change (same _ _ && _ == _) = true ↔ _
    simp [ih]
  | field _ _ _ ih =>
    cases b <;> try exact iff_of_false Bool.false_ne_true fun h => Term.noConfusion h
    change (same _ _ && _ == _ && _ == _) = true ↔ _
    simp [ih, and_assoc]
  | data _ _ _ ih | record _ _ _ ih =>
    cases b <;> try exact iff_of_false Bool.false_ne_true fun h => Term.noConfusion h
    change (_ == _ && _ == _ && sameAll _ _) = true ↔ _
    simp [sameAll_iff fun p hp _ => ih p hp, and_assoc]
  | con _ _ _ _ ihp ihx | new _ _ _ _ ihp ihx =>
    cases b <;> try exact iff_of_false Bool.false_ne_true fun h => Term.noConfusion h
    change (_ == _ && _ == _ && sameAll _ _ && sameAll _ _) = true ↔ _
    simp [sameAll_iff fun p hp _ => ihp p hp, sameAll_iff fun x hx _ => ihx x hx, and_assoc]
  | case _ _ _ iha ihm ihb =>
    cases b <;> try exact iff_of_false Bool.false_ne_true fun h => Term.noConfusion h
    change (same _ _ && same _ _ && sameBranches _ _) = true ↔ _
    simp [iha, ihm, sameBranches_iff fun b hb _ => ihb b hb, and_assoc]
  | path _ _ _ iha ihx ihy =>
    cases b <;> try exact iff_of_false Bool.false_ne_true fun h => Term.noConfusion h
    change (same _ _ && same _ _ && same _ _) = true ↔ _
    simp [iha, ihx, ihy, and_assoc]
  | natRec _ _ _ _ iha ihb ihc ihd | point _ _ _ _ iha ihb ihc ihd =>
    cases b <;> try exact iff_of_false Bool.false_ne_true fun h => Term.noConfusion h
    change (same _ _ && same _ _ && same _ _ && same _ _) = true ↔ _
    simp [iha, ihb, ihc, ihd, and_assoc]

@[simp] theorem same_refl (t : Term) : t.same t = true := by
  rw [same_iff]

theorem same_symm {a b : Term} (h : a.same b = true) : b.same a = true := by
  rw [same_iff] at h ⊢
  exact h.symm

theorem same_trans {a b c : Term} (hab : a.same b = true) (hbc : b.same c = true) :
    a.same c = true := by
  rw [same_iff] at hab hbc ⊢
  exact hab.trans hbc

theorem hashAll_map {ts : List Term} (ih : ∀ t ∈ ts, t.anonymize.hash = t.hash) :
    hashAll (ts.map anonymize) = hashAll ts := by
  induction ts with
  | nil => rfl
  | cons t ts ih' =>
    obtain ⟨ht, hts⟩ := List.forall_mem_cons.mp ih
    simp [hashAll, ht, ih' hts]

theorem hashBranches_map {bs : List (Branch Term)}
    (ih : ∀ b ∈ bs, b.body.anonymize.hash = b.body.hash) :
    hashBranches (bs.map anonymizeBranch) = hashBranches bs := by
  induction bs with
  | nil => rfl
  | cons b bs ih' =>
    obtain ⟨hb, hbs⟩ := List.forall_mem_cons.mp ih
    simp [hashBranches, anonymizeBranch, hb, ih' hbs]

theorem hash_anonymize (t : Term) : t.anonymize.hash = t.hash := by
  induction t <;> simp_all [Binder.anonymize, hashAll_map, hashBranches_map]

theorem beq_iff {a b : Term} : (a == b) = true ↔ a.anonymize = b.anonymize := same_iff

instance : EquivBEq Term where
  rfl := same_refl _
  symm := same_symm
  trans := same_trans

instance : LawfulHashable Term where
  hash_eq a b h := by
    change a.hash = b.hash
    rw [← hash_anonymize a, ← hash_anonymize b, beq_iff.mp h]

end Term

end LeveledTypes
