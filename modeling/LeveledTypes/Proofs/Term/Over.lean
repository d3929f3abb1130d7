import LeveledTypes.Proofs.Term.Instantiation
import LeveledTypes.Proofs.Term.Same
import LeveledTypes.Proofs.Term.Subterms

/-!
# Terms over a signature

A signature says which globals, holes and level holes a term may mention, how many arguments
constructors have, whether paths may be introduced and eliminated, and the classes whose instances a
term may build, with their numbers of fields. A term over a signature has bounded free variables
too. Instantiation stays within a signature.
-/
namespace LeveledTypes

/-- What terms may be built from. -/
structure Signature where
  global : GlobalName → Prop
  hole : ℕ → Prop
  /-- The level holes that may stand in the first level of a universe, and those that may stand in
  the second one. -/
  first : ℕ → Prop
  second : ℕ → Prop
  /-- The number of arguments of a constructor. -/
  arity : GlobalName → ℕ
  paths : Prop
  /-- The numbers of fields that an instance of a class may be built from. -/
  record : GlobalName → ℕ → Prop

namespace Signature

/-- The same signature without holes for terms. -/
def ground (S : Signature) : Signature := { S with hole := fun _ => False }

/-- The number of variables of a branch. -/
def headArity (S : Signature) : BranchHead → ℕ
  | .con c => S.arity c
  | .zero => 0
  | .succ => 1

/-- The level holes of the universe may stand where they do. -/
def Admits (S : Signature) (u : Universe) : Prop :=
  (∀ m, u.p.hole? = some m → S.first m) ∧ ∀ m, u.h.hole? = some m → S.second m

end Signature

theorem Level.hole?_ofVar (v : LevelVar) (add floor : ℕ) :
    (ofVar v add floor).hole? = (Level.var v 0 0).hole? := by
  cases v <;> rfl

/-- A hole of a substituted level comes from one of the two levels. -/
theorem Level.hole?_subst_param {l r : Level} {m : ℕ} (h : (l.subst .param r).hole? = some m) :
    l.hole? = some m ∨ r.hole? = some m := by
  cases l with
  | const n => exact .inl h
  | top => exact .inl h
  | var v add floor =>
    cases v with
    | hole k => exact .inl h
    | param =>
      cases r with
      | const c => simp [subst, hole?] at h
      | top => simp [subst, hole?] at h
      | var w a f =>
        rw [subst, if_pos rfl, hole?_ofVar] at h
        cases w with
        | param => simp [hole?] at h
        | hole k => exact .inr h

theorem Signature.Admits.subst {S : Signature} {u s : Universe} (hu : S.Admits u)
    (hs : S.Admits s) : S.Admits (u.subst s) :=
  ⟨fun m hm => (Level.hole?_subst_param hm).elim (hu.1 m) (hs.1 m),
    fun m hm => (Level.hole?_subst_param hm).elim (hu.2 m) (hs.2 m)⟩

namespace Term

/-- What a signature says about the root of a term with free variables below a bound. -/
def Allowed (S : Signature) (n : ℕ∞) : Term → Prop
  | .var i => i < n
  | .hole m => S.hole m
  | .ref c u => S.global c ∧ S.Admits u
  | .univ u | .data _ u _ | .record _ u _ => S.Admits u
  | .con c u _ xs => xs.length = S.arity c ∧ S.Admits u
  | .case _ _ bs => ∀ b ∈ bs, b.arity = S.headArity b.head
  | .new c u _ fs => S.record c fs.length ∧ S.Admits u
  | .pathLam _ | .at _ _ _ _ => S.paths
  | _ => True

mutual

/-- The term is built over the signature, and its free variables are below the bound. -/
@[simp] def Over (S : Signature) (n : ℕ∞) : Term → Prop
  | .univ u => S.Admits u
  | .var i => i < n
  | .ref c u => S.global c ∧ S.Admits u
  | .hole m => S.hole m
  | .lam _ a b | .pi _ a b | .sigma _ a b => Over S n a ∧ Over S (n + 1) b
  | .app a b | .pair a b => Over S n a ∧ Over S n b
  | .letIn _ t a b => Over S n t ∧ Over S n a ∧ Over S (n + 1) b
  | .proj a _ | .field a _ _ | .succ a => Over S n a
  | .data _ u ps | .record _ u ps => S.Admits u ∧ OverAll S n ps
  | .con c u ps xs => xs.length = S.arity c ∧ S.Admits u ∧ OverAll S n ps ∧ OverAll S n xs
  | .case a m bs => (∀ b ∈ bs, b.arity = S.headArity b.head) ∧ Over S n a ∧ Over S (n + 1) m ∧
    OverBranches S n bs
  | .new c u ps fs => S.record c fs.length ∧ S.Admits u ∧ OverAll S n ps ∧ OverAll S n fs
  | .nat | .zero | .interval | .left | .right => True
  | .natRec m z s t => Over S n m ∧ Over S n z ∧ Over S n s ∧ Over S n t
  | .path a x y => Over S n a ∧ Over S n x ∧ Over S n y
  | .pathLam f => S.paths ∧ Over S n f
  | .at l r p i => S.paths ∧ Over S n l ∧ Over S n r ∧ Over S n p ∧ Over S n i

def OverAll (S : Signature) (n : ℕ∞) : List Term → Prop
  | [] => True
  | t :: ts => Over S n t ∧ OverAll S n ts

def OverBranches (S : Signature) (n : ℕ∞) : List (Branch Term) → Prop
  | [] => True
  | ⟨_, ns, b⟩ :: bs => Over S (n + ns.length) b ∧ OverBranches S n bs

end

variable {S : Signature} {n m : ℕ∞}

@[simp] theorem overAll_iff {ts : List Term} : OverAll S n ts ↔ ∀ t ∈ ts, t.Over S n := by
  induction ts with
  | nil => simp [OverAll]
  | cons t ts ih => simp [OverAll, ih]

@[simp] theorem overBranches_iff {bs : List (Branch Term)} :
    OverBranches S n bs ↔ ∀ b ∈ bs, b.body.Over S (n + b.arity) := by
  induction bs with
  | nil => simp [OverBranches]
  | cons b bs ih => simp [OverBranches, ih, Branch.arity]

attribute [local simp] Allowed

/-- A term is over a signature if its root is allowed and its parts are over the signature. -/
theorem over_iff {t : Term} : t.Over S n ↔ t.Allowed S n ∧ ∀ p ∈ t.parts, p.2.Over S (n + p.1) := by
  cases t <;> simp [parts, or_imp, forall_and, and_assoc]

section Replace
variable {f : ℕ → ℕ → Term} {g : Universe → Universe}

theorem add_cast_succ {a : ℕ∞} {c : ℕ} (k : ℕ) (h : a = n + c) : a + k = n + ↑(c + k) := by
  rw [h, Nat.cast_add, add_assoc]

theorem parts_replace {t : Term} (c : ℕ) (ht : ∀ i, t ≠ .var i) :
    (t.replace f g c).parts = t.parts.map fun p => (p.1, p.2.replace f g (c + p.1)) := by
  cases t <;> simp_all [parts, Term.replace, Branch.arity, Function.comp_def]

theorem Allowed.replace {t : Term} {c : ℕ} (h : t.Allowed S n) (ht : ∀ i, t ≠ .var i)
    (hg : ∀ u, S.Admits u → S.Admits (g u)) : (t.replace f g c).Allowed S m := by
  cases t <;> simp_all [Term.replace, Branch.arity]

/-- Replacing variables and universes stays over a signature if what is put for them is over it. -/
theorem Over.replace {t : Term} {c : ℕ} {a b : ℕ∞} (ht : t.Over S a) (ha : a = n + c)
    (hb : b = m + c) (hf : ∀ (c i : ℕ), i < n + c → (f c i).Over S (m + c)) (hg : ∀ u, S.Admits u →
      S.Admits (g u)) :
    (t.replace f g c).Over S b := by
  induction t using induct_parts generalizing c a b with
  | step t ih =>
    rw [over_iff] at ht
    obtain ⟨h, hp⟩ := ht
    by_cases hv : ∃ i, t = .var i
    · obtain ⟨i, rfl⟩ := hv
      exact hb ▸ hf c i (ha ▸ h)
    · push Not at hv
      rw [over_iff]
      refine ⟨h.replace hv hg, ?_⟩
      rw [parts_replace c hv]
      rintro q hq
      obtain ⟨p, hpt, rfl⟩ := List.mem_map.mp hq
      exact ih p hpt (hp p hpt) (add_cast_succ p.1 ha) (add_cast_succ p.1 hb)

theorem Over.replaceVars {t : Term} (ht : t.Over S n) (hf : ∀ (c i : ℕ), i < n + c →
    (f c i).Over S (m + c)) : (t.replaceVars f).Over S m :=
  ht.replace (by simp) (by simp) hf fun _ => id

end Replace

theorem Over.mono {t : Term} (ht : t.Over S n) (hnm : n ≤ m) : t.Over S m := by
  have h := ht.replaceVars (m := m) (f := fun _ i => .var i) fun c i hi =>
    lt_of_lt_of_le hi (by gcongr)
  rwa [Term.replaceVars, replace_id] at h

theorem Over.top {t : Term} (ht : t.Over S n) : t.Over S ⊤ := ht.mono le_top

theorem Over.lift {t : Term} (ht : t.Over S n) (k : ℕ) : (t.lift k).Over S (n + k) := by
  rw [lift_eq_replaceVars]
  refine ht.replaceVars fun c i hi => ?_
  split
  · rw [Over, Nat.cast_add, add_right_comm]
    exact (ENat.add_lt_add_iff_right (ENat.natCast_ne_top k)).mpr hi
  · rw [Over]
    exact lt_of_lt_of_le (Nat.cast_lt.mpr (by omega)) (le_add_left le_rfl)

theorem Over.inst {t : Term} {σ : ℕ → Term} (ht : t.Over S n) (hσ : ∀ i : ℕ, i < n →
    (σ i).Over S m) : (t.inst σ).Over S m := by
  rw [inst_eq_replaceVars]
  refine ht.replaceVars fun c i hi => ?_
  by_cases h : i < c
  · rw [up_of_lt h, Over]
    exact lt_of_lt_of_le (Nat.cast_lt.mpr h) (le_add_left le_rfl)
  · obtain ⟨k, rfl⟩ := Nat.exists_eq_add_of_le' (show c ≤ i by omega)
    rw [up_of_le (by omega), Nat.add_sub_cancel]
    refine (hσ k ?_).lift c
    rw [Nat.cast_add] at hi
    exact lt_of_add_lt_add_right hi

theorem Over.subst {t r : Term} (ht : t.Over S (n + 1)) (hr : r.Over S n) :
    (t.subst r).Over S n := by
  rw [subst_eq_inst]
  refine ht.inst fun i hi => ?_
  cases i with
  | zero => exact hr
  | succ i =>
    rw [Nat.cast_succ] at hi
    exact lt_of_add_lt_add_right hi

theorem Over.substAll {t : Term} {as : List Term} (ht : t.Over S (n + as.length))
    (has : ∀ a ∈ as, a.Over S n) : (t.substAll as).Over S n := by
  rw [substAll_eq_inst]
  refine ht.inst fun i hi => ?_
  rw [pushAll]
  cases ha : as.reverse[i]? with
  | some a => exact has a (by simpa using List.mem_of_getElem? ha)
  | none =>
    obtain ⟨k, rfl⟩ := Nat.exists_eq_add_of_le' (show as.length ≤ i by simpa using ha)
    rw [Nat.cast_add] at hi
    simpa using lt_of_add_lt_add_right hi

theorem Over.substLevels {t : Term} {u : Universe} (ht : t.Over S n) (hu : S.Admits u) :
    (t.substLevels u).Over S n := by
  unfold Term.substLevels
  split
  · exact ht
  · exact ht.replace (n := n) (m := n) (by simp) (by simp) (fun _ _ => id) fun _ h => h.subst hu

theorem anyVarFrom_eq_any_parts {t : Term} {p : ℕ → Bool} (c : ℕ) (ht : ∀ i, t ≠ .var i) :
    t.anyVarFrom p c = t.parts.any fun q => q.2.anyVarFrom p (c + q.1) := by
  cases t <;> simp_all [parts, anyVarFrom, Bool.or_assoc, Function.comp_def]

/-- A term over a signature has no free variable at or above the bound. -/
theorem Over.anyVarFrom_eq_false {t : Term} {n c : ℕ} {a : ℕ∞} (ht : t.Over S a)
    (ha : a = ↑(n + c)) : t.anyVarFrom (fun i => decide (n ≤ i)) c = false := by
  induction t using induct_parts generalizing c a with
  | step t ih =>
    subst ha
    rw [over_iff] at ht
    obtain ⟨h, hp⟩ := ht
    by_cases hv : ∃ i, t = .var i
    · obtain ⟨i, rfl⟩ := hv
      have hi : i < n + c := by
        rw [Allowed] at h
        exact_mod_cast h
      simp only [Term.anyVarFrom, Bool.and_eq_false_iff, decide_eq_false_iff_not]
      omega
    · push Not at hv
      rw [anyVarFrom_eq_any_parts c hv, List.any_eq_false]
      intro p hpt
      rw [ih p hpt (hp p hpt) (by push_cast; rw [add_assoc])]
      simp

/-- A term without variables above a bound is over the signature at that bound. -/
theorem Over.of_anyVarFrom {t : Term} {a : ℕ∞} {c : ℕ} (ht : t.Over S a)
    (h : t.anyVarFrom (fun _ => true) c = false) : t.Over S c := by
  induction t using induct_parts generalizing a c with
  | step t ih =>
    rw [over_iff] at ht
    obtain ⟨ha, hp⟩ := ht
    by_cases hv : ∃ i, t = .var i
    · obtain ⟨i, rfl⟩ := hv
      rw [over_iff]
      exact ⟨by simpa [anyVarFrom] using h, by simp [parts]⟩
    · push Not at hv
      rw [over_iff]
      refine ⟨by cases t <;> simp_all, fun p hpt => ?_⟩
      rw [anyVarFrom_eq_any_parts c hv, List.any_eq_false] at h
      exact_mod_cast ih p hpt (hp p hpt) (by simpa using h p hpt)

/-- A term without holes is over the signature that has none. -/
theorem Over.ground_of_subterms {t : Term} (ht : t.Over S n) (h : ∀ m, hole m ∉ t.subterms) :
    t.Over S.ground n := by
  induction t using induct_parts generalizing n with
  | step t ih =>
    rw [over_iff] at ht
    obtain ⟨ha, hp⟩ := ht
    simp only [subterms_eq t, List.mem_cons, List.mem_flatMap, not_or, not_exists, not_and] at h
    rw [over_iff]
    refine ⟨?_, fun p hpt => ih p hpt (hp p hpt) fun m => (h m).2 p hpt⟩
    cases t with
    | hole m => exact absurd rfl (h m).1
    | _ => exact ha

theorem Over.hole_of_mem_subterms {t : Term} {m : ℕ} (ht : t.Over S n) (h : hole m ∈ t.subterms) :
    S.hole m := by
  induction t using induct_parts generalizing n with
  | step t ih =>
    rw [over_iff] at ht
    obtain ⟨ha, hp⟩ := ht
    rw [subterms_eq, List.mem_cons, List.mem_flatMap] at h
    rcases h with rfl | ⟨p, hpt, h⟩
    · exact ha
    · exact ih p hpt (hp p hpt) h

/-- A term with the bound zero is closed. -/
theorem Over.isClosed_eq_true {t : Term} (ht : t.Over S 0) : t.isClosed = true := by
  have h := ht.anyVarFrom_eq_false (n := 0) (c := 0) (by simp)
  simpa [Term.isClosed, Term.anyVar] using h

theorem Over.hasHole_eq_false {t : Term} (ht : t.Over S n) (hS : ∀ m, ¬S.hole m) :
    t.hasHole = false := by
  rw [Bool.eq_false_iff, ne_eq, hasHole_eq_true_iff]
  rintro ⟨m, hm⟩
  exact hS m (ht.hole_of_mem_subterms hm)

/-- A signature that allows more. -/
theorem Over.of_allowed {S' : Signature} {t : Term} (ht : t.Over S n)
    (h : ∀ (t : Term) (n : ℕ∞), t.Allowed S n → t.Allowed S' n) : t.Over S' n := by
  induction t using induct_parts generalizing n with
  | step t ih =>
    rw [over_iff] at ht
    obtain ⟨ha, hp⟩ := ht
    rw [over_iff]
    exact ⟨h t n ha, fun p hpt => ih p hpt (hp p hpt)⟩

theorem Over.of_ground {t : Term} (ht : t.Over S.ground n) : t.Over S n := by
  refine ht.of_allowed fun t n ha => ?_
  cases t with
  | hole m => exact ha.elim
  | _ => exact ha

/-- A closed term without holes is one over the signature without holes. -/
theorem Over.ground {t : Term} (ht : t.Over S n) (hc : t.isClosed = true) (hh : t.hasHole = false) :
    t.Over S.ground 0 := by
  rw [isClosed, Bool.not_eq_true', anyVar] at hc
  refine (ht.of_anyVarFrom hc).ground_of_subterms fun m hm => ?_
  rw [hasHole_eq_true_iff.mpr ⟨m, hm⟩] at hh
  contradiction

theorem parts_anonymize (t : Term) :
    t.anonymize.parts = t.parts.map fun p => (p.1, p.2.anonymize) := by
  cases t <;> simp [anonymize, parts, anonymizeBranch, Branch.arity, Function.comp_def]

theorem allowed_anonymize {t : Term} : t.anonymize.Allowed S n ↔ t.Allowed S n := by
  cases t <;> simp [anonymize, anonymizeBranch, Branch.arity]

theorem over_anonymize {t : Term} : t.anonymize.Over S n ↔ t.Over S n := by
  induction t using induct_parts generalizing n with
  | step t ih =>
    rw [over_iff, over_iff, allowed_anonymize, parts_anonymize, List.forall_mem_map]
    exact and_congr_right fun _ => forall₂_congr fun p hp => ih p hp

theorem Over.of_same {t t' : Term} (ht : t.Over S n) (h : t.same t' = true) : t'.Over S n := by
  rwa [← over_anonymize, ← same_iff.mp h, over_anonymize]

@[simp] theorem apps_nil (f : Term) : f.apps [] = f := rfl

@[simp] theorem apps_cons (f a : Term) (as : List Term) : f.apps (a :: as) =
    (app f a).apps as := rfl

theorem apps_append (f : Term) (as bs : List Term) : f.apps (as ++ bs) = (f.apps as).apps bs :=
  List.foldl_append

theorem over_apps {f : Term} {as : List Term} :
    (f.apps as).Over S n ↔ f.Over S n ∧ ∀ a ∈ as, a.Over S n := by
  induction as generalizing f with
  | nil => simp
  | cons a as ih => simp [ih, and_assoc]

theorem apps_spineWith (t : Term) (as : List Term) :
    (t.spineWith as).1.apps (t.spineWith as).2 = t.apps as := by
  induction t generalizing as with
  | app f a ihf iha => rw [spineWith, ihf, apps_cons]
  | _ => rfl

theorem spineWith_apps (f : Term) (as bs : List Term) :
    (f.apps as).spineWith bs = f.spineWith (as ++ bs) := by
  induction as generalizing f with
  | nil => rfl
  | cons a as ih => exact ih (.app f a)

/-- A term is its head applied to its arguments. -/
theorem apps_spine (t : Term) : t.spine.1.apps t.spine.2 = t := apps_spineWith t []

theorem fst_spineWith (t : Term) (args : List Term) : (t.spineWith args).1 = t.head := by
  have h (as bs : List Term) : (t.spineWith as).1 = (t.spineWith bs).1 := by
    induction t generalizing as bs with
    | app f a ihf => exact ihf _ _
    | _ => rfl
  exact h _ _

@[simp] theorem head_apps (t : Term) (args : List Term) : (t.apps args).head = t.head := by
  rw [head, spine, spineWith_apps, fst_spineWith]

theorem head_eq_self {t : Term} (happ : ∀ f a, t ≠ .app f a) : t.head = t := by
  cases t <;> first | rfl | exact absurd rfl (happ _ _)

theorem head_ne_app (t f a : Term) : t.head ≠ .app f a := by
  induction t with
  | app g b ihg =>
    have hhead : (Term.app g b).head = g.head := fst_spineWith g [b]
    rwa [hhead]
  | _ => simp [head, spine, spineWith]

end Term

end LeveledTypes
