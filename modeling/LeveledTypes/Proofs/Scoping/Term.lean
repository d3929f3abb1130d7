import LeveledTypes.Proofs.Conversion.Pattern

/-!
# Scoped terms

A term is scoped below a bound if all its free variables are below the bound, and if it has as many
arguments for constructors, parameters for data types and classes, and variables for branches as
their names ask for. What substitution, abstraction and the filling of holes make of scoped terms is
scoped.
-/
namespace LeveledTypes

/-- The numbers of arguments that names stand for. -/
structure Arities where
  /-- The arguments of a constructor, without its leading parameters. -/
  con : GlobalName → ℕ
  /-- The parameters of a data type. -/
  data : GlobalName → ℕ
  /-- The parameters of a class. -/
  record : GlobalName → ℕ

/-- The number of variables of a branch. -/
def Arities.branch (A : Arities) : BranchHead → ℕ
  | .con c => A.con c
  | .zero => 0
  | .succ => 1

namespace Term

mutual

/-- The free variables are below the bound, and names have the arguments that they ask for. -/
@[simp] def Scoped (A : Arities) (n : ℕ) : Term → Prop
  | .var i => i < n
  | .lam _ a b | .pi _ a b | .sigma _ a b => Scoped A n a ∧ Scoped A (n + 1) b
  | .app a b | .pair a b => Scoped A n a ∧ Scoped A n b
  | .letIn _ t a b => Scoped A n t ∧ Scoped A n a ∧ Scoped A (n + 1) b
  | .proj a _ | .field a _ _ | .succ a | .pathLam a => Scoped A n a
  | .data c _ ps => A.data c ≤ ps.length ∧ ScopedAll A n ps
  | .record c _ ps => A.record c ≤ ps.length ∧ ScopedAll A n ps
  | .con c _ ps xs => xs.length = A.con c ∧ ScopedAll A n ps ∧ ScopedAll A n xs
  | .case a m bs => (∀ b ∈ bs, b.arity = A.branch b.head) ∧ Scoped A n a ∧ Scoped A (n + 1) m ∧
    ScopedBranches A n bs
  | .new _ _ ps fs => ScopedAll A n ps ∧ ScopedAll A n fs
  | .path a x y => Scoped A n a ∧ Scoped A n x ∧ Scoped A n y
  | .natRec a b c d | .at a b c d => Scoped A n a ∧ Scoped A n b ∧ Scoped A n c ∧ Scoped A n d
  | .univ _ | .ref _ _ | .hole _ | .nat | .zero | .interval | .left | .right => True

def ScopedAll (A : Arities) (n : ℕ) : List Term → Prop
  | [] => True
  | t :: ts => Scoped A n t ∧ ScopedAll A n ts

def ScopedBranches (A : Arities) (n : ℕ) : List (Branch Term) → Prop
  | [] => True
  | ⟨_, ns, b⟩ :: bs => Scoped A (n + ns.length) b ∧ ScopedBranches A n bs

end

/-- What is asked of the root of a scoped term. -/
def ScopedRoot (A : Arities) (n : ℕ) : Term → Prop
  | .var i => i < n
  | .data c _ ps => A.data c ≤ ps.length
  | .record c _ ps => A.record c ≤ ps.length
  | .con c _ _ xs => xs.length = A.con c
  | .case _ _ bs => ∀ b ∈ bs, b.arity = A.branch b.head
  | _ => True

variable {A : Arities} {n m : ℕ} {t : Term}

@[simp] theorem scopedAll_iff {ts : List Term} : ScopedAll A n ts ↔ ∀ t ∈ ts, t.Scoped A n := by
  induction ts with
  | nil => simp [ScopedAll]
  | cons t ts ih => simp [ScopedAll, ih]

@[simp] theorem scopedBranches_iff {bs : List (Branch Term)} :
    ScopedBranches A n bs ↔ ∀ b ∈ bs, b.body.Scoped A (n + b.arity) := by
  induction bs with
  | nil => simp [ScopedBranches]
  | cons b bs ih => simp [ScopedBranches, ih, Branch.arity]

theorem scoped_iff : t.Scoped A n ↔ t.ScopedRoot A n ∧ ∀ p ∈ t.parts, p.2.Scoped A (n + p.1) := by
  cases t <;> simp [ScopedRoot, parts, or_imp, forall_and]

section Replace
variable {f : ℕ → ℕ → Term} {g : Universe → Universe}

theorem ScopedRoot.replace {c : ℕ} (h : t.ScopedRoot A n) (ht : ∀ i, t ≠ .var i) :
    (t.replace f g c).ScopedRoot A m := by
  cases t <;> simp_all [ScopedRoot, Term.replace, Branch.arity]

/-- Replacing variables keeps a term scoped if what is put for them is. -/
theorem Scoped.replace {c : ℕ} (ht : t.Scoped A (n + c)) (hf : ∀ c i, i < n + c →
    (f c i).Scoped A (m + c)) : (t.replace f g c).Scoped A (m + c) := by
  induction t using induct_parts generalizing c with
  | step t ih =>
    rw [scoped_iff] at ht
    obtain ⟨hroot, hp⟩ := ht
    by_cases hv : ∃ i, t = .var i
    · obtain ⟨i, rfl⟩ := hv
      exact hf c i hroot
    · push Not at hv
      rw [scoped_iff]
      refine ⟨hroot.replace hv, ?_⟩
      rw [parts_replace c hv]
      rintro q hq
      obtain ⟨p, hpt, rfl⟩ := List.mem_map.mp hq
      have hpart := hp p hpt
      rw [Nat.add_assoc] at hpart ⊢
      exact ih p hpt hpart

theorem Scoped.replaceVars (ht : t.Scoped A n) (hf : ∀ c i, i < n + c → (f c i).Scoped A (m + c)) :
    (t.replaceVars f).Scoped A m :=
  Scoped.replace (c := 0) ht hf

theorem Scoped.mapUniverses (ht : t.Scoped A n) : (t.mapUniverses g).Scoped A n :=
  Scoped.replace (c := 0) ht fun _ _ => id

end Replace

theorem Scoped.mono (ht : t.Scoped A n) (h : n ≤ m) : t.Scoped A m := by
  have hid : (t.replaceVars fun _ i => .var i).Scoped A m := ht.replaceVars fun c i hi => by
    rw [Scoped]
    omega
  rwa [Term.replaceVars, replace_id] at hid

theorem Scoped.closed (ht : t.Scoped A 0) : t.Scoped A n := ht.mono (Nat.zero_le n)

theorem Scoped.lift (ht : t.Scoped A n) (k : ℕ) : (t.lift k).Scoped A (n + k) := by
  rw [lift_eq_replaceVars]
  refine ht.replaceVars fun c i hi => ?_
  rw [Scoped]
  split <;> omega

theorem scoped_up {σ : ℕ → Term} (hσ : ∀ i < n, (σ i).Scoped A m) (k : ℕ) :
    ∀ i < n + k, (up k σ i).Scoped A (m + k) := by
  intro i hi
  rcases lt_or_ge i k with h | h
  · rw [up_of_lt h, Scoped]
    omega
  · rw [up_of_le h]
    exact (hσ _ (by omega)).lift k

theorem Scoped.inst {σ : ℕ → Term} (ht : t.Scoped A n) (hσ : ∀ i < n, (σ i).Scoped A m) :
    (t.inst σ).Scoped A m := by
  rw [inst_eq_replaceVars]
  exact ht.replaceVars fun c i hi => scoped_up hσ c i hi

/-- Room for binders further in than a number of innermost ones. -/
theorem Scoped.shift {c : ℕ} (ht : t.Scoped A (n + c)) (k : ℕ) :
    (t.shift k c).Scoped A (n + k + c) := by
  rw [shift_eq_inst]
  refine ht.inst (scoped_up (fun i hi => ?_) c)
  rw [Scoped]
  omega

theorem Scoped.subst {r : Term} (ht : t.Scoped A (n + 1)) (hr : r.Scoped A n) :
    (t.subst r).Scoped A n := by
  rw [subst_eq_inst]
  refine ht.inst fun i hi => ?_
  cases i with
  | zero => exact hr
  | succ i => exact Nat.lt_of_succ_lt_succ hi

theorem Scoped.substAll {as : List Term} (ht : t.Scoped A (n + as.length))
    (has : ∀ a ∈ as, a.Scoped A n) : (t.substAll as).Scoped A n := by
  rw [substAll_eq_inst]
  refine ht.inst fun i hi => ?_
  rcases lt_or_ge i as.length with h | h
  · rw [pushAll_of_lt h]
    exact has _ (List.getElem_mem _)
  · rw [pushAll_of_le h, Scoped]
    omega

theorem Scoped.substLevels {u : Universe} (ht : t.Scoped A n) : (t.substLevels u).Scoped A n := by
  unfold Term.substLevels
  split
  · exact ht
  · exact ht.mapUniverses

theorem Scoped.fillLevels {sol : ℕ → Option Level} (ht : t.Scoped A n) :
    (t.fillLevels sol).Scoped A n :=
  ht.mapUniverses

theorem Scoped.abstractVar (ht : t.Scoped A n) (i : ℕ) : (t.abstractVar i).Scoped A (n + 1) := by
  rw [abstractVar_eq_inst]
  refine ht.inst fun j hj => ?_
  split <;> (rw [Scoped]; omega)

theorem scoped_apps {f : Term} {as : List Term} :
    (f.apps as).Scoped A n ↔ f.Scoped A n ∧ ∀ a ∈ as, a.Scoped A n := by
  induction as generalizing f with
  | nil => simp
  | cons a as ih => simp [ih, and_assoc]

theorem Scoped.spine (ht : t.Scoped A n) :
    t.spine.1.Scoped A n ∧ ∀ a ∈ t.spine.2, a.Scoped A n := by
  rw [← apps_spine t] at ht
  rwa [scoped_apps] at ht

/-- The variables of a context, as arguments. -/
theorem scoped_range (n : ℕ) : ∀ a ∈ (List.range n).reverse.map var, a.Scoped A n := by
  intro a ha
  obtain ⟨i, hi, rfl⟩ := List.mem_map.mp ha
  simpa using hi

theorem scoped_numeral (k : ℕ) : (numeral k).Scoped A n := by
  induction k with
  | zero => trivial
  | succ k ih => exact ih

/-- The type of each parameter is below the parameters before it. -/
@[simp] def ScopedTele (A : Arities) (n : ℕ) : Telescope Term → Prop
  | [] => True
  | p :: tele => p.type.Scoped A n ∧ ScopedTele A (n + 1) tele

section Telescopes
variable {tele : Telescope Term}

theorem scopedTele_iff : ScopedTele A n tele ↔ ∀ (i : ℕ) p, tele[i]? = some p →
    p.type.Scoped A (n + i) := by
  induction tele generalizing n with
  | nil => simp
  | cons p tele ih =>
    have hadd (i : ℕ) : n + 1 + i = n + (i + 1) := by omega
    simp only [ScopedTele, ih, hadd]
    refine ⟨?_, fun h => ⟨h 0 p rfl, fun i => h (i + 1)⟩⟩
    rintro ⟨hp, htele⟩ (_ | i) q hq
    · exact Option.some.inj hq ▸ hp
    · exact htele i q hq

theorem scopedTele_append {tele' : Telescope Term} :
    ScopedTele A n (tele ++ tele') ↔ ScopedTele A n tele ∧
    ScopedTele A (n + tele.length) tele' := by
  induction tele generalizing n with
  | nil => simp
  | cons p tele ih => simp [ih, and_assoc, Nat.add_assoc, Nat.add_comm 1]

theorem scoped_pis : (pis tele t).Scoped A n ↔ ScopedTele A n tele ∧
    t.Scoped A (n + tele.length) := by
  induction tele generalizing n with
  | nil => simp [pis]
  | cons p tele ih =>
    change p.type.Scoped A n ∧ (pis tele t).Scoped A (n + 1) ↔ _
    simp [ih, and_assoc, Nat.add_assoc, Nat.add_comm 1]

theorem scoped_lams : (lams tele t).Scoped A n ↔ ScopedTele A n tele ∧
    t.Scoped A (n + tele.length) := by
  rw [← scoped_pis]
  induction tele generalizing n with
  | nil => rfl
  | cons p tele ih => exact and_congr_right fun _ => ih

end Telescopes

/-- The free variables of a scoped term are below the bound. -/
theorem Scoped.anyVarFrom {c : ℕ} (ht : t.Scoped A (n + c)) : t.anyVarFrom (n ≤ ·) c = false := by
  induction t using induct_parts generalizing c with
  | step t ih =>
    rw [scoped_iff] at ht
    obtain ⟨hroot, hp⟩ := ht
    by_cases hv : ∃ i, t = .var i
    · obtain ⟨i, rfl⟩ := hv
      have hi : i < n + c := hroot
      simp only [Term.anyVarFrom, Bool.and_eq_false_iff, decide_eq_false_iff_not]
      omega
    · push Not at hv
      rw [anyVarFrom_eq_any_parts c hv, List.any_eq_false]
      intro p hpt
      have hpart := hp p hpt
      rw [Nat.add_assoc] at hpart
      simpa using ih p hpt hpart

/-- A term without free variables is scoped below every bound. -/
theorem Scoped.of_anyVarFrom {c : ℕ} (ht : t.Scoped A n)
    (h : t.anyVarFrom (fun _ => true) c = false) :
    t.Scoped A c := by
  induction t using induct_parts generalizing n c with
  | step t ih =>
    rw [scoped_iff] at ht
    obtain ⟨hroot, hp⟩ := ht
    by_cases hv : ∃ i, t = .var i
    · obtain ⟨i, rfl⟩ := hv
      simpa [Term.anyVarFrom] using h
    · push Not at hv
      rw [scoped_iff]
      refine ⟨by cases t <;> simp_all [ScopedRoot], fun p hpt => ?_⟩
      rw [anyVarFrom_eq_any_parts c hv, List.any_eq_false] at h
      exact ih p hpt (hp p hpt) (by simpa using h p hpt)

theorem Scoped.of_isClosed (ht : t.Scoped A n) (h : t.isClosed = true) : t.Scoped A 0 :=
  ht.of_anyVarFrom (by simpa [isClosed, anyVar] using h)

/-- The induction is on the arguments. -/
theorem Scoped.beta {args : List Term} (ht : t.Scoped A n) (hargs : ∀ a ∈ args, a.Scoped A n) :
    (t.beta args).Scoped A n := by
  induction t, args using Term.beta.induct with
  | case1 t => simpa [Term.beta] using ht
  | case2 x d b a args ih =>
    obtain ⟨ha, hargs⟩ := List.forall_mem_cons.mp hargs
    rw [Term.beta]
    exact ih (Scoped.subst ht.2 ha) hargs
  | case3 t args hnil hlam =>
    rw [Term.beta]
    · rw [scoped_apps]
      exact ⟨ht, hargs⟩
    · exact hnil
    · exact hlam

section Fill
variable {sol : ℕ → Option Term}

theorem fillWith_eq_apps {args : List Term} (happ : ∀ f a, t ≠ .app f a)
    (hhole : ∀ m, t ≠ .hole m) : t.fillWith sol args = (t.fillWith sol []).apps args := by
  cases t <;> simp_all [fillWith]

theorem parts_fillWith (happ : ∀ f a, t ≠ .app f a) (hhole : ∀ m, t ≠ .hole m) :
    (t.fillWith sol []).parts = t.parts.map fun p => (p.1, p.2.fillWith sol []) := by
  cases t <;> simp_all [fillWith, parts, Branch.arity, Function.comp_def]

theorem ScopedRoot.fillWith (h : t.ScopedRoot A n) (happ : ∀ f a, t ≠ .app f a)
    (hhole : ∀ m, t ≠ .hole m) : (t.fillWith sol []).ScopedRoot A n := by
  cases t <;> simp_all [ScopedRoot, Term.fillWith, Branch.arity]

/-- Filling holes with closed terms keeps a term scoped. -/
theorem Scoped.fillWith (hsol : ∀ m s, sol m = some s → s.Scoped A 0) {args : List Term}
    (ht : t.Scoped A n) (hargs : ∀ a ∈ args, a.Scoped A n) : (t.fillWith sol args).Scoped A n := by
  induction t using induct_parts generalizing n args with
  | step t ih =>
    by_cases happ : ∃ f a, t = .app f a
    · obtain ⟨f, a, rfl⟩ := happ
      rw [Term.fillWith]
      refine ih (0, f) (by simp [parts]) ht.1 (List.forall_mem_cons.mpr ⟨?_, hargs⟩)
      exact ih (0, a) (by simp [parts]) ht.2 (List.forall_mem_nil _)
    by_cases hhole : ∃ m, t = .hole m
    · obtain ⟨m, rfl⟩ := hhole
      rw [Term.fillWith]
      split
      case h_1 s hs => exact (hsol m s hs).closed.beta hargs
      case h_2 =>
        rw [scoped_apps]
        exact ⟨ht, hargs⟩
    push Not at happ hhole
    rw [scoped_iff] at ht
    obtain ⟨hroot, hp⟩ := ht
    rw [fillWith_eq_apps happ hhole]
    rw [scoped_apps, scoped_iff]
    refine ⟨⟨hroot.fillWith happ hhole, ?_⟩, hargs⟩
    rw [parts_fillWith happ hhole]
    intro q hq
    obtain ⟨p, hpt, rfl⟩ := List.mem_map.mp hq
    exact ih p hpt (hp p hpt) (List.forall_mem_nil _)

theorem Scoped.fillDeep (hsol : ∀ m s, sol m = some s → s.Scoped A 0) (k : ℕ) (ht : t.Scoped A n) :
    (t.fillDeep sol k).Scoped A n := by
  induction k generalizing n t with
  | zero => exact ht
  | succ k ih =>
    refine ht.fillWith (fun m s hs => ?_) (List.forall_mem_nil _)
    obtain ⟨s', hs', rfl⟩ := Option.map_eq_some_iff.mp hs
    exact ih (hsol m s' hs')

end Fill

end Term

end LeveledTypes
