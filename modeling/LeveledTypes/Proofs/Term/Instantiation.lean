import LeveledTypes.Proofs.Term.Induction

/-!
# Instantiation

All operations that move or replace variables are instances of one, the simultaneous replacement of
the free variables of a term. It composes, and the laws about shifting, substitution and abstraction
are compositions.
-/
namespace LeveledTypes.Term

section Replace
variable {f f' : ℕ → ℕ → Term} {g g' : Universe → Universe}

@[simp] theorem replaceAll_eq_map (c : ℕ) (ts : List Term) :
    replaceAll f g c ts = ts.map (replace f g c) := by
  induction ts with
  | nil => rfl
  | cons t ts ih => simp [replaceAll, ih]

@[simp] theorem replaceBranches_eq_map (c : ℕ) (bs : List (Branch Term)) :
    replaceBranches f g c bs = bs.map fun b =>
      { b with body := b.body.replace f g (c + b.arity) } := by
  induction bs with
  | nil => rfl
  | cons b bs ih => simp [replaceBranches, ih, Branch.arity]

@[simp] theorem anyVarAll_eq_any (p : ℕ → Bool) (c : ℕ) (ts : List Term) :
    anyVarAll p c ts = ts.any (anyVarFrom p c) := by
  induction ts with
  | nil => rfl
  | cons t ts ih => simp [anyVarAll, ih]

@[simp] theorem anyVarBranches_eq_any (p : ℕ → Bool) (c : ℕ) (bs : List (Branch Term)) :
    anyVarBranches p c bs = bs.any fun b => b.body.anyVarFrom p (c + b.arity) := by
  induction bs with
  | nil => rfl
  | cons b bs ih => simp [anyVarBranches, ih, Branch.arity]

attribute [local simp] replace anyVarFrom

theorem replace_replace (t : Term) (c : ℕ) :
    (t.replace f g c).replace f' g' c = t.replace (fun c i => (f c i).replace f' g' c)
    (g' ∘ g) c := by
  induction t generalizing c <;> simp_all [Branch.arity]

theorem replace_id (t : Term) (c : ℕ) : t.replace (fun _ i => .var i) id c = t := by
  induction t generalizing c <;> simp_all [List.map_congr_left (g := id)]

theorem replace_add (t : Term) (k c : ℕ) :
    t.replace f g (k + c) = t.replace (fun c i => f (k + c) i) g c := by
  induction t generalizing c <;> simp_all [Nat.add_assoc]

/-- What is put for variables that do not occur does not matter. -/
theorem replace_congr {p : ℕ → Bool} {t : Term} {c : ℕ} (ht : t.anyVarFrom p c = false)
    (hf : ∀ c i, (c ≤ i → p (i - c) = false) → f c i = f' c i) :
    t.replace f g c = t.replace f' g c := by
  induction t generalizing c <;> simp_all

end Replace

theorem shift_eq_replaceVars (t : Term) (d : ℤ) (k : ℕ) :
    t.shift d k = t.replaceVars fun c i => if c + k ≤ i then .var (shiftIndex i d) else .var i := by
  unfold shift
  split
  case isTrue h =>
    subst h
    have (i : ℕ) : shiftIndex i 0 = i := rfl
    simp only [replaceVars, this, ite_self, replace_id]
  case isFalse h => rfl

theorem lift_eq_replaceVars (t : Term) (n : ℕ) :
    t.lift n = t.replaceVars fun c i => .var (if c ≤ i then i + n else i) := by
  have (i : ℕ) : shiftIndex i n = i + n := rfl
  simp only [lift, shift_eq_replaceVars, this, Nat.add_zero, apply_ite var]

@[simp] theorem lift_var (i n : ℕ) : (var i).lift n = var (i + n) := by
  simp [lift_eq_replaceVars, replaceVars, replace]

@[simp] theorem lift_zero (t : Term) : t.lift 0 = t := by
  simp [lift_eq_replaceVars, replaceVars, replace_id]

theorem replace_lift (t : Term) (k n : ℕ) :
    (t.lift k).replace (fun c i => .var (if c ≤ i then i + n else i)) id k = t.lift (k + n) := by
  rw [← Nat.add_zero k, replace_add, Nat.add_zero, lift_eq_replaceVars, lift_eq_replaceVars,
    replaceVars, replace_replace]
  congr 1
  funext c i
  by_cases h : c ≤ i
  · simp [replace, h, Nat.add_comm k c, Nat.add_assoc]
  · simp [replace, h, show ¬k + c ≤ i by omega]

theorem lift_lift (t : Term) (m n : ℕ) : (t.lift m).lift n = t.lift (m + n) := by
  rw [lift_eq_replaceVars, lift_eq_replaceVars, lift_eq_replaceVars, replaceVars, replaceVars,
    replace_replace]
  congr 1
  funext c i
  by_cases h : c ≤ i
  · simp [replace, h, show c ≤ i + m by omega, Nat.add_assoc]
  · simp [replace, h]

/-- The values of all variables under `k` binders, from the values of the free variables. -/
def up (k : ℕ) (σ : ℕ → Term) (i : ℕ) : Term := if i < k then .var i else (σ (i - k)).lift k

mutual

/-- Replaces all free variables at once. -/
@[simp] def inst (σ : ℕ → Term) : Term → Term
  | .var i => σ i
  | .univ u => .univ u
  | .ref n u => .ref n u
  | .hole m => .hole m
  | .lam x a b => .lam x (inst σ a) (inst (up 1 σ) b)
  | .pi x a b => .pi x (inst σ a) (inst (up 1 σ) b)
  | .app f a => .app (inst σ f) (inst σ a)
  | .letIn x t a b => .letIn x (inst σ t) (inst σ a) (inst (up 1 σ) b)
  | .sigma x a b => .sigma x (inst σ a) (inst (up 1 σ) b)
  | .pair a b => .pair (inst σ a) (inst σ b)
  | .proj a s => .proj (inst σ a) s
  | .data n u ps => .data n u (instAll σ ps)
  | .con n u ps xs => .con n u (instAll σ ps) (instAll σ xs)
  | .case a m bs => .case (inst σ a) (inst (up 1 σ) m) (instBranches σ bs)
  | .record n u ps => .record n u (instAll σ ps)
  | .new n u ps fs => .new n u (instAll σ ps) (instAll σ fs)
  | .field a n i => .field (inst σ a) n i
  | .nat => .nat
  | .zero => .zero
  | .succ a => .succ (inst σ a)
  | .natRec m z s n => .natRec (inst σ m) (inst σ z) (inst σ s) (inst σ n)
  | .interval => .interval
  | .left => .left
  | .right => .right
  | .path a x y => .path (inst σ a) (inst σ x) (inst σ y)
  | .pathLam f => .pathLam (inst σ f)
  | .at l r p i => .at (inst σ l) (inst σ r) (inst σ p) (inst σ i)

def instAll (σ : ℕ → Term) : List Term → List Term
  | [] => []
  | t :: ts => inst σ t :: instAll σ ts

def instBranches (σ : ℕ → Term) : List (Branch Term) → List (Branch Term)
  | [] => []
  | ⟨h, ns, b⟩ :: bs => ⟨h, ns, inst (up ns.length σ) b⟩ :: instBranches σ bs

end

section Instantiate
variable {σ τ : ℕ → Term}

theorem up_of_lt {k i : ℕ} (h : i < k) : up k σ i = .var i := if_pos h

theorem up_of_le {k i : ℕ} (h : k ≤ i) : up k σ i = (σ (i - k)).lift k := if_neg (by omega)

@[simp] theorem up_zero : up 0 σ = σ := by
  funext i
  simp [up]

theorem up_up (m n : ℕ) : up m (up n σ) = up (n + m) σ := by
  funext i
  by_cases hm : i < m
  · rw [up_of_lt hm, up_of_lt (by omega)]
  · by_cases hn : i - m < n
    · rw [up_of_le (by omega), up_of_lt hn, up_of_lt (by omega), lift_var]
      congr 1
      omega
    · rw [up_of_le (by omega), up_of_le (by omega), up_of_le (by omega), lift_lift]
      congr 2
      omega

@[simp] theorem up_var (k : ℕ) : up k var = var := by
  funext i
  by_cases h : i < k
  · rw [up_of_lt h]
  · rw [up_of_le (by omega), lift_var]
    congr 1
    omega

@[simp] theorem instAll_eq_map (ts : List Term) : instAll σ ts = ts.map (inst σ) := by
  induction ts with
  | nil => rfl
  | cons t ts ih => simp [instAll, ih]

@[simp] theorem instBranches_eq_map (bs : List (Branch Term)) :
    instBranches σ bs = bs.map fun b => { b with body := b.body.inst (up b.arity σ) } := by
  induction bs with
  | nil => rfl
  | cons b bs ih => simp [instBranches, ih, Branch.arity]

theorem inst_up (t : Term) (k : ℕ) : t.inst (up k σ) = t.replace (fun c i => up c σ i) id k := by
  induction t generalizing k <;> simp_all [replace, up_up]

theorem inst_eq_replaceVars (t : Term) : t.inst σ = t.replaceVars fun c i => up c σ i := by
  simpa [replaceVars] using @inst_up σ t 0

@[simp] theorem inst_id (t : Term) : t.inst var = t := by
  simp [inst_eq_replaceVars, replaceVars, replace_id]

theorem inst_congr {t : Term} {p : ℕ → Bool} (ht : t.anyVar p = false)
    (h : ∀ i, p i = false → σ i = τ i) : t.inst σ = t.inst τ := by
  rw [inst_eq_replaceVars, inst_eq_replaceVars]
  refine replace_congr ht fun c i hi => ?_
  by_cases hc : i < c
  · rw [up_of_lt hc, up_of_lt hc]
  · rw [up_of_le (by omega), up_of_le (by omega), h _ (hi (by omega))]

theorem lift_inst_up (t : Term) (k : ℕ) : (t.lift k).inst (up k σ) = (t.inst σ).lift k := by
  rw [lift_eq_replaceVars, lift_eq_replaceVars, inst_eq_replaceVars, inst_eq_replaceVars,
    replaceVars, replaceVars, replaceVars, replaceVars, replace_replace, replace_replace]
  congr 1
  funext c i
  by_cases h : i < c
  · simp [replace, up_of_lt h, show ¬c ≤ i by omega]
  · have hi : c ≤ i := by omega
    simp only [up_of_le hi, replace_lift, replace, if_pos hi, up_up]
    rw [up_of_le (by omega), Nat.add_comm k c, show i + k - (c + k) = i - c by omega]

theorem inst_inst (t : Term) : (t.inst σ).inst τ = t.inst fun i => (σ i).inst τ := by
  rw [inst_eq_replaceVars, inst_eq_replaceVars, inst_eq_replaceVars, replaceVars, replaceVars,
    replaceVars, replace_replace]
  congr 1
  funext c i
  by_cases h : i < c
  · rw [up_of_lt h, up_of_lt h, replace, up_of_lt h]
  · rw [up_of_le (by omega), up_of_le (by omega), ← inst_up, lift_inst_up]

end Instantiate

/-- Gives the innermost variable a value, and the others those that they had one binder further
out. -/
def push (a : Term) (σ : ℕ → Term) : ℕ → Term
  | 0 => a
  | i + 1 => σ i

/-- Gives the innermost variables the values of a list, the last of which is for the innermost
one. -/
def pushAll (as : List Term) (σ : ℕ → Term) (i : ℕ) : Term :=
  (as.reverse[i]?).getD (σ (i - as.length))

theorem shift_eq_inst (t : Term) (n k : ℕ) : t.shift n k = t.inst (up k fun i => .var (i + n)) := by
  have hs (i : ℕ) : shiftIndex i n = i + n := rfl
  rw [shift_eq_replaceVars, inst_eq_replaceVars]
  congr 1
  funext c i
  rw [up_up]
  by_cases h : c + k ≤ i
  · rw [if_pos h, up_of_le (by omega), lift_var, hs]
    congr 1
    omega
  · rw [if_neg h, up_of_lt (by omega)]

theorem lift_eq_inst (t : Term) (n : ℕ) : t.lift n = t.inst fun i => .var (i + n) := by
  rw [lift, shift_eq_inst, up_zero]

/-- Substitution at one index is an instantiation, of which the identities of substitutions are
known. -/
theorem substAt_eq_inst (t : Term) (j : ℕ) (r : Term) :
    t.substAt j r = t.inst (up j (push r var)) := by
  rw [substAt, inst_eq_replaceVars]
  congr 1
  funext c i
  rw [up_up, Nat.add_comm j c]
  by_cases h : i < c + j
  · rw [if_pos h, up_of_lt h]
  · rw [if_neg h, up_of_le (by omega)]
    by_cases hi : i = c + j
    · rw [if_pos hi, show i - (c + j) = 0 by omega, push]
    · rw [if_neg hi, show i - (c + j) = i - (c + j) - 1 + 1 by omega, push, lift_var]
      congr 1
      omega

theorem subst_eq_inst (t r : Term) : t.subst r = t.inst (push r var) := by
  rw [subst, substAt_eq_inst, up_zero]

/-- Substitution at once is an instantiation by the list of values. -/
theorem substAll_eq_inst (t : Term) (as : List Term) : t.substAll as = t.inst (pushAll as var) := by
  by_cases has : as = []
  · subst has
    simp only [substAll, List.isEmpty_nil, if_true]
    exact (inst_id t).symm
  · rw [substAll, if_neg (by simpa using has), inst_eq_replaceVars]
    refine congrArg (replaceVars · t) ?_
    funext c i
    by_cases h : i < c
    · rw [if_pos h, up_of_lt h]
    · rw [if_neg h, up_of_le (by omega), pushAll]
      cases hv : as.reverse[i - c]? with
      | some a => rfl
      | none =>
        have := List.getElem?_eq_none_iff.mp hv
        simp only [Option.getD_none, lift_var, List.length_reverse] at this ⊢
        congr 1
        omega

/-- Abstraction over a variable is an instantiation that makes it the innermost one. -/
theorem abstractVar_eq_inst (t : Term) (i : ℕ) :
    t.abstractVar i = t.inst fun v => if v = i then .var 0 else .var (v + 1) := by
  rw [abstractVar, inst_eq_replaceVars]
  congr 1
  funext c v
  by_cases h : v < c
  · rw [if_pos h, up_of_lt h]
  · rw [if_neg h, up_of_le (by omega)]
    by_cases hv : v = c + i
    · rw [if_pos hv, if_pos (by omega), lift_var, Nat.zero_add]
    · rw [if_neg hv, if_neg (by omega), lift_var]
      congr 1
      omega

/-- Lowering the variables of a term in which the innermost one does not occur. -/
theorem shift_neg_one {t : Term} (ht : t.hasVar 0 = false) :
    t.shift (-1) 0 = t.inst fun i => .var (i - 1) := by
  have hs (i : ℕ) : shiftIndex i (-1) = if 0 < i then i - 1 else 0x10000000000000000 + i - 1 := rfl
  rw [shift_eq_replaceVars, inst_eq_replaceVars]
  refine replace_congr ht fun c i hi => ?_
  by_cases h : i < c
  · rw [up_of_lt h, if_neg (by omega)]
  · have h0 : i - c ≠ 0 := by simpa using hi (by omega)
    rw [up_of_le (by omega), if_pos (by omega), hs, if_pos (by omega), lift_var]
    congr 1
    omega

theorem lift_shift_neg_one {t : Term} (ht : t.hasVar 0 = false) : (t.shift (-1) 0).lift 1 = t := by
  rw [shift_neg_one ht, lift_eq_inst, inst_inst]
  refine (inst_congr ht fun i hi => ?_).trans (inst_id t)
  have : i ≠ 0 := by simpa using hi
  rw [inst]
  congr 1
  omega

/-- Renaming succeeds if every free variable has a new name, and is an instantiation then. -/
theorem renameFree?_eq_some {t t' : Term} {f : ℕ → Option ℕ} (h : t.renameFree? f = some t') :
    t.anyVar (fun i => (f i).isNone) = false ∧ t' = t.inst fun i => .var ((f i).getD i) := by
  unfold renameFree? at h
  split at h
  case isTrue => simp at h
  case isFalse hf =>
    refine ⟨by simpa using hf, ?_⟩
    rw [← Option.some.inj h, inst_eq_replaceVars]
    congr 1
    funext c i
    by_cases hi : i < c
    · rw [if_pos hi, up_of_lt hi]
    · rw [if_neg hi, up_of_le (by omega), lift_var]

end LeveledTypes.Term
