import LeveledTypes.Proofs.Term.Over

/-!
# Erasure

Reduction looks at no name of a binder, at no domain of an abstraction, and at neither the universe
nor the parameters that a constructor stores. Erasure forgets them. It commutes with instantiation.
-/
namespace LeveledTypes

namespace Term

mutual

/-- Forgets what reduction does not look at. -/
def erase : Term → Term
  | .lam x _ b => .lam x.anonymize .zero (erase b)
  | .pi x a b => .pi x.anonymize (erase a) (erase b)
  | .app f a => .app (erase f) (erase a)
  | .letIn x t a b => .letIn x.anonymize (erase t) (erase a) (erase b)
  | .sigma x a b => .sigma x.anonymize (erase a) (erase b)
  | .pair a b => .pair (erase a) (erase b)
  | .proj a s => .proj (erase a) s
  | .data n u ps => .data n u (eraseAll ps)
  | .con n _ _ xs => .con n .zero [] (eraseAll xs)
  | .case a m bs => .case (erase a) (erase m) (eraseBranches bs)
  | .record n u ps => .record n u (eraseAll ps)
  | .new n u ps xs => .new n u (eraseAll ps) (eraseAll xs)
  | .field a n i => .field (erase a) n i
  | .succ a => .succ (erase a)
  | .natRec m z s t => .natRec (erase m) (erase z) (erase s) (erase t)
  | .path a x y => .path (erase a) (erase x) (erase y)
  | .pathLam f => .pathLam (erase f)
  | .at l r p i => .at (erase l) (erase r) (erase p) (erase i)
  | .univ u => .univ u
  | .var i => .var i
  | .ref n u => .ref n u
  | .hole m => .hole m
  | .nat => .nat
  | .zero => .zero
  | .interval => .interval
  | .left => .left
  | .right => .right

def eraseAll : List Term → List Term
  | [] => []
  | t :: ts => erase t :: eraseAll ts

def eraseBranches : List (Branch Term) → List (Branch Term)
  | [] => []
  | ⟨h, ns, b⟩ :: bs => ⟨h, ns.map fun _ => "", erase b⟩ :: eraseBranches bs

end

@[simp] theorem eraseAll_eq_map (ts : List Term) : eraseAll ts = ts.map erase := by
  induction ts with
  | nil => rfl
  | cons t ts ih => simp [eraseAll, ih]

/-- The branch without the names of its variables. -/
def eraseBranch (b : Branch Term) : Branch Term := ⟨b.head, b.names.map fun _ => "", b.body.erase⟩

@[simp] theorem eraseBranches_eq_map (bs : List (Branch Term)) :
    eraseBranches bs = bs.map eraseBranch := by
  induction bs with
  | nil => rfl
  | cons b bs ih => simp [eraseBranches, eraseBranch, ih]

attribute [local simp] erase

theorem erase_anonymize (t : Term) : t.anonymize.erase = t.erase := by
  induction t <;> simp_all [anonymize, anonymizeBranch, eraseBranch, Binder.anonymize]

/-- Erasure forgets the names of binders. -/
theorem erase_eq_of_same {t t' : Term} (h : t.same t' = true) : t.erase = t'.erase := by
  rw [← erase_anonymize t, ← erase_anonymize t', same_iff.mp h]

theorem erase_replace {f : ℕ → ℕ → Term} {g : Universe → Universe} (hg : g .zero = .zero)
    (t : Term) (c : ℕ) : (t.replace f g c).erase = t.erase.replace
    (fun c i => (f c i).erase) g c := by
  induction t generalizing c <;> simp_all [replace, eraseBranch, Branch.arity]

theorem erase_lift (t : Term) (n : ℕ) : (t.lift n).erase = t.erase.lift n := by
  rw [lift_eq_replaceVars, lift_eq_replaceVars, replaceVars, replaceVars, erase_replace rfl]
  rfl

theorem erase_up (k : ℕ) (σ : ℕ → Term) (i : ℕ) :
    (up k σ i).erase = up k (fun i => (σ i).erase) i := by
  rcases lt_or_ge i k with h | h
  · rw [up_of_lt h, up_of_lt h, erase]
  · rw [up_of_le h, up_of_le h, erase_lift]

theorem erase_inst (t : Term) (σ : ℕ → Term) :
    (t.inst σ).erase = t.erase.inst fun i => (σ i).erase := by
  rw [inst_eq_replaceVars, inst_eq_replaceVars, replaceVars, replaceVars, erase_replace rfl]
  congr 1
  funext c i
  exact erase_up c σ i

/-- Instances of a term agree up to erasure if the values of the variables do. -/
theorem erase_inst_congr {t t' : Term} {σ τ : ℕ → Term} (ht : t.erase = t'.erase)
    (h : ∀ i, (σ i).erase = (τ i).erase) : (t.inst σ).erase = (t'.inst τ).erase := by
  rw [erase_inst, erase_inst, ht]
  congr 1
  funext i
  exact h i

/-- The values of variables that do not occur once a term is erased do not matter. -/
theorem erase_inst_of_anyVar {t : Term} {p : ℕ → Bool} {σ τ : ℕ → Term}
    (ht : t.erase.anyVar p = false) (h : ∀ i, p i = false → (σ i).erase = (τ i).erase) :
    (t.inst σ).erase = (t.inst τ).erase := by
  rw [erase_inst, erase_inst]
  exact inst_congr ht h

/-- A term that is closed once it is erased. -/
def ErasesClosed (t : Term) : Prop := t.erase.isClosed = true

theorem ErasesClosed.inst {t : Term} (ht : t.ErasesClosed) (σ : ℕ → Term) :
    (t.inst σ).erase = t.erase := by
  have hvar : t.erase.anyVar (fun _ => true) = false := by simpa [ErasesClosed, isClosed] using ht
  rw [← inst_id t, inst_inst, erase_inst_of_anyVar hvar (τ := var) (by simp)]

end Term

end LeveledTypes
