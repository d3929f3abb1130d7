import LeveledTypes.Proofs.Term.Induction

/-!
# Parts and subterms

The parts of a term, each with the number of binders it is under, and the list of all subterms,
parents first. Every fold over a term is a fold over this list.
-/
namespace LeveledTypes.Term

/-- The parts of a term from left to right, each with the number of binders that it is under. -/
def parts : Term → List (ℕ × Term)
  | .lam _ a b | .pi _ a b | .sigma _ a b => [(0, a), (1, b)]
  | .app a b | .pair a b => [(0, a), (0, b)]
  | .letIn _ t a b => [(0, t), (0, a), (1, b)]
  | .path a b c => [(0, a), (0, b), (0, c)]
  | .proj a _ | .field a _ _ | .succ a | .pathLam a => [(0, a)]
  | .data _ _ ps | .record _ _ ps => ps.map (0, ·)
  | .con _ _ ps xs | .new _ _ ps xs => ps.map (0, ·) ++ xs.map (0, ·)
  | .case a m bs => (0, a) :: (1, m) :: bs.map fun b => (b.arity, b.body)
  | .natRec a b c d | .at a b c d => [(0, a), (0, b), (0, c), (0, d)]
  | .univ _ | .var _ | .ref _ _ | .hole _ | .nat | .zero | .interval | .left | .right => []

attribute [local simp] parts fold

/-- Induction with a hypothesis for all parts of a term. -/
theorem induct_parts {motive : Term → Prop} (step : ∀ t, (∀ p ∈ t.parts, motive p.2) →
    motive t) (t : Term) :
    motive t := by
  induction t <;> refine step _ ?_ <;> clear step <;> simp_all [or_imp, forall_and]

section Folds
variable {α : Type} (f : α → Term → α)

theorem foldAll_eq_foldl (acc : α) (ts : List Term) : foldAll f acc ts = ts.foldl (fold f) acc := by
  induction ts generalizing acc with
  | nil => rfl
  | cons t ts ih => simp [foldAll, ih]

theorem foldBranches_eq_foldl (acc : α) (bs : List (Branch Term)) :
    foldBranches f acc bs = bs.foldl (fun acc b => fold f acc b.body) acc := by
  induction bs generalizing acc with
  | nil => rfl
  | cons b bs ih => simp [foldBranches, ih]

theorem fold_eq_foldl_parts (acc : α) (t : Term) :
    t.fold f acc = t.parts.foldl (fun acc p => p.2.fold f acc) (f acc t) := by
  cases t <;> simp [List.foldl_map, foldAll_eq_foldl, foldBranches_eq_foldl]

end Folds

theorem fold_snoc (t : Term) (ts : List Term) :
    t.fold (fun ts s => ts ++ [s]) ts = ts ++ t.subterms := by
  have hfold : ts ++ t.subterms = t.fold (fun ts s => ts ++ [s]) (ts ++ []) :=
    fold_hom (ts ++ ·) (fun us s => (List.append_assoc ts us [s]).symm) [] t
  rw [hfold, List.append_nil]

theorem subterms_eq (t : Term) : t.subterms = t :: t.parts.flatMap (·.2.subterms) := by
  have hparts (ps : List (ℕ × Term)) (ts : List Term) :
      ps.foldl (fun ts p => p.2.fold (fun ts s => ts ++ [s]) ts) ts = ts ++ ps.flatMap
        (·.2.subterms) := by
    induction ps generalizing ts with
    | nil => simp
    | cons p ps ih => rw [List.foldl_cons, fold_snoc, ih, List.flatMap_cons, List.append_assoc]
  rw [subterms, fold_eq_foldl_parts, hparts]
  simp

theorem mem_subterms_self (t : Term) : t ∈ t.subterms := by
  rw [subterms_eq]
  exact List.mem_cons_self

theorem mem_subterms_of_part {t : Term} {p : ℕ × Term} (hp : p ∈ t.parts) {s : Term}
    (hs : s ∈ p.2.subterms) : s ∈ t.subterms := by
  rw [subterms_eq]
  exact List.mem_cons_of_mem _ (List.mem_flatMap.mpr ⟨p, hp, hs⟩)

/-- A part of a term has fewer subterms than the term. -/
theorem length_subterms_of_part {t : Term} {p : ℕ × Term} (hp : p ∈ t.parts) :
    p.2.subterms.length < t.subterms.length := by
  have hsub := (List.sublist_flatten_of_mem
    (List.mem_map_of_mem (f := (·.2.subterms)) hp)).length_le
  rw [t.subterms_eq, List.length_cons, List.flatMap]
  omega

theorem fold_eq_foldl {α : Type} (f : α → Term → α) (acc : α) (t : Term) :
    t.fold f acc = t.subterms.foldl f acc :=
  (fold_hom (f := fun ts s => ts ++ [s]) (fun ts => ts.foldl f acc)
    (fun ts s => List.foldl_concat f acc s ts) [] t).symm

theorem hasHole_eq_true_iff {t : Term} : t.hasHole = true ↔ ∃ m, hole m ∈ t.subterms := by
  have hfold {f : Bool → Term → Bool} (hf : ∀ found s, f found s = true ↔ found = true ∨
      ∃ m, s = hole m)
      (ts : List Term) (found : Bool) : ts.foldl f found = true ↔ found = true ∨
      ∃ m, hole m ∈ ts := by
    induction ts generalizing found with
    | nil => simp
    | cons t ts ih =>
      simp only [List.foldl_cons, ih, hf, List.mem_cons, exists_or, or_assoc, eq_comm]
  rw [hasHole, fold_eq_foldl]
  exact (hfold (fun found s => by cases s <;> simp) t.subterms false).trans (by simp)

end LeveledTypes.Term
