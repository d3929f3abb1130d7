import LeveledTypes.Proofs.Term.Over

/-!
# Traversals and the names of binders

A traversal of a term looks at no name of a binder, so that it takes terms that differ in such names
only to terms that do so too.
-/
namespace LeveledTypes.Term

/-- The two terms have the same root, and their parts differ in the names of binders only. -/
inductive Alike : Term → Term → Prop
  | univ (u : Universe) : Alike (.univ u) (.univ u)
  | var (i : ℕ) : Alike (.var i) (.var i)
  | ref (n : GlobalName) (u : Universe) : Alike (.ref n u) (.ref n u)
  | hole (m : ℕ) : Alike (.hole m) (.hole m)
  | lam {x y : Binder} {a b c d : Term} : x.info = y.info → a.anonymize = c.anonymize →
    b.anonymize = d.anonymize →
      Alike (.lam x a b) (.lam y c d)
  | pi {x y : Binder} {a b c d : Term} : x.info = y.info → a.anonymize = c.anonymize →
    b.anonymize = d.anonymize →
      Alike (.pi x a b) (.pi y c d)
  | app {f g a b : Term} : f.anonymize = g.anonymize → a.anonymize = b.anonymize →
    Alike (.app f a) (.app g b)
  | letIn {x y : Binder} {t a b s c d : Term} : x.info = y.info → t.anonymize = s.anonymize →
      a.anonymize = c.anonymize → b.anonymize = d.anonymize →
      Alike (.letIn x t a b) (.letIn y s c d)
  | sigma {x y : Binder} {a b c d : Term} : x.info = y.info → a.anonymize = c.anonymize →
    b.anonymize = d.anonymize →
      Alike (.sigma x a b) (.sigma y c d)
  | pair {a b c d : Term} : a.anonymize = c.anonymize → b.anonymize = d.anonymize →
    Alike (.pair a b) (.pair c d)
  | proj {a b : Term} (s : Side) : a.anonymize = b.anonymize → Alike (.proj a s) (.proj b s)
  | data (n : GlobalName) (u : Universe) {ps qs : List Term} : ps.map anonymize = qs.map anonymize →
      Alike (.data n u ps) (.data n u qs)
  | con (n : GlobalName) (u : Universe) {ps qs xs ys : List Term} :
    ps.map anonymize = qs.map anonymize →
      xs.map anonymize = ys.map anonymize → Alike (.con n u ps xs) (.con n u qs ys)
  | case {a b m k : Term} {bs ds : List (Branch Term)} : a.anonymize = b.anonymize →
    m.anonymize = k.anonymize →
      bs.map anonymizeBranch = ds.map anonymizeBranch → Alike (.case a m bs) (.case b k ds)
  | record (n : GlobalName) (u : Universe) {ps qs : List Term} :
    ps.map anonymize = qs.map anonymize →
      Alike (.record n u ps) (.record n u qs)
  | new (n : GlobalName) (u : Universe) {ps qs fs gs : List Term} :
    ps.map anonymize = qs.map anonymize →
      fs.map anonymize = gs.map anonymize → Alike (.new n u ps fs) (.new n u qs gs)
  | field {a b : Term} (n : GlobalName) (i : ℕ) : a.anonymize = b.anonymize →
    Alike (.field a n i) (.field b n i)
  | nat : Alike .nat .nat
  | zero : Alike .zero .zero
  | succ {a b : Term} : a.anonymize = b.anonymize → Alike (.succ a) (.succ b)
  | natRec {m z s n k y t l : Term} : m.anonymize = k.anonymize → z.anonymize = y.anonymize →
      s.anonymize = t.anonymize → n.anonymize = l.anonymize →
      Alike (.natRec m z s n) (.natRec k y t l)
  | interval : Alike .interval .interval
  | left : Alike .left .left
  | right : Alike .right .right
  | path {a x y b u v : Term} : a.anonymize = b.anonymize → x.anonymize = u.anonymize →
    y.anonymize = v.anonymize →
      Alike (.path a x y) (.path b u v)
  | pathLam {f g : Term} : f.anonymize = g.anonymize → Alike (.pathLam f) (.pathLam g)
  | at {l x p i k y q j : Term} : l.anonymize = k.anonymize → x.anonymize = y.anonymize →
    p.anonymize = q.anonymize →
      i.anonymize = j.anonymize → Alike (.at l x p i) (.at k y q j)

theorem alike {t t' : Term} (h : t.anonymize = t'.anonymize) : Alike t t' := by
  cases t <;> cases t' <;> try exact (Term.noConfusion h : False).elim
  all_goals simp only [anonymize, anonymizeAll_eq_map, anonymizeBranches_eq_map] at h
  all_goals grind [Alike, Binder.anonymize_eq_iff]

section Replace
variable {f f' : ℕ → ℕ → Term} {g : Universe → Universe} {t t' : Term} {as bs : List Term}

theorem anonymize_replace (t : Term) (c : ℕ) :
    (t.replace f g c).anonymize = t.anonymize.replace (fun c i => (f c i).anonymize) g c := by
  induction t generalizing c <;> simp_all [anonymize, replace, anonymizeBranch, Branch.arity]

theorem replace_alike (h : t.anonymize = t'.anonymize) (hf : ∀ c i, (f c i).anonymize =
    (f' c i).anonymize) (c : ℕ) : (t.replace f g c).anonymize = (t'.replace f' g c).anonymize := by
  simp only [anonymize_replace, h, hf]

theorem lift_alike (h : t.anonymize = t'.anonymize) (n : ℕ) :
    (t.lift n).anonymize = (t'.lift n).anonymize := by
  simp only [lift_eq_replaceVars, replaceVars]
  exact replace_alike h (fun _ _ => rfl) 0

theorem inst_alike {σ τ : ℕ → Term} (h : t.anonymize = t'.anonymize)
    (hσ : ∀ i, (σ i).anonymize = (τ i).anonymize) :
    (t.inst σ).anonymize = (t'.inst τ).anonymize := by
  rw [inst_eq_replaceVars, inst_eq_replaceVars]
  refine replace_alike h (fun c i => ?_) 0
  unfold up
  split
  case isTrue => rfl
  case isFalse => exact lift_alike (hσ _) c

theorem substAll_alike (h : t.anonymize = t'.anonymize)
    (has : as.map anonymize = bs.map anonymize) :
    (t.substAll as).anonymize = (t'.substAll bs).anonymize := by
  rw [substAll_eq_inst, substAll_eq_inst]
  refine inst_alike h fun i => ?_
  have hlen : as.length = bs.length := by simpa using congrArg List.length has
  have hget : as.reverse[i]?.map anonymize = bs.reverse[i]?.map anonymize := by
    rw [← List.getElem?_map, ← List.getElem?_map, List.map_reverse, List.map_reverse, has]
  unfold pushAll
  cases ha : as.reverse[i]? <;> cases hb : bs.reverse[i]? <;> simp_all

theorem subst_alike {a b : Term} (h : t.anonymize = t'.anonymize) (ha : a.anonymize = b.anonymize) :
    (t.subst a).anonymize = (t'.subst b).anonymize := by
  rw [subst_eq_inst, subst_eq_inst]
  refine inst_alike h fun i => ?_
  cases i with
  | zero => exact ha
  | succ i => rfl

theorem anonymize_apps (f : Term) (as : List Term) :
    (f.apps as).anonymize = f.anonymize.apps (as.map anonymize) := by
  induction as generalizing f with
  | nil => rfl
  | cons a as ih => exact ih (.app f a)

theorem apps_alike (h : t.anonymize = t'.anonymize) (has : as.map anonymize = bs.map anonymize) :
    (t.apps as).anonymize = (t'.apps bs).anonymize := by
  rw [anonymize_apps, anonymize_apps, h, has]

/-- Terms that differ in names have heads and arguments that differ in names. -/
theorem spineWith_alike (h : t.anonymize = t'.anonymize)
    (has : as.map anonymize = bs.map anonymize) :
    (t.spineWith as).1.anonymize = (t'.spineWith bs).1.anonymize ∧
    (t.spineWith as).2.map anonymize = (t'.spineWith bs).2.map anonymize := by
  fun_induction spineWith t as generalizing t' bs with
  | case1 f a as ih =>
    cases alike h with
    | app hf ha =>
      have hargs : (a :: as).map anonymize = (_ :: bs).map anonymize := congrArg₂ List.cons ha has
      have hspine := ih hf hargs
      exact hspine
  | case2 t as happ =>
    cases alike h
    case app => exact (happ _ _ rfl).elim
    all_goals exact ⟨h, has⟩

end Replace

theorem anonymize_ne_var {t : Term} (ht : ∀ i, t ≠ .var i) (i : ℕ) : t.anonymize ≠ .var i := by
  cases t <;> simp_all [anonymize]

theorem anyVarFrom_anonymize (t : Term) (p : ℕ → Bool) (c : ℕ) :
    t.anonymize.anyVarFrom p c = t.anyVarFrom p c := by
  induction t using induct_parts generalizing c with
  | step t ih =>
    by_cases hv : ∃ i, t = .var i
    · obtain ⟨i, rfl⟩ := hv
      rfl
    · push Not at hv
      rw [anyVarFrom_eq_any_parts c hv, anyVarFrom_eq_any_parts c (anonymize_ne_var hv),
        parts_anonymize, List.any_map]
      rw [Bool.eq_iff_iff, List.any_eq_true, List.any_eq_true]
      exact exists_congr fun q => and_congr_right fun hq => by rw [Function.comp_apply, ih q hq]

theorem isClosed_alike {t t' : Term} (h : t.anonymize = t'.anonymize) :
    t.isClosed = t'.isClosed := by
  rw [isClosed, isClosed, anyVar, anyVar, ← anyVarFrom_anonymize, h, anyVarFrom_anonymize]

theorem subterms_anonymize (t : Term) : t.anonymize.subterms = t.subterms.map anonymize := by
  induction t using induct_parts with
  | step t ih =>
    rw [subterms_eq, subterms_eq t, parts_anonymize, List.map_cons, List.flatMap_map,
      List.map_flatMap]
    exact congrArg _ (List.flatMap_congr ih)

theorem length_subterms_alike {t t' : Term} (h : t.anonymize = t'.anonymize) :
    t.subterms.length = t'.subterms.length := by
  simpa only [subterms_anonymize, List.length_map] using congrArg (fun t => t.subterms.length) h

theorem hole_mem_subterms_anonymize (t : Term) (m : ℕ) :
    hole m ∈ t.anonymize.subterms ↔ hole m ∈ t.subterms := by
  have hroot (s : Term) : s.anonymize = hole m ↔ s = hole m := by cases s <;> simp [anonymize]
  simp only [subterms_anonymize, List.mem_map, hroot, exists_eq_right]

theorem hasHole_alike {t t' : Term} (h : t.anonymize = t'.anonymize) : t.hasHole = t'.hasHole := by
  rw [Bool.eq_iff_iff, hasHole_eq_true_iff, hasHole_eq_true_iff]
  exact exists_congr fun m => by rw [← hole_mem_subterms_anonymize, h, hole_mem_subterms_anonymize]

theorem over_of_alike {S : Signature} {n : ℕ∞} {t t' : Term} (ht : t.Over S n)
    (h : t.anonymize = t'.anonymize) :
    t'.Over S n := by
  rwa [← over_anonymize, ← h, over_anonymize]

theorem over_of_alike_option {S : Signature} {n : ℕ∞} {o o' : Option Term}
    (ho : ∀ t ∈ o, t.Over S n) (h : o.map anonymize = o'.map anonymize) : ∀ t ∈ o', t.Over S n := by
  rintro t rfl
  obtain ⟨t₀, rfl, halike⟩ := Option.map_eq_some_iff.mp h
  exact over_of_alike (ho t₀ rfl) halike

theorem over_of_alike_all {S : Signature} {n : ℕ∞} {ts ts' : List Term} (hts : ∀ t ∈ ts, t.Over S n)
    (h : ts.map anonymize = ts'.map anonymize) : ∀ t ∈ ts', t.Over S n := by
  intro t ht
  obtain ⟨t₀, ht₀, halike⟩ :=
    List.mem_map.mp (h ▸ List.mem_map_of_mem ht : t.anonymize ∈ ts.map anonymize)
  exact over_of_alike (hts t₀ ht₀) halike

end LeveledTypes.Term
