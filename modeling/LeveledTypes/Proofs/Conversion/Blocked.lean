import LeveledTypes.Proofs.Conversion.Run

/-!
# Problems that a hole blocks

Conversion looks for an unsolved hole at the head of an application only. A term in which such a
hole blocks a projection, a field access, a case split or a recursion counts as rigid. So a problem
between this term and a type or a constructor is refused, although the solution of the hole may well
make the two sides equal.
-/
namespace LeveledTypes

namespace Term

/-- The hole `m` keeps a term from being reduced; there are `n` eliminations between the two. -/
inductive Blocked (m : ℕ) : ℕ → Term → Prop
  | hole : Blocked m 0 (.hole m)
  | app {n : ℕ} {f a : Term} : Blocked m n f → Blocked m (n + 1) (.app f a)
  | proj {n : ℕ} {a : Term} {side : Side} : Blocked m n a → Blocked m (n + 1) (.proj a side)
  | field {n : ℕ} {a : Term} {c : GlobalName} {i : ℕ} : Blocked m n a →
    Blocked m (n + 1) (.field a c i)
  | case {n : ℕ} {a motive : Term} {bs : List (Branch Term)} : Blocked m n a →
    Blocked m (n + 1) (.case a motive bs)
  | natRec {n : ℕ} {motive z s a : Term} : Blocked m n a → Blocked m (n + 1) (.natRec motive z s a)

/-- Weak head normal forms without a rule of eta: types and constructors. -/
inductive IsRigid : Term → Prop
  | univ {u : Universe} : IsRigid (.univ u)
  | pi {x : Binder} {a b : Term} : IsRigid (.pi x a b)
  | sigma {x : Binder} {a b : Term} : IsRigid (.sigma x a b)
  | data {n : GlobalName} {u : Universe} {ps : List Term} : IsRigid (.data n u ps)
  | con {n : GlobalName} {u : Universe} {ps xs : List Term} : IsRigid (.con n u ps xs)
  | record {n : GlobalName} {u : Universe} {ps : List Term} : IsRigid (.record n u ps)
  | nat : IsRigid .nat
  | zero : IsRigid .zero
  | succ {a : Term} : IsRigid (.succ a)
  | interval : IsRigid .interval
  | left : IsRigid .left
  | right : IsRigid .right
  | path {a x y : Term} : IsRigid (.path a x y)

/-- A projection or a field access. -/
inductive Access where
  | proj (side : Side)
  | field (c : GlobalName) (i : ℕ)

/-- A term under accesses, the first of them innermost. -/
def access (t : Term) (as : List Access) : Term :=
  as.foldl (fun t a => match a with
    | .proj side => .proj t side
    | .field c i => .field t c i) t

/-- Pairs and records in which accesses find a term. -/
def held (t : Term) : List Access → Term
  | [] => t
  | .proj .fst :: as => .pair (t.held as) .zero
  | .proj .snd :: as => .pair .zero (t.held as)
  | .field c i :: as => .new c .params [] (List.replicate i .zero ++ [t.held as])

variable {m n : ℕ} {t v : Term}

/-- The head of an application that a hole blocks is blocked by it too. -/
theorem Blocked.spineWith (h : Blocked m n t) (args : List Term) :
    ∃ k ≤ n, Blocked m k (t.spineWith args).1 ∧ ∀ f a, (t.spineWith args).1 ≠ .app f a := by
  induction h generalizing args with
  | app _ ih =>
    obtain ⟨k, hk, hblocked, hne⟩ := ih (_ :: args)
    exact ⟨k, hk.trans (Nat.le_succ _), hblocked, hne⟩
  | hole => exact ⟨0, le_rfl, .hole, by simp [Term.spineWith]⟩
  | proj h => exact ⟨_, le_rfl, h.proj, by simp [Term.spineWith]⟩
  | field h => exact ⟨_, le_rfl, h.field, by simp [Term.spineWith]⟩
  | case h => exact ⟨_, le_rfl, h.case, by simp [Term.spineWith]⟩
  | natRec h => exact ⟨_, le_rfl, h.natRec, by simp [Term.spineWith]⟩

theorem blocked_access (as : List Access) : Blocked m as.length ((Term.hole m).access as) := by
  induction as using List.reverseRecOn with
  | nil => exact .hole
  | append_singleton as a ih =>
    rw [access, List.foldl_append, List.length_append]
    cases a with
    | proj side => exact ih.proj
    | field c i => exact ih.field

theorem headHole?_access {as : List Access} (has : as ≠ []) :
    ((Term.hole m).access as).headHole? = none := by
  induction as using List.reverseRecOn with
  | nil => contradiction
  | append_singleton as a _ =>
    rw [access, List.foldl_append]
    cases a <;> rfl

theorem isClosed_held (hv : v.isClosed = true) (as : List Access) :
    (v.held as).isClosed = true := by
  induction as with
  | nil => exact hv
  | cons a as ih =>
    simp only [isClosed, anyVar, Bool.not_eq_true'] at ih ⊢
    cases a with
    | proj side => cases side <;> simp [held, anyVarFrom, ih]
    | field c i => simp [held, anyVarFrom, ih]

theorem Blocked.same_eq_false (h : Blocked m n t) (hv : v.IsRigid) : t.same v = false := by
  cases h <;> cases hv <;> rfl

theorem IsRigid.headHole?_eq_none (hv : v.IsRigid) : v.headHole? = none := by
  cases hv <;> rfl

end Term

namespace Reducer
variable {r : Reducer} {depth gas fuel m n : ℕ} {memo : Memo} {s : ReductionState} {t v : Term}

theorem whnfGas_of_isRigid (hv : v.IsRigid) : r.whnfGas depth (gas + 1) v s = .ok v s := by
  cases hv <;> rfl

/-- A term that an unsolved hole blocks is in weak head normal form. -/
theorem whnfGas_of_blocked (h : Term.Blocked m n t) (hm : r.store.solution? m = none)
    (hgas : n < gas) : r.whnfGas depth gas t s = .ok t s := by
  induction gas generalizing n t with
  | zero => omega
  | succ gas ih =>
    rw [whnfGas]
    cases h with
    | hole =>
      simp only [whnfWith, hm]
      rfl
    | @app n f a h =>
      obtain ⟨k, hk, hhead, hne⟩ := h.spineWith [a]
      have happs : ((Term.app f a).spine).1.apps ((Term.app f a).spine).2 = .app f a :=
        Term.apps_spine _
      change Term.Blocked m k ((Term.app f a).spine).1 at hhead
      change ∀ g b, ((Term.app f a).spine).1 ≠ .app g b at hne
      generalize hspine : (Term.app f a).spine = p at *
      obtain ⟨head, args⟩ := p
      rw [whnfWith, hspine]
      refine (bind_of_ok (ih hhead (by omega))).trans ?_
      cases hhead with
      | hole =>
        simp only [applySpine, hm]
        exact congrArg (EStateM.Result.ok · s) happs
      | app => exact absurd rfl (hne _ _)
      | proj | field | case | natRec => exact congrArg (EStateM.Result.ok · s) happs
    | proj h =>
      refine (bind_of_ok (ih h (by omega))).trans ?_
      cases h <;> rfl
    | field h =>
      refine (bind_of_ok (ih h (by omega))).trans ?_
      cases h <;> rfl
    | case h =>
      refine (bind_of_ok (ih h (by omega))).trans ?_
      cases h <;> rfl
    | natRec h =>
      refine (bind_of_ok (ih h (by omega))).trans ?_
      cases h <;> rfl

theorem whnfGas_held (hv : v.IsRigid) (as : List Term.Access) :
    r.whnfGas depth (gas + 1) (v.held as) s = .ok (v.held as) s := by
  cases as with
  | nil => exact whnfGas_of_isRigid hv
  | cons a as =>
    cases a with
    | proj side => cases side <;> rfl
    | field c i => rfl

/-- Each access to what a hole holds takes one unit of fuel. -/
theorem whnfGas_access {as bs : List Term.Access} (hv : v.IsRigid)
    (hm : r.store.solution? m = some (v.held (as ++ bs))) (hgas : as.length + 1 < gas) :
    r.whnfGas depth gas ((Term.hole m).access as) ⟨fuel + as.length, memo⟩ =
      .ok (v.held bs) ⟨fuel, memo⟩ := by
  induction as using List.reverseRecOn generalizing bs gas fuel with
  | nil =>
    obtain ⟨gas, rfl⟩ := Nat.exists_eq_add_of_le' hgas
    have hhole : r.whnfGas depth (gas + 2) (.hole m) ⟨fuel, memo⟩ = r.whnfGas depth (gas + 1)
        (v.held bs) ⟨fuel, memo⟩ := by
      rw [whnfGas, whnfWith, hm]
      rfl
    exact hhole.trans (whnfGas_held hv bs)
  | append_singleton as a ih =>
    rw [List.length_append, List.length_singleton] at hgas
    obtain ⟨gas, rfl⟩ := Nat.exists_eq_add_of_le' (show 2 ≤ gas by omega)
    rw [List.append_assoc] at hm
    have hinner : r.whnfGas depth (gas + 1) ((Term.hole m).access as) ⟨fuel + 1 + as.length, memo⟩ =
      .ok (v.held (a :: bs)) ⟨fuel + 1, memo⟩ := ih hm (by omega)
    have hfuel : fuel + (as ++ [a]).length = fuel + 1 + as.length := by simp; omega
    rw [hfuel, Term.access, List.foldl_append]
    cases a with
    | proj side =>
      cases side <;> exact (bind_of_ok hinner).trans (step_succ.trans (whnfGas_held hv bs))
    | field c i =>
      refine (bind_of_ok hinner).trans ?_
      have hget : (List.replicate i Term.zero ++ [v.held bs])[i]? = some (v.held bs) := by simp
      simp only [Term.held, hget]
      exact step_succ.trans (whnfGas_held hv bs)

end Reducer

namespace Converter
variable {c : Converter} {cmp : Comparison} {s : ConversionState} {m n : ℕ} {t u v : Term}

theorem whnf_of_isRigid {binders : ℕ} (hv : v.IsRigid) : c.whnf binders v s = .ok v s :=
  whnf_eq_ok (Reducer.whnfGas_of_isRigid hv)

/-- Without a rule of eta for either side, a blocked term and a rigid one have nothing in common. -/
theorem shapes_of_blocked (h : Term.Blocked m n t) (hv : v.IsRigid) {conv : ℕ → Comparison → Term →
    Term → Convert Unit} :
    c.shapes conv cmp t v s = .error (.located (.mismatch v.render t.render) c.span) s := by
  cases h <;> cases hv <;> rfl

/-- The blocked term and the rigid one stay as they are under reduction, and are refused as terms of
different forms, although the hole that blocks could still be solved. -/
theorem convert_of_blocked (h : Term.Blocked m n t) (hm : s.store.solution? m = none)
    (hn : n < unboundedGas) (hhead : t.headHole? = none) (hv : v.IsRigid)
    (hdepth : 0 < c.limits.conversionDepth) :
    c.convert cmp t v s = .error (.located (.mismatch v.render t.render) c.span) s := by
  obtain ⟨depth, hdepth⟩ := Nat.exists_eq_add_one_of_ne_zero hdepth.ne'
  have hsame : ¬t.same v = true := by simp [h.same_eq_false hv]
  have ht : c.whnf 0 t s = .ok t s := whnf_eq_ok (Reducer.whnfGas_of_blocked h hm hn)
  rw [convert, hdepth, convertIn, if_neg hsame, convertWith, bind_of_ok ht,
    bind_of_ok (whnf_of_isRigid hv), if_neg hsame]
  have hget : (get : Convert ConversionState) s = .ok s s := rfl
  refine (bind_of_ok hget).trans ?_
  simp only [hhead, hv.headHole?_eq_none, Option.filter_none]
  exact shapes_of_blocked h hv

/-- Once the hole has a solution, a chain of accesses to it reduces to the part that the solution
holds, and the comparison that was refused before succeeds. -/
theorem convert_access_of_solution {as : List Term.Access}
    (hm : s.store.solution? m = some (v.held as)) (hv : v.IsRigid)
    (hgas : as.length + 1 < unboundedGas) (hfuel : as.length ≤ c.limits.reductionFuel)
    (hdepth : 0 < c.limits.conversionDepth) :
    c.convert cmp ((Term.hole m).access as) v s = .ok () s := by
  obtain ⟨depth, hdepth⟩ := Nat.exists_eq_add_one_of_ne_zero hdepth.ne'
  obtain ⟨fuel, hfuel⟩ := Nat.exists_eq_add_of_le' hfuel
  have ht : c.whnf 0 ((Term.hole m).access as) s = .ok v s := by
    rw [← List.append_nil as] at hm
    have hrun : Reducer.whnfGas ⟨c.env, s.store, c.locals⟩ 0 unboundedGas ((Term.hole m).access as)
      ⟨fuel + as.length, s.memo⟩ = .ok (v.held []) ⟨fuel, s.memo⟩ :=
        Reducer.whnfGas_access hv hm hgas
    exact whnf_eq_ok (hfuel ▸ hrun)
  rw [convert, hdepth, convertIn]
  split
  case isTrue => rfl
  case isFalse =>
    rw [convertWith, bind_of_ok ht, bind_of_ok (whnf_of_isRigid hv), if_pos (Term.same_refl v)]; rfl

/-- A mismatch is not final. As long as a hole is unsolved, every elimination that it blocks is
refused against every type and constructor, and nothing is kept for later. But what accesses to the
hole lead to can be given any value: with a solution that is closed if the value is, the problem
that was refused holds. -/
theorem mismatch_of_blocked (c : Converter) (cmp : Comparison) (hm : m < s.store.holes.size)
    (hunsolved : s.store.solution? m = none) (hv : v.IsRigid)
    (hdepth : 0 < c.limits.conversionDepth) :
    (∀ n t, Term.Blocked m n t → n < unboundedGas → t.headHole? = none →
      c.convert cmp t v s = .error (.located (.mismatch v.render t.render) c.span) s) ∧
    ∀ as : List Term.Access, as ≠ [] → as.length + 1 < unboundedGas →
      as.length ≤ c.limits.reductionFuel → c.convert cmp ((Term.hole m).access as) v s =
        .error (.located (.mismatch v.render ((Term.hole m).access as).render) c.span) s ∧
      (v.isClosed = true → (v.held as).isClosed = true) ∧
      c.convert cmp ((Term.hole m).access as) v { s with store := s.store.assign m (v.held as) } =
        .ok () { s with store := s.store.assign m (v.held as) } := by
  have hrefused (n : ℕ) (t : Term) (h : Term.Blocked m n t) (hn : n < unboundedGas)
      (hhead : t.headHole? = none) :
      c.convert cmp t v s = .error (.located (.mismatch v.render t.render) c.span) s :=
    convert_of_blocked h hunsolved hn hhead hv hdepth
  refine ⟨hrefused, fun as has hgas hfuel => ⟨?_, fun hclosed => Term.isClosed_held hclosed as, ?_⟩⟩
  · exact hrefused as.length _ (Term.blocked_access as) (by omega) (Term.headHole?_access has)
  · refine convert_access_of_solution ?_ hv hgas hfuel hdepth
    rw [Store.solution?_assign, if_pos rfl, Array.getElem?_eq_getElem hm]
    rfl

section Example

def emptyConverter : Converter := ⟨⟨{}, {}⟩, [], {}, default⟩

/-- A pair of numbers that is not known yet. -/
def pairStore : Store where
  holes :=
    #[{ span := default, kind := .implicit, type := .sigma (.named "x") .nat .nat, arity :=
      0, solution := none }]

/-- The first component of the unknown pair is not zero, and then it is. -/
theorem mismatch_of_blocked_pair :
    0 < pairStore.holes.size ∧ pairStore.solution? 0 = none ∧ Term.IsRigid .zero ∧
    0 < emptyConverter.limits.conversionDepth ∧
    emptyConverter.convert .eq (.proj (.hole 0) .fst) .zero { store := pairStore } =
      .error (.located (.mismatch (Term.render .zero) (Term.render (.proj (.hole 0) .fst))) default)
        { store := pairStore } ∧
    (Term.pair .zero .zero).isClosed = true ∧
    emptyConverter.convert .eq (.proj (.hole 0) .fst) .zero
      { store := pairStore.assign 0 (.pair .zero .zero) } =
      .ok () { store := pairStore.assign 0 (.pair .zero .zero) } := by
  have hm : 0 < pairStore.holes.size := by decide
  have hunsolved : pairStore.solution? 0 = none := rfl
  have hdepth : 0 < emptyConverter.limits.conversionDepth := by decide
  obtain ⟨-, haccess⟩ := mismatch_of_blocked emptyConverter .eq (s := { store := pairStore }) (v :=
    .zero) hm hunsolved .zero hdepth
  obtain ⟨hrefused, hclosed, haccepted⟩ := haccess [.proj .fst] (by simp) (by decide) (by decide)
  exact ⟨hm, hunsolved, .zero, hdepth, hrefused, hclosed rfl, haccepted⟩

end Example

end Converter

end LeveledTypes
