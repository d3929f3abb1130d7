import LeveledTypes.Elaboration.Declaration
import LeveledTypes.Proofs.Conversion.Soundness
import LeveledTypes.Proofs.Term.Holes

/-!
# The definitions of a declaration

Once the levels of a declaration are solved, every level hole of its store has a level without
holes, and what is left of holes and level holes in the terms of the definitions is what the store
does not know. The universe of a data type is the exception: it is put into the definition as it was
found, with the level holes that it had then.
-/
namespace LeveledTypes

open Surface

namespace LevelGraph

/-- The level of a hole mentions no hole, and there is one for every hole that the solver is told
of. -/
theorem hole?_of_solve {g : LevelGraph} {holes : List ℕ} {sol : List (ℕ × Level)}
    (h : g.solve holes = .ok sol) : (∀ m l, sol.lookup m = some l → l.hole? = none) ∧
    ∀ m ∈ holes, (sol.lookup m).isSome := by
  obtain ⟨d, g', infinite, -, -, hsome, hnone⟩ := solve_eq_ok h
  refine ⟨fun m l hl => ?_, fun m hm => ?_⟩
  · by_cases hm : .hole m ∈ g.nodes holes
    · obtain ⟨l', hl', hval⟩ := hsome m hm
      obtain rfl := Option.some.inj (hl.symm.trans hl')
      split at hval
      · subst hval
        rfl
      · exact hole?_finiteLevel hval
    · simp [hnone m hm] at hl
  · obtain ⟨l, hl, -⟩ := hsome m (mem_nodes_iff.mpr (.inl (.inr (.inr ⟨m, hm, rfl⟩))))
    simp [hl]

end LevelGraph

/-- Every level hole of the store has a level, and levels of level holes mention none. -/
structure Store.Settled (s : Store) : Prop where
  solved : ∀ m ∈ s.pLevels ++ s.hLevels, (s.levelSolution? m).isSome
  closed : ∀ m l, s.levelSolution? m = some l → l.hole? = none

/-- Solving the levels gives every level hole a solution without holes. -/
theorem Store.settled_of_solveLevels {s t : Store} (h : s.solveLevels = .ok t) : t.Settled := by
  obtain ⟨ps, qs, hps, hqs, rfl⟩ := solveLevels_eq_ok h
  obtain ⟨hpclosed, hpsome⟩ := LevelGraph.hole?_of_solve hps
  obtain ⟨hqclosed, hqsome⟩ := LevelGraph.hole?_of_solve hqs
  refine ⟨fun m hm => ?_, fun m l hl => ?_⟩
  · rw [levelSolution?, List.lookup_append, Option.isSome_or]
    rcases List.mem_append.mp hm with hm | hm
    · simp [hpsome m hm]
    · simp [hqsome m hm]
  · rw [levelSolution?, List.lookup_append, Option.or_eq_some_iff] at hl
    exact hl.elim (hqclosed m l) fun h => hpclosed m l h.2

theorem Store.holesIn_zonk {s : Store} (hs : s.Settled) (t : Term) :
    (s.zonk t).HolesIn (fun _ => True) fun m => m ∉ s.pLevels ++ s.hLevels := by
  have h : (t.fillDeep s.solution? s.holes.size).HolesIn (fun _ => True) fun _ => True :=
    fun _ _ => ⟨fun _ _ => trivial, fun _ _ _ _ => trivial⟩
  refine (h.fillLevels hs.closed).mono (fun _ => id) fun m hm hmem => ?_
  simpa [hm.2] using hs.solved m hmem

/-- The terms of a body. -/
def Body.terms : Body → List Term
  | .func b _ | .inst _ b => [b]
  | .constructor _ _ _ ps => ps.getD []
  | .cls fs _ => fs.flatMap fun f => f.type :: f.default.toList
  | .data _ | .field _ _ | .primitive _ | .pending => []

/-- The terms of a definition that are made after the levels are solved: all but the universe of a
data type. -/
def Definition.terms (d : Definition) : List Term :=
  d.tele.map (·.type) ++ (match d.body with
    | .data _ => []
    | _ => [d.type]) ++ d.body.terms

/-- No level hole that the store knows occurs in the terms of some definitions, and no hole either,
unless one occurs that the store does not know. -/
structure Store.Covers (s : Store) (ds : List Definition) : Prop where
  levels : ∀ d ∈ ds, ∀ t ∈ d.terms, ∀ m ∈ t.levelHoles, m ∉ s.pLevels ++ s.hLevels
  holes : (∀ d ∈ ds, ∀ t ∈ d.terms, t.holes = []) ∨ ∃ d ∈ ds, ∃ t ∈ d.terms, ∃ m ∈ t.holes,
    s.holes.size ≤ m

namespace Elaborator
variable {e : Elaborator} {s t : ElaborationState} {d : Decl}

/-- A successful run ends with a store whose levels have just been solved. -/
theorem exists_solveLevels_of_solveAll (h : e.solveAll s = .ok () t) :
    ∃ st : Store, st.solveLevels = .ok t.conversion.store := by
  obtain ⟨o, s₁, -, h⟩ := bind_eq_ok.mp h
  obtain ⟨st, s₂, -, h⟩ := bind_eq_ok.mp h
  obtain ⟨st', s₃, -, h⟩ := bind_eq_ok.mp h
  cases hgoal : st'.goals.head?.bind fun m => st.holes[m]? with
  | some hole =>
    simp only [hgoal] at h
    contradiction
  | none =>
    simp only [hgoal] at h
    cases o with
    | some err => contradiction
    | none =>
      cases hsolve : st.solveLevels with
      | error err =>
        simp only [hsolve] at h
        contradiction
      | ok st₁ =>
        simp only [hsolve] at h
        obtain ⟨-, rfl⟩ := EStateM.Result.ok.inj h
        exact ⟨st, hsolve⟩

theorem settled_of_solveAll (h : e.solveAll s = .ok () t) : t.conversion.store.Settled := by
  obtain ⟨st, hst⟩ := exists_solveLevels_of_solveAll h
  exact Store.settled_of_solveLevels hst

/-- Takes up the constraints and the instance arguments that wait once. -/
def round (e : Elaborator) (force : Bool) : Elab Bool := do
  let retried ← converting (Converter.retryConstraints (← e.environment) e.limits)
  let found ← e.resolveObligations force
  return retried || found

section Settle
variable {force : Bool}

theorem settle_of_error {err : Error} (h : e.round force s = .error err t) :
    e.settle force s = .error err t := by
  rw [settle]
  simp only [round] at h
  simp only [h]

/-- Another round follows if one has helped, and less is left to be found. -/
theorem settle_of_ok {helped : Bool} (h : e.round force s = .ok helped t) : e.settle force s =
    if helped ∧ (t.open?.1 < s.open?.1 ∨ t.open?.1 = s.open?.1 ∧
      (t.open?.2.1 < s.open?.2.1 ∨ t.open?.2.1 = s.open?.2.1 ∧ t.open?.2.2 < s.open?.2.2)) then
        e.settle force t
    else .ok () t := by
  rw [settle]
  simp only [round] at h
  simp only [h]

/-- If nothing waits, settling changes nothing. -/
theorem settle_of_idle (hobligations : s.obligations = [])
    (hconstraints : s.conversion.store.constraints = []) : e.settle force s = .ok () s := by
  obtain ⟨own, conversion, obligations, goals, warnings⟩ := s
  simp only at hobligations hconstraints
  subst hobligations
  have hretry : converting (Converter.retryConstraints ⟨e.base, own⟩ e.limits) ⟨own, conversion, [],
      goals, warnings⟩ = .ok false ⟨own, conversion, [], goals, warnings⟩ := by
    simp only [converting, Converter.retryConstraints]
    rw [Converter.retryFrom, if_pos (by simp [hconstraints])]
  have hround : e.round force ⟨own, conversion, [], goals, warnings⟩ =
      .ok false ⟨own, conversion, [], goals, warnings⟩ :=
    (bind_of_ok hretry).trans rfl
  rw [settle_of_ok hround, if_neg (by simp)]

end Settle

/-- If nothing waits, what is left to do is to solve the levels. -/
theorem solveAll_of_idle {solved : Store} (hobligations : s.obligations = [])
    (hgoals : s.goals = []) (hconstraints : s.conversion.store.constraints = [])
    (hlevels : s.conversion.store.solveLevels = .ok solved) :
    e.solveAll s = .ok () { s with conversion := { s.conversion with store := solved } } := by
  have hsettle (force : Bool) : e.settle force s = .ok () s :=
    settle_of_idle hobligations hconstraints
  have hstore : store s = .ok s.conversion.store s := rfl
  have hsolve : e.solveConstraints s = .ok () s := by
    refine (bind_of_ok (hsettle false)).trans ((bind_of_ok (hsettle true)).trans ?_)
    refine (bind_of_ok hstore).trans ?_
    rw [hconstraints]
    rfl
  have htry : (tryCatch (e.solveConstraints >>= fun _ => pure none) fun err =>
      pure (some err) : Elab (Option Error)) s =
      .ok none s := by
    change EStateM.tryCatch _ _ s = _
    rw [EStateM.tryCatch, bind_of_ok hsolve]
    rfl
  refine (bind_of_ok htry).trans ((bind_of_ok hstore).trans ?_)
  refine (bind_of_ok (show (get : Elab ElaborationState) s = .ok s s from rfl)).trans ?_
  obtain ⟨own, conversion, obligations, goals, warnings⟩ := s
  simp only at hgoals hlevels
  subst hgoals
  simp only [List.head?_nil, Option.bind_none, hlevels]
  rfl

/-- Terms that are not refused have no holes, unless one of them has a hole that the store does not
know. -/
theorem holes_of_ensureSolved {ts : List Term} (h : ensureSolved ts s = .ok () t) : t = s ∧
    ((∀ x ∈ ts, x.holes = []) ∨ ∃ x ∈ ts, ∃ m ∈ x.holes, s.conversion.store.holes.size ≤ m) := by
  obtain ⟨st, s₁, hst, h⟩ := bind_eq_ok.mp h
  obtain ⟨rfl, rfl⟩ := EStateM.Result.ok.inj hst
  cases hfirst : ts.findSome? fun t => t.holes.head? with
  | none =>
    simp only [hfirst] at h
    obtain ⟨-, rfl⟩ := EStateM.Result.ok.inj h
    exact ⟨rfl, .inl fun x hx => by simpa using List.findSome?_eq_none_iff.mp hfirst x hx⟩
  | some m =>
    simp only [hfirst] at h
    cases hm : s.conversion.store.holes[m]? with
    | none =>
      simp only [hm] at h
      obtain ⟨-, rfl⟩ := EStateM.Result.ok.inj h
      obtain ⟨x, hx, hhead⟩ := List.exists_of_findSome?_eq_some hfirst
      exact ⟨rfl, .inr ⟨x, hx, m, List.mem_of_mem_head? hhead, by simpa using hm⟩⟩
    | some hole =>
      simp only [hm] at h
      contradiction

/-- What is left to do when all parts are there: to find what waits, to solve the levels, and to
make definitions. -/
theorem finish_eq_ok {g : Store → List Term} {f : Store → Elab (List Definition)}
    {ds : List Definition} (h :
      (do e.solveAll; let st ← store; ensureSolved (g st); f st : Elab (List Definition)) s =
        .ok ds t) :
    ∃ u, e.solveAll s = .ok () u ∧ ((∀ x ∈ g u.conversion.store, x.holes = []) ∨
      ∃ x ∈ g u.conversion.store, ∃ m ∈ x.holes, u.conversion.store.holes.size ≤ m) ∧
      f u.conversion.store u = .ok ds t := by
  obtain ⟨_, u, hsolve, h⟩ := bind_eq_ok.mp h
  obtain ⟨st, _, hst, h⟩ := bind_eq_ok.mp h
  obtain ⟨rfl, rfl⟩ := EStateM.Result.ok.inj hst
  obtain ⟨_, v, hensure, h⟩ := bind_eq_ok.mp h
  obtain ⟨rfl, hholes⟩ := holes_of_ensureSolved hensure
  exact ⟨_, hsolve, hholes, h⟩

theorem ensures_true {α : Type} (x : Elab α) : Ensures (fun _ => True) x fun _ => True := by
  intro s _
  split <;> trivial

/-- The terms of definitions are made from the given terms, all of which are among them. -/
structure MadeOf (ds : List Definition) (ts : List Term) : Prop where
  made : ∀ H L, (∀ x ∈ ts, x.HolesIn H L) → ∀ d ∈ ds, ∀ x ∈ d.terms, x.HolesIn H L
  kept : ∀ x ∈ ts, ∃ d ∈ ds, x ∈ d.terms

/-- If definitions are returned, they are made from the given terms and the state is as before. -/
def Makes (ts : List Term) (x : Elab (List Definition)) : Prop :=
  ∀ s t ds, x s = .ok ds t → t = s ∧ MadeOf ds ts

theorem makes_pure {ts : List Term} {ds : List Definition} (h : MadeOf ds ts) :
    Makes ts (pure ds) := by
  intro s t ds' hr
  obtain ⟨rfl, rfl⟩ := EStateM.Result.ok.inj hr
  exact ⟨rfl, h⟩

/-- If definitions are returned, the store that is left covers them. -/
def Covering (x : Elab (List Definition)) : Prop :=
  ∀ s t ds, x s = .ok ds t → t.conversion.store.Covers ds

namespace Covering

theorem bind_of {α : Type} {x : Elab α} {P : α → Prop} {f : α → Elab (List Definition)}
    (hx : Ensures (fun _ => True) x P) (h : ∀ a, P a → Covering (f a)) : Covering (x >>= f) := by
  intro s t ds hr
  obtain ⟨a, u, hxu, hr⟩ := bind_eq_ok.mp hr
  exact h a (hx.ok trivial hxu).2 u t ds hr

theorem bind {α : Type} {x : Elab α} {f : α → Elab (List Definition)} (h : ∀ a, Covering (f a)) :
    Covering (x >>= f) :=
  .bind_of (ensures_true x) fun a _ => h a

/-- How the elaboration of every declaration ends: terms of the solved store are made into
definitions unless they are refused. -/
theorem finish {g : Store → List Term} {f : Store → Elab (List Definition)}
    (hts : ∀ st, ∀ x ∈ g st, ∃ y, x = st.zonk y) (hf : ∀ st, Makes (g st) (f st)) :
    Covering (do e.solveAll; let st ← store; ensureSolved (g st); f st) := by
  intro s t ds h
  obtain ⟨u, hsolve, hholes, h⟩ := finish_eq_ok h
  obtain ⟨rfl, hmade⟩ := hf _ _ _ _ h
  have hsettled := settled_of_solveAll hsolve
  refine ⟨fun d hd x hx m hm => ?_,
    hholes.imp (fun hclosed d hd x hx => ?_) fun ⟨x, hx, m, hm, hsize⟩ => ?_⟩
  · have hin := hmade.made (fun _ => True)
      (· ∉ t.conversion.store.pLevels ++ t.conversion.store.hLevels) (fun y hy => ?_)
    · exact (hin d hd x hx).of_mem_levelHoles hm
    · obtain ⟨z, rfl⟩ := hts _ y hy
      exact Store.holesIn_zonk hsettled z
  · refine List.eq_nil_iff_forall_not_mem.mpr fun m hm => ?_
    refine (hmade.made (fun _ => False) (fun _ => True) (fun y hy => ?_) d hd x hx).of_mem_holes hm
    exact Term.holesIn_of_holes (by simp [hclosed y hy]) fun _ _ => trivial
  · obtain ⟨d, hd, hxd⟩ := hmade.kept x hx
    exact ⟨d, hd, x, hxd, m, hm, hsize⟩

end Covering

theorem zonked_tele {st : Store} {tele : Telescope Term} :
    ∀ x ∈ typesOf (zonkTele st tele), ∃ y, x = st.zonk y := by
  intro x hx
  obtain ⟨q, hq, rfl⟩ := List.mem_map.mp hx
  obtain ⟨p, -, rfl⟩ := List.mem_map.mp hq
  exact ⟨p.type, rfl⟩

/-- A definition that has just the given terms. -/
theorem madeOf_singleton {k : Definition} : MadeOf [k] k.terms where
  made _ _ h := by simpa using h
  kept x hx := ⟨k, by simp, hx⟩

/-- The terms of a function are checked for holes once they are zonked. -/
theorem covering_func {type : Option Expr} {body : FuncBody} : Covering (e.func d type body) := by
  refine .bind fun ⟨c, tele, us⟩ => ?_
  dsimp -zeta only
  extract_lets explicit join
  have hjoin (ret : Term) : Covering (join ret) := by
    refine .bind fun _ => ?_
    extract_lets join'
    have hjoin' (body : Term) : Covering (join' body) := by
      refine .finish (g := fun st => typesOf (zonkTele st tele) ++ [st.zonk ret, st.zonk body])
        (fun st x hx => ?_) fun st => ?_
      · rcases List.mem_append.mp hx with hx | hx
        · exact zonked_tele x hx
        · rcases List.mem_pair.mp hx with rfl | rfl <;> exact ⟨_, rfl⟩
      · have hmade (decreasing : Option ℕ) : MadeOf
            [{ span := d.span, name := d.name, tele := zonkTele st tele, type := st.zonk ret,
               body := .func (st.zonk body) decreasing }]
            (typesOf (zonkTele st tele) ++ [st.zonk ret, st.zonk body]) := by
          simpa [Definition.terms, Body.terms, typesOf] using madeOf_singleton (k :=
            ⟨d.span, d.name, zonkTele st tele,
            st.zonk ret, .func (st.zonk body) decreasing, [], default⟩)
        split
        · exact makes_pure (hmade none)
        · exact makes_pure (hmade (some _))
        · intro s t ds hr
          contradiction
    split
    · exact .bind hjoin'
    · exact .bind hjoin'
  split
  · exact .bind fun _ => .bind hjoin
  · exact .bind hjoin

theorem covering_inst {x : Expr} {is : List (Implementation Expr)} : Covering (e.inst d x is) := by
  refine .bind fun ⟨c, tele, us⟩ => .bind fun ⟨type, u⟩ => .bind fun k => .bind fun values => ?_
  refine .finish (g := fun st => typesOf (zonkTele st tele) ++
    [st.zonk k.term, st.zonk (.new k.name k.univ k.params values)])
    (fun st x hx => ?_) fun st => makes_pure ?_
  · rcases List.mem_append.mp hx with hx | hx
    · exact zonked_tele x hx
    · rcases List.mem_pair.mp hx with rfl | rfl <;> exact ⟨_, rfl⟩
  · simpa [Definition.terms, Body.terms, typesOf] using madeOf_singleton (k :=
      ⟨d.span, d.name, zonkTele st tele,
      st.zonk k.term, .inst k.name (st.zonk (.new k.name k.univ k.params values)), [], default⟩)

theorem typesOf_implicitTele (tele : Telescope Term) :
    (implicitTele tele).map (·.type) = typesOf tele := by
  simp [implicitTele, typesOf]

section Classes
variable {H L : ℕ → Prop} {tele : Telescope Term}

/-- An accessor mentions holes only that the parameters of the class or the type of the field
mention. -/
theorem holesIn_accessor {f : ClassField} {span : Span} {index : ℕ}
    (htele : ∀ x ∈ typesOf tele, x.HolesIn H L) (hf : f.type.HolesIn H L) :
    ∀ x ∈ (accessor d tele span index f).terms, x.HolesIn H L := by
  have hself : (Term.record d.name .params
      ((List.range tele.length).reverse.map .var)).HolesIn H L :=
    Term.holesIn_record fun a ha => by
      obtain ⟨i, -, rfl⟩ := List.mem_map.mp ha
      exact Term.holesIn_var i
  have htype : (accessor d tele span index f).type.HolesIn H L := by
    refine hf.substAll fun a ha => ?_
    rcases List.mem_append.mp ha with ha | ha
    · obtain ⟨k, -, rfl⟩ := List.mem_map.mp ha
      exact Term.holesIn_var _
    · obtain ⟨j, -, rfl⟩ := List.mem_map.mp ha
      exact Term.holesIn_field (Term.holesIn_var 0)
  intro x hx
  simp only [Definition.terms, accessor, Body.terms, List.map_append, typesOf_implicitTele,
    List.append_nil, List.mem_append, List.map_cons, List.map_nil, List.mem_singleton] at hx
  obtain (hx | rfl) | rfl := hx
  · exact htele x hx
  · exact hself
  · exact htype

/-- The terms of a class and of its accessors are made of the types of its parameters, and of the
types and the defaults of its fields. -/
theorem madeOf_cls {fs : List ClassField} {accessors : List Definition} {supers : List GlobalName}
    (haccessors : ∀ k ∈ accessors, ∃ span index, ∃ f ∈ fs, k = accessor d tele span index f) :
    MadeOf (⟨d.span, d.name, tele, .univ .params, .cls fs supers, [], default⟩ :: accessors)
      (typesOf tele ++ fs.map (·.type) ++ fs.filterMap (·.default)) := by
  refine ⟨fun H L h k hk x hx => ?_, fun x hx => ⟨_, List.mem_cons_self, ?_⟩⟩
  · simp only [List.mem_append, or_imp, forall_and] at h
    obtain ⟨⟨htele, htypes⟩, hdefaults⟩ := h
    obtain rfl | hk := List.mem_cons.mp hk
    · simp only [Definition.terms, Body.terms, List.mem_append, List.mem_flatMap, List.mem_cons,
        List.not_mem_nil, or_false, Option.mem_toList] at hx
      obtain (hx | rfl) | ⟨f, hf, rfl | hx⟩ := hx
      · exact htele x hx
      · exact Term.holesIn_univ
      · exact htypes _ (List.mem_map_of_mem hf)
      · exact hdefaults x (List.mem_filterMap.mpr ⟨f, hf, hx⟩)
    · obtain ⟨span, index, f, hf, rfl⟩ := haccessors k hk
      exact holesIn_accessor htele (htypes _ (List.mem_map_of_mem hf)) x hx
  · simp only [Definition.terms, Body.terms, List.mem_append, List.mem_flatMap, List.mem_cons,
      Option.mem_toList]
    rcases List.mem_append.mp hx with hx | hx
    · rcases List.mem_append.mp hx with hx | hx
      · exact .inl (.inl hx)
      · obtain ⟨f, hf, rfl⟩ := List.mem_map.mp hx
        exact .inr ⟨f, hf, .inl rfl⟩
    · obtain ⟨f, hf, hx⟩ := List.mem_filterMap.mp hx
      exact .inr ⟨f, hf, .inr hx⟩

end Classes

/-- The terms that a class is made of are checked for holes. -/
theorem covering_cls {supers : List Expr} {fields : List FieldDecl} :
    Covering (e.cls d supers fields) := by
  refine .bind fun ⟨c, tele, us⟩ => .bind fun ⟨c', hidden⟩ => .bind fun own => ?_
  let all (st : Store) := (hidden ++ own).map fun f =>
    { f with type := st.zonk f.type, default := f.default.map st.zonk }
  refine .finish (g := fun st => typesOf (zonkTele st tele) ++ (all st).map (·.type) ++
    (all st).filterMap (·.default)) (fun st x hx => ?_) fun st => makes_pure
      (madeOf_cls fun k hk => ?_)
  · rcases List.mem_append.mp hx with hx | hx
    · rcases List.mem_append.mp hx with hx | hx
      · exact zonked_tele x hx
      · obtain ⟨f, hf, rfl⟩ := List.mem_map.mp hx
        obtain ⟨f, -, rfl⟩ := List.mem_map.mp hf
        exact ⟨f.type, rfl⟩
    · obtain ⟨f, hf, hx⟩ := List.mem_filterMap.mp hx
      obtain ⟨f, -, rfl⟩ := List.mem_map.mp hf
      obtain ⟨y, -, rfl⟩ := Option.map_eq_some_iff.mp hx
      exact ⟨y, rfl⟩
  · obtain ⟨⟨⟨f, i⟩, k⟩, hp, rfl⟩ := List.mem_map.mp hk
    have hf := List.mem_of_mem_drop (List.of_mem_zip hp).1
    exact ⟨_, _, f, List.fst_mem_of_mem_zipIdx hf, rfl⟩

section Constructors
variable {H L : ℕ → Prop} {tele : Telescope Term}

/-- A constructor mentions holes only that the parameters of the data type, its own variables and
fields, or its indices mention. -/
theorem holesIn_ctorDefinition {k : CtorDecl} {index : ℕ} {p : CtorParts}
    (htele : ∀ x ∈ typesOf tele, x.HolesIn H L)
    (hp : ∀ x ∈ typesOf p.vars ++ typesOf p.fields ++ p.indices, x.HolesIn H L) :
    ∀ x ∈ (ctorDefinition d tele k index p).terms, x.HolesIn H L := by
  obtain ⟨guard?, fields⟩ := p
  simp only [List.mem_append, or_imp, forall_and, CtorParts.vars, CtorParts.indices] at hp
  obtain ⟨⟨hvars, hfields⟩, hindices⟩ := hp
  intro x hx
  cases guard? with
  | none =>
    simp only [Definition.terms, ctorDefinition, Body.terms, List.map_append, typesOf_implicitTele,
      List.append_nil, List.mem_append, List.mem_singleton, Option.map_none, Option.getD_none] at hx
    obtain (hx | hx) | rfl := hx
    · exact htele x hx
    · exact hfields x hx
    · refine Term.holesIn_data fun a ha => ?_
      obtain ⟨i, -, rfl⟩ := List.mem_map.mp ha
      exact Term.holesIn_var _
  | some guard =>
    simp only [Definition.terms, ctorDefinition, Body.terms, List.map_append, List.mem_append,
      List.mem_singleton, Option.map_some, Option.getD_some] at hx
    obtain ((hx | hx) | rfl) | hx := hx
    · exact hvars x hx
    · exact hfields x hx
    · refine Term.holesIn_data fun a ha => ?_
      obtain ⟨b, hb, rfl⟩ := List.mem_map.mp ha
      exact (hindices b hb).lift _
    · exact hindices x hx

theorem mem_terms_ctorDefinition {k : CtorDecl} {index : ℕ} {p : CtorParts} {x : Term}
    (hx : x ∈ typesOf p.vars ++ typesOf p.fields ∨ x ∈ p.indices) :
    x ∈ (ctorDefinition d tele k index p).terms := by
  obtain ⟨guard?, fields⟩ := p
  cases guard? <;>
    simp only [CtorParts.vars, CtorParts.indices, typesOf, List.mem_append, Option.map_none,
      Option.map_some, Option.getD_none, Option.getD_some, List.map_nil, List.not_mem_nil, false_or,
      or_false] at hx <;>
    simp only [Definition.terms, ctorDefinition, Body.terms, List.map_append, List.mem_append,
      Option.map_some, Option.getD_some] <;> tauto

/-- The terms of a data type and of its constructors are made of the types of their parameters and
of the indices. The universe of the data type is left out: it is not zonked. -/
theorem madeOf_data {u : Universe} {ctors : List CtorDecl} {parts : List CtorParts}
    (hlen : ctors.length = parts.length) :
    MadeOf (⟨d.span, d.name, tele, .univ u, .data (ctors.map (·.name)), [], default⟩ ::
        (ctors.zip parts).zipIdx.map fun ((k, p), i) => ctorDefinition d tele k i p)
      (typesOf tele ++ parts.flatMap (fun p => typesOf p.vars ++ typesOf p.fields) ++ parts.flatMap
        (·.indices)) := by
  refine ⟨fun H L h k hk x hx => ?_, fun x hx => ?_⟩
  · simp only [List.mem_append, or_imp, forall_and] at h
    obtain ⟨⟨htele, hparts⟩, hindices⟩ := h
    obtain rfl | hk := List.mem_cons.mp hk
    · simp only [Definition.terms, Body.terms, List.append_nil] at hx
      exact htele x hx
    · obtain ⟨⟨⟨c, p⟩, i⟩, hp, rfl⟩ := List.mem_map.mp hk
      have hp : p ∈ parts := (List.of_mem_zip (List.fst_mem_of_mem_zipIdx hp)).2
      refine holesIn_ctorDefinition htele (fun y hy => ?_) x hx
      rcases List.mem_append.mp hy with hy | hy
      · exact hparts y (List.mem_flatMap.mpr ⟨p, hp, hy⟩)
      · exact hindices y (List.mem_flatMap.mpr ⟨p, hp, hy⟩)
  · have hctor (p : CtorParts) (hp : p ∈ parts) (hx : x ∈ typesOf p.vars ++ typesOf p.fields ∨
        x ∈ p.indices) :
        ∃ k ∈ (ctors.zip parts).zipIdx.map fun ((k, p), i) => ctorDefinition d tele k i p,
          x ∈ k.terms := by
      obtain ⟨i, hi, rfl⟩ := List.getElem_of_mem hp
      have hmem : ((ctors[i], parts[i]), i) ∈ (ctors.zip parts).zipIdx := by
        simp [List.mem_zipIdx_iff_getElem?, hi, hlen]
      exact ⟨_, List.mem_map_of_mem hmem, mem_terms_ctorDefinition hx⟩
    rcases List.mem_append.mp hx with hx | hx
    · rcases List.mem_append.mp hx with hx | hx
      · exact ⟨_, List.mem_cons_self, by simpa [Definition.terms, Body.terms, typesOf] using hx⟩
      · obtain ⟨p, hp, hx⟩ := List.mem_flatMap.mp hx
        obtain ⟨k, hk, hx⟩ := hctor p hp (.inl hx)
        exact ⟨k, List.mem_cons_of_mem _ hk, hx⟩
    · obtain ⟨p, hp, hx⟩ := List.mem_flatMap.mp hx
      obtain ⟨k, hk, hx⟩ := hctor p hp (.inr hx)
      exact ⟨k, List.mem_cons_of_mem _ hk, hx⟩

end Constructors

/-- The terms that a data type is made of are checked for holes, but for its universe. -/
theorem covering_data {univ : Option Expr} {ctors : List CtorDecl} :
    Covering (e.data d univ ctors) := by
  refine .bind fun ⟨c, tele, us⟩ => ?_
  dsimp -zeta only
  extract_lets join
  have hjoin (u : Universe) : Covering (join u) := by
    refine .bind fun _ => .bind_of (.mapM (R := fun _ _ => True) fun k _ => ensures_true _)
      fun parts hparts => ?_
    refine .finish (g := fun st => typesOf (zonkTele st tele) ++
      (parts.map (·.zonk st)).flatMap (fun p => typesOf p.vars ++ typesOf p.fields) ++
      (parts.map (·.zonk st)).flatMap (·.indices)) (fun st x hx => ?_) fun st => makes_pure
        (madeOf_data ?_)
    · rcases List.mem_append.mp hx with hx | hx
      · rcases List.mem_append.mp hx with hx | hx
        · exact zonked_tele x hx
        · obtain ⟨p, hp, hx⟩ := List.mem_flatMap.mp hx
          obtain ⟨⟨guard?, fields⟩, -, rfl⟩ := List.mem_map.mp hp
          rcases List.mem_append.mp hx with hx | hx
          · cases guard? with
            | none => contradiction
            | some guard => exact zonked_tele x hx
          · exact zonked_tele x hx
      · obtain ⟨p, hp, hx⟩ := List.mem_flatMap.mp hx
        obtain ⟨⟨guard?, fields⟩, -, rfl⟩ := List.mem_map.mp hp
        cases guard? with
        | none => contradiction
        | some guard =>
          obtain ⟨y, -, rfl⟩ := List.mem_map.mp hx
          exact ⟨y, rfl⟩
    · simpa using hparts.length_eq
  split
  · exact .bind hjoin
  · refine .bind fun ⟨t, u⟩ => .bind fun k => ?_
    split
    · exact .bind hjoin
    · exact .bind hjoin

/-- If a declaration of whatever kind gives definitions, their terms mention no level hole of the
store that is left, but for the universe of a data type, and no hole of it. -/
theorem covers_of_decl (s : ElaborationState) : match e.decl d s with
    | .ok ds t => t.conversion.store.Covers ds
    | .error _ _ => True := by
  have h : Covering (e.decl d) := by
    unfold decl
    split
    · exact covering_func
    · exact covering_data
    · exact covering_cls
    · exact covering_inst
  split
  case h_1 ds t hr => exact h s t ds hr
  case h_2 => trivial

end Elaborator

end LeveledTypes
