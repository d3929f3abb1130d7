import LeveledTypes.Elaboration.Expression
import LeveledTypes.Proofs.Elaboration.Matching

/-!
# Elaboration of expressions

The elaboration of an expression leaves the definitions and the solutions of holes alone, and makes
a term and a type in which constructors have the right numbers of arguments.
-/
namespace LeveledTypes

open Surface

theorem Term.over_numeral {S : Signature} {a : ℕ∞} (n : ℕ) : (Term.numeral n).Over S a := by
  induction n with
  | zero => trivial
  | succ n ih => exact ih

theorem ClassType.over_instantiate {S : Signature} {cls : ClassType} {fields : List Term} {t : Term}
    (hS : S.Admits cls.univ) (hcls : cls.term.Over S ⊤) (hfields : ∀ v ∈ fields, v.Over S ⊤)
    (ht : t.Over S ⊤) : (cls.instantiate fields t).Over S ⊤ := by
  refine (ht.substLevels hS).substAll (n := ⊤) fun a ha => ?_
  rcases List.mem_append.mp ha with ha | ha
  · exact Term.overAll_iff.mp hcls.2 a ha
  · exact hfields a ha

namespace Elaborator

/-- Elaboration of expressions that leaves the definitions and the solutions of holes alone. -/
structure Recursion.Keeps (r : Recursion) (e : Elaborator) (env : Environment)
    (sol : ℕ → Option Term) : Prop where
  check : ∀ c x t, c.Over env.signature → t.Over env.signature ⊤ →
    e.Keeps env sol (r.check c x t) (·.Over env.signature ⊤)
  infer : ∀ c x, c.Over env.signature → e.Keeps env sol (r.infer c x) fun y =>
    y.term.Over env.signature ⊤ ∧ y.type.Over env.signature ⊤

section Expressions
variable {e : Elaborator} {env : Environment} {sol : ℕ → Option Term} {c : Context}
  {span : Span} {r : Recursion} (henv : env.WellFormed) (hr : r.Keeps e env sol)
  (hc : c.Over env.signature)

include henv

/-- Every step applies the term to a hole over the signature, and instantiates its type by that
hole. -/
theorem keeps_insertImplicits {expected : Term} {y : Typed} {gas : ℕ} (hc : c.Over env.signature)
    (hy : y.term.Over env.signature ⊤ ∧ y.type.Over env.signature ⊤) :
    e.Keeps env sol (e.insertImplicits c expected span gas y) fun y =>
      y.term.Over env.signature ⊤ ∧ y.type.Over env.signature ⊤ := by
  induction gas generalizing y with
  | zero => exact keeps_fail
  | succ gas ih =>
    unfold insertImplicits
    refine .bind (keeps_whnf henv hc hy.2) fun t ht => ?_
    split
    case h_1 q dom cod =>
      extract_lets wanted
      split
      · exact .pure hy
      · exact .bind (keeps_implicitArg henv hc ht.1) fun a ha =>
          ih ⟨⟨hy.1, ha⟩, Term.Over.subst ht.2 ha⟩
    case h_2 => exact .pure hy

include hr hc

/-- The sort of a type is found by reduction; a hole for it is over the signature. -/
theorem keeps_inferType {x : Expr} :
    e.Keeps env sol (r.inferType e c x) (·.1.Over env.signature ⊤) := by
  refine .bind (hr.infer c x hc) fun ⟨t, type⟩ ⟨ht, htype⟩ =>
    .bind (keeps_whnf henv hc htype) fun k hk => ?_
  split
  case h_1 => exact .pure ht
  case h_2 =>
    have hjoin : e.Keeps env sol (do
        let u ← freshUniverse
        e.unify c k (.univ u) x.span
        return (t, u)) (·.1.Over env.signature ⊤) :=
      .bind keeps_freshUniverse fun u _ => .bind (keeps_convert henv hc hk (env.admits u))
        fun _ _ => .pure ht
    split
    · exact .bind (P := fun _ => True) keeps_fail fun _ _ => hjoin
    · exact hjoin

theorem keeps_letValue {type : Option Expr} {x : Expr} :
    e.Keeps env sol (r.letValue e c type x) fun y =>
    y.term.Over env.signature ⊤ ∧ y.type.Over env.signature ⊤ := by
  unfold Recursion.letValue
  split
  case h_1 =>
    refine .bind (keeps_inferType henv hr hc) fun ⟨t, u⟩ ht => ?_
    exact .bind (hr.check c x t hc ht) fun v hv => .pure ⟨hv, ht⟩
  case h_2 => exact hr.infer c x hc

/-- A case split elaborates its scrutinee, its motive and its clauses in turn, each over the
signature. -/
theorem keeps_case {scrut : Expr} {v : Variable} {ret : Option Expr} {cs : List (Clause Expr)}
    {expected : Option Term} (hexpected : ∀ t, expected = some t → t.Over env.signature ⊤) :
    e.Keeps env sol (r.case e c scrut v ret cs expected span) fun y =>
      y.term.Over env.signature ⊤ ∧ y.type.Over env.signature ⊤ := by
  refine .bind (hr.infer c scrut hc) fun ⟨s, type⟩ ⟨hs, htype⟩ => ?_
  dsimp -zeta only at hs htype ⊢
  extract_lets d join₁ join₂
  have hd : d.Over env.signature := hc.push htype
  have hcols : ∀ x ∈ [(⟨.var 0, type.lift 1⟩ : Column)], x.Over env.signature := by
    simpa using ⟨ENat.natCast_lt_top 0, (htype.lift 1).top⟩
  have hjoin₁ {goal : Term} (hgoal : goal.Over env.signature ⊤) :
      e.Keeps env sol (join₁ goal) fun y =>
      y.term.Over env.signature ⊤ ∧ y.type.Over env.signature ⊤ := by
    refine .bind (keeps_clauses henv hr.check hd hcols hgoal) fun body hbody => ?_
    have hpure : e.Keeps env sol (pure ⟨body.subst s, goal.subst s⟩ : Elab Typed) fun y =>
        y.term.Over env.signature ⊤ ∧ y.type.Over env.signature ⊤ :=
      .pure ⟨Term.Over.subst hbody hs, Term.Over.subst hgoal hs⟩
    dsimp only
    split
    · exact .bind (keeps_convert henv hc (Term.Over.subst hgoal hs) (hexpected _ rfl))
        fun _ _ => hpure
    · exact hpure
  have hjoin₂ {outer : Option Term} (houter : ∀ t, outer = some t → t.Over env.signature ⊤) :
      e.Keeps env sol (join₂ outer) fun y => y.term.Over env.signature ⊤ ∧
      y.type.Over env.signature ⊤ := by
    unfold join₂
    split
    · exact .bind (keeps_inferType henv hr hd) fun t ht => .bind (.pure ht) fun _ ht => hjoin₁ ht
    · exact .bind (.pure ((houter _ rfl).lift 1).top) fun _ ht => hjoin₁ ht
    · exact .bind (keeps_freshType hd) fun t ht => hjoin₁ ht
  split
  · refine .bind (P := fun o : Option Term => ∀ t, o = some t → t.Over env.signature ⊤) ?_
      fun _ h => hjoin₂ h
    exact .pure (by simp)
  · exact .bind (.pure hexpected) fun _ h => hjoin₂ h
  · refine .bind (P := fun o : Option Term => ∀ t, o = some t → t.Over env.signature ⊤) ?_
      fun _ h => hjoin₂ h
    exact .map (keeps_freshType hc) fun t ht => by simpa using ht

/-- The argument is checked against the domain, or a hole stands for it; the type is instantiated by
what was found. -/
theorem keeps_apply {f : Expr} {info : BinderInfo} {x : Expr} {y : Typed} {gas : ℕ}
    (hy : y.term.Over env.signature ⊤ ∧ y.type.Over env.signature ⊤) :
    e.Keeps env sol (r.apply e c f info x span gas y) fun y =>
      y.term.Over env.signature ⊤ ∧ y.type.Over env.signature ⊤ := by
  induction gas generalizing y with
  | zero => exact keeps_fail
  | succ gas ih =>
    unfold Recursion.apply
    refine .bind (keeps_whnf henv hc hy.2) fun t ht => ?_
    split
    case h_1 q dom cod =>
      split
      · refine .bind (hr.check c x dom hc ht.1) fun a ha => .pure ?_
        exact ⟨⟨hy.1, ha⟩, Term.Over.subst ht.2 ha⟩
      · split
        · exact .bind (keeps_implicitArg henv hc ht.1) fun a ha =>
            ih ⟨⟨hy.1, ha⟩, Term.Over.subst ht.2 ha⟩
        · exact keeps_mismatch
    case h_2 =>
      extract_lets b join
      have hjoin : e.Keeps env sol (join ()) fun y => y.term.Over env.signature ⊤ ∧
          y.type.Over env.signature ⊤ := by
        refine .bind (keeps_freshType hc) fun dom hdom => .bind
          (keeps_freshType (hc.push hdom)) fun cod hcod => ?_
        exact .bind (keeps_convert henv hc ht ⟨hdom, hcod⟩) fun _ _ => ih ⟨hy.1, hdom, hcod⟩
      split
      · exact .bind (P := fun _ => True) keeps_fail fun _ _ => hjoin
      · exact hjoin

/-- The value of a field is an implementation, a default or an instance of a superclass, each
instantiated by the values before it. -/
theorem keeps_fields {is : List (Implementation Expr)} {depth : ℕ} {cls : ClassType}
    (hcls : cls.term.Over env.signature ⊤) :
    e.Keeps env sol (r.fields e c is span depth cls) fun p =>
      ∀ v ∈ p.1, v.Over env.signature ⊤ := by
  induction depth generalizing cls with
  | zero => exact keeps_fail
  | succ depth ih =>
    refine .bind keeps_environment fun env' henv' => ?_
    subst henv'
    refine .foldlM (by simp) fun (values, used) f hf hvalues => ?_
    obtain ⟨hftype, hdefault⟩ := henv.fields cls.name f hf
    dsimp -zeta only at hvalues ⊢
    extract_lets type join
    have htype : type.Over env'.signature ⊤ :=
      cls.over_instantiate (env'.admits _) hcls hvalues hftype
    have hjoin {v : Term} {here : List ℕ} (hv : v.Over env'.signature ⊤) :
        Ensures (ElaborationState.Follows e env' sol) (pure (v, here) >>= join) fun p =>
          ∀ v ∈ p.1, v.Over env'.signature ⊤ := by
      refine .bind (.pure (P := (· = (v, here))) rfl) fun p hp => .pure fun w hw => ?_
      rcases List.mem_append.mp hw with hw | hw
      · exact hvalues w hw
      · obtain rfl := List.mem_singleton.mp hw
        exact hp ▸ hv
    split
    case h_1 =>
      split
      · refine .bind (keeps_classType henv hc htype) fun sup hsup => .bind
          (ih hsup) fun (vs, here) hvs => ?_
        exact hjoin ⟨trivial, env'.admits _, hsup.2, Term.overAll_iff.mpr hvs⟩
      · exact .bind (keeps_implicitArg henv hc htype) fun v hv => hjoin hv
    case h_2 =>
      split
      · split
        · exact .bind (hr.check c _ type hc htype) fun v hv => hjoin hv
        · exact hjoin trivial
      · split
        · exact hjoin (cls.over_instantiate (env'.admits _) hcls hvalues (hdefault _ ‹_›))
        · exact .bind (P := fun _ => False) keeps_mismatch fun _ h => h.elim

theorem keeps_implementations {is : List (Implementation Expr)} {cls : ClassType}
    (hcls : cls.term.Over env.signature ⊤) :
    e.Keeps env sol (r.implementations e c cls is span) fun vs =>
      ∀ v ∈ vs, v.Over env.signature ⊤ := by
  refine .bind keeps_environment fun env' _ => ?_
  refine .bind (keeps_fields henv hr hc hcls) fun (values, used) hvalues => ?_
  dsimp only at hvalues ⊢
  split
  · exact keeps_fail
  · exact .pure hvalues

/-- One case for each kind of expression, given that the parts are elaborated over the signature. -/
theorem keeps_inferWith {x : Expr} : e.Keeps env sol (e.inferWith r c x) fun y =>
    y.term.Over env.signature ⊤ ∧ y.type.Over env.signature ⊤ := by
  unfold inferWith
  extract_lets binder
  have hbinder {p : Binder} {a b : Expr} : e.Keeps env sol (binder p a b) fun d =>
      d.1.Over env.signature ⊤ ∧ d.2.1.Over env.signature ⊤ := by
    refine .bind (keeps_inferType henv hr hc) fun (dom, u) hdom => ?_
    refine .bind (keeps_inferType henv hr (hc.push hdom)) fun (cod, v) hcod => ?_
    exact .bind keeps_maxUniverse fun w _ => .pure ⟨hdom, hcod⟩
  split
  case h_1 => exact keeps_fail
  case h_2 => exact .bind (keeps_localVar hc) fun (t, type) h => .pure h
  case h_3 => exact .bind (keeps_global henv) fun (t, type) h => .pure h
  case h_4 =>
    extract_lets u
    split
    · split
      · exact .bind (P := fun _ => True) keeps_fail fun _ _ => .pure ⟨env.admits _, env.admits _⟩
      · exact .pure ⟨env.admits _, env.admits _⟩
    · exact keeps_fail
  case h_5 => exact .bind hbinder fun (dom, cod, u) h => .pure ⟨h, env.admits _⟩
  case h_6 => exact .bind hbinder fun (dom, cod, u) h => .pure ⟨h, env.admits _⟩
  case h_7 p a b =>
    split
    case' h_1 => refine .bind (keeps_freshType hc) fun dom hdom => ?_
    case' h_2 =>
      refine .bind (keeps_inferType henv hr hc) fun d hdom => ?_
      refine .bind (.pure hdom) fun dom hdom => ?_
    all_goals exact .bind (hr.infer _ b (hc.push hdom)) fun y h => .pure ⟨⟨hdom, h.1⟩, hdom, h.2⟩
  case h_8 f info a => exact .bind (hr.infer c f hc) fun y hy => keeps_apply henv hr hc hy
  case h_9 v t a b =>
    refine .bind (keeps_letValue henv hr hc) fun ⟨a, type⟩ ⟨ha, htype⟩ => ?_
    refine .bind (hr.infer _ b (hc.push htype ?_)) fun ⟨body, bodyType⟩ h => .pure ?_
    · simpa using ha
    · exact ⟨⟨htype, ha, h.1⟩, Term.Over.subst h.2 ha⟩
  case h_10 a b =>
    refine .bind (hr.infer c a hc) fun ⟨a, s⟩ ha => .bind
      (hr.infer c b hc) fun ⟨b, t⟩ hb => .pure ?_
    exact ⟨⟨ha.1, hb.1⟩, ha.2, hb.2.lift 1⟩
  case h_11 a side =>
    refine .bind (hr.infer c a hc) fun ⟨a, type⟩ ⟨ha, htype⟩ => .bind
      (keeps_whnf henv hc htype) fun k hk => ?_
    split
    · exact .pure ⟨ha, hk.1⟩
    · exact .pure ⟨ha, Term.Over.subst hk.2 ha⟩
    · exact .bind keeps_shown fun _ _ => keeps_mismatch
  case h_12 => exact keeps_case henv hr hc (by simp)
  case h_13 k is =>
    refine .bind (keeps_inferType henv hr hc) fun (k, u) hk => .bind
      (keeps_classType henv hc hk) fun cls hcls => ?_
    refine .bind (keeps_implementations henv hr hc hcls) fun xs hxs => .pure ⟨?_, hcls⟩
    exact ⟨trivial, hcls.1, hcls.2, Term.overAll_iff.mpr hxs⟩
  case h_14 => exact .pure ⟨Term.over_numeral _, trivial⟩
  case h_15 =>
    exact .bind (keeps_freshType hc) fun type htype => .bind
      (keeps_fresh hc htype) fun t ht => .pure ⟨ht, htype⟩
  case h_16 =>
    exact .bind (keeps_freshType hc) fun type htype => .bind
      (keeps_goal hc htype) fun t ht => .pure ⟨ht, htype⟩

/-- Pairs, bindings, case splits and holes use the expected type; any other expression is inferred
and compared with it. -/
theorem keeps_checkPlain {x : Expr} {type expected : Term} (htype : type.Over env.signature ⊤)
    (hexpected : expected.Over env.signature ⊤) :
    e.Keeps env sol (e.checkPlain r c x type expected) (·.Over env.signature ⊤) := by
  unfold checkPlain
  split
  case h_1 a b _ s t =>
    refine .bind (hr.check c a s hc hexpected.1) fun a ha => ?_
    exact .bind (hr.check c b _ hc (Term.Over.subst hexpected.2 ha)) fun b hb => .pure ⟨ha, hb⟩
  case h_2 v t a b =>
    refine .bind (keeps_letValue henv hr hc) fun ⟨a, s⟩ ⟨ha, hs⟩ => ?_
    refine .bind (hr.check _ b _ (hc.push hs ?_) (htype.lift 1).top) fun b hb => .pure ⟨hs, ha, hb⟩
    simpa using ha
  case h_3 => exact .bind (keeps_case henv hr hc (by simpa using htype)) fun y hy => .pure hy.1
  case h_4 => exact keeps_fresh hc htype
  case h_5 => exact keeps_goal hc htype
  case h_6 =>
    refine .bind (hr.infer c x hc) fun y hy => .bind
      (keeps_insertImplicits henv hc hy) fun y hy => ?_
    exact .bind (keeps_convert henv hc hy.2 htype) fun _ _ => .pure hy.1

/-- A function is checked against a function type of its own kind; for any other expression an
implicit parameter is put in front. -/
theorem keeps_checkWith {x : Expr} {type : Term} (htype : type.Over env.signature ⊤) :
    e.Keeps env sol (e.checkWith r c x type) (·.Over env.signature ⊤) := by
  refine .bind (keeps_whnf henv hc htype) fun expected hexpected => ?_
  split
  case h_1 q dom cod =>
    extract_lets implicitLam
    have hlam {p : Binder} {dom : Term} {b : Expr} (hdom : dom.Over env.signature ⊤) :
        e.Keeps env sol (do return Term.lam p dom (← r.check (c.push p dom) b cod))
          (·.Over env.signature ⊤) :=
      .bind (hr.check _ b cod (hc.push hdom) hexpected.2) fun body hbody => .pure ⟨hdom, hbody⟩
    have hplain := keeps_checkPlain (x := x) henv hr hc htype hexpected
    split
    case h_1 p t b =>
      split
      · split
        · exact .bind (.pure hexpected.1) fun dom hdom => hlam hdom
        · refine .bind (keeps_inferType henv hr hc) fun (d, u) hd => ?_
          exact .bind (keeps_convert henv hc hexpected.1 hd) fun _ _ => .bind
            (.pure hd) fun dom hdom => hlam hdom
      · split
        · exact hlam hexpected.1
        · exact hplain
    case h_2 =>
      split
      · exact hlam hexpected.1
      · exact hplain
  case h_2 => exact keeps_checkPlain henv hr hc htype hexpected

omit hr hc in
/-- The elaboration of expressions, to any depth, leaves the definitions and the solutions of holes
alone. -/
theorem keeps_gas (gas : ℕ) : Recursion.Keeps ⟨e.checkGas gas, e.inferGas gas⟩ e env sol := by
  induction gas with
  | zero => exact ⟨fun _ _ _ _ _ => keeps_fail, fun _ _ _ => keeps_fail⟩
  | succ gas ih =>
    exact ⟨fun _ _ _ hc htype => keeps_checkWith henv ih hc htype,
      fun _ _ hc => keeps_inferWith henv ih hc⟩

end Expressions

end Elaborator

end LeveledTypes
