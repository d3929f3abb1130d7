import LeveledTypes.Elaboration.Expression
import LeveledTypes.Proofs.Scoping.Matching

/-!
# Scoped expressions

The elaboration of an expression makes a term and a type over the variables of the context.
-/
namespace LeveledTypes

open Surface

/-- A term and its type over the context. -/
structure Typed.Scoped (A : Arities) (n : ℕ) (y : Typed) : Prop where
  term : y.term.Scoped A n
  type : y.type.Scoped A n

namespace Elaborator

/-- Elaboration of expressions that keeps the state scoped and makes terms over the context. -/
structure Recursion.Scopes (r : Recursion) (e : Elaborator) (A : Arities) (env : Environment) :
    Prop where
  check : ∀ c x t, c.Scoped A → t.Scoped A c.length →
    e.Scopes A env none (r.check c x t) (·.Scoped A c.length)
  infer : ∀ c x, c.Scoped A → e.Scopes A env none (r.infer c x) (·.Scoped A c.length)

section Expressions
variable {e : Elaborator} {A : Arities} {env : Environment} {c : Context}
  {span : Span} {r : Recursion} (henv : env.Scoped A) (hr : r.Scopes e A env) (hc : c.Scoped A)

include henv

/-- A hole for an implicit argument is over the context, and so is the type that is left. The
induction is on how many there may be. -/
theorem scopes_insertImplicits {expected : Term} {y : Typed} {gas : ℕ} (hc : c.Scoped A)
    (hy : y.Scoped A c.length) :
    e.Scopes A env none (e.insertImplicits c expected span gas y) (·.Scoped A c.length) := by
  induction gas generalizing y with
  | zero => exact scopes_fail
  | succ gas ih =>
    unfold insertImplicits
    refine .bind (scopes_whnf henv hc hy.type) fun t ht => ?_
    split
    case h_1 q dom cod =>
      extract_lets wanted
      split
      · exact .pure hy
      · exact .bind (scopes_implicitArg henv hc ht.1) fun a ha =>
          ih ⟨⟨hy.term, ha⟩, Term.Scoped.subst ht.2 ha⟩
    case h_2 => exact .pure hy

include hr hc

/-- The type of a type is reduced to a universe, or unified with one. -/
theorem scopes_inferType {x : Expr} :
    e.Scopes A env none (r.inferType e c x) (·.1.Scoped A c.length) := by
  refine .bind (hr.infer c x hc) fun ⟨t, type⟩ ⟨ht, htype⟩ =>
    .bind (scopes_whnf henv hc htype) fun k hk => ?_
  split
  case h_1 => exact .pure ht
  case h_2 =>
    have hjoin : e.Scopes A env none (do
        let u ← freshUniverse
        e.unify c k (.univ u) x.span
        return (t, u)) (·.1.Scoped A c.length) :=
      .bind scopes_freshUniverse fun u _ => .bind (scopes_convert henv hc hk trivial)
        fun _ _ => .pure ht
    split
    · exact .bind (P := fun _ => True) scopes_fail fun _ _ => hjoin
    · exact hjoin

theorem scopes_letValue {type : Option Expr} {x : Expr} :
    e.Scopes A env none (r.letValue e c type x) (·.Scoped A c.length) := by
  unfold Recursion.letValue
  split
  case h_1 =>
    refine .bind (scopes_inferType henv hr hc) fun ⟨t, u⟩ ht => ?_
    exact .bind (hr.check c x t hc ht) fun v hv => .pure ⟨hv, ht⟩
  case h_2 => exact hr.infer c x hc

/-- The motive is over the context with the scrutinee in front of it, and so are the branches over
theirs. -/
theorem scopes_case {scrut : Expr} {v : Variable} {ret : Option Expr} {cs : List (Clause Expr)}
    {expected : Option Term} (hexpected : ∀ t, expected = some t → t.Scoped A c.length) :
    e.Scopes A env none (r.case e c scrut v ret cs expected span) (·.Scoped A c.length) := by
  refine .bind (hr.infer c scrut hc) fun ⟨s, type⟩ ⟨hs, htype⟩ => ?_
  dsimp -zeta only at hs htype ⊢
  extract_lets d join₁ join₂
  have hd : d.Scoped A := hc.push htype
  have hcols : ∀ x ∈ [(⟨.var 0, type.lift 1⟩ : Column)], x.Scoped A d.length := by
    simp only [List.mem_singleton, forall_eq]
    exact ⟨Nat.succ_pos _, htype.lift 1⟩
  have hjoin₁ {goal : Term} (hgoal : goal.Scoped A d.length) :
      e.Scopes A env none (join₁ goal) (·.Scoped A c.length) := by
    refine .bind (scopes_clauses henv hr.check hd hcols hgoal) fun body hbody => ?_
    have hpure : e.Scopes A env none (pure ⟨body.subst s, goal.subst s⟩ : Elab Typed)
        (·.Scoped A c.length) :=
      .pure ⟨Term.Scoped.subst hbody hs, Term.Scoped.subst hgoal hs⟩
    dsimp only
    split
    · exact .bind (scopes_convert henv hc (Term.Scoped.subst hgoal hs) (hexpected _ rfl))
        fun _ _ => hpure
    · exact hpure
  have hjoin₂ {outer : Option Term} (houter : ∀ t, outer = some t → t.Scoped A c.length) :
      e.Scopes A env none (join₂ outer) (·.Scoped A c.length) := by
    unfold join₂
    split
    · exact .bind (scopes_inferType henv hr hd) fun t ht => .bind (.pure ht) fun _ ht => hjoin₁ ht
    · exact .bind (.pure ((houter _ rfl).lift 1)) fun _ ht => hjoin₁ ht
    · exact .bind (scopes_freshType hd) fun t ht => hjoin₁ ht
  split
  · refine .bind (P := fun o : Option Term => ∀ t, o = some t → t.Scoped A c.length) ?_
      fun _ h => hjoin₂ h
    exact .pure (by simp)
  · exact .bind (.pure hexpected) fun _ h => hjoin₂ h
  · refine .bind (P := fun o : Option Term => ∀ t, o = some t → t.Scoped A c.length) ?_
      fun _ h => hjoin₂ h
    exact .map (scopes_freshType hc) fun t ht => by simpa using ht

/-- The argument is over the context, so that the type of the result is, which has it in place of a
variable. The induction is on how many implicit arguments may come first. -/
theorem scopes_apply {f : Expr} {info : BinderInfo} {x : Expr} {y : Typed} {gas : ℕ}
    (hy : y.Scoped A c.length) :
    e.Scopes A env none (r.apply e c f info x span gas y) (·.Scoped A c.length) := by
  induction gas generalizing y with
  | zero => exact scopes_fail
  | succ gas ih =>
    unfold Recursion.apply
    refine .bind (scopes_whnf henv hc hy.type) fun t ht => ?_
    split
    case h_1 q dom cod =>
      split
      · refine .bind (hr.check c x dom hc ht.1) fun a ha => .pure ?_
        exact ⟨⟨hy.term, ha⟩, Term.Scoped.subst ht.2 ha⟩
      · split
        · exact .bind (scopes_implicitArg henv hc ht.1) fun a ha =>
            ih ⟨⟨hy.term, ha⟩, Term.Scoped.subst ht.2 ha⟩
        · exact scopes_mismatch
    case h_2 =>
      extract_lets b join
      have hjoin : e.Scopes A env none (join ()) (·.Scoped A c.length) := by
        refine .bind (scopes_freshType hc) fun dom hdom => .bind
          (scopes_freshType (hc.push hdom)) fun cod hcod => ?_
        exact .bind (scopes_convert henv hc ht ⟨hdom, hcod⟩) fun _ _ => ih ⟨hy.term, hdom, hcod⟩
      split
      · exact .bind (P := fun _ => True) scopes_fail fun _ _ => hjoin
      · exact hjoin

/-- There is a value for each field taken up so far, which the type of the next field is over. -/
theorem scopes_fields {is : List (Implementation Expr)} {depth : ℕ} {cls : ClassType}
    (hcls : cls.term.Scoped A c.length) :
    e.Scopes A env none (r.fields e c is span depth cls) fun p => ∀ v ∈ p.1,
      v.Scoped A c.length := by
  induction depth generalizing cls with
  | zero => exact scopes_fail
  | succ depth ih =>
    refine .bind scopes_environment fun env' henv' => ?_
    subst henv'
    let P (i : ℕ) (p : List Term × List ℕ) : Prop := p.1.length = i ∧ ∀ v ∈ p.1, v.Scoped A c.length
    refine Ensures.mono (Ensures.foldlM_of_getElem? (P := P) ⟨rfl, by simp⟩ ?_) fun p hp => hp.2
    rintro i ⟨values, used⟩ f hf ⟨hlength, hvalues⟩
    dsimp -zeta only at hlength hvalues ⊢
    obtain ⟨hftype, hdefault⟩ := henv.classFields hf
    rw [← hlength] at hftype hdefault
    extract_lets type join
    have htype : type.Scoped A c.length := ClassType.scoped_instantiate hcls hvalues hftype
    have hjoin {v : Term} {here : List ℕ} (hv : v.Scoped A c.length) :
        e.Scopes A env' none (pure (v, here) >>= join) (P (i + 1)) := by
      refine .bind (.pure (P := (· = (v, here))) rfl) fun p hp => .pure ⟨?_, fun w hw => ?_⟩
      · rw [List.length_append, hlength]
        rfl
      · rcases List.mem_append.mp hw with hw | hw
        · exact hvalues w hw
        · obtain rfl := List.mem_singleton.mp hw
          exact hp ▸ hv
    split
    case h_1 =>
      split
      · refine .bind (scopes_classType henv hc htype) fun sup hsup => .bind
          (ih hsup) fun (vs, here) hvs => ?_
        exact hjoin ⟨hsup.2, Term.scopedAll_iff.mpr hvs⟩
      · exact .bind (scopes_implicitArg henv hc htype) fun v hv => hjoin hv
    case h_2 =>
      split
      · split
        · exact .bind (hr.check c _ type hc htype) fun v hv => hjoin hv
        · exact hjoin trivial
      · split
        · exact hjoin (ClassType.scoped_instantiate hcls hvalues (hdefault _ ‹_›))
        · exact .bind (P := fun _ => False) scopes_mismatch fun _ h => h.elim

theorem scopes_implementations {is : List (Implementation Expr)} {cls : ClassType}
    (hcls : cls.term.Scoped A c.length) :
    e.Scopes A env none (r.implementations e c cls is span) fun vs => ∀ v ∈ vs,
      v.Scoped A c.length := by
  refine .bind scopes_environment fun env' _ => ?_
  refine .bind (scopes_fields henv hr hc hcls) fun (values, used) hvalues => ?_
  dsimp only at hvalues ⊢
  split
  · exact scopes_fail
  · exact .pure hvalues

/-- One case for each form of expressions. -/
theorem scopes_inferWith {x : Expr} :
    e.Scopes A env none (e.inferWith r c x) (·.Scoped A c.length) := by
  unfold inferWith
  extract_lets binder
  have hbinder {p : Binder} {a b : Expr} : e.Scopes A env none (binder p a b) fun d =>
      d.1.Scoped A c.length ∧ d.2.1.Scoped A (c.length + 1) := by
    refine .bind (scopes_inferType henv hr hc) fun (dom, u) hdom => ?_
    refine .bind (scopes_inferType henv hr (hc.push hdom)) fun (cod, v) hcod => ?_
    exact .bind scopes_maxUniverse fun w _ => .pure ⟨hdom, hcod⟩
  split
  case h_1 => exact scopes_fail
  case h_2 => exact .bind (scopes_localVar hc) fun (t, type) h => .pure ⟨h.1, h.2⟩
  case h_3 => exact .bind (scopes_global henv) fun (t, type) h => .pure ⟨h.1.closed, h.2.closed⟩
  case h_4 =>
    extract_lets u
    split
    · split
      · exact .bind (P := fun _ => True) scopes_fail fun _ _ => .pure ⟨trivial, trivial⟩
      · exact .pure ⟨trivial, trivial⟩
    · exact scopes_fail
  case h_5 => exact .bind hbinder fun (dom, cod, u) h => .pure ⟨h, trivial⟩
  case h_6 => exact .bind hbinder fun (dom, cod, u) h => .pure ⟨h, trivial⟩
  case h_7 p a b =>
    split
    case' h_1 => refine .bind (scopes_freshType hc) fun dom hdom => ?_
    case' h_2 =>
      refine .bind (scopes_inferType henv hr hc) fun d hdom => ?_
      refine .bind (.pure hdom) fun dom hdom => ?_
    all_goals exact .bind (hr.infer _ b (hc.push hdom)) fun y
      h => .pure ⟨⟨hdom, h.term⟩, hdom, h.type⟩
  case h_8 f info a => exact .bind (hr.infer c f hc) fun y hy => scopes_apply henv hr hc hy
  case h_9 v t a b =>
    refine .bind (scopes_letValue henv hr hc) fun ⟨a, type⟩ ⟨ha, htype⟩ => ?_
    refine .bind (hr.infer _ b (hc.push htype ?_)) fun ⟨body, bodyType⟩ h => .pure ?_
    · simpa using ha
    · exact ⟨⟨htype, ha, h.term⟩, Term.Scoped.subst h.type ha⟩
  case h_10 a b =>
    refine .bind (hr.infer c a hc) fun ⟨a, s⟩ ha => .bind
      (hr.infer c b hc) fun ⟨b, t⟩ hb => .pure ?_
    exact ⟨⟨ha.term, hb.term⟩, ha.type, hb.type.lift 1⟩
  case h_11 a side =>
    refine .bind (hr.infer c a hc) fun ⟨a, type⟩ ⟨ha, htype⟩ => .bind
      (scopes_whnf henv hc htype) fun k hk => ?_
    split
    · exact .pure ⟨ha, hk.1⟩
    · exact .pure ⟨ha, Term.Scoped.subst hk.2 ha⟩
    · exact .bind scopes_shown fun _ _ => scopes_mismatch
  case h_12 => exact scopes_case henv hr hc (by simp)
  case h_13 k is =>
    refine .bind (scopes_inferType henv hr hc) fun (k, u) hk => .bind
      (scopes_classType henv hc hk) fun cls hcls => ?_
    refine .bind (scopes_implementations henv hr hc hcls) fun xs hxs => .pure ⟨?_, hcls⟩
    exact ⟨hcls.2, Term.scopedAll_iff.mpr hxs⟩
  case h_14 => exact .pure ⟨Term.scoped_numeral _, trivial⟩
  case h_15 =>
    exact .bind (scopes_freshType hc) fun type htype => .bind
      (scopes_fresh hc htype) fun t ht => .pure ⟨ht, htype⟩
  case h_16 =>
    exact .bind (scopes_freshType hc) fun type htype => .bind
      (scopes_goal hc htype) fun t ht => .pure ⟨ht, htype⟩

/-- Pairs, local definitions and case splits pass the expected type on; any other expression is
inferred and its type compared. -/
theorem scopes_checkPlain {x : Expr} {type expected : Term} (htype : type.Scoped A c.length)
    (hexpected : expected.Scoped A c.length) :
    e.Scopes A env none (e.checkPlain r c x type expected) (·.Scoped A c.length) := by
  unfold checkPlain
  split
  case h_1 a b _ s t =>
    refine .bind (hr.check c a s hc hexpected.1) fun a ha => ?_
    exact .bind (hr.check c b _ hc (Term.Scoped.subst hexpected.2 ha)) fun b hb => .pure ⟨ha, hb⟩
  case h_2 v t a b =>
    refine .bind (scopes_letValue henv hr hc) fun ⟨a, s⟩ ⟨ha, hs⟩ => ?_
    refine .bind (hr.check _ b _ (hc.push hs ?_) (htype.lift 1)) fun b hb => .pure ⟨hs, ha, hb⟩
    simpa using ha
  case h_3 => exact .bind (scopes_case henv hr hc (by simpa using htype)) fun y hy => .pure hy.term
  case h_4 => exact scopes_fresh hc htype
  case h_5 => exact scopes_goal hc htype
  case h_6 =>
    refine .bind (hr.infer c x hc) fun y hy => .bind
      (scopes_insertImplicits henv hc hy) fun y hy => ?_
    exact .bind (scopes_convert henv hc hy.type htype) fun _ _ => .pure hy.term

/-- The expected type is reduced first. A function type gives the context in which the body of an
abstraction is checked. -/
theorem scopes_checkWith {x : Expr} {type : Term} (htype : type.Scoped A c.length) :
    e.Scopes A env none (e.checkWith r c x type) (·.Scoped A c.length) := by
  refine .bind (scopes_whnf henv hc htype) fun expected hexpected => ?_
  split
  case h_1 q dom cod =>
    extract_lets implicitLam
    have hlam {p : Binder} {dom : Term} {b : Expr} (hdom : dom.Scoped A c.length) :
        e.Scopes A env none (do return Term.lam p dom (← r.check (c.push p dom) b cod))
          (·.Scoped A c.length) :=
      .bind (hr.check _ b cod (hc.push hdom) hexpected.2) fun body hbody => .pure ⟨hdom, hbody⟩
    have hplain := scopes_checkPlain (x := x) henv hr hc htype hexpected
    split
    case h_1 p t b =>
      split
      · split
        · exact .bind (.pure hexpected.1) fun dom hdom => hlam hdom
        · refine .bind (scopes_inferType henv hr hc) fun (d, u) hd => ?_
          exact .bind (scopes_convert henv hc hexpected.1 hd) fun _ _ => .bind
            (.pure hd) fun dom hdom => hlam hdom
      · split
        · exact hlam hexpected.1
        · exact hplain
    case h_2 =>
      split
      · exact hlam hexpected.1
      · exact hplain
  case h_2 => exact scopes_checkPlain henv hr hc htype hexpected

omit hr hc in
/-- The elaboration of expressions, to any depth, makes terms over the context. -/
theorem scopes_gas (gas : ℕ) : Recursion.Scopes ⟨e.checkGas gas, e.inferGas gas⟩ e A env := by
  induction gas with
  | zero => exact ⟨fun _ _ _ _ _ => scopes_fail, fun _ _ _ => scopes_fail⟩
  | succ gas ih =>
    exact ⟨fun _ _ _ hc htype => scopes_checkWith henv ih hc htype,
      fun _ _ hc => scopes_inferWith henv ih hc⟩

end Expressions

end Elaborator

end LeveledTypes
