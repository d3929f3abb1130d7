import LeveledTypes.Elaboration.Expression
import LeveledTypes.Proofs.Likeness.Instance
import LeveledTypes.Proofs.Likeness.Matching

/-!
# Expressions in states that are alike

An expression elaborates to the same term in states that are alike.
-/
namespace LeveledTypes.Elaborator

open Surface

/-- Elaboration of expressions that ends alike from states that are alike. -/
structure Recursion.Blind (r : Recursion) (R : ElaborationState → ElaborationState → Prop) :
    Prop where
  check : ∀ c x t, Elaborator.Blind R (r.check c x t)
  infer : ∀ c x, Elaborator.Blind R (r.infer c x)

theorem implements_equiv {env env' : Environment} (h : env.Equiv env') :
    Recursion.implements env = Recursion.implements env' := by
  funext is n c
  induction n generalizing c with
  | zero => rfl
  | succ n ih => simp only [Recursion.implements, h.classFields, ih]

section Expressions
variable {e : Elaborator} {I : Store → Prop} {R : ElaborationState → ElaborationState → Prop}
  {c : Context} {span : Span} {r : Recursion} (hR : e.Likeness I R) (hr : r.Blind R)

include hR

/-- The type that is expected tells how many implicit arguments are put in. The induction is on how
many there may be. -/
theorem blind_insertImplicits {expected : Term} {y : Typed} {gas : ℕ} :
    Blind R (e.insertImplicits c expected span gas y) := by
  induction gas generalizing y with
  | zero => exact blind_fail
  | succ gas ih =>
    unfold insertImplicits
    refine .bind (blind_whnf hR) fun t => ?_
    split
    case h_1 q dom cod =>
      extract_lets wanted
      split
      · exact .pure y
      · exact .bind (blind_implicitArg hR) fun a => ih
    case h_2 => exact .pure y

include hr

theorem blind_inferType {x : Expr} : Blind R (r.inferType e c x) := by
  refine .bind (hr.infer c x) fun ⟨t, type⟩ => .bind (blind_whnf hR) fun k => ?_
  split
  case h_1 => exact .pure _
  case h_2 =>
    extract_lets join
    have hjoin : Blind R (join ()) :=
      .bind (blind_freshUniverse hR) fun u => .bind (blind_unify hR) fun _ => .pure _
    split
    · exact .bind blind_fail fun _ => hjoin
    · exact hjoin

theorem blind_letValue {type : Option Expr} {x : Expr} : Blind R (r.letValue e c type x) := by
  unfold Recursion.letValue
  split
  case h_1 =>
    exact .bind (blind_inferType hR hr) fun ⟨t, u⟩ => .bind (hr.check c x t) fun v => .pure _
  case h_2 => exact hr.infer c x

/-- The scrutinee, the motive and the clauses are elaborated one after the other, from states that
are alike each time. -/
theorem blind_case {scrut : Expr} {v : Variable} {ret : Option Expr} {cs : List (Clause Expr)}
    {expected : Option Term} : Blind R (r.case e c scrut v ret cs expected span) := by
  refine .bind (hr.infer c scrut) fun ⟨s, type⟩ => ?_
  dsimp -zeta only
  extract_lets d join₁ join₂
  have hjoin₁ (goal : Term) : Blind R (join₁ goal) := by
    refine .bind (blind_clauses hR hr.check) fun body => ?_
    dsimp only
    split
    · exact .bind (blind_subtype hR) fun _ => .pure _
    · exact .pure _
  have hjoin₂ (outer : Option Term) : Blind R (join₂ outer) := by
    unfold join₂
    split
    · exact .bind (blind_inferType hR hr) fun t => .bind (.pure _) hjoin₁
    · exact .bind (.pure _) hjoin₁
    · exact .bind (blind_freshType hR) hjoin₁
  split
  · exact .bind (.pure none) hjoin₂
  · exact .bind (.pure _) hjoin₂
  · exact .bind (.map (blind_freshType hR)) hjoin₂

/-- The type of the function is reduced to the same term on both sides. Implicit parameters before
the argument are filled with holes; the induction is on how many there may be. -/
theorem blind_apply {f : Expr} {info : BinderInfo} {x : Expr} {y : Typed} {gas : ℕ} :
    Blind R (r.apply e c f info x span gas y) := by
  induction gas generalizing y with
  | zero => exact blind_fail
  | succ gas ih =>
    unfold Recursion.apply
    refine .bind (blind_whnf hR) fun t => ?_
    split
    case h_1 q dom cod =>
      split
      · exact .bind (hr.check c x dom) fun a => .pure _
      · split
        · exact .bind (blind_implicitArg hR) fun a => ih
        · exact blind_mismatch
    case h_2 =>
      extract_lets b join
      have hjoin : Blind R (join ()) :=
        .bind (blind_freshType hR) fun dom => .bind (blind_freshType hR) fun cod => .bind
          (blind_unify hR) fun _ => ih
      split
      · exact .bind blind_fail fun _ => hjoin
      · exact hjoin

/-- Registries that hold the same have the same fields of classes. The induction is on the depth of
superclasses, and the fields are gone through in order. -/
theorem blind_fields {is : List (Implementation Expr)} {depth : ℕ} {cls : ClassType} :
    Blind R (r.fields e c is span depth cls) := by
  induction depth generalizing cls with
  | zero => exact blind_fail
  | succ depth ih =>
    refine twins_environment hR fun env env' henv => ?_
    rw [henv.classFields, implements_equiv henv]
    refine .foldlM fun (values, used) f => ?_
    dsimp -zeta only
    extract_lets type join
    have hjoin (p : Term × List ℕ) : Blind R (join p) := .pure _
    split
    case h_1 =>
      split
      · exact .bind (blind_classType hR) fun sup => .bind ih fun (vs, here) => .bind (.pure _) hjoin
      · exact .bind (blind_implicitArg hR) fun v => .bind (.pure _) hjoin
    case h_2 =>
      split
      · split
        · exact .bind (hr.check c _ type) fun v => .bind (.pure _) hjoin
        · exact .bind (.pure _) hjoin
      · split
        · exact .bind (.pure _) hjoin
        · exact .bind blind_mismatch hjoin

theorem blind_implementations {is : List (Implementation Expr)} {cls : ClassType} :
    Blind R (r.implementations e c cls is span) := by
  refine twins_environment hR fun env env' henv => ?_
  rw [henv.size]
  refine .bind (blind_fields hR hr) fun (values, used) => ?_
  dsimp only
  split
  · exact blind_fail
  · exact .pure _

/-- One case for each form of expressions. -/
theorem blind_inferWith {x : Expr} : Blind R (e.inferWith r c x) := by
  unfold inferWith
  extract_lets binder
  have hbinder {p : Binder} {a b : Expr} : Blind R (binder p a b) :=
    .bind (blind_inferType hR hr) fun (dom, u) => .bind (blind_inferType hR hr) fun (cod, v) =>
      .bind (blind_maxUniverse hR) fun w => .pure _
  split
  case h_1 => exact blind_fail
  case h_2 => exact .bind blind_localVar fun (t, type) => .pure _
  case h_3 => exact .bind (blind_global hR) fun (t, type) => .pure _
  case h_4 =>
    extract_lets u
    split
    · split
      · exact .bind blind_fail fun _ => .pure _
      · exact .pure _
    · exact blind_fail
  case h_5 => exact .bind hbinder fun (dom, cod, u) => .pure _
  case h_6 => exact .bind hbinder fun (dom, cod, u) => .pure _
  case h_7 p a b =>
    split
    case' h_1 => refine .bind (blind_freshType hR) fun dom => ?_
    case' h_2 => refine .bind (blind_inferType hR hr) fun d => .bind (.pure _) fun dom => ?_
    all_goals exact .bind (hr.infer _ b) fun y => .pure _
  case h_8 f info a => exact .bind (hr.infer c f) fun y => blind_apply hR hr
  case h_9 v t a b =>
    exact .bind (blind_letValue hR hr) fun y => .bind (hr.infer _ b) fun body => .pure _
  case h_10 a b => exact .bind (hr.infer c a) fun y => .bind (hr.infer c b) fun z => .pure _
  case h_11 a side =>
    refine .bind (hr.infer c a) fun ⟨a, type⟩ => .bind (blind_whnf hR) fun k => ?_
    split
    · exact .pure _
    · exact .pure _
    · exact .bind (blind_shown hR) fun _ => blind_mismatch
  case h_12 => exact blind_case hR hr
  case h_13 k is =>
    refine .bind (blind_inferType hR hr) fun (k, u) => .bind (blind_classType hR) fun cls => ?_
    exact .bind (blind_implementations hR hr) fun xs => .pure _
  case h_14 => exact .pure _
  case h_15 => exact .bind (blind_freshType hR) fun type => .bind (blind_fresh hR) fun t => .pure _
  case h_16 => exact .bind (blind_freshType hR) fun type => .bind (blind_goal hR) fun t => .pure _

/-- The type of the expression is inferred and compared with the one that is expected. -/
theorem blind_checkPlain {x : Expr} {type expected : Term} :
    Blind R (e.checkPlain r c x type expected) := by
  unfold checkPlain
  split
  case h_1 a b _ s t =>
    exact .bind (hr.check c a s) fun a => .bind (hr.check c b _) fun b => .pure _
  case h_2 v t a b =>
    exact .bind (blind_letValue hR hr) fun y => .bind (hr.check _ b _) fun b => .pure _
  case h_3 => exact .bind (blind_case hR hr) fun y => .pure _
  case h_4 => exact blind_fresh hR
  case h_5 => exact blind_goal hR
  case h_6 =>
    refine .bind (hr.infer c x) fun y => .bind (blind_insertImplicits hR) fun y => ?_
    exact .bind (blind_subtype hR) fun _ => .pure _

/-- The type is reduced first, to the same term on both sides, so that the same case is taken. -/
theorem blind_checkWith {x : Expr} {type : Term} : Blind R (e.checkWith r c x type) := by
  refine .bind (blind_whnf hR) fun expected => ?_
  split
  case h_1 q dom cod =>
    extract_lets implicitLam
    have hlam {p : Binder} {dom : Term} {b : Expr} :
        Blind R (do return Term.lam p dom (← r.check (c.push p dom) b cod)) :=
      .bind (hr.check _ b cod) fun body => .pure _
    split
    case h_1 p t b =>
      split
      · split
        · exact .bind (.pure _) fun dom => hlam
        · refine .bind (blind_inferType hR hr) fun (d, u) => .bind (blind_unify hR) fun _ => ?_
          exact .bind (.pure _) fun dom => hlam
      · split
        · exact hlam
        · exact blind_checkPlain hR hr
    case h_2 =>
      split
      · exact hlam
      · exact blind_checkPlain hR hr
  case h_2 => exact blind_checkPlain hR hr

omit hr

theorem blind_gas (gas : ℕ) : Recursion.Blind ⟨e.checkGas gas, e.inferGas gas⟩ R := by
  induction gas with
  | zero => exact ⟨fun _ _ _ => blind_fail, fun _ _ => blind_fail⟩
  | succ gas ih => exact ⟨fun _ _ _ => blind_checkWith hR ih, fun _ _ => blind_inferWith hR ih⟩

theorem blind_recursion : e.recursion.Blind R := blind_gas hR unboundedGas

end Expressions

end LeveledTypes.Elaborator
