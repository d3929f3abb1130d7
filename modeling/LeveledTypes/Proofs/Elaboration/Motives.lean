import LeveledTypes.Proofs.Elaboration.Clauses
import LeveledTypes.Proofs.Term.Substitution
import Mathlib

/-!
# The goals of branches

A split abstracts the goal over its scrutinee, which gives the motive. The motive at the scrutinee
is the goal again, and in a branch, at the constructor of the branch, it is the goal that the branch
is compiled against. So in a case tree made of clauses, each split has the goal as its type, and the
right-hand sides are checked against the goals of their branches.
-/
namespace LeveledTypes

open Surface

namespace Term
variable (t goal scrut con : Term) (i k : ℕ)

theorem abstractVar_subst_var : (t.abstractVar i).subst (.var i) = t := by
  rw [abstractVar_eq_inst, subst_eq_inst, inst_inst]
  refine (congrArg (t.inst ·) (funext fun j => ?_)).trans (inst_id t)
  by_cases h : j = i
  · rw [if_pos h, inst, push, h]
  · rw [if_neg h, inst, push]

/-- At the scrutinee the motive is the goal. -/
theorem motive_subst : (goal.motive scrut).subst scrut = goal := by
  unfold motive
  split
  case h_1 i => exact abstractVar_subst_var goal i
  case h_2 => exact subst_lift goal scrut

/-- At a constructor whose arguments are `k` new variables, the motive is the goal under these
variables. -/
theorem motive_shift_subst :
    ((goal.motive scrut).shift k 1).subst con = goal.refine scrut k con := by
  unfold motive refine
  split
  case h_1 => rfl
  case h_2 =>
    rw [lift_eq_inst, lift_eq_inst, shift_eq_inst, subst_eq_inst, inst_inst, inst_inst]
    rfl

end Term

namespace Elaborator
variable (e : Elaborator) (check : Context → Expr → Term → Elab Term) (cs : List (Clause Expr))

/-- A case tree for a goal over columns. The motive of a split is the goal at the scrutinee, and a
branch is a case tree for the motive at its constructor. In the end a right-hand side is checked
against the goal. -/
inductive CaseTree : Context → List Column → Term → Term → Prop
  | rhs {c inner : Context} {cols : List Column} {goal t : Term} {k : Clause Expr} {x : Expr}
    {s s' : ElaborationState} :
      k ∈ cs → k.rhs = some x → inner.entries = c.entries → check inner x goal s = .ok t s' →
      CaseTree c cols goal t
  | split {c : Context} {cols : List Column} {goal motive : Term} {j : ℕ} {col : Column}
    {span : Span} {hs : List Head}
      {bs : List (Branch Term)} {s s' : ElaborationState} (heads : Branch Term → Head) :
      cols[j]? = some col → e.heads? c col.type span s = .ok (some hs) s' →
      motive.subst col.term = goal →
      (∀ b ∈ bs, heads b ∈ hs ∧ (heads b).head = b.head ∧ (heads b).args.length = b.arity) →
      (∀ b ∈ bs, CaseTree ((heads b).context c b.names) (branchColumns cols j col.term (heads b))
        ((motive.shift b.arity 1).subst (heads b).term) b.body) →
      CaseTree c cols goal (.case col.term motive bs)

variable {e check cs} {c : Context} {cols : List Column} {goal t : Term} {span : Span} {gas : ℕ}

namespace CaseTree

theorem emptyCase {j : ℕ} {col : Column} {s s' : ElaborationState} (hcol : cols[j]? = some col)
    (hheads : e.heads? c col.type span s = .ok (some []) s') :
    CaseTree e check cs c cols goal (col.term.emptyCase goal) :=
  .split (fun b => ⟨b.head, ⟨""⟩, [], none⟩) hcol hheads (goal.motive_subst col.term)
    (by simp) (by simp)

/-- A split of a column, from what is compiled for its constructors. -/
theorem of_parts {j : ℕ} {col : Column} {hs : List Head}
    {parts : List (Option (Branch Term) × Coverage)} {s s' : ElaborationState}
    (hcol : cols[j]? = some col) (hheads : e.heads? c col.type span s = .ok (some hs) s')
    (hparts : List.Forall₂ (fun h part => ∀ b, part.1 = some b → h.head = b.head ∧
      h.args.length = b.arity ∧
      CaseTree e check cs (h.context c b.names) (branchColumns cols j col.term h)
        (goal.refine col.term h.args.length h.term) b.body) hs parts) :
    CaseTree e check cs c cols goal
      (.case col.term (goal.motive col.term) (parts.filterMap (·.1))) := by
  have hbranch (b : Branch Term) : ∃ h : Head, b ∈ parts.filterMap (·.1) → h ∈ hs ∧
      h.head = b.head ∧
      h.args.length = b.arity ∧
      CaseTree e check cs (h.context c b.names) (branchColumns cols j col.term h)
        (goal.refine col.term h.args.length h.term) b.body := by
    by_cases hb : b ∈ parts.filterMap (·.1)
    · obtain ⟨part, hpart, hpb⟩ := List.mem_filterMap.mp hb
      obtain ⟨h, hh, hP⟩ := exists_mem_of_forall₂_right hparts hpart
      exact ⟨h, fun _ => ⟨hh, hP b hpb⟩⟩
    · exact ⟨⟨b.head, ⟨""⟩, [], none⟩, fun h => absurd h hb⟩
  choose heads hspec using hbranch
  refine .split heads hcol hheads (goal.motive_subst col.term) (fun b hb => ?_) fun b hb => ?_
  · obtain ⟨hmem, hhead, harity, -⟩ := hspec b hb
    exact ⟨hmem, hhead, harity⟩
  · obtain ⟨-, -, harity, htree⟩ := hspec b hb
    rwa [← harity, Term.motive_shift_subst]

end CaseTree

section Runs

/-- What a run returns is returned by some run. -/
theorem ensures_run {α : Type} (x : Elab α) :
    Ensures (fun _ => True) x fun a => ∃ s s', x s = .ok a s' :=
  .of_forall fun s _ => ⟨fun _ t h => ⟨trivial, s, t, h⟩, fun _ _ _ => trivial⟩

/-- What is left of a clause in a branch is left of the same clause. -/
theorem ensures_specializeRow {j : ℕ} {type : Term} {h : Head} {r : Row} :
    Ensures (fun _ => True) (specializeRow c j type h r) fun o => ∀ r', o = some r' →
    r'.index = r.index := by
  unfold specializeRow
  split
  case h_1 => exact .pure (by simp)
  case h_2 p _ =>
    refine .bind (P := fun _ => True) ((ensures_run _).mono fun _ _ => trivial) fun o _ => ?_
    split
    · exact .pure (by simp)
    · refine .pure fun r' hr' => ?_
      obtain rfl := Option.some.inj hr'
      rfl

/-- A leaf is a case tree for its goal: the right-hand side of a clause that is checked against it.
-/
theorem ensures_leaf {row : Row} (hrow : row.index < cs.length) :
    Ensures (fun _ => True) (leaf check c cs row cols goal) fun r =>
      CaseTree e check cs c cols goal r.1 := by
  unfold leaf
  rw [List.getElem?_eq_getElem hrow]
  dsimp only
  split
  case h_1 => exact .throw _
  case h_2 x hx =>
    refine .bind (ensures_run _) fun t ht => .pure ?_
    obtain ⟨s, s', hrun⟩ := ht
    refine .rhs (List.getElem_mem hrow) hx ?_ hrun
    rw [Context.addAliases_eq]

/-- A branch is a case tree for the goal refined by its constructor, if the case trees below it are.
-/
theorem ensures_branchOf {rows : List Row} {j : ℕ} {col : Column} {h : Head}
    (hrows : ∀ r ∈ rows, r.index < cs.length)
    (ih : ∀ row others, (∀ r ∈ row :: others, r.index < cs.length) →
      ∀ d ds g, Ensures (fun _ => True)
      (e.split check cs span gas d row others ds g) fun r => CaseTree e check cs d ds g r.1) :
    Ensures (fun _ => True) (branchOf e check cs span gas c rows cols goal j col h) fun part => ∀ b,
      part.1 = some b →
      h.head = b.head ∧ h.args.length = b.arity ∧ CaseTree e check cs (h.context c b.names)
        (branchColumns cols j col.term h) (goal.refine col.term h.args.length h.term) b.body := by
  have hindex (r : Row) (hr : r ∈ rows) :
      Ensures (fun _ => True) (specializeRow (h.context c (h.names j rows)) j col.type h r)
      fun o => ∀ r', o = some r' → r'.index < cs.length :=
    ensures_specializeRow.mono fun o ho r' hr' => ho r' hr' ▸ hrows r hr
  refine .bind (.filterMapM hindex) fun rows' hrows' => ?_
  split
  · exact .pure (by simp)
  · rename_i first others
    refine .bind (ih first others hrows' _ _ _) fun r hr => .pure fun b hb => ?_
    obtain rfl := Option.some.inj hb
    exact ⟨rfl, (h.length_names j rows).symm, hr⟩

/-- Compiling clauses gives a case tree for the goal. -/
theorem ensures_split {row : Row} {others : List Row}
    (hrows : ∀ r ∈ row :: others, r.index < cs.length) :
    Ensures (fun _ => True) (e.split check cs span gas c row others cols goal) fun r =>
      CaseTree e check cs c cols goal r.1 := by
  induction gas generalizing c row others cols goal with
  | zero => exact .throw _
  | succ gas ih =>
    unfold split
    extract_lets j
    split
    case h_1 p col hp hcol =>
      refine .bind (ensures_run _) fun o ho => ?_
      obtain ⟨s, s', hheads⟩ := ho
      split
      case h_1 =>
        exact .bind (P := fun _ => True) ((ensures_run _).mono fun _ _ => trivial)
          fun _ _ => .throw _
      case h_2 => exact .pure (.emptyCase hcol hheads)
      case h_3 heads _ =>
        refine .bind (P := fun _ => True) ((ensures_run _).mono fun _ _ => trivial) fun _ _ => ?_
        refine .bind (.mapM fun h _ => ?_) fun parts hparts => .pure (.of_parts hcol hheads hparts)
        exact ensures_branchOf (h := h) hrows fun row others hrows d ds g => ih hrows
    case h_2 => exact ensures_leaf (hrows row (by simp))

/-- The column that is found is one of the columns, and its type has no constructors. -/
theorem ensures_emptyColumn? : Ensures (fun _ => True) (e.emptyColumn? c span cols) fun o =>
    ∀ x, o = some x → x ∈ cols ∧ ∃ s s', e.heads? c x.type span s = .ok (some []) s' := by
  induction cols with
  | nil => exact .pure (by simp)
  | cons y ys ih =>
    unfold emptyColumn?
    refine .bind (P := fun o => o = some [] → ∃ s s', e.heads? c y.type span s = .ok (some []) s')
      ?_ fun o ho => ?_
    · refine .tryCatch ((ensures_run _).mono fun o ho h => h ▸ ho) fun _ => .pure (by simp)
    · split
      · refine .pure fun x hx => ?_
        obtain rfl := Option.some.inj hx
        exact ⟨by simp, ho rfl⟩
      · exact ih.mono fun o ho x hx => (ho x hx).imp_left (List.mem_cons_of_mem y)

/-- Clauses that are compiled give a case tree for the goal. -/
theorem caseTree_of_clauses {s s' : ElaborationState}
    (hr : e.clauses check c cs cols goal span s = .ok t s') :
    CaseTree e check cs c cols goal t := by
  obtain ⟨-, ⟨-, x, hempty, rfl⟩ | ⟨row, rest, gas, coverage, u, hrows, hsplit, -⟩⟩ :=
    clauses_eq_ok hr
  · obtain ⟨hx, s, s', hheads⟩ := (ensures_emptyColumn?.ok trivial hempty).2 x rfl
    obtain ⟨j, hj⟩ := List.mem_iff_getElem?.mp hx
    exact .emptyCase hj hheads
  · refine ((ensures_split fun r hr => ?_).ok trivial hsplit).2
    rw [← hrows] at hr
    obtain ⟨⟨k, i⟩, hki, rfl⟩ := List.mem_map.mp hr
    exact (List.getElem?_eq_some_iff.mp (List.mem_zipIdx_iff_getElem?.mp hki)).1

end Runs

/-- Abstracting a goal over a variable and putting a constructor for it under the `k` variables of a
branch replaces this variable alone and makes room for the new ones. So a motive is the goal at the
scrutinee, and it is the refined goal of a branch at the constructor of the branch, and this is how
clauses are compiled, split by split. -/
theorem motives_fit_goals (t goal scrut con : Term) (i k : ℕ) :
    ((t.abstractVar i).shift k 1).subst con = t.inst
      (fun j => if j = i then con else .var (j + k)) ∧ (t.abstractVar i).subst (.var i) = t ∧
    (goal.motive scrut).subst scrut = goal ∧
    ((goal.motive scrut).shift k 1).subst con = goal.refine scrut k con ∧
    (∀ (e : Elaborator) check cs span gas c row others cols goal s t coverage s',
      (∀ r ∈ row :: others, r.index < cs.length) →
      e.split check cs span gas c row others cols goal s = .ok (t, coverage) s' →
      CaseTree e check cs c cols goal t) ∧
    ∀ (e : Elaborator) check cs span c cols goal s t s',
      e.clauses check c cs cols goal span s = .ok t s' → CaseTree e check cs c cols goal t :=
  ⟨t.refine_var con i k, t.abstractVar_subst_var i, goal.motive_subst scrut,
    goal.motive_shift_subst scrut con k,
    fun _ _ _ _ _ _ _ _ _ _ _ _ _ _ hrows hr => ((ensures_split hrows).ok trivial hr).2,
    fun _ _ _ _ _ _ _ _ _ _ hr => caseTree_of_clauses hr⟩

/-- A goal that depends on two variables, and is `Nat` for all their values. -/
def pairGoal (a b : Term) : Term :=
  let x : Binder := ⟨⟨"_", 0⟩, .explicit⟩
  .app (.app (.lam x .nat (.lam x .nat .nat)) a) b

/-- A variable that is split, and a later one. -/
def twoNumbers : Context := numberContext.push ⟨⟨"k", 3⟩, .explicit⟩ .nat

def outerTree : Term := .case (.var 1) (pairGoal (.var 1) (.var 0))
    [⟨.zero, [], .zero⟩, ⟨.succ, ["m"], .var 0⟩]

/-- The outer one of two variables is split, where the goal depends on both. -/
theorem motives_fit_goals_outer :
    withEmpty.clauses (withEmpty.checkGas 2) twoNumbers predecessorClauses [⟨.var 1, .nat⟩]
      (pairGoal (.var 0) (.var 1)) default {} = .ok outerTree {} ∧
    CaseTree withEmpty (withEmpty.checkGas 2) predecessorClauses twoNumbers [⟨.var 1, .nat⟩]
      (pairGoal (.var 0) (.var 1)) outerTree ∧
    (((pairGoal (.var 0) (.var 1)).motive (.var 1)).shift 1 1).subst (.succ (.var 0)) =
      pairGoal (.var 1) (.succ (.var 0)) := by
  obtain ⟨-, -, -, hbranch, -, hclauses⟩ :=
    motives_fit_goals .nat (pairGoal (.var 0) (.var 1)) (.var 1) (.succ (.var 0)) 1 1
  have hrun : withEmpty.clauses (withEmpty.checkGas 2) twoNumbers predecessorClauses
      [⟨.var 1, .nat⟩]
    (pairGoal (.var 0) (.var 1)) default {} = .ok outerTree {} := by cbv
  exact ⟨hrun, hclauses _ _ _ _ _ _ _ _ _ _ hrun, hbranch⟩

end Elaborator

end LeveledTypes
