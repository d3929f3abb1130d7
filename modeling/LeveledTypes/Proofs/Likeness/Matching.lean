import LeveledTypes.Proofs.Likeness.State
import LeveledTypes.Proofs.Scoping.Heads

/-!
# Matching in states that are alike

Clauses are compiled into the same case tree in states that are alike.
-/
namespace LeveledTypes.Elaborator

open Surface

variable {e : Elaborator} {I : Store → Prop} {R : ElaborationState → ElaborationState →
  Prop} {c : Context} {data : GlobalName} {span : Span} {type : Term}

theorem blind_notMatched (hR : e.Likeness I R) {a : Term} : Blind R (notMatched c data span a) := by
  unfold notMatched
  split
  case h_4 => exact .bind (blind_shown hR) fun _ => blind_mismatch
  all_goals exact .pure none

section Heads

/-- The induction is on the patterns; the values found so far are the same. -/
theorem blind_matchIndices {ps as : List Term} {out : List (ℕ × Term)}
    (hps : ∀ p ∈ ps, ∀ a out, Blind R (e.matchIndex c data span p a out)) :
    Blind R (e.matchIndices c data span ps as out) := by
  induction ps generalizing as out with
  | nil => exact .pure _
  | cons p ps ih =>
    obtain ⟨hp, hps⟩ := List.forall_mem_cons.mp hps
    cases as with
    | nil => exact .pure _
    | cons a as =>
      rw [matchIndices]
      refine .bind (hp a out) fun o => ?_
      cases o with
      | none => exact .pure _
      | some out => exact ih hps

variable (hR : e.Likeness I R)

include hR

/-- An index is reduced to the same term, whose root is compared with the pattern. The induction is
on the pattern. -/
theorem blind_matchIndex (p a : Term) (out : List (ℕ × Term)) :
    Blind R (e.matchIndex c data span p a out) := by
  induction p generalizing a out with
  | var i => exact .pure _
  | zero =>
    rw [matchIndex]
    refine .bind (blind_whnf hR) fun t => ?_
    split
    · exact .pure _
    · exact blind_notMatched hR
  | succ p ih =>
    rw [matchIndex]
    refine .bind (blind_whnf hR) fun t => ?_
    split
    · exact ih _ _
    · exact blind_notMatched hR
  | con k u qs ps _ ihp =>
    rw [matchIndex]
    refine .bind (blind_whnf hR) fun t => ?_
    split
    · split
      · exact blind_matchIndices ihp
      · exact blind_notMatched hR
    · exact blind_notMatched hR
  | _ => exact .bind (blind_whnf hR) fun t => blind_notMatched hR

theorem blind_headOf {u : Universe} {args : List Term} {k : Definition} :
    Blind R (e.headOf c data u args span k) := by
  have hvalues (ps : List Term) (n : ℕ) : Blind R (e.indexValues c data ps args n span) := by
    refine .bind (blind_matchIndices fun p _ a out => blind_matchIndex hR p a out) fun o => ?_
    cases o <;> exact .pure _
  unfold headOf
  split
  case h_1 patterns _ =>
    cases patterns with
    | none => exact .bind (.pure _) fun _ => .pure _
    | some ps => exact .bind (hvalues ps _) fun _ => .pure _
  case h_2 => exact .pure none

theorem blind_heads? : Blind R (e.heads? c type span) := by
  refine .bind (blind_whnf hR) fun t => ?_
  split
  case h_1 => exact .pure _
  case h_2 =>
    refine twins_environment hR fun env env' henv => ?_
    rw [funext henv.get?]
    split
    · exact .bind (.mapM fun k => blind_headOf hR) fun _ => .pure _
    · exact .pure none
  case h_3 => exact .pure none

end Heads

section Guards

/-- The induction is on the patterns, each of which may bind variables for those after it. -/
theorem blind_indexPatterns {ps : List Pattern}
    (hps : ∀ p ∈ ps, ∀ (c : Context) (type : Term) (acc : List Term),
      Blind R (e.indexPattern c type acc p))
    {start mark a : ℕ} {types acc : List Term} :
    Blind R (e.indexPatterns start mark c types a acc ps) := by
  induction ps generalizing c a types acc with
  | nil => exact .pure _
  | cons p ps ih =>
    obtain ⟨hp, hps⟩ := List.forall_mem_cons.mp hps
    cases types with
    | nil => exact .pure _
    | cons type types =>
      rw [indexPatterns]
      refine .bind (hp c _ acc) fun r => ?_
      obtain ⟨d, acc⟩ := r
      exact ih hps

variable (hR : e.Likeness I R)

include hR

/-- A variable extends the context by the type of the index, and a constructor has patterns for its
arguments. The induction is on the pattern. -/
theorem blind_indexPattern (p : Pattern) {acc : List Term} :
    Blind R (e.indexPattern c type acc p) := by
  induction p using Pattern.induct generalizing c type acc with
  | name span n ps => exact blind_mismatch
  | absurd span => exact blind_mismatch
  | var span v => exact .pure _
  | num span n => exact .bind (blind_unify hR) fun _ => .pure _
  | con span n ps ih =>
    rw [indexPattern]
    refine .bind (blind_heads? hR) fun o => ?_
    extract_lets head
    clear_value head
    cases head with
    | none => exact .bind (blind_shown hR) fun _ => blind_mismatch
    | some h =>
      dsimp -zeta only
      extract_lets join
      have hjoin : Blind R (join ()) := by
        refine .bind (blind_indexPatterns fun p hp c type acc => ih p hp) fun r => ?_
        obtain ⟨d, all⟩ := r
        exact .pure _
      split
      · exact .bind blind_mismatch fun _ => hjoin
      · exact hjoin

theorem blind_guardPatterns {ps : List Pattern} {tele : Telescope Term} {acc : List Term} :
    Blind R (e.guardPatterns c ps tele acc) := by
  induction ps generalizing c tele acc with
  | nil => exact .pure _
  | cons p ps ih =>
    cases tele with
    | nil => exact .pure _
    | cons q tele =>
      rw [guardPatterns]
      refine .bind (blind_indexPattern hR p) fun r => ?_
      obtain ⟨d, acc⟩ := r
      exact ih

end Guards

section Rows

/-- A pattern is compared with the constructors of the type, which are the same. -/
theorem blind_checkPattern (hR : e.Likeness I R) {heads : List Head} {p : Pattern} :
    Blind R (checkPattern c type heads p) := by
  unfold checkPattern
  split
  case h_1 => exact .bind (blind_shown hR) fun _ => blind_mismatch
  case h_2 =>
    split
    · exact .bind (blind_shown hR) fun _ => blind_mismatch
    · exact .pure _
  case h_3 =>
    split
    · exact .bind (blind_shown hR) fun _ => blind_mismatch
    · exact .pure _
  case h_4 => exact blind_fail
  case h_5 => exact .pure _

theorem blind_specialize {p : Pattern} {h : Head} : Blind R (specialize p h) := by
  unfold specialize
  split
  case h_2 =>
    split
    · exact .pure _
    · extract_lets k join
      split
      · exact .bind blind_mismatch fun _ => .pure _
      · exact .pure _
  case h_3 => split <;> exact .pure _
  all_goals exact .pure _

theorem blind_specializeRow {j : ℕ} {h : Head} {r : Row} :
    Blind R (specializeRow c j type h r) := by
  unfold specializeRow
  split
  case h_1 => exact .pure none
  case h_2 p _ =>
    refine .bind blind_specialize fun o => ?_
    cases o <;> exact .pure _

end Rows

section Clauses
variable {check : Context → Expr → Term → Elab Term} {cs : List (Clause Expr)} {goal : Term}
  {cols : List Column} (hR : e.Likeness I R) (hcheck : ∀ c x t, Blind R (check c x t))

include hR in
theorem blind_emptyColumn? : Blind R (e.emptyColumn? c span cols) := by
  induction cols with
  | nil => exact .pure none
  | cons x xs ih =>
    unfold emptyColumn?
    refine .bind (.tryCatch (blind_heads? hR) fun _ => .pure none) fun heads => ?_
    split
    · exact .pure _
    · exact ih

include hcheck

theorem blind_leaf {row : Row} : Blind R (leaf check c cs row cols goal) := by
  unfold leaf
  split
  case h_1 => exact .pure _
  case h_2 clause _ =>
    split
    case h_1 => exact blind_mismatch
    case h_2 rhs _ => exact .bind (hcheck _ rhs goal) fun t => .pure _

include hR

/-- The induction is on the depth that is left: the same column is split, into the same
constructors. -/
theorem blind_split {gas : ℕ} {row : Row} {rows : List Row} :
    Blind R (e.split check cs span gas c row rows cols goal) := by
  induction gas generalizing c row rows cols goal with
  | zero => exact blind_fail
  | succ gas ih =>
    unfold split
    extract_lets j
    split
    case h_1 p col hp hcol =>
      refine .bind (blind_heads? hR) fun o => ?_
      split
      case h_1 => exact .bind (blind_shown hR) fun _ => blind_mismatch
      case h_2 => exact .pure _
      case h_3 heads _ =>
        refine .bind (.forM fun r => .forM fun p => (blind_checkPattern hR)) fun _ => .bind
          (.mapM fun h => ?_) fun _ => .pure _
        refine .bind (.filterMapM fun r => blind_specializeRow) fun rows => ?_
        split
        case h_1 => exact .pure _
        case h_2 => exact .bind ih fun ⟨body, coverage⟩ => .pure _
    case h_2 => exact blind_leaf hcheck

/-- Redundant clauses are looked for in the case tree, which is the same, and give the same
warnings. -/
theorem blind_clauses : Blind R (e.clauses check c cs cols goal span) := by
  unfold clauses
  refine .bind (.forIn fun k => ?_) fun _ => ?_
  · split
    · exact .bind blind_mismatch fun _ => .pure _
    · exact .pure _
  · split
    case h_1 =>
      refine .bind (blind_emptyColumn? hR) fun o => ?_
      split
      · exact .pure _
      · exact blind_fail
    case h_2 row rows _ =>
      refine .bind (blind_split hR hcheck) fun ⟨t, coverage⟩ => ?_
      dsimp -zeta only
      extract_lets redundant join
      have hjoin : Blind R (join ()) :=
        .bind (.modify fun s s' hs => hR.warned _ hs) fun _ => .pure t
      split
      · exact .bind blind_fail fun _ => hjoin
      · exact hjoin

end Clauses

end LeveledTypes.Elaborator
