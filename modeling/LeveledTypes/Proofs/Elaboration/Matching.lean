import LeveledTypes.Proofs.Elaboration.Heads

/-!
# Elaboration of clauses

Compiling clauses leaves the definitions and the solutions of holes alone if checking their
right-hand sides does, and makes terms in which the branches of case splits have as many variables
as their constructors have arguments.
-/
namespace LeveledTypes

open Surface

namespace Term
variable {S : Signature}

theorem refine_var (t con : Term) (i k : ℕ) :
    t.refine (.var i) k con = t.inst fun j => if j = i then con else .var (j + k) := by
  simp only [refine, abstractVar_eq_inst, shift_eq_inst, subst_eq_inst, inst_inst]
  congr 1
  funext j
  by_cases h : j = i
  · simp [h, inst, up, push]
  · simp [h, inst, up, push, lift_eq_inst]

/-- Putting a constructor value in place of a scrutinee keeps a term over the signature. -/
theorem Over.refine {t scrut con : Term} {k : ℕ} (ht : t.Over S ⊤) (hcon : con.Over S ⊤) :
    (t.refine scrut k con).Over S ⊤ := by
  unfold Term.refine
  split
  case h_1 i =>
    change (t.refine (.var i) k con).Over S ⊤
    rw [refine_var]
    refine ht.inst fun j _ => ?_
    split
    · exact hcon
    · exact ENat.natCast_lt_top _
  case h_2 => exact (ht.lift k).top

theorem Over.motive {t scrut : Term} (ht : t.Over S ⊤) : (t.motive scrut).Over S ⊤ := by
  unfold Term.motive
  split
  · rw [abstractVar_eq_inst]
    refine ht.inst fun j _ => ?_
    split <;> exact ENat.natCast_lt_top _
  · exact (ht.lift 1).top

theorem Over.emptyCase {goal scrut : Term} (hgoal : goal.Over S ⊤) (hscrut : scrut.Over S ⊤) :
    (scrut.emptyCase goal).Over S ⊤ :=
  ⟨by simp, hscrut, hgoal.motive, trivial⟩

end Term

section Rows
variable {S : Signature}

/-- The term and the type of a column are over a signature. -/
structure Column.Over (S : Signature) (x : Column) : Prop where
  term : x.term.Over S ⊤
  type : x.type.Over S ⊤

/-- What variables are bound to is over a signature. -/
def OverBound (S : Signature) (bs : List (Variable × Alias)) : Prop :=
  ∀ b ∈ bs, b.2.value.Over S ⊤ ∧ b.2.type.Over S ⊤

theorem Context.Over.addAliases {c : Context} (hc : c.Over S) {bs : List (Variable × Alias)}
    (hbs : OverBound S bs) : (bs.foldl (fun c (v, a) => c.addAlias v a) c).Over S := by
  induction bs generalizing c with
  | nil => exact hc
  | cons b bs ih =>
    obtain ⟨hb, hbs⟩ := List.forall_mem_cons.mp hbs
    exact ih (hc.addAlias hb.1 hb.2) hbs

theorem Context.Over.pushArgs {c : Context} (hc : c.Over S) {h : Head} (hh : h.Over S)
    (names : List String) : (c.pushTele ((h.args.zip names).map fun (a, n) =>
      { a with var := ⟨n, 0⟩ })).Over S := by
  refine hc.pushTele fun p hp => ?_
  obtain ⟨⟨a, n⟩, han, rfl⟩ := List.mem_map.mp hp
  exact hh.args a (List.of_mem_zip han).1

theorem Head.length_names (h : Head) (j : ℕ) (rows : List Row) :
    (h.names j rows).length = h.args.length := by
  simp [Head.names]

theorem Elaborator.over_branchColumns {cols : List Column} (hcols : ∀ x ∈ cols, x.Over S)
    {h : Head} (hh : h.Over S) {j : ℕ} {scrut : Term} :
    ∀ x ∈ branchColumns cols j scrut h, x.Over S := by
  have hrefined (x : Column) (hx : x ∈ cols) :
      Column.Over S ⟨x.term.lift h.args.length, x.type.refine scrut h.args.length h.term⟩ :=
    ⟨((hcols x hx).term.lift _).top, (hcols x hx).type.refine hh.term⟩
  intro x hx
  simp only [branchColumns, List.mem_append, List.mem_map] at hx
  obtain (⟨x, hx, rfl⟩ | ⟨⟨p, a⟩, hp, rfl⟩) | ⟨x, hx, rfl⟩ := hx
  · exact hrefined x (List.mem_of_mem_take hx)
  · exact ⟨ENat.natCast_lt_top _, ((hh.args p (List.fst_mem_of_mem_zipIdx hp)).lift _).top⟩
  · exact hrefined x (List.mem_of_mem_drop hx)

end Rows

namespace Elaborator
variable {e : Elaborator} {env : Environment} {sol : ℕ → Option Term} {c : Context} {span : Span}

section Rows
variable {type : Term}

/-- Checking a pattern compares names and numbers and leaves the state as it is. -/
theorem keeps_checkPattern {heads : List Head} {p : Pattern} :
    e.Keeps env sol (checkPattern c type heads p) fun _ => True := by
  unfold checkPattern
  split
  case h_1 => exact .bind keeps_shown fun _ _ => keeps_mismatch
  case h_2 =>
    split
    · exact .bind keeps_shown fun _ _ => keeps_mismatch
    · exact .pure trivial
  case h_3 =>
    split
    · exact .bind keeps_shown fun _ _ => keeps_mismatch
    · exact .pure trivial
  case h_4 => exact keeps_fail
  case h_5 => exact .pure trivial

theorem keeps_specialize {p : Pattern} {h : Head} :
    e.Keeps env sol (specialize p h) fun _ => True := by
  unfold specialize
  split
  case h_2 =>
    split
    · exact .pure trivial
    · extract_lets k join
      split
      · exact .bind (P := fun _ => True) keeps_mismatch fun _ _ => .pure trivial
      · exact .pure trivial
  case h_3 => split <;> exact .pure trivial
  all_goals exact .pure trivial

/-- The variables that a row binds stay over the signature when a pattern is replaced by the
patterns of its arguments. -/
theorem keeps_specializeRow {j : ℕ} {h : Head} {r : Row} (hh : h.Over env.signature)
    (htype : type.Over env.signature ⊤) (hr : OverBound env.signature r.bound) :
    e.Keeps env sol (specializeRow c j type h r) fun o => ∀ r', o = some r' →
    OverBound env.signature r'.bound := by
  unfold specializeRow
  split
  case h_1 => exact .pure (by simp)
  case h_2 p hp =>
    refine .bind keeps_specialize fun o _ => ?_
    split
    case h_1 => exact .pure (by simp)
    case h_2 args =>
      refine .pure fun r' h => ?_
      obtain rfl := Option.some.inj h
      intro b hb
      rcases List.mem_append.mp hb with hb | hb
      · exact hr b hb
      · obtain ⟨v, -, rfl⟩ := Option.map_eq_some_iff.mp (Option.mem_toList.mp hb)
        exact ⟨hh.term, (htype.lift _).top⟩

end Rows

section Clauses
variable {check : Context → Expr → Term → Elab Term} {cs : List (Clause Expr)} {goal : Term}
  {cols : List Column} (henv : env.WellFormed)
  (hcheck : ∀ c x t, c.Over env.signature → t.Over env.signature ⊤ →
    e.Keeps env sol (check c x t) (·.Over env.signature ⊤))

section Columns
include henv

theorem keeps_heads? {type : Term} (hc : c.Over env.signature) (htype : type.Over env.signature ⊤) :
    e.Keeps env sol (e.heads? c type span) fun o => ∀ hs, o = some hs →
    ∀ h ∈ hs, h.Over env.signature :=
  keeps_of_frozen fun _ hstore =>
    (frozen_heads? henv hstore hc htype).mono fun _ ho hs h => (ho hs h).2

/-- The column that is found is one of those that are given. -/
theorem keeps_emptyColumn? (hc : c.Over env.signature) (hcols : ∀ x ∈ cols, x.Over env.signature) :
    e.Keeps env sol (e.emptyColumn? c span cols) fun o => ∀ x, o = some x → x ∈ cols := by
  induction cols with
  | nil => exact .pure (by simp)
  | cons x xs ih =>
    obtain ⟨hx, hxs⟩ := List.forall_mem_cons.mp hcols
    have hheads : e.Keeps env sol (e.heads? c x.type span) fun _ => True :=
      (keeps_heads? henv hc hx.type).mono fun _ _ => trivial
    unfold emptyColumn?
    refine .bind (.tryCatch hheads fun _ => .pure trivial) fun heads _ => ?_
    split
    · exact .pure (by simp)
    · exact (ih hxs).mono fun o ho y hy => List.mem_cons_of_mem x (ho y hy)

end Columns

include hcheck

/-- At a leaf the right-hand side is checked in the context of the variables that the row binds. -/
theorem keeps_leaf {row : Row} (hc : c.Over env.signature)
    (hrow : OverBound env.signature row.bound) (hcols : ∀ x ∈ cols, x.Over env.signature)
    (hgoal : goal.Over env.signature ⊤) :
    e.Keeps env sol (leaf check c cs row cols goal) (·.1.Over env.signature ⊤) := by
  unfold leaf
  split
  case h_1 => exact .pure hgoal
  case h_2 clause _ =>
    split
    case h_1 => exact keeps_mismatch
    case h_2 rhs _ =>
      refine .bind (hcheck _ rhs goal (hc.addAliases fun b hb => ?_) hgoal) fun t ht => .pure ht
      rcases List.mem_append.mp hb with hb | hb
      · exact hrow b hb
      · obtain ⟨⟨p, x⟩, hpx, hb⟩ := List.mem_filterMap.mp hb
        obtain ⟨v, -, rfl⟩ := Option.map_eq_some_iff.mp hb
        have hx := hcols x (List.of_mem_zip hpx).2
        exact ⟨hx.term, hx.type⟩

include henv

/-- A case tree is over the signature if the right-hand sides at its leaves are. The induction is on
the depth that is left. -/
theorem keeps_split {gas : ℕ} {row : Row} {rows : List Row} (hc : c.Over env.signature)
    (hrows : ∀ r ∈ row :: rows, OverBound env.signature r.bound)
    (hcols : ∀ x ∈ cols, x.Over env.signature) (hgoal : goal.Over env.signature ⊤) :
    e.Keeps env sol (e.split check cs span gas c row rows cols goal)
      (·.1.Over env.signature ⊤) := by
  induction gas generalizing c row rows cols goal with
  | zero => exact keeps_fail
  | succ gas ih =>
    unfold split
    extract_lets j
    split
    case h_1 p col hp hcol =>
      have hx := hcols col (List.mem_of_getElem? hcol)
      refine .bind (keeps_heads? henv hc hx.type) fun o ho => ?_
      split
      case h_1 => exact .bind keeps_shown fun _ _ => keeps_mismatch
      case h_2 => exact .pure (hgoal.emptyCase hx.term)
      case h_3 heads _ =>
        refine .bind (.forM fun r _ => .forM fun p _ => keeps_checkPattern) fun _ _ => ?_
        let R (h : Head) (part : Option (Branch Term) × Coverage) : Prop := ∀ b, part.1 = some b →
          b.arity = env.signature.headArity b.head ∧ b.body.Over env.signature ⊤
        refine .bind (.mapM (R := R) fun h hh => ?_) fun parts hparts => .pure ?_
        · have hhead := ho heads rfl h hh
          extract_lets names d
          refine .bind (.filterMapM fun r hr => keeps_specializeRow hhead hx.type (hrows r hr))
            fun rows' hrows' => ?_
          split
          case h_1 => exact .pure (by simp [R])
          case h_2 first others =>
            refine .bind (ih (hc.pushArgs hhead _) hrows' (over_branchColumns hcols hhead)
              (hgoal.refine hhead.term)) ?_
            rintro ⟨body, coverage⟩ hbody
            refine .pure fun b hb => ?_
            obtain rfl := Option.some.inj hb
            exact ⟨(h.length_names j _).trans hhead.arity, hbody⟩
        · refine ⟨fun b hb => ?_, hx.term, hgoal.motive, Term.overBranches_iff.mpr fun b hb => ?_⟩
          all_goals
            obtain ⟨part, hpart, hb⟩ := List.mem_filterMap.mp hb
            obtain ⟨h, -, hR⟩ := exists_mem_of_forall₂_right hparts hpart
          · exact (hR b hb).1
          · exact (hR b hb).2
    case h_2 => exact keeps_leaf hcheck hc (hrows row (by simp)) hcols hgoal

/-- Clauses come to a case tree over the signature. -/
theorem keeps_clauses (hc : c.Over env.signature) (hcols : ∀ x ∈ cols, x.Over env.signature)
    (hgoal : goal.Over env.signature ⊤) :
    e.Keeps env sol (e.clauses check c cs cols goal span) (·.Over env.signature ⊤) := by
  unfold clauses
  refine .bind (.forIn fun k _ => ?_) fun _ _ => ?_
  · split
    · exact .bind (P := fun _ => True) keeps_mismatch fun _ _ => .pure trivial
    · exact .pure trivial
  · split
    case h_1 =>
      refine .bind (keeps_emptyColumn? henv hc hcols) fun o ho => ?_
      split
      case h_1 x => exact .pure (hgoal.emptyCase (hcols x (ho x rfl)).term)
      case h_2 => exact keeps_fail
    case h_2 row rows hrows =>
      have hbound : ∀ r ∈ row :: rows, OverBound env.signature r.bound := by
        rw [← hrows]
        intro r hr
        obtain ⟨⟨k, i⟩, -, rfl⟩ := List.mem_map.mp hr
        simp [OverBound]
      refine .bind (keeps_split henv hcheck hc hbound hcols hgoal) fun ⟨t, coverage⟩ ht => ?_
      dsimp -zeta only
      extract_lets redundant join
      have hjoin : e.Keeps env sol (join ()) (·.Over env.signature ⊤) :=
        .bind (keeps_modify fun _ => ⟨rfl, rfl⟩) fun _ _ => .pure ht
      split
      · exact .bind (P := fun _ => True) keeps_fail fun _ _ => hjoin
      · exact hjoin

end Clauses

end Elaborator

end LeveledTypes
