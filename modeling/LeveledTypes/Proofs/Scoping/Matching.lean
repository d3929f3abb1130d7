import LeveledTypes.Proofs.Elaboration.Matching
import LeveledTypes.Proofs.Scoping.Heads

/-!
# Scoped case trees

The columns of a branch, and what the variables of a clause stand for, are over the context of the
branch: the context of the split and the variables of the constructor. So the case tree is over the
context that the clauses are compiled in, if checking a right-hand side makes terms over the context
of its branch.
-/
namespace LeveledTypes

open Surface

namespace Term
variable {A : Arities} {n : ℕ} {t : Term}

theorem Scoped.motive (ht : t.Scoped A n) (scrut : Term) : (t.motive scrut).Scoped A (n + 1) := by
  unfold Term.motive
  split
  · exact ht.abstractVar _
  · exact ht.lift 1

/-- A type under the variables of a branch, where the scrutinee is the constructor of the branch. -/
theorem Scoped.refine {con : Term} {k : ℕ} (ht : t.Scoped A n) (scrut : Term)
    (hcon : con.Scoped A (n + k)) : (t.refine scrut k con).Scoped A (n + k) := by
  unfold Term.refine
  split
  · refine Scoped.subst ?_ hcon
    exact (ht.abstractVar _).shift k
  · exact ht.lift k

theorem Scoped.emptyCase {goal scrut : Term} (hgoal : goal.Scoped A n) (hscrut : scrut.Scoped A n) :
    (scrut.emptyCase goal).Scoped A n :=
  ⟨by simp, hscrut, hgoal.motive scrut, trivial⟩

end Term

section Rows
variable {A : Arities} {n : ℕ}

/-- The term and the type of a column are over the context. -/
structure Column.Scoped (A : Arities) (n : ℕ) (x : Column) : Prop where
  term : x.term.Scoped A n
  type : x.type.Scoped A n

/-- Variables are bound in contexts that are no longer than the present one. -/
def ScopedBound (A : Arities) (n : ℕ) (bs : List (Variable × Alias)) : Prop :=
  ∀ b ∈ bs, b.2.depth ≤ n ∧ b.2.Scoped A

theorem ScopedBound.mono {m : ℕ} {bs : List (Variable × Alias)}
    (hbs : ScopedBound A n bs) (h : n ≤ m) : ScopedBound A m bs :=
  fun b hb => (hbs b hb).imp_left (·.trans h)

theorem Context.Scoped.addAliases {c : Context} (hc : c.Scoped A) {bs : List (Variable × Alias)}
    (hbs : ScopedBound A c.length bs) :
    (bs.foldl (fun c (v, a) => c.addAlias v a) c).Scoped A ∧
      (bs.foldl (fun c (v, a) => c.addAlias v a) c).length = c.length := by
  induction bs generalizing c with
  | nil => exact ⟨hc, rfl⟩
  | cons b bs ih =>
    obtain ⟨hb, hbs⟩ := List.forall_mem_cons.mp hbs
    exact ih (hc.addAlias hb.2 hb.1) hbs

/-- The context of a branch. -/
theorem Context.Scoped.pushArgs {c : Context} (hc : c.Scoped A) {h : Head}
    (hh : h.Scoped A c.length) {names : List String} (hnames : names.length = h.args.length) :
    (c.pushTele ((h.args.zip names).map fun (a, n) => { a with var := ⟨n, 0⟩ })).Scoped A ∧
      (c.pushTele ((h.args.zip names).map fun (a, n) => { a with var := ⟨n, 0⟩ })).length =
        c.length + h.args.length := by
  refine ⟨hc.pushTele (Term.scopedTele_iff.mpr fun i p hp => ?_), ?_⟩
  · obtain ⟨q, hq, rfl⟩ := Option.map_eq_some_iff.mp ((List.getElem?_map ..).symm.trans hp)
    exact Term.scopedTele_iff.mp hh.args i q.1 (List.getElem?_zip_eq_some.mp hq).1
  · rw [Context.length_pushTele, List.length_map, List.length_zip, hnames, Nat.min_self]

/-- The columns of a branch are those of the arguments and the others, moved under the arguments,
with the constructor put in for the column that is split. -/
theorem Elaborator.scoped_branchColumns {cols : List Column}
    (hcols : ∀ x ∈ cols, x.Scoped A n) {h : Head} (hh : h.Scoped A n) (j : ℕ) (scrut : Term) :
    ∀ x ∈ branchColumns cols j scrut h, x.Scoped A (n + h.args.length) := by
  have hrefined (x : Column) (hx : x ∈ cols) :
      Column.Scoped A (n + h.args.length) ⟨x.term.lift h.args.length,
        x.type.refine scrut h.args.length h.term⟩ :=
    ⟨(hcols x hx).term.lift _, (hcols x hx).type.refine scrut hh.term⟩
  intro x hx
  simp only [branchColumns, List.mem_append, List.mem_map] at hx
  obtain (⟨x, hx, rfl⟩ | ⟨⟨p, a⟩, hp, rfl⟩) | ⟨x, hx, rfl⟩ := hx
  · exact hrefined x (List.mem_of_mem_take hx)
  · have hpa := List.mem_zipIdx_iff_getElem?.mp hp
    have hlt : a < h.args.length := (List.getElem?_eq_some_iff.mp hpa).1
    have hadd : n + a + (h.args.length - a) = n + h.args.length := by omega
    refine ⟨?_, hadd ▸ (Term.scopedTele_iff.mp hh.args a p hpa).lift (h.args.length - a)⟩
    rw [Term.Scoped]
    omega
  · exact hrefined x (List.mem_of_mem_drop hx)

end Rows

namespace Elaborator
variable {e : Elaborator} {A : Arities} {env : Environment} {fixed : Option (List Obligation)}
  {c : Context} {span : Span}

section Rows
variable {type : Term}

/-- Checking a pattern makes no terms. -/
theorem scopes_checkPattern {heads : List Head} {p : Pattern} :
    e.Scopes A env fixed (checkPattern c type heads p) fun _ => True := by
  unfold checkPattern
  split
  case h_1 => exact .bind scopes_shown fun _ _ => scopes_mismatch
  case h_2 =>
    split
    · exact .bind scopes_shown fun _ _ => scopes_mismatch
    · exact .pure trivial
  case h_3 =>
    split
    · exact .bind scopes_shown fun _ _ => scopes_mismatch
    · exact .pure trivial
  case h_4 => exact scopes_fail
  case h_5 => exact .pure trivial

theorem scopes_specialize {p : Pattern} {h : Head} :
    e.Scopes A env fixed (specialize p h) fun _ => True := by
  unfold specialize
  split
  case h_2 =>
    split
    · exact .pure trivial
    · extract_lets k join
      split
      · exact .bind (P := fun _ => True) scopes_mismatch fun _ _ => .pure trivial
      · exact .pure trivial
  case h_3 => split <;> exact .pure trivial
  all_goals exact .pure trivial

/-- A variable in the column that is split stands for the constructor in the context of the
branch. -/
theorem scopes_specializeRow {n j : ℕ} {h : Head} {r : Row} (hlength : c.length = n + h.args.length)
    (hh : h.Scoped A n) (htype : type.Scoped A n) (hr : ScopedBound A n r.bound) :
    e.Scopes A env fixed (specializeRow c j type h r) fun o => ∀ r', o = some r' →
    ScopedBound A c.length r'.bound := by
  unfold specializeRow
  split
  case h_1 => exact .pure (by simp)
  case h_2 p hp =>
    refine .bind scopes_specialize fun o _ => ?_
    split
    case h_1 => exact .pure (by simp)
    case h_2 args =>
      refine .pure fun r' h => ?_
      obtain rfl := Option.some.inj h
      intro b hb
      rcases List.mem_append.mp hb with hb | hb
      · exact hr.mono (by omega) b hb
      · obtain ⟨v, -, rfl⟩ := Option.map_eq_some_iff.mp (Option.mem_toList.mp hb)
        exact ⟨le_rfl, hlength ▸ hh.term, hlength ▸ htype.lift _⟩

end Rows

section Clauses
variable {check : Context → Expr → Term → Elab Term} {cs : List (Clause Expr)} {goal : Term}
  {cols : List Column} (henv : env.Scoped A)
  (hcheck : ∀ c x t, c.Scoped A → t.Scoped A c.length →
    e.Scopes A env fixed (check c x t) (·.Scoped A c.length))

section Columns
include henv

theorem scopes_emptyColumn? (hc : c.Scoped A) (hcols : ∀ x ∈ cols, x.Scoped A c.length) :
    e.Scopes A env fixed (e.emptyColumn? c span cols) fun o => ∀ x, o = some x → x ∈ cols := by
  induction cols with
  | nil => exact .pure (by simp)
  | cons x xs ih =>
    obtain ⟨hx, hxs⟩ := List.forall_mem_cons.mp hcols
    have hheads : e.Scopes A env fixed (e.heads? c x.type span) fun _ => True :=
      (scopes_heads? henv hc hx.type).mono fun _ _ => trivial
    unfold emptyColumn?
    refine .bind (.tryCatch hheads fun _ => .pure trivial) fun heads _ => ?_
    split
    · exact .pure (by simp)
    · exact (ih hxs).mono fun o ho y hy => List.mem_cons_of_mem x (ho y hy)

end Columns

include hcheck

/-- The variables of the row are local definitions, so that the right-hand side is checked in a
longer context; they are substituted when it is done. -/
theorem scopes_leaf {row : Row} (hc : c.Scoped A) (hrow : ScopedBound A c.length row.bound)
    (hcols : ∀ x ∈ cols, x.Scoped A c.length) (hgoal : goal.Scoped A c.length) :
    e.Scopes A env fixed (leaf check c cs row cols goal) (·.1.Scoped A c.length) := by
  unfold leaf
  split
  case h_1 => exact .pure hgoal
  case h_2 clause _ =>
    split
    case h_1 => exact scopes_mismatch
    case h_2 rhs _ =>
      extract_lets vars inner
      have hbound : ScopedBound A c.length (row.bound ++ vars) := by
        intro b hb
        rcases List.mem_append.mp hb with hb | hb
        · exact hrow b hb
        · obtain ⟨⟨p, x⟩, hpx, hb⟩ := List.mem_filterMap.mp hb
          obtain ⟨v, -, rfl⟩ := Option.map_eq_some_iff.mp hb
          have hx := hcols x (List.of_mem_zip hpx).2
          exact ⟨le_rfl, hx.term, hx.type⟩
      obtain ⟨hinner, hlength⟩ := hc.addAliases hbound
      exact .bind (hcheck inner rhs goal hinner (hlength ▸ hgoal)) fun t ht => .pure (hlength ▸ ht)

include henv

/-- A branch has a body over the arguments of its constructor. The induction is on the depth that is
left. -/
theorem scopes_split {gas : ℕ} {row : Row} {rows : List Row} (hc : c.Scoped A)
    (hrows : ∀ r ∈ row :: rows, ScopedBound A c.length r.bound)
    (hcols : ∀ x ∈ cols, x.Scoped A c.length) (hgoal : goal.Scoped A c.length) :
    e.Scopes A env fixed (e.split check cs span gas c row rows cols goal)
      (·.1.Scoped A c.length) := by
  induction gas generalizing c row rows cols goal with
  | zero => exact scopes_fail
  | succ gas ih =>
    unfold split
    extract_lets j
    split
    case h_1 p col hp hcol =>
      have hx := hcols col (List.mem_of_getElem? hcol)
      refine .bind (scopes_heads? henv hc hx.type) fun o ho => ?_
      split
      case h_1 => exact .bind scopes_shown fun _ _ => scopes_mismatch
      case h_2 => exact .pure (hgoal.emptyCase hx.term)
      case h_3 heads _ =>
        refine .bind (.forM fun r _ => .forM fun p _ => scopes_checkPattern) fun _ _ => ?_
        let R (h : Head) (part : Option (Branch Term) × Coverage) : Prop := ∀ b, part.1 = some b →
          b.arity = A.branch b.head ∧ b.body.Scoped A (c.length + b.arity)
        refine .bind (.mapM (R := R) fun h hh => ?_) fun parts hparts => .pure ?_
        · have hhead := ho heads rfl h hh
          extract_lets names d
          have hnames : names.length = h.args.length := h.length_names j _
          obtain ⟨hd, hlength⟩ : d.Scoped A ∧ d.length = c.length + h.args.length :=
            hc.pushArgs hhead hnames
          refine .bind (.filterMapM fun r hr => scopes_specializeRow hlength hhead hx.type
            (hrows r hr)) fun rows' hrows' => ?_
          split
          case h_1 => exact .pure (by simp [R])
          case h_2 first others =>
            have hcols' := scoped_branchColumns hcols hhead j col.term
            refine .bind (ih hd hrows' (hlength ▸ hcols')
              (hlength ▸ hgoal.refine col.term hhead.term)) ?_
            rintro ⟨body, coverage⟩ hbody
            refine .pure fun b hb => ?_
            obtain rfl := Option.some.inj hb
            refine ⟨hnames.trans hhead.arity, ?_⟩
            rwa [Branch.arity, hnames, ← hlength]
        · refine ⟨fun b hb => ?_, hx.term, hgoal.motive col.term,
            Term.scopedBranches_iff.mpr fun b hb => ?_⟩
          all_goals
            obtain ⟨part, hpart, hb⟩ := List.mem_filterMap.mp hb
            obtain ⟨h, -, hR⟩ := exists_mem_of_forall₂_right hparts hpart
          · exact (hR b hb).1
          · exact (hR b hb).2
    case h_2 => exact scopes_leaf hcheck hc (hrows row (by simp)) hcols hgoal

/-- Clauses come to a case tree over the context. -/
theorem scopes_clauses (hc : c.Scoped A) (hcols : ∀ x ∈ cols, x.Scoped A c.length)
    (hgoal : goal.Scoped A c.length) :
    e.Scopes A env fixed (e.clauses check c cs cols goal span) (·.Scoped A c.length) := by
  unfold clauses
  refine .bind (.forIn fun k _ => ?_) fun _ _ => ?_
  · split
    · exact .bind (P := fun _ => True) scopes_mismatch fun _ _ => .pure trivial
    · exact .pure trivial
  · split
    case h_1 =>
      refine .bind (scopes_emptyColumn? henv hc hcols) fun o ho => ?_
      split
      case h_1 x => exact .pure (hgoal.emptyCase (hcols x (ho x rfl)).term)
      case h_2 => exact scopes_fail
    case h_2 row rows hrows =>
      have hbound : ∀ r ∈ row :: rows, ScopedBound A c.length r.bound := by
        rw [← hrows]
        intro r hr
        obtain ⟨⟨k, i⟩, -, rfl⟩ := List.mem_map.mp hr
        simp [ScopedBound]
      refine .bind (scopes_split henv hcheck hc hbound hcols hgoal) fun ⟨t, coverage⟩ ht => ?_
      dsimp -zeta only
      extract_lets redundant join
      have hjoin : e.Scopes A env fixed (join ()) (·.Scoped A c.length) :=
        .bind (scopes_modify fun _ => ⟨rfl, rfl, rfl⟩) fun _ _ => .pure ht
      split
      · exact .bind (P := fun _ => True) scopes_fail fun _ _ => hjoin
      · exact hjoin

end Clauses

end Elaborator

end LeveledTypes
