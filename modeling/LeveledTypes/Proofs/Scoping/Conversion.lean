import LeveledTypes.Elaboration.Basic
import LeveledTypes.Proofs.Conversion.Growth
import LeveledTypes.Proofs.Scoping.Reduction

/-!
# Conversion of scoped terms

A store is scoped if the types and the solutions of its holes are closed, and the terms of a
constraint that waits are over the context it was met in. Comparing scoped terms keeps the store
scoped, however the comparison ends: the solution of a hole is the other side under abstractions
over all its variables.
-/
namespace LeveledTypes

namespace Term
variable {A : Arities} {n m : ℕ} {t t' : Term}

/-- A renamed term has the new names only. -/
theorem Scoped.renameFree? {f : ℕ → Option ℕ} (ht : t.Scoped A n) (hf : ∀ i j, f i = some j → j < m)
    (h : t.renameFree? f = some t') : t'.Scoped A m := by
  obtain ⟨hvars, rfl⟩ := renameFree?_eq_some h
  have hinst : t.inst (fun i => .var ((f i).getD i)) = t.inst fun i =>
      ((f i).map Term.var).getD .zero := by
    refine inst_congr hvars fun i hi => ?_
    obtain ⟨j, hj⟩ := Option.isSome_iff_exists.mp (by simpa using hi)
    simp [hj]
  rw [hinst]
  refine ht.inst fun i _ => ?_
  cases hi : f i with
  | none => trivial
  | some j => exact hf i j hi

end Term

namespace Converter
variable {A : Arities} {n : ℕ}

/-- What is left when abstractions are taken off has the variables that are left. -/
theorem scoped_contractEta {t : Term} {k : ℕ} (ht : t.Scoped A k) :
    (contractEta t k).1.Scoped A (contractEta t k).2 := by
  induction t, k using contractEta.induct with
  | case1 f k hvar => simpa [contractEta, hvar] using ht
  | case2 f k hvar ih =>
    rw [contractEta, if_neg hvar]
    refine ih ?_
    have hvar : f.hasVar 0 = false := by simpa using hvar
    have hinst : f.shift (-1) 0 = f.inst (Term.push .zero .var) := by
      rw [Term.shift_neg_one hvar]
      refine Term.inst_congr hvar fun i hi => ?_
      obtain ⟨j, rfl⟩ := Nat.exists_eq_succ_of_ne_zero (by simpa using hi)
      rfl
    rw [hinst]
    refine ht.1.inst fun i hi => ?_
    cases i with
    | zero => trivial
    | succ i => exact Nat.lt_of_succ_lt_succ hi
  | case3 t k h => rwa [contractEta.eq_2 _ _ h]

theorem scopedTele_solutionTele {t : Term} {k : ℕ} (ht : t.Scoped A n) :
    Term.ScopedTele A n (solutionTele t k) := by
  induction t, k using solutionTele.induct generalizing n with
  | case1 t => trivial
  | case2 x a b k ih => exact ⟨ht.1, ih ht.2⟩
  | case3 t k h ih =>
    rw [solutionTele.eq_3 _ _ h]
    exact ⟨trivial, ih (ht.mono (Nat.le_succ n))⟩

/-- The solution of a hole is closed. -/
theorem scoped_patternSolution {vars : List ℕ} {type rhs body : Term} (htype : type.Scoped A 0)
    (hrhs : rhs.Scoped A n) (hbody : rhs.renameFree? (patternName vars) = some body) :
    (patternSolution type body vars.length).Scoped A 0 := by
  refine Term.scoped_lams.mpr ⟨scopedTele_solutionTele htype, ?_⟩
  rw [length_solutionTele, Nat.zero_add]
  refine scoped_contractEta (hrhs.renameFree? (fun i j hj => ?_) hbody)
  obtain ⟨k, hk, rfl⟩ := Option.map_eq_some_iff.mp hj
  obtain ⟨hlt, -⟩ := List.idxOf?_eq_some_iff.mp hk
  omega

end Converter

/-- The terms of a constraint are over its context. -/
def Constraint.Scoped (A : Arities) (k : Constraint) : Prop :=
  ∃ n, k.locals.Scoped A n ∧ k.lhs.Scoped A n ∧ k.rhs.Scoped A n

/-- A store of closed types and solutions, in which each of some instance arguments that wait has a
hole that was made in a context no longer than its own. -/
structure Store.Scoped (A : Arities) (obligations : List Obligation) (s : Store) : Prop where
  solutions : ∀ m t, s.solution? m = some t → t.Scoped A 0
  types : ∀ (m : ℕ) (h : Hole), s.holes[m]? = some h → h.type.Scoped A 0
  constraints : ∀ k ∈ s.constraints, k.Scoped A
  waiting : ∀ o ∈ obligations, ∃ h : Hole, s.holes[o.hole]? = some h ∧ h.arity ≤ o.context.length

namespace Store.Scoped
variable {A : Arities} {obligations : List Obligation} {s : Store} {n : ℕ} {t : Term}

theorem zonk (hs : s.Scoped A obligations) (ht : t.Scoped A n) : (s.zonk t).Scoped A n :=
  (ht.fillDeep hs.solutions _).fillLevels

theorem holeType (hs : s.Scoped A obligations) (m : ℕ) : (s.holeType m).Scoped A 0 := by
  unfold Store.holeType
  cases h : s.holes[m]? with
  | none => trivial
  | some k => exact hs.types m k h

/-- Solving a hole by a closed term keeps the store scoped. -/
theorem assign (hs : s.Scoped A obligations) (m : ℕ) (ht : t.Scoped A 0) :
    (s.assign m t).Scoped A obligations := by
  refine ⟨fun m' t' h => ?_, fun m' h hh => ?_, hs.constraints, fun o ho => ?_⟩
  · rw [solution?_assign] at h
    split at h
    · obtain ⟨_, -, rfl⟩ := Option.map_eq_some_iff.mp h
      exact ht
    · exact hs.solutions m' t' h
  · rw [getElem?_assign] at hh
    split at hh
    · obtain ⟨h', hh', rfl⟩ := Option.map_eq_some_iff.mp hh
      exact hs.types m' h' hh'
    · exact hs.types m' h hh
  · obtain ⟨h, hh, harity⟩ := hs.waiting o ho
    rw [getElem?_assign]
    split
    · exact ⟨{ h with solution := some t }, by rw [hh]; rfl, harity⟩
    · exact ⟨h, hh, harity⟩

/-- Adding a level constraint changes neither the holes nor the constraints that wait. -/
theorem addUniverse (hs : s.Scoped A obligations) (cmp : Comparison)
    (u v : Universe) (span : Span) : (s.addUniverse cmp u v span).1.Scoped A obligations := by
  unfold Store.addUniverse Store.addUniverses
  split <;> exact ⟨hs.solutions, hs.types, hs.constraints, hs.waiting⟩

end Store.Scoped

/-- The store is scoped, and what is remembered is closed. -/
structure ConversionState.Scoped (A : Arities) (obligations : List Obligation)
    (s : ConversionState) : Prop where
  store : s.store.Scoped A obligations
  memo : s.memo.Scoped A

namespace Converter

/-- A run that keeps a conversion state scoped, and returns what is said. -/
abbrev Scopes {α : Type} (A : Arities) (obligations : List Obligation) (x : Convert α)
    (Q : α → Prop) : Prop :=
  Ensures (ConversionState.Scoped A obligations) x Q

variable {A : Arities} {obligations : List Obligation} {c : Converter} {n binders : ℕ}
  {t l r : Term} {cmp : Comparison}

/-- Reduction changes what is remembered only, and depends on solutions, which are closed. -/
theorem scopes_reduce {α : Type} {f : Reducer → Reduce α} {Q : α → Prop} (hf : ∀ store : Store,
    (∀ m t, store.solution? m = some t → t.Scoped A 0) →
      Ensures (fun s => s.memo.Scoped A) (f ⟨c.env, store, c.locals⟩) Q) :
        Scopes A obligations (c.reduce f) Q := by
  intro s hs
  have hfs := hf s.store hs.store.solutions ⟨c.limits.reductionFuel, s.memo⟩ hs.memo
  unfold reduce
  dsimp only
  cases hr : f ⟨c.env, s.store, c.locals⟩ ⟨c.limits.reductionFuel, s.memo⟩ with
  | ok a t =>
    simp only [hr] at hfs
    exact ⟨⟨hs.store, hfs.1⟩, hfs.2⟩
  | error e t =>
    simp only [hr] at hfs
    exact ⟨hs.store, hfs⟩

theorem scopes_addUniverse {u v : Universe} :
    Scopes A obligations (c.addUniverse cmp u v) fun _ => True := by
  intro s hs
  have hstore := hs.store.addUniverse cmp u v c.span
  unfold addUniverse
  cases hr : s.store.addUniverse cmp u v c.span with
  | mk store e =>
    rw [hr] at hstore
    cases e with
    | none => exact ⟨⟨hstore, hs.memo⟩, trivial⟩
    | some e => exact ⟨hstore, hs.memo⟩

theorem scopes_mismatch {Q : Unit → Prop} : Scopes A obligations (c.mismatch l r) Q := .throw _

section Context
variable (hL : c.locals.Scoped A n)

section Defer
include hL

theorem scopes_defer (hl : l.Scoped A (n + binders)) (hr : r.Scoped A (n + binders)) :
    Scopes A obligations (c.defer binders cmp l r) fun _ => True := by
  intro s hs
  refine ⟨⟨⟨hs.store.solutions, hs.store.types, fun k hk => ?_, hs.store.waiting⟩,
    hs.memo⟩, trivial⟩
  rcases List.mem_append.mp hk with hk | hk
  · exact hs.store.constraints k hk
  · obtain rfl := List.mem_singleton.mp hk
    exact ⟨n + binders, hL.under binders, hl, hr⟩

end Defer

section Run
variable (henv : c.env.Scoped A)

include hL henv

theorem scopes_whnf (ht : t.Scoped A (n + binders)) :
    Scopes A obligations (c.whnf binders t) (·.Scoped A (n + binders)) :=
  scopes_reduce fun _ hsol => Reducer.scopes_whnfGas henv hsol _ (hL.under binders) ht

theorem scopes_nf (ht : t.Scoped A (n + binders)) :
    Scopes A obligations (c.reduce (·.nf binders t)) (·.Scoped A (n + binders)) :=
  scopes_reduce fun _ hsol => Reducer.scopes_nfGas henv hsol _ (hL.under binders) ht

/-- Whether arguments are different variables is found by reducing each in turn. The induction is on
the arguments. -/
theorem scopes_patternVars {args : List Term} (hargs : ∀ a ∈ args, a.Scoped A (n + binders))
    (vars : List ℕ) : Scopes A obligations (c.patternVars binders args vars) fun _ => True := by
  induction args generalizing vars with
  | nil => exact .pure trivial
  | cons a args ih =>
    obtain ⟨ha, hrest⟩ := List.forall_mem_cons.mp hargs
    unfold patternVars
    split
    case' h_1 => refine .bind (.pure (P := fun _ => True) trivial) fun a' _ => ?_
    case' h_2 => refine .bind (scopes_whnf hL henv ha) fun a' _ => ?_
    -- Either way, the search goes on if the argument is a variable that was not there.
    all_goals
      beta_reduce
      split
      · split
        · exact .pure trivial
        · exact ih hrest _
      · exact .pure trivial

/-- A solution is closed, because it abstracts over all variables of the context. Where there is
none, the terms wait, over the context they were met in. -/
theorem scopes_solve {m : ℕ} (hl : l.Scoped A (n + binders)) (hr : r.Scoped A (n + binders)) :
    Scopes A obligations (c.solve binders m cmp l r) fun _ => True := by
  unfold solve
  refine .bind (scopes_patternVars hL henv hl.spine.2 []) fun o _ => ?_
  split
  case h_1 => exact scopes_defer hL hl hr
  case h_2 vars =>
    refine .bind (P := ConversionState.Scoped A obligations) (fun s hs => ⟨hs, hs⟩) fun s hs => ?_
    extract_lets rhs arity rename assign join
    have hrhs : rhs.Scoped A (n + binders) := hs.store.zonk hr
    clear_value rhs
    have hassign {r' body : Term} (hr' : r'.Scoped A (n + binders))
        (hbody : rename r' = some body) :
        Scopes A obligations (assign body) fun _ => True := fun u hu =>
      ⟨⟨hu.store.assign m (scoped_patternSolution (hu.store.holeType m) hr' hbody),
        hu.memo⟩, trivial⟩
    have hjoin : Scopes A obligations (join ()) fun _ => True := by
      unfold join
      split
      case h_1 body hbody => exact hassign hrhs hbody
      case h_2 =>
        refine .bind (scopes_nf hL henv hrhs) fun rhs' hrhs' => ?_
        split
        case h_1 body hbody => exact hassign hrhs' hbody
        case h_2 => exact scopes_defer hL hl hrhs'
    split
    · exact .bind (P := fun _ => True) (.throw _) fun _ _ => hjoin
    · exact hjoin

end Run

end Context

section Shapes
variable {conv : ℕ → Comparison → Term → Term → Convert Unit}
  (hconv : ∀ (k : ℕ) (cmp : Comparison) (a b : Term), a.Scoped A (n + k) → b.Scoped A (n + k) →
    Scopes A obligations (conv k cmp a b) fun _ => True)

include hconv

theorem scopes_all {xs ys : List Term} (hxs : ∀ x ∈ xs, x.Scoped A n)
    (hys : ∀ y ∈ ys, y.Scoped A n) :
    Scopes A obligations (c.all (conv 0 .eq) xs ys) fun _ => True := by
  unfold all
  split
  · exact .throw _
  · exact .forM fun p hp => hconv 0 .eq _ _ (hxs _ (List.of_mem_zip hp).1)
      (hys _ (List.of_mem_zip hp).2)

/-- The parts of terms over a context are over the context, longer by their binders. One case for
each pair of forms. -/
theorem scopes_rigid (hl : l.Scoped A n) (hr : r.Scoped A n) :
    Scopes A obligations (c.rigid conv cmp l r) fun _ => True := by
  unfold rigid
  extract_lets eq
  split
  case h_1 => exact scopes_addUniverse
  case h_2 =>
    split
    · exact scopes_addUniverse
    · exact scopes_mismatch
  case h_3 =>
    split
    · exact .bind (hconv 0 .eq _ _ hl.1 hr.1) fun _ _ => hconv 1 cmp _ _ hl.2 hr.2
    · exact scopes_mismatch
  case h_4 => exact .bind (hconv 0 cmp _ _ hl.1 hr.1) fun _ _ => hconv 1 cmp _ _ hl.2 hr.2
  case h_5 | h_6 =>
    rw [Term.Scoped, Term.scopedAll_iff] at hl hr
    split
    · exact .bind scopes_addUniverse fun _ _ => scopes_all hconv hl.2 hr.2
    · exact scopes_mismatch
  case h_7 =>
    rw [Term.Scoped, Term.scopedAll_iff, Term.scopedAll_iff] at hl hr
    split
    · exact scopes_all hconv hl.2.2 hr.2.2
    · exact scopes_mismatch
  case h_8 => exact hconv 0 .eq _ _ hl hr
  case h_9 | h_10 =>
    split
    · exact hconv 0 .eq _ _ hl hr
    · exact scopes_mismatch
  case h_11 =>
    exact .bind (hconv 0 .eq _ _ hl.1 hr.1) fun _ _ =>
      .bind (hconv 0 .eq _ _ hl.2.1 hr.2.1) fun _ _ => hconv 0 .eq _ _ hl.2.2 hr.2.2
  case h_12 =>
    exact .bind (hconv 0 .eq _ _ hl.2.2.1 hr.2.2.1) fun _ _ => hconv 0 .eq _ _ hl.2.2.2 hr.2.2.2
  case h_13 =>
    exact .bind (hconv 0 .eq _ _ hl.2.2.2 hr.2.2.2) fun _ _ =>
      .bind (hconv 0 .eq _ _ hl.2.1 hr.2.1) fun _ _ => hconv 0 .eq _ _ hl.2.2.1 hr.2.2.1
  case h_14 =>
    obtain ⟨-, ha, -, hbs⟩ := hl
    obtain ⟨-, hb, -, hds⟩ := hr
    rw [Term.scopedBranches_iff] at hbs hds
    split
    · refine .bind (hconv 0 .eq _ _ ha hb) fun _ _ => .forM fun p hp => ?_
      dsimp only
      split
      · exact scopes_mismatch
      · case isFalse h =>
          have harity : p.1.arity = p.2.arity := by
            by_contra harity
            exact h (.inr harity)
          refine hconv _ .eq _ _ (hbs _ (List.of_mem_zip hp).1) ?_
          exact harity ▸ hds _ (List.of_mem_zip hp).2
    · exact scopes_mismatch
  case h_15 => exact .bind (hconv 0 .eq _ _ hl.1 hr.1) fun _ _ => hconv 0 .eq _ _ hl.2 hr.2
  case h_16 => exact scopes_mismatch

/-- A hole at a head is solved, and other terms are compared part by part or after eta expansion. -/
theorem scopes_shapes (hl : l.Scoped A n) (hr : r.Scoped A n) :
    Scopes A obligations (c.shapes conv cmp l r) fun _ => True := by
  have hetaApp {t : Term} (ht : t.Scoped A n) : (etaApp t).Scoped A (n + 1) :=
    ⟨ht.lift 1, Nat.succ_pos n⟩
  have hetaPoint {f p : Term} (hf : f.Scoped A n) (hp : p.Scoped A n) :
      (etaPoint f p).Scoped A (n + 1) :=
    ⟨⟨hf.lift 1, trivial⟩, ⟨hf.lift 1, trivial⟩, hp.lift 1, Nat.succ_pos n⟩
  have hfield {fs : List Term} (hfs : ∀ f ∈ fs, f.Scoped A n) {x : Term × ℕ} (hx : x ∈ fs.zipIdx) :
      x.1.Scoped A n :=
    hfs _ (List.fst_mem_of_mem_zipIdx hx)
  unfold shapes
  extract_lets eq recordLeft
  split
  case h_1 => exact hconv 1 .eq _ _ hl.2 hr.2
  case h_2 => exact hconv 1 .eq _ _ hl.2 (hetaApp hr)
  case h_3 => exact hconv 1 .eq _ _ (hetaApp hl) hr.2
  case h_4 => exact .bind (hconv 0 .eq _ _ hl.1 hr.1) fun _ _ => hconv 0 .eq _ _ hl.2 hr.2
  case h_5 => exact .bind (hconv 0 .eq _ _ hl.1 hr) fun _ _ => hconv 0 .eq _ _ hl.2 hr
  case h_6 => exact .bind (hconv 0 .eq _ _ hl hr.1) fun _ _ => hconv 0 .eq _ _ hl hr.2
  case h_7 =>
    have hfs := Term.scopedAll_iff.mp hl.2
    split
    · exact scopes_all hconv hfs (Term.scopedAll_iff.mp hr.2)
    · exact .forM fun x hx => hconv 0 .eq _ _ (hfield hfs hx) hr
  case h_8 => exact .forM fun x hx => hconv 0 .eq _ _ (hfield (Term.scopedAll_iff.mp hl.2) hx) hr
  case h_9 => exact .forM fun x hx => hconv 0 .eq _ _ hl (hfield (Term.scopedAll_iff.mp hr.2) hx)
  case h_10 => exact hconv 0 .eq _ _ hl hr
  case h_11 => exact hconv 1 .eq _ _ (hetaApp hl) (hetaPoint hl hr)
  case h_12 => exact hconv 1 .eq _ _ (hetaPoint hr hl) (hetaApp hr)
  case h_13 => exact scopes_rigid hconv hl hr

end Shapes

section Run
variable (henv : c.env.Scoped A) (hL : c.locals.Scoped A n)

include henv hL

/-- Both sides are reduced, which keeps them over the context, before their shapes are compared. -/
theorem scopes_convertWith {conv : ℕ → Comparison → Term → Term → Convert Unit}
    (hconv : ∀ (k : ℕ) (cmp : Comparison) (a b : Term), a.Scoped A (n + binders + k) →
      b.Scoped A (n + binders + k) → Scopes A obligations (conv k cmp a b) fun _ => True)
    (hl : l.Scoped A (n + binders)) (hr : r.Scoped A (n + binders)) :
    Scopes A obligations (c.convertWith binders conv cmp l r) fun _ => True := by
  unfold convertWith
  refine .bind (scopes_whnf hL henv hl) fun l' hl' =>
    .bind (scopes_whnf hL henv hr) fun r' hr' => ?_
  split
  case isTrue => exact .pure trivial
  case isFalse =>
    refine .bind (P := fun _ => True) (fun s hs => ⟨hs, trivial⟩) fun s _ => ?_
    extract_lets store unsolvedHead
    split
    case h_1 => exact scopes_solve hL henv hl' hr'
    case h_2 =>
      split
      case h_1 => exact scopes_solve hL henv hr' hl'
      case h_2 => exact scopes_shapes hconv hl' hr'

/-- The induction is on the room that is left for comparisons inside of comparisons. -/
theorem scopes_convertIn (room : ℕ) (hl : l.Scoped A (n + binders))
    (hr : r.Scoped A (n + binders)) :
    Scopes A obligations (c.convertIn room binders cmp l r) fun _ => True := by
  induction room generalizing binders cmp l r with
  | zero =>
    unfold convertIn
    split
    · exact .pure trivial
    · exact .throw _
  | succ room ih =>
    unfold convertIn
    split
    · exact .pure trivial
    · refine scopes_convertWith henv hL (fun k cmp a b ha hb => ?_) hl hr
      rw [Nat.add_assoc] at ha hb
      exact ih ha hb

theorem scopes_convert (hl : l.Scoped A n) (hr : r.Scoped A n) :
    Scopes A obligations (c.convert cmp l r) fun _ => True :=
  scopes_convertIn henv hL _ hl hr

end Run

section Retry
variable {env : Environment} {limits : Limits} (henv : env.Scoped A)

include henv

theorem scopes_retryOnce : Scopes A obligations (retryOnce env limits) fun _ => True := by
  refine .bind (P := ConversionState.Scoped A obligations) (fun s hs => ⟨hs, hs⟩) fun s hs => ?_
  refine .bind (P := fun _ => True)
    (fun u hu => ⟨⟨⟨hu.store.solutions, hu.store.types, ?_, hu.store.waiting⟩, hu.memo⟩,
    trivial⟩) fun _ _ => .forM fun k hk => ?_
  · simp
  · obtain ⟨n, hL, hl, hr⟩ := hs.store.constraints k hk
    exact scopes_convert henv hL hl hr

/-- Taking up the constraints until that no longer helps. -/
theorem scopes_retryConstraints :
    Scopes A obligations (retryConstraints env limits) fun _ => True := by
  have honce : Scopes A obligations (retryOnce env limits) fun _ => True := scopes_retryOnce henv
  have hretry (progress : Bool) :
      Scopes A obligations (retryFrom env limits progress) fun _ => True := by
    intro s hs
    have hrun := honce s hs
    induction progress, s using retryFrom.induct env limits with
    | case1 progress s pending hpending =>
      rw [retryFrom, if_pos hpending]
      exact ⟨hs, trivial⟩
    | case2 progress s pending hpending e t hr =>
      rw [hr] at hrun
      unfold retryFrom
      simp only [hr]
      rw [if_neg hpending]
      exact hrun
    | case3 progress s unsolved pending hpending t hr hless ih =>
      rw [hr] at hrun
      unfold retryFrom
      simp only [hr]
      rw [if_neg hpending, if_pos hless]
      exact ih hrun.1 (honce t hrun.1)
    | case4 progress s unsolved pending hpending t hr hless =>
      rw [hr] at hrun
      unfold retryFrom
      simp only [hr]
      rw [if_neg hpending, if_neg hless]
      exact ⟨hrun.1, trivial⟩
  exact hretry false

end Retry

end Converter

end LeveledTypes
