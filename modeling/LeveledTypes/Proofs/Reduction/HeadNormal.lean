import LeveledTypes.Proofs.Ensures
import LeveledTypes.Proofs.Term.Filling
import LeveledTypes.Proofs.Term.Over
import LeveledTypes.Reduction

/-!
# Heads of weak head normal forms

A weak head normal form is neither an abstraction that is applied nor headed by a hole that has a
solution. This stays so when variables are renamed, and when holes are filled.
-/
namespace LeveledTypes

namespace Term
variable {sol : ℕ → Option Term} {t : Term} {args : List Term}

/-- The head of a term is no abstraction, unless it is the whole term, and no hole that has a
solution. -/
structure HeadNormal (sol : ℕ → Option Term) (t : Term) : Prop where
  lam : ∀ x a b, t.head = .lam x a b → t = .lam x a b
  hole : ∀ m, t.head = .hole m → sol m = none

namespace HeadNormal

/-- A term that is neither an application nor a hole. -/
theorem of_root (happ : ∀ f a, t ≠ .app f a) (hhole : ∀ m, t ≠ .hole m) : t.HeadNormal sol where
  lam _ _ _ h := (head_eq_self happ).symm.trans h
  hole m h := absurd ((head_eq_self happ).symm.trans h) (hhole m)

theorem apps (h : t.HeadNormal sol) (hlam : ∀ x a b, t ≠ .lam x a b) (args : List Term) :
    (t.apps args).HeadNormal sol where
  lam x a b hx := absurd (h.lam x a b ((head_apps t args).symm.trans hx)) (hlam x a b)
  hole m hm := h.hole m ((head_apps t args).symm.trans hm)

theorem ref (n : GlobalName) (u : Universe) (args : List Term) :
    ((Term.ref n u).apps args).HeadNormal sol :=
  apps (.of_root (by simp) (by simp)) (by simp) args

end HeadNormal

section Replace
variable {f : ℕ → ℕ → Term} {g : Universe → Universe}

/-- Renaming variables and replacing universes leaves the form of the head. -/
theorem head_replace (hf : ∀ c i, ∃ j, f c i = .var j) (t : Term) (c : ℕ) :
    (t.replace f g c).head = t.head.replace f g c := by
  induction t with
  | app h a ihh =>
    have hhead (h a : Term) : (Term.app h a).head = h.head := fst_spineWith h [a]
    rw [replace, hhead, hhead, ihh]
  | var i =>
    obtain ⟨j, hj⟩ := hf c i
    change (f c i).head = f c i
    rw [hj]
    rfl
  | _ => rfl

/-- Variables may be replaced by variables, and universes by any others: the head stays of its form.
-/
theorem HeadNormal.replace (h : t.HeadNormal sol) (hf : ∀ c i, ∃ j, f c i = .var j) (c : ℕ) :
    (t.replace f g c).HeadNormal sol where
  lam x a b hx := by
    rw [head_replace hf] at hx
    cases hhead : t.head with
    | lam y d e =>
      rw [h.lam y d e hhead]
      rwa [hhead] at hx
    | var i =>
      obtain ⟨j, hj⟩ := hf c i
      rw [hhead, Term.replace, hj] at hx
      contradiction
    | _ =>
      rw [hhead, Term.replace] at hx
      contradiction
  hole m hm := by
    rw [head_replace hf] at hm
    cases hhead : t.head with
    | hole k =>
      rw [hhead, Term.replace] at hm
      obtain rfl := Term.hole.inj hm
      exact h.hole k hhead
    | var i =>
      obtain ⟨j, hj⟩ := hf c i
      rw [hhead, Term.replace, hj] at hm
      contradiction
    | _ =>
      rw [hhead, Term.replace] at hm
      contradiction

/-- Renaming the variables of a term. -/
theorem HeadNormal.rename (h : t.HeadNormal sol) (ρ : ℕ → ℕ) :
    (t.inst fun i => .var (ρ i)).HeadNormal sol := by
  rw [inst_eq_replaceVars]
  refine h.replace (fun c i => ?_) 0
  unfold up
  split
  · exact ⟨i, rfl⟩
  · exact ⟨_, lift_var _ _⟩

end Replace

theorem fillWith_apps (t : Term) (as bs : List Term) :
    (t.apps as).fillWith sol bs = t.fillWith sol (as.map (·.fillWith sol []) ++ bs) := by
  induction as generalizing t with
  | nil => rfl
  | cons a as ih => rw [apps_cons, ih, fillWith, List.map_cons, List.cons_append]

/-- Filling does not touch the head of a term, if that is no hole with a solution. -/
theorem HeadNormal.fillWith (h : t.HeadNormal sol) : (t.fillWith sol []).HeadNormal sol := by
  rw [← apps_spine t, fillWith_apps, List.append_nil]
  have happ : ∀ f a, t.head ≠ .app f a := head_ne_app t
  have hspine : t.spine.1 = t.head := rfl
  rw [hspine]
  by_cases hhole : ∃ m, t.head = .hole m
  · obtain ⟨m, hm⟩ := hhole
    have hnone := h.hole m hm
    rw [hm, Term.fillWith, hnone]
    refine ⟨fun x a b hx => ?_, fun k hk => ?_⟩
    · rw [head_apps] at hx
      contradiction
    · rw [head_apps] at hk
      obtain rfl := Term.hole.inj hk
      exact hnone
  push Not at hhole
  rw [fillWith_eq_apps happ hhole]
  have hroot : (t.head.fillWith sol []).HeadNormal sol := by
    refine .of_root ?_ ?_ <;> generalize t.head =
      u at happ hhole <;> cases u <;> simp_all [Term.fillWith]
  by_cases hlam : ∃ x a b, t.head = .lam x a b
  · obtain ⟨x, a, b, hx⟩ := hlam
    -- An abstraction has no arguments.
    have hnil : t.spine.2 = [] := by
      rw [h.lam x a b hx]
      rfl
    simpa [hnil] using hroot
  · push Not at hlam
    refine hroot.apps ?_ _
    generalize t.head = u at happ hhole hlam
    cases u <;> simp_all [Term.fillWith]

end Term

namespace Reducer
variable {r : Reducer} {depth : ℕ}

/-- What a computation returns is in weak head normal form, as far as its head goes. -/
abbrev Heads (r : Reducer) (x : Reduce Term) : Prop :=
  Ensures (fun _ => True) x (Term.HeadNormal r.store.solution?)

section Round
variable {whnf : Term → Reduce Term} (hw : ∀ t, Heads r (whnf t))

include hw

theorem heads_step {t : Term} : Heads r (step >>= fun _ => whnf t) := by
  refine Ensures.bind (P := fun _ => True) (fun s _ => ?_) fun _ _ => hw t
  unfold step
  split <;> trivial

/-- A global that does not unfold is its own head, and an unfolding is reduced on. -/
theorem heads_delta (n : GlobalName) (u : Universe) (args : List Term) :
    Heads r (r.delta whnf n u args) := by
  unfold delta
  extract_lets folded
  split
  case h_1 => exact .pure (.ref n u args)
  case h_2 d hd =>
    extract_lets arity
    split
    case isTrue => exact .pure (.ref n u args)
    case isFalse rest params hlen =>
      have hfolded : ((folded params).apps rest).HeadNormal r.store.solution? := by
        rw [← Term.apps_append]
        exact .ref n u _
      split
      case h_2 =>
        refine Ensures.bind (P := fun _ => True) (fun s _ => ?_) fun o _ => ?_
        · split <;> trivial
        · split
          · exact hw _
          · exact .pure hfolded
      case h_6 =>
        split
        · exact hw _
        · exact .pure (.ref n u _)
      case h_7 => exact heads_step hw
      case h_8 => exact .pure hfolded
      all_goals exact hw _

/-- An abstraction at the head takes its arguments, so that it is left as the whole term only. -/
theorem heads_applySpine {head : Term} {args : List Term} (h : head.HeadNormal r.store.solution?) :
    Heads r (r.applySpine whnf head args) := by
  unfold applySpine
  split
  case h_1 => exact heads_step hw
  case h_2 m =>
    split
    case h_1 => exact hw _
    case h_2 => exact .pure (h.apps (by simp) _)
  case h_3 => exact heads_delta hw _ _ _
  case h_4 hhole href hlam =>
    cases args with
    | nil => exact .pure h
    | cons a args => exact .pure (h.apps (fun x d b hx => hlam x d b a args hx rfl) _)

/-- One round of head reduction. -/
theorem heads_whnfWith (t : Term) : Heads r (r.whnfWith depth whnf t) := by
  unfold whnfWith
  split
  case h_1 i =>
    split
    case h_1 => exact hw _
    case h_2 => exact .pure (.of_root (by simp) (by simp))
  case h_2 m =>
    split
    case h_1 => exact hw _
    case h_2 hm =>
      refine .pure ⟨fun _ _ _ h => Term.noConfusion h, fun k hk => ?_⟩
      obtain rfl := Term.hole.inj hk
      exact hm
  case h_3 n u => exact heads_delta hw n u []
  case h_4 => exact Ensures.bind (hw _) fun _ => heads_applySpine hw
  case h_5 => exact heads_step hw
  case h_6 =>
    refine Ensures.bind (hw _) fun _ _ => ?_
    split
    · split <;> exact heads_step hw
    · exact .pure (.of_root (by simp) (by simp))
  case h_7 =>
    refine Ensures.bind (hw _) fun _ _ => ?_
    split
    · split
      · exact heads_step hw
      · exact .pure (.of_root (by simp) (by simp))
    · exact .pure (.of_root (by simp) (by simp))
  case h_8 =>
    refine Ensures.bind (hw _) fun _ _ => ?_
    split
    · split
      · exact heads_step hw
      · exact .pure (.of_root (by simp) (by simp))
    · exact .pure (.of_root (by simp) (by simp))
  case h_9 =>
    refine Ensures.bind (hw _) fun _ _ => ?_
    split
    · exact heads_step hw
    · exact heads_step hw
    · exact .pure (.of_root (by simp) (by simp))
  case h_10 =>
    refine Ensures.bind (hw _) fun _ _ => ?_
    split
    · exact hw _
    · exact hw _
    · refine Ensures.bind (hw _) fun _ _ => ?_
      split
      · exact heads_step hw
      · exact .pure (.of_root (by simp) (by simp))
  case h_11 hvar hhole href happ _ _ _ _ _ _ => exact .pure (.of_root happ hhole)

end Round

theorem heads_whnfGas (gas : ℕ) (t : Term) : Heads r (r.whnfGas depth gas t) := by
  induction gas generalizing t with
  | zero => exact Ensures.throw _
  | succ gas ih => exact heads_whnfWith ih t

/-- What weak head reduction returns is in weak head normal form, as far as its head goes. -/
theorem headNormal_of_whnf {t v : Term} {s s' : ReductionState} (h : r.whnf depth t s = .ok v s') :
    v.HeadNormal r.store.solution? :=
  ((heads_whnfGas unboundedGas t).ok trivial h).2

end Reducer

end LeveledTypes
