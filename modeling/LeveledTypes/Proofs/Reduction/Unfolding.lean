import LeveledTypes.Proofs.Ensures
import LeveledTypes.Reduction

/-!
# Unfolding

What one unfolding of a function does: an application that is remembered takes no fuel, another one
takes one unit and a reduction to weak head normal form, whose outcome is remembered if the
application is closed and has no hole.
-/
namespace LeveledTypes.Reducer

theorem step_succ {α : Type} {fuel : ℕ} {memo : Memo} {f : Unit → Reduce α} :
    (step >>= f) ⟨fuel + 1, memo⟩ = f () ⟨fuel, memo⟩ :=
  bind_of_ok rfl

theorem step_zero {α : Type} {memo : Memo} {f : Unit → Reduce α} :
    (step >>= f) ⟨0, memo⟩ = .error .fuel ⟨0, memo⟩ :=
  bind_of_error rfl

theorem ensures_step {I : Memo → Prop} : Ensures (fun s => I s.memo) step fun _ => True := by
  intro s hs
  unfold step
  cases s.fuel with
  | zero => exact hs
  | succ fuel => exact ⟨hs, trivial⟩

section Unfold
variable {whnf : Term → Reduce Term} {n : GlobalName} {u : Universe} {body : Term}
  {args : List Term}

/-- What an unfolding comes to: a blocked one comes to nothing. -/
def unblocked? (t : Term) : Option Term := if isStuck t then none else some t

theorem unblocked?_of_not_stuck {t : Term} (h : isStuck t = false) : unblocked? t = some t :=
  if_neg (by simp [h])

theorem mem_unblocked?_iff {t v : Term} : t ∈ unblocked? v ↔ isStuck v = false ∧ v = t := by
  unfold unblocked?
  cases isStuck v <;> simp

/-- Takes an unfolding to its end: a blocked one comes to nothing, and the outcome of one with a key
is remembered. -/
def conclude (key t : Term) : Reduce (Option Term) := do
  if isStuck t then return none
  if key.isClosed && !key.hasHole then modify fun s => { s with memo := s.memo.insert key t }
  return some t

theorem conclude_eq (key t : Term) (s : ReductionState) : conclude key t s = .ok (unblocked? t)
    (if !isStuck t && (key.isClosed && !key.hasHole) then
      { s with memo := s.memo.insert key t } else s) := by
  unfold conclude unblocked?
  cases isStuck t <;> cases key.isClosed && !key.hasHole <;> rfl

variable {key : Term} {s : ReductionState}

/-- An application that is remembered is not unfolded again. -/
theorem unfold_of_known {t : Term} (hkey : key = (Term.ref n u).apps args)
    (h : (key.isClosed && !key.hasHole) = true) (hk : s.memo[key]? = some t) :
    unfold whnf n u body args s = .ok (some t) s := by
  unfold unfold
  rw [← hkey, h]
  have hremembered : remembered key s = .ok (some t) s := by rw [remembered, hk]
  exact bind_of_ok hremembered

/-- An application that is not remembered takes one unit of fuel, and then the reduction of the
body. -/
theorem unfold_of_unknown (hkey : key = (Term.ref n u).apps args)
    (h : (key.isClosed && !key.hasHole) = true → s.memo[key]? = none) :
    unfold whnf n u body args s =
      ((step >>= fun _ => whnf ((body.substLevels u).substAll args)) >>= conclude key) s := by
  rw [bind_assoc]
  unfold unfold
  rw [← hkey]
  cases hm : key.isClosed && !key.hasHole with
  | true =>
    have hremembered : remembered key s = .ok none s := by rw [remembered, h hm]
    refine (bind_of_ok hremembered).trans (congrFun (bind_congr fun _ => bind_congr fun t => ?_) s)
    rw [conclude, hm]
  | false =>
    have hfresh : (pure none : Reduce (Option Term)) s = .ok none s := rfl
    refine (bind_of_ok hfresh).trans (congrFun (bind_congr fun _ => bind_congr fun t => ?_) s)
    rw [conclude, hm]

/-- What holds of the memo and of the outcome of every unfolding, where unfolding the function gives
a term as said. -/
theorem ensures_unfold {I : Memo → Prop} {P : Term → Prop} {Q : Option Term → Prop}
    (hw : Ensures (fun s => I s.memo) (whnf ((body.substLevels u).substAll args)) P)
    (known : ∀ memo t, I memo →
      (((Term.ref n u).apps args).isClosed && !((Term.ref n u).apps args).hasHole) = true →
      memo[(Term.ref n u).apps args]? = some t → Q (some t))
    (fresh : ∀ t, P t → Q (unblocked? t))
    (insert : ∀ memo t, I memo → P t → isStuck t = false →
      (((Term.ref n u).apps args).isClosed && !((Term.ref n u).apps args).hasHole) = true →
      I (memo.insert ((Term.ref n u).apps args) t)) :
    Ensures (fun s => I s.memo) (unfold whnf n u body args) Q := by
  have hconclude (t : Term) (ht : P t) :
      Ensures (fun s => I s.memo) (conclude ((Term.ref n u).apps args) t) Q := by
    intro s hs
    rw [conclude_eq]
    refine ⟨?_, fresh t ht⟩
    split
    case isTrue h =>
      obtain ⟨hstuck, hkey⟩ := Bool.and_eq_true_iff.mp h
      exact insert _ t hs ht (by simpa using hstuck) hkey
    case isFalse => exact hs
  intro s hs
  by_cases hk : (((Term.ref n u).apps args).isClosed && !((Term.ref n u).apps args).hasHole) =
    true →
      s.memo[(Term.ref n u).apps args]? = none
  · rw [unfold_of_unknown rfl hk]
    exact (Ensures.bind ensures_step fun _ _ => hw).bind hconclude s hs
  · push Not at hk
    obtain ⟨hkey, hk⟩ := hk
    obtain ⟨t, ht⟩ := Option.ne_none_iff_exists'.mp hk
    rw [unfold_of_known rfl hkey ht]
    exact ⟨hs, known _ t hs hkey ht⟩

end Unfold

end LeveledTypes.Reducer
