import LeveledTypes.Proofs.Reduction.Divergence

/-!
# A case split below a constructor

A function whose unfolding is blocked by a case split stays folded, which is what ends the
normalization of a recursive function at variables. The test looks at the head of the unfolding. If
the split stands below a constructor, the function is unfolded, and normalization meets its
recursive call in a branch, at a variable again. Such a function descends and has no normal form.
-/
namespace LeveledTypes

namespace Reducer

/-- `\case #i \with { | zero => zero | suc m => f m }` -/
def predecessorSplit (zero f : GlobalName) (m : String) (i : ℕ) : Term :=
  .case (.var i) .nat [⟨.zero, [], .ref zero .zero⟩, ⟨.succ, [m], .app (.ref f .params) (.var 0)⟩]

/-- A function `\func f n => suc (\case n \with { | zero => zero | suc m => f m })` on the
numbers. -/
structure SplitBelow (env : Environment) (suc zero f : GlobalName) (m : String) : Prop where
  successor : ∃ d, env.get? suc = some d ∧ d.tele.length = 1 ∧ d.body = .primitive .succ
  origin : ∃ d, env.get? zero = some d ∧ d.tele.length = 0 ∧ d.body = .primitive .zero
  function : ∃ d decreasing, env.get? f = some d ∧ d.tele.length = 1 ∧
    d.body = .func (.app (.ref suc .zero) (predecessorSplit zero f m 0)) decreasing

section Example

def zeroDefinition : Definition :=
  { span := default, name := ⟨"Prelude::zero"⟩, tele := [], type := .nat, body := .primitive .zero }

/-- `\func f (n : Nat) : Nat => suc (\case n \with { | zero => zero | suc m => f m })` -/
def splitDefinition : Definition :=
  { span := default, name := ⟨"index::f"⟩, tele :=
    [{ Binder.named "n" with type := .ref ⟨"Prelude::Nat"⟩ .zero }]
    type := .ref ⟨"Prelude::Nat"⟩ .zero
    body := .func (.app (.ref ⟨"Prelude::suc"⟩ .zero)
      (predecessorSplit ⟨"Prelude::zero"⟩ ⟨"index::f"⟩ "m" 0)) (some 0) }

/-- The function with the numbers, over nothing else. -/
def splitting : Reducer :=
  ⟨⟨{}, Registry.insertAll {} [sucDefinition, zeroDefinition, splitDefinition]⟩, {}, []⟩

theorem splitBelow_splitting :
    SplitBelow splitting.env ⟨"Prelude::suc"⟩ ⟨"Prelude::zero"⟩ ⟨"index::f"⟩ "m" := by
  refine ⟨⟨sucDefinition, ?_, rfl, rfl⟩, ⟨zeroDefinition, ?_, rfl, rfl⟩, splitDefinition, some 0,
    ?_, rfl, rfl⟩ <;>
    simp [splitting, Environment.get?, Registry.insertAll, Registry.get?_insert, sucDefinition,
      zeroDefinition, splitDefinition]

end Example

variable {r : Reducer} {suc zero f : GlobalName} {m : String} {depth gas fuel i : ℕ} {memo : Memo}
  {s : ReductionState}

/-- The function descends, as far as the test goes. -/
theorem check_splitBelow (hsuc : suc ≠ f) (hzero : zero ≠ f) :
    Descent.check f 1 (.app (.ref suc .zero) (predecessorSplit zero f m 0)) = .along 0 := by
  have hos : (List.range 1).reverse.map Descent.Origin.param = [.param 0] := rfl
  have hcalls : Descent.calls f 1 [.param 0] (.app (.ref suc .zero) (predecessorSplit zero f m 0))
      [] = [[true]] := by
    simp [predecessorSplit, Descent.calls, Descent.callsBranches, hsuc, hzero, Descent.descents,
      Descent.origin, Descent.Origin.parts]
  rw [Descent.check]
  simp only [hos, hcalls]
  rfl

/-- The body of the function at a variable. -/
theorem substAll_splitBelow (i : ℕ) :
    ((Term.app (.ref suc .zero) (predecessorSplit zero f m 0)).substLevels .params).substAll
    [.var i] =
      .app (.ref suc .zero) (predecessorSplit zero f m i) := by
  simp [Term.substLevels, predecessorSplit, Term.substAll, Term.replaceVars, Term.replace,
    Term.replaceBranches]

section Variable
variable (hi : r.localValue? depth i = none)

include hi

theorem whnfGas_var : r.whnfGas depth (gas + 1) (.var i) s = .ok (.var i) s := by
  rw [whnfGas, whnfWith]
  simp only [hi]
  rfl

theorem whnfGas_predecessorSplit :
    r.whnfGas depth (gas + 2) (predecessorSplit zero f m i) s =
      .ok (predecessorSplit zero f m i) s := by
  rw [predecessorSplit, whnfGas, whnfWith]
  exact bind_of_ok (whnfGas_var hi)

theorem nfGas_var : r.nfGas (gas + 2) depth (.var i) s = .ok (.var i) s := by
  rw [nfGas]
  exact bind_of_ok (whnfGas_var hi)

end Variable

theorem localValue?_under (r : Reducer) (depth : ℕ) : r.localValue? (depth + 1) 0 = none :=
  if_pos (Nat.succ_pos depth)

section Run
variable (h : SplitBelow r.env suc zero f m)

include h

/-- The body of the function has a weak head normal form, in which the split is not at the head. -/
theorem whnfGas_splitBelow :
    r.whnfGas depth (gas + 2) (.app (.ref suc .zero) (predecessorSplit zero f m i)) s =
      .ok (.succ (predecessorSplit zero f m i)) s := by
  obtain ⟨d, hd, hlen, hbody⟩ := h.successor
  rw [whnfGas_app_ref hd hlen, delta]
  simp only [hd, hlen, hbody]
  rfl

/-- At a variable the function is unfolded, which takes fuel. -/
theorem whnfGas_call_zero :
    r.whnfGas depth (gas + 2) (.app (.ref f .params) (.var i)) ⟨0, memo⟩ =
      .error .fuel ⟨0, memo⟩ := by
  obtain ⟨d, decreasing, hd, hlen, hbody⟩ := h.function
  rw [whnfGas_app_func hd hlen hbody]
  refine bind_of_error ?_
  rw [unfold_of_unknown rfl (by simp [Term.isClosed, Term.anyVar, Term.anyVarFrom, Term.apps]),
    bind_assoc]
  exact step_zero

/-- One unit of fuel unfolds the function at a variable, to a constructor around the blocked split.
-/
theorem whnfGas_call_succ :
    r.whnfGas depth (gas + 3) (.app (.ref f .params) (.var i)) ⟨fuel + 1, memo⟩ =
      .ok (.succ (predecessorSplit zero f m i)) ⟨fuel, memo⟩ := by
  obtain ⟨d, decreasing, hd, hlen, hbody⟩ := h.function
  rw [whnfGas_app_func hd hlen hbody]
  refine (bind_of_ok (a := some (.succ (predecessorSplit zero f m i))) (t :=
    ⟨fuel, memo⟩) ?_).trans rfl
  have hopen : (((Term.ref f .params).apps [.var i]).isClosed &&
      !((Term.ref f .params).apps [.var i]).hasHole) = false := by
    simp [Term.isClosed, Term.anyVar, Term.anyVarFrom, Term.apps]
  rw [unfold_of_unknown rfl fun hclosed => absurd (hopen.symm.trans hclosed) (by decide),
    bind_assoc, step_succ, substAll_splitBelow, bind_of_ok (whnfGas_splitBelow h),
    conclude_eq, hopen]
  rfl

/-- Normalization goes from the split to the call in its branch. -/
theorem nfGas_predecessorSplit (hi : r.localValue? depth i = none) {e : Interrupt}
    {s' : ReductionState} (hcall : r.nfGas (gas + 4) (depth + 1)
      (.app (.ref f .params) (.var 0)) s = .error e s') :
    r.nfGas (gas + 5) depth (predecessorSplit zero f m i) s = .error e s' := by
  obtain ⟨d, hd, hlen, hbody⟩ := h.origin
  have hzero : r.nfGas (gas + 4) depth (.ref zero .zero) s = .ok .zero s := by
    have hwhnf : r.whnfGas depth (gas + 3) (.ref zero .zero) s = .ok .zero s := by
      rw [whnfGas, whnfWith, delta]
      simp only [hd, hlen, hbody]
      rfl
    rw [nfGas, bind_of_ok hwhnf]
    rfl
  have hmotive : r.nfGas (gas + 4) (depth + 1) .nat s = .ok .nat s := rfl
  rw [nfGas, bind_of_ok (whnfGas_predecessorSplit hi), predecessorSplit, nfParts]
  refine (bind_of_ok (nfGas_var hi)).trans ((bind_of_ok hmotive).trans (bind_of_error ?_))
  rw [List.mapM_cons, List.mapM_cons]
  have hfirst :
      (do return { head := .zero, names := [], body := ← r.nfGas (gas + 4) depth (.ref zero .zero) }
        :
      Reduce (Branch Term)) s = .ok ⟨.zero, [], .zero⟩ s := bind_of_ok hzero
  refine (bind_of_ok hfirst).trans (bind_of_error (bind_of_error ?_))
  exact bind_of_error hcall

/-- Normalization of the call at a variable uses up every amount of fuel. -/
theorem nfGas_call (hi : r.localValue? depth i = none) (hgas : 2 * fuel + 8 ≤ gas) :
    r.nfGas gas depth (.app (.ref f .params) (.var i)) ⟨fuel, memo⟩ = .error .fuel ⟨0, memo⟩ := by
  induction fuel generalizing gas depth i with
  | zero =>
    obtain ⟨gas, rfl⟩ := Nat.exists_eq_add_of_le' (show 3 ≤ gas by omega)
    rw [nfGas]
    exact bind_of_error (whnfGas_call_zero h)
  | succ fuel ih =>
    obtain ⟨gas, rfl⟩ := Nat.exists_eq_add_of_le' (show 6 ≤ gas by omega)
    rw [nfGas, bind_of_ok (whnfGas_call_succ h), nfParts]
    exact bind_of_error (nfGas_predecessorSplit h hi (ih (localValue?_under r depth) (by omega)))

/-- The test for structural descent accepts the function, and its body at a variable without a value
still has no normal form: normalization uses up every amount of fuel. -/
theorem along_and_nfGas_splitBelow :
    ∃ d body decreasing, r.env.get? f = some d ∧ d.body = .func body decreasing ∧
    Descent.check f d.tele.length body = .along 0 ∧
    ∀ depth fuel gas memo, r.localValue? depth 0 = none → 2 * fuel + 10 ≤ gas →
      r.nfGas gas depth body ⟨fuel, memo⟩ = .error .fuel ⟨0, memo⟩ := by
  obtain ⟨d, decreasing, hd, hlen, hbody⟩ := h.function
  have hsuc : suc ≠ f := by
    rintro rfl
    obtain ⟨d', hd', -, hbody'⟩ := h.successor
    simp_all
  have hzero : zero ≠ f := by
    rintro rfl
    obtain ⟨d', hd', -, hbody'⟩ := h.origin
    simp_all
  refine ⟨d, _, decreasing, hd, hbody, hlen ▸ check_splitBelow hsuc hzero,
    fun depth fuel gas memo hi hgas => ?_⟩
  obtain ⟨gas, rfl⟩ := Nat.exists_eq_add_of_le' (show 6 ≤ gas by omega)
  rw [nfGas, bind_of_ok (whnfGas_splitBelow h), nfParts]
  exact bind_of_error (nfGas_predecessorSplit h hi
    (nfGas_call h (localValue?_under r depth) (by omega)))

end Run

/-- The body of `f`, which is `suc` of a case split, with a million units of fuel. -/
theorem along_and_nfGas_splitBelow_splitting :
    SplitBelow splitting.env ⟨"Prelude::suc"⟩ ⟨"Prelude::zero"⟩ ⟨"index::f"⟩ "m" ∧
    ∃ d body decreasing, splitting.env.get? ⟨"index::f"⟩ = some d ∧ d.body = .func body decreasing ∧
      Descent.check ⟨"index::f"⟩ d.tele.length body = .along 0 ∧
      splitting.nfGas 2000010 0 body ⟨1000000, {}⟩ = .error .fuel ⟨0, {}⟩ := by
  obtain ⟨d, body, decreasing, hd, hbody, hcheck, hnf⟩ :=
    along_and_nfGas_splitBelow splitBelow_splitting
  exact ⟨splitBelow_splitting, d, body, decreasing, hd, hbody, hcheck,
    hnf 0 1000000 2000010 {} rfl le_rfl⟩

end Reducer

end LeveledTypes
