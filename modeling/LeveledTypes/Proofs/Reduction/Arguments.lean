import LeveledTypes.Proofs.Reduction.Whnf
import LeveledTypes.Proofs.Term.Substitution

/-!
# Arguments at once and one by one

Arguments reach the body of a function or of a branch in three ways: they are put in at once when a
definition is unfolded or a branch is selected, abstractions are contracted one after the other when
they are applied, and solutions of holes are contracted with the arguments of the hole. All of them
give the same term.
-/
namespace LeveledTypes

namespace Reducer
variable {r : Reducer} {depth gas fuel : ℕ} {memo : Memo} {t : Term} {tele : Telescope Term}
  {args : List Term}

/-- An applied abstraction takes one unit of fuel, and the other arguments wait for what its body
becomes. -/
theorem whnfGas_apps_lam {x : Binder} {s b a : Term} {as : List Term} :
    r.whnfGas depth (gas + 2) ((Term.lam x s b).apps (a :: as)) ⟨fuel + 1, memo⟩ =
      r.whnfGas depth (gas + 1) ((b.subst a).apps as) ⟨fuel, memo⟩ := by
  obtain ⟨as', a', has⟩ : ∃ as' a', a :: as = as' ++ [a'] :=
    ⟨_, _, (List.dropLast_append_getLast (by simp)).symm⟩
  have happs : (Term.lam x s b).apps (a :: as) = .app ((Term.lam x s b).apps as') a' := by
    rw [has, Term.apps_append]; rfl
  have hspine : (Term.app ((Term.lam x s b).apps as') a').spine = (.lam x s b, a :: as) := by
    rw [← happs, Term.spine, Term.spineWith_apps, List.append_nil]
    rfl
  have hhead : r.whnfGas depth (gas + 1) (.lam x s b) ⟨fuel + 1, memo⟩ =
      .ok (.lam x s b) ⟨fuel + 1, memo⟩ := rfl
  rw [happs, whnfGas, whnfWith, hspine]
  refine (bind_of_ok hhead).trans ?_
  rw [applySpine]
  exact step_succ

/-- Abstractions applied to as many arguments come to the body at these arguments, at one unit of
fuel for each. -/
theorem whnfGas_apps_lams (h : tele.length = args.length) :
    r.whnfGas depth (gas + 1 + args.length)
      ((Term.lams tele t).apps args) ⟨fuel + args.length, memo⟩ =
      r.whnfGas depth (gas + 1) (t.substAll args) ⟨fuel, memo⟩ := by
  induction args generalizing tele t with
  | nil =>
    obtain rfl := List.length_eq_zero_iff.mp h
    rfl
  | cons a args ih =>
    obtain ⟨p, tele, rfl⟩ := List.exists_cons_of_length_eq_add_one h
    have hlen : tele.length = args.length := by simpa using h
    obtain ⟨tele', hlen', hsubst⟩ := Term.subst_lams tele t a
    have hgas : gas + 1 + (args.length + 1) = gas + args.length + 2 := by omega
    rw [List.length_cons, hgas, ← Nat.add_assoc]
    calc r.whnfGas depth (gas + args.length + 2) ((Term.lams (p :: tele) t).apps (a :: args))
          ⟨fuel + args.length + 1, memo⟩
        = r.whnfGas depth (gas + args.length + 1) (((Term.lams tele t).subst a).apps args)
          ⟨fuel + args.length, memo⟩ := whnfGas_apps_lam
      _ = r.whnfGas depth (gas + 1) (t.substAll (a :: args)) ⟨fuel, memo⟩ := by
        rw [hsubst, Nat.add_right_comm, ih (hlen'.trans hlen), hlen, Term.substAll_cons]

/-- A branch that is selected is reduced at the arguments of the constructor. -/
theorem whnfGas_case {a v m : Term} {bs : List (Branch Term)} {head : BranchHead} {b : Branch Term}
    {s : ReductionState} (ha : r.whnfGas depth gas a s = .ok v ⟨fuel + 1, memo⟩)
    (hv : constructor? v = some (head, args)) (hb : bs.find? (fun b => b.head == head) = some b) :
    r.whnfGas depth (gas + 1) (.case a m bs) s = r.whnfGas depth gas
      (b.body.substAll args) ⟨fuel, memo⟩ := by
  rw [whnfGas, whnfWith]
  refine (bind_of_ok ha).trans ?_
  simp only [hv, hb]
  exact step_succ

/-- An instance that is unfolded is reduced at its arguments. -/
theorem delta_inst {n c : GlobalName} {u : Universe} {d : Definition} {whnf : Term → Reduce Term}
    (hd : r.env.get? n = some d) (hlen : d.tele.length = args.length) (hbody : d.body = .inst c t) :
    r.delta whnf n u args ⟨fuel + 1, memo⟩ =
      whnf ((t.substLevels u).substAll args) ⟨fuel, memo⟩ := by
  rw [delta]
  simp only [hd, hlen, hbody, lt_irrefl, if_false, List.take_length, List.drop_length]
  exact step_succ

/-- However a term takes arguments for its innermost variables, it becomes the same term, which is
what its abstraction over these variables contracts to. -/
structure TakesAlike (tele : Telescope Term) (t : Term) (args : List Term) : Prop where
  /-- At once. -/
  contracted : t.substAll args = (Term.lams tele t).beta args
  /-- One after the other. -/
  each : t.substAll args = t.substEach args
  /-- As abstractions that are reduced at the arguments. -/
  applied : ∀ (r : Reducer) (depth gas fuel : ℕ) (memo : Memo),
    r.whnfGas depth (gas + 1 + args.length)
      ((Term.lams tele t).apps args) ⟨fuel + args.length, memo⟩ =
      r.whnfGas depth (gas + 1) (t.substAll args) ⟨fuel, memo⟩
  /-- As the body of a function that is unfolded, and whose outcome is not remembered. -/
  unfolded : ∀ (whnf : Term → Reduce Term) (n : GlobalName) (u : Universe) (key : Term)
    (fuel : ℕ) (memo : Memo),
    key = (Term.ref n u).apps args → ((key.isClosed && !key.hasHole) = true → memo[key]? = none) →
    unfold whnf n u t args ⟨fuel + 1, memo⟩ =
      (whnf ((Term.lams tele (t.substLevels u)).beta args) >>= conclude key) ⟨fuel, memo⟩
  /-- As the body of an instance that is unfolded. -/
  instantiated : ∀ (r : Reducer) (whnf : Term → Reduce Term) (n c : GlobalName) (u : Universe)
    (d : Definition) (fuel : ℕ) (memo : Memo), r.env.get? n = some d → d.tele.length = args.length →
    d.body = .inst c t →
    r.delta whnf n u args ⟨fuel + 1, memo⟩ =
      whnf ((Term.lams tele (t.substLevels u)).beta args) ⟨fuel, memo⟩
  /-- As the body of a branch that is selected. -/
  selected : ∀ (r : Reducer) (depth gas fuel : ℕ) (memo : Memo) (s : ReductionState) (a v m : Term)
    (bs : List (Branch Term)) (head : BranchHead) (names : List String),
    r.whnfGas depth gas a s = .ok v ⟨fuel + 1, memo⟩ → constructor? v = some (head, args) →
    bs.find? (fun b => b.head == head) = some ⟨head, names, t⟩ →
    r.whnfGas depth (gas + 1) (.case a m bs) s = r.whnfGas depth gas
      ((Term.lams tele t).beta args) ⟨fuel, memo⟩

/-- A function is applied to as many arguments as it has parameters. Its body has the arguments put
in at once, and every way in which reduction takes arguments comes to that. -/
theorem takesAlike_of_length_eq (tele : Telescope Term) (t : Term) (args : List Term)
    (h : tele.length = args.length) : TakesAlike tele t args where
  contracted := (Term.beta_lams h t).symm
  each := (Term.substEach_eq_substAll t args).symm
  applied _ _ _ _ _ := whnfGas_apps_lams h
  unfolded whnf n u key fuel memo hkey hmemo := by
    rw [unfold_of_unknown hkey hmemo, bind_assoc, step_succ, Term.beta_lams h]
  instantiated r whnf n c u d fuel memo hd hlen hbody := by
    rw [delta_inst hd hlen hbody, Term.beta_lams h]
  selected r depth gas fuel memo s a v m bs head names ha hv hb := by
    rw [whnfGas_case ha hv hb, Term.beta_lams h]

/-- `\lam (f : Nat -> Nat) (x : Nat) => f` -/
def constantTele : Telescope Term :=
  [{ Binder.named "f" with type := .arrow .nat .nat }, { Binder.named "x" with type := .nat }]

/-- A function and a number under one binder, at open arguments. -/
theorem takesAlike_of_length_eq_underBinder :
    constantTele.length = [Term.var 0, .succ (.var 3)].length ∧
      TakesAlike constantTele (.lam (.named "y") .nat (.app (.var 2) (.app (.var 1) (.var 5))))
        [.var 0, .succ (.var 3)] ∧
      (Term.lam (.named "y") .nat (.app (.var 2) (.app (.var 1) (.var 5)))).substAll
      [.var 0, .succ (.var 3)] =
        .lam (.named "y") .nat (.app (.var 1) (.app (.succ (.var 4)) (.var 3))) :=
  ⟨rfl, takesAlike_of_length_eq _ _ _ rfl, rfl⟩

end Reducer

end LeveledTypes
