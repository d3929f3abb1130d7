import LeveledTypes.Descent
import LeveledTypes.Proofs.Reduction.Whnf

/-!
# Self-application through a data type

A constructor that takes a function from its own data type gives a function on the data type a way
to call itself. Over such definitions head reduction does not end by itself, so that only fuel stops
it. Where the function hands out a constructor before it goes on, the answer that is remembered ends
head reduction. But normalization meets the same application again inside of the answer, and no fuel
stops it.
-/
namespace LeveledTypes

namespace Reducer

/-- A term under applications of globals. -/
def under (heads : List GlobalName) (t : Term) : Term :=
  heads.foldr (fun n t => .app (.ref n .zero) t) t

/-- The function `apply` on its own wrapping. -/
def loop (wrap apply : GlobalName) : Term :=
  .app (.ref apply .zero) (.app (.ref wrap .zero) (.ref apply .zero))

/-- What the function does with an argument `wrap f`: it calls `f (wrap f)`. -/
def applyBody (wrap : GlobalName) (heads : List GlobalName) (motive : Term) (f : String) : Term :=
  .case (.var 0) motive [⟨.con wrap, [f],
    under heads (.app (.var 0) (.app (.ref wrap .zero) (.var 0)))⟩]

/-- A constructor `wrap` of one argument, and a function `\func apply b \with | wrap f => heads (f
(wrap f))`. -/
structure SelfApplication (env : Environment) (wrap apply : GlobalName) (heads : List GlobalName) :
    Prop where
  constructor : ∃ d data index patterns, env.get? wrap = some d ∧ d.tele.length = 1 ∧
    d.body = .constructor data index 0 patterns
  function : ∃ d motive f decreasing, env.get? apply = some d ∧ d.tele.length = 1 ∧
    d.body = .func (applyBody wrap heads motive f) decreasing ∧
    Descent.calls apply 1 [.unknown, .param 0] motive [] = []

section Example

/-- The successor of natural numbers. -/
def sucDefinition : Definition :=
  { span := default, name := ⟨"Prelude::suc"⟩, tele :=
    [{ Binder.named "n" with type := .nat }], type := .nat
    body := .primitive .succ }

/-- The data type of `\data Bad | mk (f : Bad -> Nat)`. -/
def badDefinition : Definition :=
  { span := default, name := ⟨"index::Bad"⟩, tele := [], type := .univ .params, body :=
    .data [⟨"index::mk"⟩] }

/-- A constructor whose argument is a function on its own data type. -/
def mkDefinition : Definition :=
  { span := default, name := ⟨"index::mk"⟩
    tele := [{ Binder.named "f" with
      type := .arrow (.ref ⟨"index::Bad"⟩ .params) (.ref ⟨"Prelude::Nat"⟩ .zero) }]
    type := .data ⟨"index::Bad"⟩ .params [], body := .constructor ⟨"index::Bad"⟩ 0 0 none }

/-- `\func app (b : Bad) : Nat \with | mk f => heads (f (mk f))` -/
def appDefinition (heads : List GlobalName) : Definition :=
  { span := default, name := ⟨"index::app"⟩
    tele := [{ Binder.named "b" with type := .ref ⟨"index::Bad"⟩ .zero }], type :=
      .ref ⟨"Prelude::Nat"⟩ .zero
    body := .func (applyBody ⟨"index::mk"⟩ heads (.ref ⟨"Prelude::Nat"⟩ .zero) "f") none }

/-- The data type with the function on it, over nothing else. -/
def selfApplying (heads : List GlobalName) : Reducer :=
  ⟨⟨{}, Registry.insertAll {} [sucDefinition, badDefinition, mkDefinition, appDefinition heads]⟩,
    {}, []⟩

theorem get?_selfApplying (heads : List GlobalName) :
    (selfApplying heads).env.get? ⟨"Prelude::suc"⟩ = some sucDefinition ∧
      (selfApplying heads).env.get? ⟨"index::mk"⟩ = some mkDefinition ∧
      (selfApplying heads).env.get? ⟨"index::app"⟩ = some (appDefinition heads) := by
  simp [selfApplying, Environment.get?, Registry.insertAll, Registry.get?_insert, sucDefinition,
    badDefinition, mkDefinition, appDefinition]

theorem selfApplication_selfApplying (heads : List GlobalName) :
    SelfApplication (selfApplying heads).env ⟨"index::mk"⟩ ⟨"index::app"⟩ heads := by
  obtain ⟨-, hmk, happ⟩ := get?_selfApplying heads
  refine ⟨⟨mkDefinition, _, _, _, hmk, rfl, rfl⟩, appDefinition heads, _, _, _, happ, rfl, rfl, ?_⟩
  simp [Descent.calls]

end Example

theorem replace_under {f : ℕ → ℕ → Term} {g : Universe → Universe} (hg : g .zero = .zero) {c : ℕ}
    (heads : List GlobalName) (t : Term) :
    (under heads t).replace f g c = under heads (t.replace f g c) := by
  induction heads with
  | nil => rfl
  | cons n heads ih =>
    change Term.app (.ref n (g .zero)) ((under heads t).replace f g c) = _
    rw [ih, hg]
    rfl

variable {r : Reducer} {wrap apply : GlobalName} {heads : List GlobalName}
  {depth gas fuel : ℕ} {memo : Memo}

section Globals
variable {n : GlobalName} {u : Universe} {d : Definition} {a : Term} {s : ReductionState}
  (hd : r.env.get? n = some d) (hlen : d.tele.length = 1)

include hd hlen

theorem whnfGas_app_ref :
    r.whnfGas depth (gas + 2) (.app (.ref n u) a) s = r.delta
      (r.whnfGas depth (gas + 1)) n u [a] s := by
  have hargs : d.tele.length = [a].length := hlen
  exact whnfGas_apps_ref hd hargs

theorem whnfGas_app_constructor {data : GlobalName} {index : ℕ} {patterns : Option (List Term)}
    (hbody : d.body = .constructor data index 0 patterns) :
    r.whnfGas depth (gas + 2) (.app (.ref n u) a) s = .ok (.con n u [] [a]) s := by
  rw [whnfGas_app_ref hd hlen, delta]
  simp only [hd, hlen, hbody]
  rfl

theorem whnfGas_app_func {body : Term} {decreasing : Option ℕ}
    (hbody : d.body = .func body decreasing) : r.whnfGas depth (gas + 2) (.app (.ref n u) a) s = (do
      match ← unfold (r.whnfGas depth (gas + 1)) n u body [a] with
      | some t => r.whnfGas depth (gas + 1) t
      | none => return .app (.ref n u) a) s := by
  have hargs : d.tele.length = [a].length := hlen
  exact whnfGas_apps_func hd hargs hbody

end Globals

/-- The body at an argument is the case split of the argument, since nothing else in it is free. -/
theorem substAll_applyBody (wrap : GlobalName) (heads : List GlobalName)
    (motive a : Term) (f : String) :
    ∃ motive', ((applyBody wrap heads motive f).substLevels .zero).substAll [a] =
      .case a motive' [⟨.con wrap, [f],
        under heads (.app (.var 0) (.app (.ref wrap .zero) (.var 0)))⟩] := by
  have hlevels : (applyBody wrap heads motive f).substLevels .zero =
      applyBody wrap heads (motive.replace (fun _ i => .var i) (·.subst .zero) 1) f := by
    have hne : Universe.zero ≠ .params := by decide
    simp only [Term.substLevels, if_neg hne, Term.mapUniverses, applyBody, Term.replace,
      Term.replaceBranches]
    rw [replace_under rfl]
    rfl
  rw [hlevels, Term.substAll_eq_inst, Term.inst_eq_replaceVars, Term.replaceVars]
  simp only [applyBody, Term.replace, Term.replaceBranches]
  rw [replace_under rfl]
  simp [Term.replace, Term.pushAll, Term.up_of_lt]

theorem substAll_call (a : Term) :
    (under heads (.app (.var 0) (.app (.ref wrap .zero) (.var 0)))).substAll [a] =
      under heads (.app a (.app (.ref wrap .zero) a)) := by
  rw [Term.substAll_eq_inst, Term.inst_eq_replaceVars, Term.replaceVars, replace_under rfl]
  simp [Term.replace, Term.pushAll]

/-- Applications of other functions around a term add no calls. -/
theorem calls_under {n : GlobalName} {arity : ℕ} {os : List Descent.Origin}
    (hn : n ∉ heads) (t : Term) :
    Descent.calls n arity os (under heads t) [] = Descent.calls n arity os t [] := by
  induction heads with
  | nil => rfl
  | cons k heads ih =>
    rw [List.mem_cons, not_or] at hn
    obtain ⟨hk, hn⟩ := hn
    change (if k = n then _ else []) ++ Descent.calls n arity os (under heads t) [] = _
    rw [if_neg (Ne.symm hk), ih hn, List.nil_append]

/-- The test for structural descent finds no recursive call, since the function does not name
itself. -/
theorem check_applyBody {motive : Term} {f : String} (hwrap : apply ≠ wrap) (hheads : apply ∉ heads)
    (hmotive : Descent.calls apply 1 [.unknown, .param 0] motive [] = []) :
    Descent.check apply 1 (applyBody wrap heads motive f) = .notRecursive := by
  have hcalls : Descent.calls apply 1 [.param 0] (applyBody wrap heads motive f) [] = [] := by
    simp [applyBody, Descent.calls, Descent.callsBranches, hmotive, calls_under hheads, hwrap.symm]
  have hos : (List.range 1).reverse.map Descent.Origin.param = [.param 0] := rfl
  rw [Descent.check]
  simp only [hos, hcalls]

section Loop
variable (h : SelfApplication r.env wrap apply heads)

include h

/-- One round of the call on its own wrapping, without fuel for it. -/
theorem whnfGas_applyBody_zero {motive : Term} {f : String} :
    r.whnfGas depth (gas + 3) (((applyBody wrap heads motive f).substLevels .zero).substAll
        [.app (.ref wrap .zero) (.ref apply .zero)]) ⟨0, memo⟩ = .error .fuel ⟨0, memo⟩ := by
  obtain ⟨d, data, index, patterns, hd, hlen, hbody⟩ := h.constructor
  obtain ⟨motive', hcase⟩ := substAll_applyBody wrap heads motive
    (.app (.ref wrap .zero) (.ref apply .zero)) f
  rw [hcase, whnfGas, whnfWith, bind_of_ok (whnfGas_app_constructor hd hlen hbody)]
  simp only [constructor?, List.find?, BEq.rfl, step_zero]

/-- One round of the call on its own wrapping. -/
theorem whnfGas_applyBody_succ {motive : Term} {f : String} :
    r.whnfGas depth (gas + 3) (((applyBody wrap heads motive f).substLevels .zero).substAll
        [.app (.ref wrap .zero) (.ref apply .zero)]) ⟨fuel + 1, memo⟩ =
      r.whnfGas depth (gas + 2) (under heads (loop wrap apply)) ⟨fuel, memo⟩ := by
  obtain ⟨d, data, index, patterns, hd, hlen, hbody⟩ := h.constructor
  obtain ⟨motive', hcase⟩ := substAll_applyBody wrap heads motive
    (.app (.ref wrap .zero) (.ref apply .zero)) f
  rw [hcase, whnfGas, whnfWith, bind_of_ok (whnfGas_app_constructor hd hlen hbody)]
  simp only [constructor?, List.find?, BEq.rfl, step_succ, substAll_call]
  rfl

end Loop

section Miss
variable {whnf : Term → Reduce Term} {body : Term} (hmemo : memo[loop wrap apply]? = none)

include hmemo

/-- The application of the function to its own wrapping, where nothing is remembered of it. -/
theorem unfold_loop_succ :
    unfold whnf apply .zero body [.app (.ref wrap .zero) (.ref apply .zero)] ⟨fuel + 1, memo⟩ =
      (whnf ((body.substLevels .zero).substAll [.app (.ref wrap .zero) (.ref apply .zero)]) >>=
        conclude (loop wrap apply)) ⟨fuel, memo⟩ := by
  rw [unfold_of_unknown rfl fun _ => hmemo, bind_assoc]
  exact step_succ

theorem unfold_loop_zero :
    unfold whnf apply .zero body [.app (.ref wrap .zero) (.ref apply .zero)] ⟨0, memo⟩ =
      .error .fuel ⟨0, memo⟩ := by
  rw [unfold_of_unknown rfl fun _ => hmemo, bind_assoc]
  exact step_zero

end Miss

/-- The call on its own wrapping uses up every amount of fuel. -/
theorem whnfGas_loop (h : SelfApplication r.env wrap apply [])
    (hmemo : memo[loop wrap apply]? = none) (hgas : fuel + 3 ≤ gas) :
    r.whnfGas depth gas (loop wrap apply) ⟨fuel, memo⟩ = .error .fuel ⟨0, memo⟩ := by
  obtain ⟨d, motive, f, decreasing, hd, hlen, hbody, -⟩ := h.function
  induction fuel using Nat.strong_induction_on generalizing gas with
  | _ fuel ih =>
    obtain ⟨gas, rfl⟩ := Nat.exists_eq_add_of_le' (show 2 ≤ gas by omega)
    rw [loop, whnfGas_app_func hd hlen hbody]
    refine bind_of_error ?_
    match fuel with
    | 0 => exact unfold_loop_zero hmemo
    | fuel + 1 =>
      obtain ⟨gas, rfl⟩ := Nat.exists_eq_add_of_le' (show 2 ≤ gas by omega)
      rw [unfold_loop_succ hmemo]
      refine bind_of_error ?_
      match fuel with
      | 0 => exact whnfGas_applyBody_zero h
      | fuel + 1 => exact (whnfGas_applyBody_succ h).trans (ih fuel (by omega) (by omega))

section Successor
variable {suc : GlobalName} {s : ReductionState} (h : SelfApplication r.env wrap apply [suc])

include h

/-- What is remembered of the call on its own wrapping is found without fuel. -/
theorem whnfGas_loop_of_remembered
    (hmemo : s.memo[loop wrap apply]? = some (.succ (loop wrap apply))) :
    r.whnfGas depth (gas + 2) (loop wrap apply) s = .ok (.succ (loop wrap apply)) s := by
  obtain ⟨d, motive, f, decreasing, hd, hlen, hbody, -⟩ := h.function
  rw [loop, whnfGas_app_func hd hlen hbody]
  exact (bind_of_ok (unfold_of_known rfl rfl hmemo)).trans rfl

/-- Normalization goes from the remembered answer to the same application for ever, whatever fuel
there is. -/
theorem nfGas_loop_of_remembered
    (hmemo : s.memo[loop wrap apply]? = some (.succ (loop wrap apply))) :
    r.nfGas gas depth (loop wrap apply) s = .error .gas s := by
  induction gas generalizing depth with
  | zero => rfl
  | succ gas ih =>
    rw [nfGas]
    match gas with
    | 0 => rfl
    | 1 => rfl
    | gas + 2 =>
      rw [bind_of_ok (whnfGas_loop_of_remembered h hmemo)]
      exact bind_of_error ih

/-- Two units of fuel are enough for an answer to be remembered. -/
theorem whnfGas_loop_succ (hsuc : ∃ d, r.env.get? suc = some d ∧ d.tele.length = 1 ∧
    d.body = .primitive .succ) {memo : Memo} (hmemo : memo[loop wrap apply]? = none) :
    r.whnfGas depth (gas + 4) (loop wrap apply) ⟨fuel + 2, memo⟩ =
      .ok (.succ (loop wrap apply)) ⟨fuel, memo.insert (loop wrap apply)
        (.succ (loop wrap apply))⟩ := by
  obtain ⟨d, motive, f, decreasing, hd, hlen, hbody, -⟩ := h.function
  obtain ⟨k, hk, hklen, hkbody⟩ := hsuc
  rw [loop, whnfGas_app_func hd hlen hbody]
  refine (bind_of_ok (a := some (.succ (loop wrap apply))) (t := _) ?_).trans rfl
  rw [unfold_loop_succ hmemo]
  have hround : r.whnfGas depth (gas + 2) (under [suc] (loop wrap apply)) ⟨fuel, memo⟩ =
      .ok (.succ (loop wrap apply)) ⟨fuel, memo⟩ := by
    change r.whnfGas depth (gas + 2) (.app (.ref suc .zero) (loop wrap apply)) _ = _
    rw [whnfGas_app_ref hk hklen, delta]
    simp only [hk, hklen, hkbody]
    rfl
  rw [bind_of_ok ((whnfGas_applyBody_succ h).trans hround)]
  rfl

/-- Whatever the fuel, and however deep calls may nest, the normalization of the call on its own
wrapping does not end: no more than two units of fuel are ever taken. -/
theorem nfGas_loop (hsuc : ∃ d, r.env.get? suc = some d ∧ d.tele.length = 1 ∧
    d.body = .primitive .succ) {memo : Memo} (hmemo : memo[loop wrap apply]? = none) :
    r.nfGas (gas + 5) depth (loop wrap apply) ⟨fuel + 2, memo⟩ =
      .error .gas ⟨fuel, memo.insert (loop wrap apply) (.succ (loop wrap apply))⟩ := by
  rw [nfGas, bind_of_ok (whnfGas_loop_succ h hsuc hmemo)]
  exact bind_of_error (nfGas_loop_of_remembered h (by simp))

end Successor

/-- The function `\func app b \with | mk f => suc (f (mk f))` on its own wrapping, with a million
units of fuel to spare. -/
theorem nfGas_loop_app : SelfApplication (selfApplying [⟨"Prelude::suc"⟩]).env ⟨"index::mk"⟩
    ⟨"index::app"⟩ [⟨"Prelude::suc"⟩] ∧
    (∃ d, (selfApplying [⟨"Prelude::suc"⟩]).env.get? ⟨"Prelude::suc"⟩ = some d ∧ d.tele.length = 1 ∧
      d.body = .primitive .succ) ∧ ({} : Memo)[loop ⟨"index::mk"⟩ ⟨"index::app"⟩]? = none ∧
    ∃ memo, (selfApplying [⟨"Prelude::suc"⟩]).nfGas 1000005 0
      (loop ⟨"index::mk"⟩ ⟨"index::app"⟩) ⟨1000002, {}⟩ = .error .gas ⟨1000000, memo⟩ :=
  have h := selfApplication_selfApplying [⟨"Prelude::suc"⟩]
  have hsuc := ⟨_, (get?_selfApplying [⟨"Prelude::suc"⟩]).1, rfl, rfl⟩
  ⟨h, hsuc, by simp, _, nfGas_loop h hsuc (by simp)⟩

/-- The test for structural descent accepts the function, and the call on its own wrapping still has
no weak head normal form: it uses up every amount of fuel. -/
theorem notRecursive_and_whnfGas_loop (h : SelfApplication r.env wrap apply [])
    (hne : apply ≠ wrap) : (∃ d body decreasing, r.env.get? apply = some d ∧
      d.body = .func body decreasing ∧ Descent.check apply d.tele.length body = .notRecursive) ∧
    ∀ depth fuel gas memo, memo[loop wrap apply]? = none → fuel + 3 ≤ gas →
      r.whnfGas depth gas (loop wrap apply) ⟨fuel, memo⟩ = .error .fuel ⟨0, memo⟩ := by
  obtain ⟨d, motive, f, decreasing, hd, hlen, hbody, hmotive⟩ := h.function
  refine ⟨⟨d, _, decreasing, hd, hbody, ?_⟩, fun depth fuel gas memo hmemo hgas =>
    whnfGas_loop h hmemo hgas⟩
  rw [hlen]
  exact check_applyBody hne (by simp) hmotive

/-- The function `\func app b \with | mk f => f (mk f)` on its own wrapping, with a million units of
fuel. -/
theorem notRecursive_and_whnfGas_loop_app :
    SelfApplication (selfApplying []).env ⟨"index::mk"⟩ ⟨"index::app"⟩ [] ∧
    (⟨"index::app"⟩ : GlobalName) ≠ ⟨"index::mk"⟩ ∧
    (selfApplying []).whnfGas 0 1000003 (loop ⟨"index::mk"⟩ ⟨"index::app"⟩) ⟨1000000, {}⟩ =
      .error .fuel ⟨0, {}⟩ :=
  have h := selfApplication_selfApplying []
  ⟨h, by decide,
    (notRecursive_and_whnfGas_loop h (by decide)).2 0 1000000 1000003 {} (by simp) le_rfl⟩

end Reducer

end LeveledTypes
