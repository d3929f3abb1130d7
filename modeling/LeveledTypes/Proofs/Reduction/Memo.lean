import LeveledTypes.Proofs.Reduction.Evaluation
import LeveledTypes.Proofs.Reduction.Unfolding

/-!
# What a memo and fuel decide

A memo that remembers outcomes of unfoldings only keeps doing so, and what a run returns is what
evaluation without a memo returns. Whether it returns is a matter of fuel: a run takes exactly the
cost of its course, which what is remembered can only lower.
-/
namespace LeveledTypes

namespace Memo

/-- The applications that are remembered, without the names of binders. -/
def known (memo : Memo) : Set Term := Term.anonymize '' {k | k ∈ memo}

theorem mem_known {memo : Memo} {k : Term} : k.anonymize ∈ memo.known ↔ k ∈ memo := by
  refine ⟨fun ⟨k', hk', h⟩ => ?_, fun h => ⟨k, h, rfl⟩⟩
  exact (Std.HashMap.mem_congr (Term.beq_iff.mpr h)).mp hk'

/-- Remembering one more application adds it to those that are known, without its names. -/
theorem known_insert (memo : Memo) (k v : Term) :
    known (memo.insert k v) = insert k.anonymize memo.known := by
  ext key
  simp only [known, Set.mem_image, Set.mem_ofPred_eq, Set.mem_insert_iff, Std.HashMap.mem_insert,
    Term.beq_iff]
  constructor
  case mp =>
    rintro ⟨k', h | h, rfl⟩
    · exact .inl h.symm
    · exact .inr ⟨k', h, rfl⟩
  case mpr =>
    rintro (rfl | ⟨k', h, rfl⟩)
    · exact ⟨k, .inl rfl, rfl⟩
    · exact ⟨k', .inr h, rfl⟩

theorem known_mono {memo memo' : Memo} (h : ∀ k ∈ memo, k ∈ memo') : memo.known ⊆ memo'.known :=
  Set.image_mono h

/-- What is remembered of an application is the outcome of its unfolding, up to names. -/
def Backed (A : GlobalName → ℕ) (env : Environment) (memo : Memo) : Prop :=
  ∀ k v, memo[k]? = some v → ∃ v' T, Reducer.Outcome A env k v' T ∧ v'.anonymize = v.anonymize

variable {A : GlobalName → ℕ} {env : Environment} {memo : Memo}

theorem backed_empty : Memo.Backed A env {} := by
  intro k v h
  simp at h

/-- Remembering the outcome of an unfolding keeps a memo backed. Keys that differ in names have
outcomes that differ in names. -/
theorem Backed.insert {k v v' : Term} {T : Trace Term} (henv : env.Closed A) (h : memo.Backed A env)
    (hk : Reducer.Outcome A env k v' T) (halike : v'.anonymize = v.anonymize) :
    Memo.Backed A env (memo.insert k v) := by
  intro k' w hw
  rw [Std.HashMap.getElem?_insert] at hw
  split at hw
  case isTrue hsame =>
    obtain rfl := Option.some.inj hw
    obtain ⟨w, hw, hvw⟩ := hk.of_alike henv (Term.beq_iff.mp hsame)
    exact ⟨w, T, hw, hvw.symm.trans halike⟩
  case isFalse => exact h k' w hw

end Memo

namespace Reducer

/-- A run keeps what is remembered backed, and what it returns is as said. -/
abbrev Keeps {α : Type} (A : GlobalName → ℕ) (env : Environment) (x : Reduce α) (Q : α → Prop) :
    Prop :=
  Ensures (fun s => s.memo.Backed A env) x Q

/-- A run with so much fuel returns as said, takes its cost and comes to remember this, if there is
enough fuel and gas. -/
def Spends {α : Type} (A : GlobalName → ℕ) (env : Environment) (fuel : ℕ)
    (result : EStateM.Result Interrupt ReductionState α) (Q : α → Prop) (cost : ℕ)
    (known : Set Term) (enough : Prop) : Prop :=
  match result with
  | .ok a s => Q a ∧ s.memo.Backed A env ∧ s.fuel + cost = fuel ∧ s.memo.known = known
  | .error .fuel _ => fuel < cost
  | .error .gas _ => ¬enough

/-- A run from a memo with outcomes only takes the cost of a course, and comes to remember what is
fresh in it. -/
def Pays {α : Type} (A : GlobalName → ℕ) (env : Environment) (x : Reduce α) (Q : α → Prop)
    (T : Trace Term) (enough : Prop) : Prop :=
  ∀ s, s.memo.Backed A env →
    Spends A env s.fuel (x s) Q (T.cost (courses A env) s.memo.known)
      (s.memo.known ∪ T.fresh s.memo.known) enough

variable {A : GlobalName → ℕ} {env : Environment}

section Pays
variable {α β : Type} {x : Reduce α} {f : α → Reduce β} {P : α → Prop} {Q : β → Prop}
  {T U : Trace Term} {enough enough' : Prop} {s : ReductionState} {cost cost' : ℕ} {K K' : Set Term}

/-- Costs add up, and what the first run comes to remember is there for the second. -/
theorem Spends.bind (hx : Spends A env s.fuel (x s) P cost K enough)
    (hf : ∀ a s', P a → s'.memo.Backed A env → s'.memo.known = K →
      Spends A env s'.fuel (f a s') Q cost' K' enough) :
    Spends A env s.fuel ((x >>= f) s) Q (cost + cost') K' enough := by
  cases hr : x s with
  | error e s' =>
    rw [bind_of_error hr]
    rw [hr] at hx
    cases e with
    | fuel => exact lt_of_lt_of_le hx (Nat.le_add_right _ _)
    | gas => exact hx
  | ok a s' =>
    rw [bind_of_ok hr]
    rw [hr] at hx
    obtain ⟨ha, hs', hfuel, hknown⟩ := hx
    have hfs := hf a s' ha hs' hknown
    generalize f a s' = result at hfs
    cases result with
    | ok b s'' =>
      obtain ⟨hb, hs'', hfuel', hknown'⟩ := hfs
      exact ⟨hb, hs'', by omega, hknown'⟩
    | error e s'' =>
      cases e with
      | fuel =>
        simp only [Spends] at hfs ⊢
        omega
      | gas => exact hfs

theorem Spends.bind_free (hx : Spends A env s.fuel (x s) P cost K enough)
    (hf : ∀ a s', P a → s'.memo.Backed A env → s'.memo.known = K →
      Spends A env s'.fuel (f a s') Q 0 K' enough) :
    Spends A env s.fuel ((x >>= f) s) Q cost K' enough :=
  hx.bind hf

theorem Spends.mono {fuel : ℕ} {result : EStateM.Result Interrupt ReductionState α}
    (hx : Spends A env fuel result P cost K enough) (h : enough' → enough) :
    Spends A env fuel result P cost K enough' := by
  cases result with
  | ok a s' => exact hx
  | error e s' =>
    cases e with
    | fuel => exact hx
    | gas => exact fun he => hx (h he)

theorem Spends.cost_le {fuel : ℕ} {a : α} (h : Spends A env fuel (.ok a s) P cost K enough) :
    cost ≤ fuel := by
  obtain ⟨-, -, hfuel, -⟩ := h
  omega

/-- With enough fuel and gas a run returns. -/
theorem Spends.exists_ok {fuel : ℕ} {result : EStateM.Result Interrupt ReductionState α}
    (h : Spends A env fuel result P cost K enough) (hfuel : cost ≤ fuel) (he : enough) :
    ∃ a s, result = .ok a s ∧ P a := by
  cases result with
  | ok a s => exact ⟨a, s, rfl, h.1⟩
  | error e s =>
    cases e with
    | fuel => exact absurd hfuel (not_le.mpr h)
    | gas => exact absurd he h

theorem Spends.ne_error_fuel {fuel : ℕ} {result : EStateM.Result Interrupt ReductionState α}
    (h : Spends A env fuel result P cost K enough) (hfuel : cost ≤ fuel) (s : ReductionState) :
    result ≠ .error .fuel s := by
  rintro rfl
  exact absurd hfuel (not_le.mpr h)

namespace Pays

theorem pure {a : α} (h : P a) : Pays A env (pure a) P .skip enough := by
  intro s hs
  exact ⟨h, hs, by simp, by simp [Trace.fresh]⟩

theorem step : Pays A env Reducer.step (fun _ => True) .tick enough := by
  intro s hs
  unfold Reducer.step
  cases hfuel : s.fuel with
  | zero => simp [Spends]
  | succ fuel => exact ⟨trivial, hs, by simp, by simp [Trace.fresh]⟩

theorem mono (hx : Pays A env x P T enough) (h : enough' → enough) : Pays A env x P T enough' :=
  fun s hs => (hx s hs).mono h

theorem bind (hT : T.Follows (courses A env)) (hU : U.Follows (courses A env))
    (hx : Pays A env x P T enough) (hf : ∀ a, P a → Pays A env (f a) Q U enough) :
    Pays A env (x >>= f) Q (.seq T U) enough := by
  intro s hs
  rw [hT.cost_seq hU, hT.known_seq hU]
  refine (hx s hs).bind fun a s' ha hs' hknown => ?_
  have hfs := hf a ha s' hs'
  rwa [hknown] at hfs

end Pays

end Pays

section Runs
variable {holes : Prop} {n : ℕ∞} {r : Reducer} {depth : ℕ} (henv : r.env.Closed A)

section Unfolding
variable {c : GlobalName} {u : Universe} {body : Term} {args : List Term} {v : Term}
  {T : Trace Term} {enough : Prop} (hc : r.env.Saturates c body args) (whnf : Term → Reduce Term)

include henv hc

/-- What an unfolding comes to is backed by what it evaluates to. -/
theorem keeps_unfold (hargs : ∀ a ∈ args, a.Over (.ofArity A holes) n)
    (hw : Keeps A r.env (whnf ((body.substLevels u).substAll args)) fun w => ∃ v T,
      Evals r (r.round (.unfold depth u body args)) v T ∧ v.anonymize = w.anonymize) :
    Keeps A r.env (unfold whnf c u body args) fun o => ∃ v T,
      Evals r (r.round (.unfold depth u body args)) v T ∧
      (unblocked? v).map Term.anonymize = o.map Term.anonymize := by
  refine ensures_unfold hw ?known ?fresh ?insert
  case known =>
    intro memo t hmemo _ ht
    obtain ⟨w, T, hw, hwt⟩ := hmemo _ t ht
    obtain ⟨v, hv, hwv⟩ := hw.evals_unfolding henv hc depth
    refine ⟨v, T, hv, ?_⟩
    rw [unblocked?_of_not_stuck ((isStuck_alike hwv).symm.trans hw.stuck)]
    exact congrArg some (hwv.symm.trans hwt)
  case fresh =>
    rintro w ⟨v, T, hv, halike⟩
    exact ⟨v, T, hv, unblocked?_alike halike⟩
  case insert =>
    rintro memo w hmemo ⟨v, T, hv, halike⟩ hstuck hkey
    obtain ⟨v', hv', hvv⟩ := hv.outcome henv ((isStuck_alike halike).trans hstuck) hc hargs hkey
    exact hmemo.insert henv hv' (hvv.symm.trans halike)

/-- An unfolding takes its course, or nothing if its outcome is remembered. -/
theorem pays_unfold (hargs : ∀ a ∈ args, a.Over (.ofArity A holes) n)
    (hv : Evals r (r.round (.unfold depth u body args)) v T) (hT : T.Follows (courses A r.env))
    (hw : Pays A r.env (whnf ((body.substLevels u).substAll args))
      (fun w => v.anonymize = w.anonymize) T enough) :
    Pays A r.env (unfold whnf c u body args)
      (fun o => (unblocked? v).map Term.anonymize = o.map Term.anonymize)
      (unfolding ((Term.ref c u).apps args) v T) enough := by
  have hafresh : Pays A r.env (step >>= fun _ => whnf ((body.substLevels u).substAll args))
      (fun w => v.anonymize = w.anonymize) (.seq .tick T) enough :=
        Pays.step.bind trivial hT fun _ _ => hw
  generalize hkey : (Term.ref c u).apps args = key
  have houtcome (hstuck : isStuck v = false) (hmemoizable : (key.isClosed && !key.hasHole) = true) :
      ∃ v', Outcome A r.env key v' T ∧ v.anonymize = v'.anonymize :=
    hkey ▸ hv.outcome henv hstuck hc hargs (hkey.symm ▸ hmemoizable)
  intro s hs
  by_cases hk : (key.isClosed && !key.hasHole) = true → s.memo[key]? = none
  case pos =>
    rw [unfold_of_unknown hkey.symm hk]
    unfold unfolding
    split
    case isFalse h =>
      refine (hafresh s hs).bind_free fun w s' hw hs' hknown => ?_
      rw [conclude_eq, ← isStuck_alike hw, if_neg h]
      exact ⟨unblocked?_alike hw, hs', by simp, hknown⟩
    case isTrue h =>
      -- The unfolding itself cannot have come to know the key, so that inserting the key is all
      -- that is new.
      obtain ⟨hstuck, hmemoizable⟩ := Bool.and_eq_true_iff.mp h
      obtain ⟨v', hv', hvv⟩ := houtcome (by simpa using hstuck) hmemoizable
      have hfollows : Trace.Follows (courses A r.env) (.call key.anonymize T) :=
        ⟨(hv'.courses_eq henv).symm, hT⟩
      have hunknown : key.anonymize ∉ s.memo.known := by
        rw [Memo.mem_known]
        simpa using hk hmemoizable
      rw [hfollows.cost_call hunknown, ← Trace.cost_tick_seq,
        Trace.coe_fresh_call_of_notMem hunknown]
      refine (hafresh s hs).bind_free fun w s' hw hs' hknown => ?_
      rw [conclude_eq, ← isStuck_alike hw, if_pos h]
      refine ⟨unblocked?_alike hw, hs'.insert henv hv' (hvv.symm.trans hw), by simp, ?_⟩
      rw [Memo.known_insert, hknown, Trace.fresh_tick_seq, Set.union_insert]
  case neg =>
    push Not at hk
    obtain ⟨hmemoizable, hk⟩ := hk
    obtain ⟨t, ht⟩ := Option.ne_none_iff_exists'.mp hk
    obtain ⟨w, U, hw, hwt⟩ := hs _ t ht
    obtain ⟨v', hv', hwv⟩ := (hkey.symm ▸ hw).evals_unfolding henv hc depth
    obtain ⟨rfl, -⟩ := hv.unique hv'
    have hstuck : isStuck v = false := (isStuck_alike hwv).symm.trans hw.stuck
    have hknown : key.anonymize ∈ s.memo.known := by
      rw [Memo.mem_known]
      exact Std.HashMap.mem_iff_isSome_getElem?.mpr (by simp [ht])
    rw [unfolding, if_pos (by simp [hstuck, hmemoizable]), Trace.cost_call_of_mem hknown,
      Trace.fresh_call_of_mem hknown,
      unfold_of_known hkey.symm hmemoizable ht]
    refine ⟨?_, hs, by simp, by simp⟩
    rw [unblocked?_of_not_stuck hstuck]
    exact congrArg some (hwv.symm.trans hwt)

end Unfolding

section Rounds
variable {f : Call → Reduce Term} {ρ : Round} {c : Call} {v : Term} {T : Trace Term}

include henv

/-- The round may go on from a remembered term, which differs from what the call evaluates to in
names. So the rest of it is evaluated as it runs, and taken over to the term that the call evaluates
to. -/
theorem keeps_round (hρ : Round.Agrees (.ofArity A holes) r r n ρ ρ)
    (hf : ∀ n c, Call.Agrees (.ofArity A holes) r r n c c →
      Keeps A r.env (f c) fun w => ∃ v T, Evals r (r.round c) v T ∧ v.anonymize = w.anonymize) :
    Keeps A r.env (ρ.run f) fun w => ∃ v T, Evals r ρ v T ∧ v.anonymize = w.anonymize := by
  induction ρ generalizing n with
  | ret t => exact .pure ⟨t, .skip, .ret t, rfl⟩
  | step k ih =>
    cases hρ with
    | step hk =>
      refine ensures_step.bind fun _ _ => (ih hk).mono fun w ⟨v, T, hv, halike⟩ => ?_
      exact ⟨v, _, .step hv, halike⟩
  | call c k ih =>
    cases hρ with
    | call hc hk =>
      refine (hf _ c hc).bind fun w ⟨v, T, hv, hvw⟩ => ?_
      obtain ⟨-, -, hover, -⟩ := hv.transport henv.closedIn (hc.round henv.closedIn)
      have hover' := Term.over_of_alike hover hvw
      refine (ih w (hk w w hover' rfl)).mono fun z ⟨x, U, hx, hxz⟩ => ?_
      obtain ⟨y, hy, -, hxy⟩ := hx.transport henv.closedIn (hk w v hover' hvw.symm)
      exact ⟨y, _, .call hv hy, hxy.symm.trans hxz⟩
  | unfold depth c u body args k ih =>
    cases hρ with
    | unfold hctx _ hc hargs _ hk =>
      have hcall := Call.agrees_unfold (u := u) henv.closedIn hctx trivial hc hargs rfl
      refine (keeps_unfold henv hc _ hargs (hf _ _ hcall)).bind fun o ⟨v, T, hv, ho⟩ => ?_
      obtain ⟨-, -, hover, -⟩ := hv.transport henv.closedIn (hcall.round henv.closedIn)
      have hover' := Term.over_of_alike_option (over_unblocked? hover) ho
      refine (ih o (hk o o hover' rfl)).mono fun z ⟨x, U, hx, hxz⟩ => ?_
      obtain ⟨y, hy, -, hxy⟩ := hx.transport henv.closedIn (hk o _ hover' ho.symm)
      exact ⟨y, _, .unfold hv hy, hxy.symm.trans hxz⟩

/-- A run from a backed memo keeps it backed, and what it returns the call evaluates to. -/
theorem keeps_run (gas : ℕ) {c : Call} (hc : Call.Agrees (.ofArity A holes) r r n c c) :
    Keeps A r.env (r.run gas c) fun w => ∃ v T, Evals r (r.round c) v T ∧
    v.anonymize = w.anonymize := by
  induction gas generalizing n c with
  | zero => exact .throw _
  | succ gas ih => exact keeps_round henv (hc.round henv.closedIn) fun _ _ => ih

omit henv in
theorem pays_run_of_round {k : ℕ} (h : ∀ gas, Pays A r.env ((r.round c).run (r.run gas))
    (fun w => v.anonymize = w.anonymize) T (k ≤ gas)) (gas : ℕ) :
    Pays A r.env (r.run gas c) (fun w => v.anonymize = w.anonymize) T (k + 1 ≤ gas) := by
  cases gas with
  | zero => exact fun s _ => Nat.not_succ_le_zero k
  | succ gas => exact (h gas).mono Nat.le_of_succ_le_succ

/-- A round that evaluates in a course runs so, with enough gas for the nesting of its calls. -/
theorem Evals.pays (h : Evals r ρ v T) (holes : Prop) :
    ∃ k, ∀ n ρ' gas, Round.Agrees (.ofArity A holes) r r n ρ ρ' →
    Pays A r.env (ρ'.run (r.run gas)) (fun w => v.anonymize = w.anonymize) T (k ≤ gas) := by
  -- The gas must do for all rounds that differ in names, since which of them runs depends on the
  -- memo.
  induction h with
  | ret t =>
    refine ⟨0, fun n ρ' gas hρ => ?_⟩
    cases hρ with
    | ret _ halike => exact .pure halike
  | step hv ih =>
    obtain ⟨k, ih⟩ := ih
    refine ⟨k, fun n ρ' gas hρ => ?_⟩
    cases hρ with
    | step hk => exact Pays.step.bind trivial (hv.follows henv hk) fun _ _ => ih n _ gas hk
  | call hv hw ihv ihw =>
    obtain ⟨j, ihv⟩ := ihv
    obtain ⟨k, ihw⟩ := ihw
    refine ⟨max (j + 1) k, fun n ρ' gas hρ => ?_⟩
    cases hρ with
    | call hc hk =>
      have hround := hc.round henv.closedIn
      obtain ⟨-, -, hover, -⟩ := hv.transport henv.closedIn hround
      have hcall := pays_run_of_round (fun gas => ihv _ _ gas hround) gas
      have hfollows := hw.follows henv (hk _ _ hover rfl)
      refine (hcall.mono le_of_max_le_left).bind (hv.follows henv hround) hfollows fun w hvw => ?_
      exact (ihw n _ gas (hk _ w hover hvw)).mono le_of_max_le_right
  | @unfold _ _ u body args _ v _ T _ hv hw ihv ihw =>
    obtain ⟨j, ihv⟩ := ihv
    obtain ⟨k, ihw⟩ := ihw
    refine ⟨max (j + 1) k, fun n ρ' gas hρ => ?_⟩
    have hfollows := (Evals.unfold hv hw).follows henv hρ
    cases hρ with
    | @unfold _ _ depth' c _ _ _ args' _ _ hctx _ hc hargs has hk =>
      have hround := Round.agrees_unfolding (u := u) henv.closedIn hctx trivial hc hargs has
      obtain ⟨v', hv', hover, hvv⟩ := hv.transport henv.closedIn hround
      have hcall : Pays A r.env (r.run gas (.unfold depth' u body args'))
          (fun w => v'.anonymize = w.anonymize) T
            (j + 1 ≤ gas) := hvv ▸ pays_run_of_round (fun gas => ihv _ _ gas hround) gas
      have hlen : args'.length = args.length := by simpa using (congrArg List.length has).symm
      have hunfold := pays_unfold henv (hc.of_length hlen) (fun t => r.run gas (.whnf depth' t))
        (Term.over_of_alike_all hargs has) hv' (hv.follows henv hround) hcall
      rw [← unfolding_alike (Term.apps_alike rfl has) hvv] at hunfold
      refine (hunfold.mono le_of_max_le_left).bind hfollows.1 hfollows.2 fun o ho => ?_
      have hnext := hk _ o (over_unblocked? hover) ((unblocked?_alike hvv).trans ho)
      exact (ihw n _ gas hnext).mono le_of_max_le_right

/-- What a call evaluates to is what a run returns that has just the fuel which the course costs. -/
theorem Evals.exists_run (h : Evals r (r.round c) v T)
    (hc : Call.Agrees (.ofArity A holes) r r n c c) {memo : Memo} (hmemo : memo.Backed A r.env) :
    ∃ gas w s, r.run gas c ⟨T.cost (courses A r.env) memo.known, memo⟩ = .ok w s ∧
      v.anonymize = w.anonymize := by
  obtain ⟨gas, hpays⟩ := h.pays henv holes
  have hrun := pays_run_of_round (fun gas => hpays n _ gas (hc.round henv.closedIn)) (gas + 1)
  have hspends := hrun ⟨T.cost (courses A r.env) memo.known, memo⟩ hmemo
  obtain ⟨w, s, hw, hvw⟩ := hspends.exists_ok le_rfl le_rfl
  exact ⟨gas + 1, w, s, hw, hvw⟩

/-- A run that returns has had the fuel which the course costs. -/
theorem Evals.cost_le_of_run (h : Evals r (r.round c) v T)
    (hc : Call.Agrees (.ofArity A holes) r r n c c) {gas fuel : ℕ} {memo : Memo} {w : Term}
    {s : ReductionState} (hmemo : memo.Backed A r.env) (hrun : r.run gas c ⟨fuel, memo⟩ = .ok w s) :
    T.cost (courses A r.env) memo.known ≤ fuel := by
  obtain ⟨k, hpays⟩ := h.pays henv holes
  have hspends := pays_run_of_round (fun gas => hpays n _ gas (hc.round henv.closedIn)) gas
    ⟨fuel, memo⟩ hmemo
  rw [hrun] at hspends
  exact hspends.cost_le

end Rounds

end Runs

end Reducer

end LeveledTypes
