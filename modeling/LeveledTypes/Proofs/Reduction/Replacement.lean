import LeveledTypes.Proofs.Reduction.Application
import LeveledTypes.Proofs.Reduction.Instantiation

/-!
# Evaluation of instances

Variables may be replaced by variables with the same values, and by their values: the instance of a
term then evaluates to the instance of what the term evaluates to. A value that is put in the place
of its variable brings its own arguments to an application, so this needs that the value does not
evaluate to a global with too few arguments.
-/
namespace LeveledTypes

namespace Reducer
variable {A : GlobalName → ℕ} {holes : Prop} {r r' : Reducer} {depth depth' : ℕ}
  {σ τ : ℕ → Term} {t v : Term}

/-- The head of a term is no definition that is to be put in, and no variable that has a value. -/
def Settled (r : Reducer) (depth : ℕ) (t : Term) : Prop :=
  match t.head with
  | .var i => r.localValue? depth i = none
  | .letIn _ _ _ _ => False
  | _ => True

theorem settled_apps {args : List Term} : r.Settled depth (t.apps args) ↔ r.Settled depth t := by
  unfold Settled
  rw [Term.head_apps]

/-- Variables that have values do not occur, so that it does not matter what they are replaced
by. -/
def Bare (r : Reducer) (depth : ℕ) (t : Term) : Prop :=
  ∀ σ τ : ℕ → Term, (∀ i, r.localValue? depth i = none → σ i = τ i) → t.inst σ = t.inst τ

theorem up_eq_up {k : ℕ} (h : ∀ i, r.localValue? depth i = none → σ i = τ i) (i : ℕ)
    (hi : r.localValue? (depth + k) i = none) : Term.up k σ i = Term.up k τ i := by
  by_cases hk : i < k
  · rw [Term.up_of_lt hk, Term.up_of_lt hk]
  · rw [localValue?_add, if_neg hk, Option.map_eq_none_iff] at hi
    rw [Term.up_of_le (not_lt.mp hk), Term.up_of_le (not_lt.mp hk), h _ hi]

/-- What is known of the term that a call returns. -/
def Call.Returns (r : Reducer) : Call → Term → Prop
  | .whnf depth _ => r.Settled depth
  | .nf depth _ => r.Bare depth

/-- The term does not evaluate to a global with too few arguments, under any number of binders. -/
def Full (r : Reducer) (depth : ℕ) (t : Term) : Prop :=
  ∀ k v T, Evals r (r.round (.whnf (depth + k) (t.lift k))) v T → ¬r.env.Unsaturated v

theorem Full.under (h : r.Full depth t) (k : ℕ) : r.Full (depth + k) (t.lift k) := by
  intro j v T hv
  rw [Term.lift_lift, Nat.add_assoc] at hv
  exact h (k + j) v T hv

/-- Each variable is replaced by a variable that has the same value, or by its value. -/
structure Replaces (A : GlobalName → ℕ) (holes : Prop) (r : Reducer) (depth : ℕ)
    (r' : Reducer) (depth' : ℕ) (σ : ℕ → Term) : Prop where
  env : r'.env = r.env
  store : r'.store = r.store
  solutions : holes → ∀ m t, r.store.solution? m = some t → t.Over (.ofArity A holes) 0
  over_values : ∀ i v, r.localValue? depth i = some v → v.Over (.ofArity A holes) ⊤
  vars : ∀ i, (∃ j, σ i = .var j ∧ r'.localValue? depth' j =
    (r.localValue? depth i).map (Term.inst σ)) ∨
    ∃ v, r.localValue? depth i = some v ∧ σ i = v.inst σ ∧ r'.Full depth' (σ i)

namespace Replaces
variable (h : Replaces A holes r depth r' depth' σ)

include h

/-- Under binders the variables that are bound there stay as they are. -/
theorem under (k : ℕ) : Replaces A holes r (depth + k) r' (depth' + k) (Term.up k σ) where
  env := h.env
  store := h.store
  solutions := h.solutions
  over_values i v hv := by
    rw [localValue?_add] at hv
    split at hv
    case isTrue => cases hv
    case isFalse =>
      obtain ⟨w, hw, rfl⟩ := Option.map_eq_some_iff.mp hv
      exact ((h.over_values _ w hw).lift k).top
  vars i := by
    rw [localValue?_add]
    by_cases hi : i < k
    case pos =>
      exact .inl ⟨i, Term.up_of_lt
        hi, by rw [localValue?_add, if_pos hi, if_pos hi, Option.map_none]⟩
    case neg =>
      rw [Term.up_of_le (not_lt.mp hi), if_neg hi]
      rcases h.vars (i - k) with ⟨j, hj, hvalue⟩ | ⟨v, hv, hσ, hfull⟩
      · refine .inl ⟨j + k, by rw [hj, Term.lift_var], ?_⟩
        rw [localValue?_add, if_neg (by omega), Nat.add_sub_cancel, hvalue,
          Option.map_map, Option.map_map]
        congr 1
        funext t
        exact (Term.lift_inst_up t k).symm
      · exact .inr
          ⟨v.lift k, by rw [hv, Option.map_some], by rw [Term.lift_inst_up, ← hσ], hfull.under k⟩

/-- A variable without a value is replaced by another one. -/
theorem free {i : ℕ} (hi : r.localValue? depth i = none) :
    ∃ j, σ i = .var j ∧ r'.localValue? depth' j = none := by
  rcases h.vars i with ⟨j, hj, hvalue⟩ | ⟨v, hv, -⟩
  · exact ⟨j, hj, by rw [hvalue, hi, Option.map_none]⟩
  · rw [hi] at hv
    cases hv

theorem solution (hm : holes) {m : ℕ} (ht : r.store.solution? m = some t) : t.inst σ = t := by
  have hover := h.solutions hm m t ht
  rw [hover.inst_congr (n := 0) (τ := Term.var) (by simp), Term.inst_id]

/-- The head of a settled term decides whether it is stuck, and the instance has the same head. -/
theorem isStuck_inst (hv : r.Settled depth v) : isStuck (v.inst σ) = isStuck v := by
  obtain ⟨g, as, hg, rfl⟩ := v.exists_root_apps
  unfold isStuck
  rw [Term.inst_apps, Term.head_apps, Term.head_apps]
  rw [settled_apps] at hv
  cases g with
  | var i =>
    obtain ⟨j, hj, -⟩ := h.free hv
    rw [Term.inst, hj]
    rfl
  | app f a => exact absurd rfl (hg f a)
  | _ => rfl

theorem unblocked?_inst (hv : r.Settled depth v) :
    unblocked? (v.inst σ) = (unblocked? v).map (Term.inst σ) := by
  unfold unblocked?
  rw [h.isStuck_inst hv]
  split <;> rfl

end Replaces

/-- Calls for a term and an instance of it. -/
inductive Call.Replaced (A : GlobalName → ℕ) (holes : Prop) (r r' : Reducer) (σ : ℕ → Term) :
    Call → Call → Prop
  | whnf {depth depth' : ℕ} {t t' : Term} : Replaces A holes r depth r' depth' σ →
    t.Over (.ofArity A holes) ⊤ →
      t' = t.inst σ → Replaced A holes r r' σ (.whnf depth t) (.whnf depth' t')
  | nf {depth depth' : ℕ} {t t' : Term} : Replaces A holes r depth r' depth' σ →
    t.Over (.ofArity A holes) ⊤ →
      t' = t.inst σ → Replaced A holes r r' σ (.nf depth t) (.nf depth' t')

/-- Rounds that take corresponding courses, the second one for instances. Where the first one goes
on with the value of a variable, the second one is at the value already. -/
inductive Round.Replaced (A : GlobalName → ℕ) (holes : Prop) (r r' : Reducer) (σ : ℕ → Term)
    (P : Term → Prop) : Round → Round → Prop
  | ret {t t' : Term} : t.Over (.ofArity A holes) ⊤ → P t → t' = t.inst σ →
    Replaced A holes r r' σ P (.ret t) (.ret t')
  | step {k k' : Round} : Replaced A holes r r' σ P k k' →
    Replaced A holes r r' σ P (.step k) (.step k')
  | call {τ : ℕ → Term} {c c' : Call} {k k' : Term → Round} : Call.Replaced A holes r r' τ c c' →
      (∀ v, v.Over (.ofArity A holes) ⊤ → c.Returns r v →
        Replaced A holes r r' σ P (k v) (k' (v.inst τ))) →
      Replaced A holes r r' σ P (.call c k) (.call c' k')
  | unfold {depth depth' : ℕ} {c : GlobalName} {u : Universe} {body : Term} {args args' : List Term}
      {k k' : Option Term → Round} : Replaces A holes r depth r' depth' σ →
      r.env.Saturates c body args →
      (∀ a ∈ args, a.Over (.ofArity A holes) ⊤) → args' = args.map (Term.inst σ) →
      (∀ o, (∀ t ∈ o, t.Over (.ofArity A holes) ⊤) →
        Replaced A holes r r' σ P (k o) (k' (o.map (Term.inst σ)))) →
      Replaced A holes r r' σ P (.unfold depth c u body args k) (.unfold depth' c u body args' k')
  | value {c c' : Call} : Call.Replaced A holes r r' σ c c' → (∀ v, c.Returns r v → P v) →
      Replaced A holes r r' σ P (.call c .ret) (r'.round c')
  | apps {depth depth' : ℕ} {t t' : Term} {k : Term → Round} {args : List Term} :
      Call.Replaced A holes r r' σ (.whnf depth t) (.whnf depth' t') →
      r'.Full depth' t' → args ≠ [] → (∀ v, v.Over (.ofArity A holes) ⊤ → r.Settled depth v →
        Replaced A holes r r' σ P (k v) (.spine r' depth' (v.inst σ) args)) →
      Replaced A holes r r' σ P (.call (.whnf depth t) k) (r'.round (.whnf depth' (t'.apps args)))

namespace Round

section Head
variable {args : List Term}

theorem replaced_whnf (hctx : Replaces A holes r depth r' depth' σ)
    (ht : t.Over (.ofArity A holes) ⊤) {t' : Term} (ht' : t' = t.inst σ) :
    Replaced A holes r r' σ (r.Settled depth) (.whnf depth t) (.whnf depth' t') :=
  .call (.whnf hctx ht ht') fun _ hv hret => .ret hv hret rfl

variable (henv : r.env.Closed A) (hctx : Replaces A holes r depth r' depth' σ)

include henv hctx

/-- The body of a definition is closed but for its parameters, so that only the arguments are
instantiated. One case for each kind of body. -/
theorem replaced_delta {c : GlobalName} {u : Universe}
    (hargs : ∀ a ∈ args, a.Over (.ofArity A holes) ⊤) :
    Replaced A holes r r' σ (r.Settled depth) (delta r depth c u args)
      (delta r' depth' c u (args.map (Term.inst σ))) := by
  have hfolded {as : List Term} (has : ∀ a ∈ as, a.Over (.ofArity A holes) ⊤) :
      Replaced A holes r r' σ (r.Settled depth)
      (.ret ((Term.ref c u).apps as)) (.ret ((Term.ref c u).apps (as.map (Term.inst σ)))) := by
    refine .ret (Term.over_apps.mpr ⟨⟨trivial, Signature.admits_ofArity A holes u⟩, has⟩)
      (settled_apps.mpr trivial) ?_
    rw [Term.inst_apps, Term.inst]
  unfold delta
  rw [hctx.env]
  cases hd : r.env.get? c with
  | none => exact hfolded hargs
  | some d =>
    simp only [List.length_map]
    split
    case isTrue => exact hfolded hargs
    case isFalse hle =>
      have hparams : (args.take d.tele.length).length = d.tele.length :=
        List.length_take_of_le (not_lt.mp hle)
      have hoverTake : ∀ a ∈ args.take d.tele.length, a.Over (.ofArity A holes) ⊤ := fun a ha =>
        hargs a (List.mem_of_mem_take ha)
      have hoverDrop : ∀ a ∈ args.drop d.tele.length, a.Over (.ofArity A holes) ⊤ := fun a ha =>
        hargs a (List.mem_of_mem_drop ha)
      rw [← List.map_take, ← List.map_drop]
      generalize args.take d.tele.length = params at *
      generalize args.drop d.tele.length = rest at *
      -- Most definitions go on with what they stand for.
      have hunfold {t t' : Term} (ht : d.contractum? c u params = some t)
          (ht' : d.contractum? c u (params.map (Term.inst σ)) = some t') :
            Replaced A holes r r' σ (r.Settled depth)
          (.whnf depth (t.apps rest)) (.whnf depth' (t'.apps (rest.map (Term.inst σ)))) := by
        have hdef := henv.closedIn.standsOver holes c d u params t trivial hd hparams ht
        have hinst := Definition.contractum?_inst hdef
          (Signature.admits_ofArity A holes u) hparams ht σ
        obtain rfl := Option.some.inj (ht'.symm.trans hinst)
        have hover := henv.closedIn.contractum? trivial hd hoverTake hparams ht
        exact replaced_whnf hctx (Term.over_apps.mpr ⟨hover, hoverDrop⟩) (Term.inst_apps ..).symm
      have hblocked : Replaced A holes r r' σ (r.Settled depth)
          (.ret (((Term.ref c u).apps params).apps rest))
          (.ret (((Term.ref c u).apps (params.map (Term.inst σ))).apps
            (rest.map (Term.inst σ)))) := by
        rw [← Term.apps_append, ← Term.apps_append, ← List.map_append]
        exact hfolded (List.forall_mem_append.mpr ⟨hoverTake, hoverDrop⟩)
      cases hb : d.body with
      | func body decreasing =>
        refine .unfold hctx ⟨d, decreasing, hd, hb, hparams⟩ hoverTake rfl fun o ho => ?_
        cases o with
        | none => exact hblocked
        | some t =>
          exact replaced_whnf hctx (Term.over_apps.mpr ⟨ho t rfl, hoverDrop⟩)
            (Term.inst_apps ..).symm
      | inst k body =>
        exact .step (hunfold (by simp [Definition.contractum?, hb])
          (by simp [Definition.contractum?, hb]))
      | field k i =>
        cases ha : params.getLast? with
        | none =>
          simp only [List.getLast?_map, ha, Option.map_none]
          exact hfolded hoverTake
        | some a =>
          simp only [List.getLast?_map, ha, Option.map_some]
          exact hunfold (by simp [Definition.contractum?, hb, ha])
            (by simp [Definition.contractum?, hb, ha])
      | pending => exact hblocked
      | _ =>
        exact hunfold (by simp [Definition.contractum?, hb]) (by simp [Definition.contractum?, hb])

/-- The root is settled, so that the instance has the same root and takes the same course. -/
theorem replaced_spine {g : Term} (hg : g.Over (.ofArity A holes) ⊤) (hsettled : r.Settled depth g)
    (hargs : ∀ a ∈ args, a.Over (.ofArity A holes) ⊤) :
    Replaced A holes r r' σ (r.Settled depth) (spine r depth g args)
      (spine r' depth' (g.inst σ) (args.map (Term.inst σ))) := by
  have hfolded : Replaced A holes r r' σ (r.Settled depth) (.ret (g.apps args))
      (.ret ((g.inst σ).apps (args.map (Term.inst σ)))) :=
    .ret (Term.over_apps.mpr ⟨hg, hargs⟩) (settled_apps.mpr hsettled) (Term.inst_apps ..).symm
  cases g with
  | var i =>
    obtain ⟨j, hj, -⟩ := hctx.free hsettled
    rw [Term.inst, hj] at hfolded ⊢
    exact hfolded
  | lam x s b =>
    cases args with
    | nil => exact hfolded
    | cons a args =>
      obtain ⟨ha, hargs⟩ := List.forall_mem_cons.mp hargs
      refine .step (replaced_whnf hctx (Term.over_apps.mpr ⟨hg.2.subst ha, hargs⟩) ?_)
      rw [Term.inst_apps, Term.inst_subst]
  | hole m =>
    simp only [spine, Term.inst, hctx.store]
    cases hm : r.store.solution? m with
    | none => exact hfolded
    | some s =>
      refine replaced_whnf hctx (Term.over_apps.mpr ⟨(hctx.solutions hg m s hm).top, hargs⟩) ?_
      rw [Term.inst_apps, hctx.solution hg hm]
  | ref c u => exact replaced_delta henv hctx hargs
  | _ => exact hfolded

omit henv in
/-- The instance of a root that is no application is no application either, unless the root is a
variable that is replaced by its value. -/
theorem root_inst {g : Term} (hg : ∀ f a, g ≠ .app f a) :
    (∀ f a, g.inst σ ≠ .app f a) ∨ r'.Full depth' (g.inst σ) := by
  cases g with
  | var i =>
    rcases hctx.vars i with ⟨j, hj, -⟩ | ⟨v, -, -, hfull⟩
    · exact .inl (by simp [hj])
    · exact .inr hfull
  | app f a => exact absurd rfl (hg f a)
  | _ => exact .inl (by simp)

/-- An application evaluates its head first. If the head has a value, the value comes with arguments
of its own, and is no global with too few of them. -/
theorem replaced_app {f a : Term} (ht : (Term.app f a).Over (.ofArity A holes) ⊤) :
    Replaced A holes r r' σ (r.Settled depth) (r.round (.whnf depth (.app f a)))
      (r'.round (.whnf depth' ((Term.app f a).inst σ))) := by
  obtain ⟨g, as, hg, heq⟩ := (Term.app f a).exists_root_apps
  have has : as ≠ [] := by
    rintro rfl
    exact hg f a heq.symm
  rw [heq] at ht ⊢
  obtain ⟨hover, hargs⟩ := Term.over_apps.mp ht
  have hcall : Call.Replaced A holes r r' σ (.whnf depth g) (.whnf depth' (g.inst σ)) :=
    .whnf hctx hover rfl
  rw [round_apps hg has, Term.inst_apps]
  rcases root_inst hctx hg with hroot | hfull
  · rw [round_apps hroot (by simpa using has)]
    exact .call hcall fun v hv hret => replaced_spine henv hctx hv hret hargs
  · exact .apps hcall hfull (by simpa using has) fun v hv hret =>
      replaced_spine henv hctx hv hret hargs

omit henv in
/-- The round of a path that is applied to a point which is not an end. -/
theorem replaced_along {l x p i : Term} (ht : (Term.at l x p i).Over (.ofArity A holes) ⊤) :
    Replaced A holes r r' σ (r.Settled depth) (along depth l x p i)
      (along depth' (l.inst σ) (x.inst σ) (p.inst σ) (i.inst σ)) := by
  obtain ⟨-, hl, hx, hp, hi⟩ := ht
  refine .call (.whnf hctx hp rfl) fun v hv hsettled => ?_
  have hstuck : Replaced A holes r r' σ (r.Settled depth) (.ret (.at l x v i))
      (.ret (.at (l.inst σ) (x.inst σ) (v.inst σ) (i.inst σ))) :=
        .ret ⟨trivial, hl, hx, hv, hi⟩ trivial rfl
  cases v with
  | var j =>
    obtain ⟨k, hk, -⟩ := hctx.free hsettled
    rw [Term.inst, hk] at hstuck ⊢
    exact hstuck
  | pathLam f =>
    have happ : (Term.app f i).Over (.ofArity A holes) ⊤ := ⟨hv.2, hi⟩
    exact .step (replaced_whnf hctx happ rfl)
  | _ => exact hstuck

/-- One case for each form of terms. The variable is the case in which something is replaced. -/
theorem replaced_head (ht : t.Over (.ofArity A holes) ⊤) :
    Replaced A holes r r' σ (r.Settled depth) (r.round (.whnf depth t))
      (r'.round (.whnf depth' (t.inst σ))) := by
  cases t with
  | var i =>
    rcases hctx.vars i with ⟨j, hj, hvalue⟩ | ⟨v, hv, hσ, -⟩
    · rw [Term.inst, hj]
      simp only [round, head]
      rw [hvalue]
      cases hi : r.localValue? depth i with
      | none => exact .ret ht hi hj.symm
      | some v => exact replaced_whnf hctx (hctx.over_values i v hi) rfl
    · simp only [round, head, hv]
      exact .value (.whnf hctx (hctx.over_values i v hv) hσ) fun _ => id
  | hole m =>
    simp only [round, head, Term.inst, hctx.store]
    cases hm : r.store.solution? m with
    | none => exact .ret ht trivial rfl
    | some s => exact replaced_whnf hctx (hctx.solutions ht m s hm).top (hctx.solution ht hm).symm
  | ref c u => exact replaced_delta henv hctx (List.forall_mem_nil _)
  | app f a => exact replaced_app henv hctx ht
  | letIn x s a b =>
    exact .step (replaced_whnf hctx (ht.2.2.subst ht.2.1) (Term.inst_subst ..).symm)
  | proj a side =>
    refine .call (.whnf hctx ht rfl) fun v hv hsettled => ?_
    have hstuck : Replaced A holes r r' σ (r.Settled depth) (.ret (.proj v side))
        (.ret (.proj (v.inst σ) side)) :=
      .ret hv trivial rfl
    cases v with
    | var i =>
      obtain ⟨j, hj, -⟩ := hctx.free hsettled
      rw [Term.inst, hj] at hstuck ⊢
      exact hstuck
    | pair x y =>
      cases side with
      | fst => exact .step (replaced_whnf hctx hv.1 rfl)
      | snd => exact .step (replaced_whnf hctx hv.2 rfl)
    | _ => exact hstuck
  | field a c i =>
    refine .call (.whnf hctx ht rfl) fun v hv hsettled => ?_
    have hstuck : Replaced A holes r r' σ (r.Settled depth) (.ret (.field v c i))
        (.ret (.field (v.inst σ) c i)) :=
      .ret hv trivial rfl
    cases v with
    | var j =>
      obtain ⟨k, hk, -⟩ := hctx.free hsettled
      rw [Term.inst, hk] at hstuck ⊢
      exact hstuck
    | new _ _ _ fs =>
      simp only [Term.inst, Term.instAll_eq_map, List.getElem?_map]
      cases hf : fs[i]? with
      | none => simpa using hstuck
      | some f =>
        exact .step (replaced_whnf hctx
          (Term.overAll_iff.mp hv.2.2.2 f (List.mem_of_getElem? hf)) rfl)
    | _ => exact hstuck
  | case a m bs =>
    obtain ⟨harity, hover, hmotive, hbranches⟩ := ht
    refine .call (.whnf hctx hover rfl) fun v hv hsettled => ?_
    have hstuck : Replaced A holes r r' σ (r.Settled depth) (.ret (.case v m bs))
        (.ret (.case (v.inst σ) (m.inst (Term.up 1 σ)) (Term.instBranches σ bs))) :=
      .ret ⟨harity, hv, hmotive, hbranches⟩ trivial rfl
    cases hc : constructor? v with
    | none =>
      have hc' : constructor? (v.inst σ) = none := by
        cases v with
        | var i =>
          obtain ⟨j, hj, -⟩ := hctx.free hsettled
          rw [Term.inst, hj]
          rfl
        | con | zero | succ => cases hc
        | _ => rfl
      simpa only [hc, hc'] using hstuck
    | some x =>
      obtain ⟨head, xs⟩ := x
      simp only [constructor?_inst hc]
      cases hb : bs.find? fun b => b.head == head with
      | none =>
        have hb' : (Term.instBranches σ bs).find? (fun b => b.head == head) = none := by
          rw [Term.instBranches_eq_map, List.find?_map]
          exact congrArg (Option.map _) hb
        simpa only [hb, hb'] using hstuck
      | some b =>
        have hb' : (Term.instBranches σ bs).find? (fun b => b.head == head) =
            some { b with body := b.body.inst (Term.up b.arity σ) } := by
          rw [Term.instBranches_eq_map, List.find?_map]
          exact congrArg (Option.map _) hb
        simp only [hb']
        have hmem := List.mem_of_find?_eq_some hb
        have hhead := List.find?_some hb
        obtain ⟨hlen, hargs⟩ := over_constructor? hv hc
        rw [← eq_of_beq hhead, ← harity b hmem] at hlen
        have hbody : b.body.Over (.ofArity A holes) (⊤ + xs.length) := by
          rw [hlen]
          exact Term.overBranches_iff.mp hbranches b hmem
        refine .step (replaced_whnf hctx (hbody.substAll hargs) ?_)
        rw [Term.inst_substAll, hlen]
  | natRec m z s n =>
    obtain ⟨hm, hz, hs, hn⟩ := ht
    refine .call (.whnf hctx hn rfl) fun v hv hsettled => ?_
    have hstuck : Replaced A holes r r' σ (r.Settled depth) (.ret (.natRec m z s v))
        (.ret (.natRec (m.inst σ) (z.inst σ) (s.inst σ) (v.inst σ))) :=
          .ret ⟨hm, hz, hs, hv⟩ trivial rfl
    cases v with
    | var i =>
      obtain ⟨j, hj, -⟩ := hctx.free hsettled
      rw [Term.inst, hj] at hstuck ⊢
      exact hstuck
    | zero => exact .step (replaced_whnf hctx hz rfl)
    | succ v =>
      refine .step (replaced_whnf hctx (Term.over_apps.mpr ⟨hs, ?_⟩) (by simp))
      exact List.forall_mem_cons.mpr ⟨hv, List.forall_mem_singleton.mpr ⟨hm, hz, hs, hv⟩⟩
    | _ => exact hstuck
  | «at» l x p i =>
    obtain ⟨-, hl, hx, hp, hi⟩ := ht
    refine .call (.whnf hctx hi rfl) fun v hv hsettled => ?_
    have halong := replaced_along hctx (l := l) (x := x) (p := p) (i := v) ⟨trivial, hl, hx, hp, hv⟩
    cases v with
    | var j =>
      obtain ⟨k, hk, -⟩ := hctx.free hsettled
      rw [Term.inst, hk] at halong ⊢
      exact halong
    | left => exact replaced_whnf hctx hl rfl
    | right => exact replaced_whnf hctx hx rfl
    | _ => exact halong
  | _ => exact .ret ht trivial rfl

end Head

section Parts
variable {next next' : Term → Round} {P : Term → Prop} (hctx : Replaces A holes r depth r' depth' σ)

include hctx

theorem replaced_nf (ht : t.Over (.ofArity A holes) ⊤)
    (hnext : ∀ v, v.Over (.ofArity A holes) ⊤ → r.Bare depth v →
      Replaced A holes r r' σ P (next v) (next' (v.inst σ))) :
    Replaced A holes r r' σ P (.call (.nf depth t) next) (.call (.nf depth' (t.inst σ)) next') :=
  .call (.nf hctx ht rfl) hnext

theorem replaced_nf_under {k : ℕ} (ht : t.Over (.ofArity A holes) ⊤)
    (hnext : ∀ v, v.Over (.ofArity A holes) ⊤ → r.Bare (depth + k) v →
      Replaced A holes r r' σ P (next v) (next' (v.inst (Term.up k σ)))) :
    Replaced A holes r r' σ P (.call (.nf (depth + k) t) next)
      (.call (.nf (depth' + k) (t.inst (Term.up k σ))) next') :=
  .call (.nf (hctx.under k) ht rfl) hnext

/-- The function parts and the arguments are normalized in turn, and a root that is settled stays.
-/
theorem replaced_spineHead (ht : t.Over (.ofArity A holes) ⊤) (hsettled : r.Settled depth t)
    (hnext : ∀ v, v.Over (.ofArity A holes) ⊤ → r.Bare depth v →
      Replaced A holes r r' σ P (next v) (next' (v.inst σ))) :
    Replaced A holes r r' σ P (spineHead depth t next) (spineHead depth' (t.inst σ) next') := by
  induction t generalizing next next' with
  | app f a ihf iha =>
    have hf : r.Settled depth (f.apps [a]) := hsettled
    refine ihf ht.1 (settled_apps.mp hf) fun v hv hbare =>
      replaced_nf hctx ht.2 fun w hw hbare' => ?_
    refine hnext (.app v w) ⟨hv, hw⟩ fun τ υ h => ?_
    rw [Term.inst, Term.inst, hbare τ υ h, hbare' τ υ h]
  | ref c u => exact hnext (.ref c u) ht fun _ _ _ => rfl
  | var i =>
    have hnf := replaced_nf hctx ht hnext
    obtain ⟨j, hj, -⟩ := hctx.free hsettled
    rw [Term.inst, hj] at hnf ⊢
    exact hnf
  | _ => exact replaced_nf hctx ht hnext

theorem replaced_all {ts : List Term} {next next' : List Term → Round}
    (hts : ∀ t ∈ ts, t.Over (.ofArity A holes) ⊤) (hnext : ∀ vs, vs.length = ts.length →
      (∀ v ∈ vs, v.Over (.ofArity A holes) ⊤) → (∀ v ∈ vs, r.Bare depth v) →
      Replaced A holes r r' σ P (next vs) (next' (vs.map (Term.inst σ)))) :
    Replaced A holes r r' σ P (all depth next ts) (all depth' next' (ts.map (Term.inst σ))) := by
  induction ts generalizing next next' with
  | nil => exact hnext [] rfl (by simp) (by simp)
  | cons t ts ih =>
    obtain ⟨ht, htail⟩ := List.forall_mem_cons.mp hts
    refine replaced_nf hctx ht fun v hv hbare => ih htail fun vs hlen hvs hbares => ?_
    exact hnext (v :: vs) (congrArg (· + 1) hlen) (List.forall_mem_cons.mpr ⟨hv, hvs⟩)
      (List.forall_mem_cons.mpr ⟨hbare, hbares⟩)

/-- The branches are normalized in order, each under the binders for the arguments of its
constructor. -/
theorem replaced_branches {bs : List (Branch Term)} {next next' : List (Branch Term) → Round}
    (harity : ∀ b ∈ bs, b.arity = (Signature.ofArity A holes).headArity b.head)
    (hbs : ∀ b ∈ bs, b.body.Over (.ofArity A holes) ⊤)
    (hnext : ∀ ds : List (Branch Term),
      (∀ d ∈ ds, d.arity = (Signature.ofArity A holes).headArity d.head) →
      (∀ d ∈ ds, d.body.Over (.ofArity A holes) ⊤) → (∀ d ∈ ds, r.Bare (depth + d.arity) d.body) →
      Replaced A holes r r' σ P (next ds) (next' (Term.instBranches σ ds))) :
    Replaced A holes r r' σ P (branches depth next bs)
      (branches depth' next' (Term.instBranches σ bs)) := by
  induction bs generalizing next next' with
  | nil => exact hnext [] (by simp) (by simp) (by simp)
  | cons b bs ih =>
    obtain ⟨hb, htail⟩ := List.forall_mem_cons.mp hbs
    obtain ⟨hab, harity⟩ := List.forall_mem_cons.mp harity
    refine replaced_nf_under hctx hb fun v hv hbare => ih harity htail fun ds hads hds hbares => ?_
    exact hnext ({ b with body := v } :: ds) (List.forall_mem_cons.mpr ⟨hab, hads⟩)
      (List.forall_mem_cons.mpr ⟨hv, hds⟩) (List.forall_mem_cons.mpr ⟨hbare, hbares⟩)

/-- The parts of a settled term are normalized, those under a binder in the longer context. One case
for each form of terms. -/
theorem replaced_parts (ht : t.Over (.ofArity A holes) ⊤) (hsettled : r.Settled depth t) :
    Replaced A holes r r' σ (r.Bare depth) (parts depth t) (parts depth' (t.inst σ)) := by
  cases t with
  | var i =>
    obtain ⟨j, hj, -⟩ := hctx.free hsettled
    rw [Term.inst, hj]
    exact .ret ht (fun _ _ h => h i hsettled) hj.symm
  | lam x a b | pi x a b | sigma x a b =>
    refine replaced_nf hctx ht.1 fun v hv hbare => replaced_nf_under hctx ht.2 fun w hw hbare' => ?_
    refine .ret ⟨hv, hw⟩ (fun _ _ h => ?_) rfl
    simp only [Term.inst, hbare _ _ h, hbare' _ _ (up_eq_up h)]
  | app f a =>
    have hf : r.Settled depth (f.apps [a]) := hsettled
    refine replaced_spineHead hctx ht.1 (settled_apps.mp hf) fun v hv hbare =>
      replaced_nf hctx ht.2 fun w hw hbare' => ?_
    exact .ret ⟨hv, hw⟩ (fun _ _ h => by simp only [Term.inst, hbare _ _ h, hbare' _ _ h]) rfl
  | pair a b =>
    refine replaced_nf hctx ht.1 fun v hv hbare => replaced_nf hctx ht.2 fun w hw hbare' => ?_
    exact .ret ⟨hv, hw⟩ (fun _ _ h => by simp only [Term.inst, hbare _ _ h, hbare' _ _ h]) rfl
  | proj a s | field a c i | succ a =>
    refine replaced_nf hctx ht fun v hv hbare => .ret hv (fun _ _ h => ?_) rfl
    simp only [Term.inst, hbare _ _ h]
  | pathLam f =>
    refine replaced_nf hctx ht.2 fun v hv hbare => .ret ⟨trivial, hv⟩ (fun _ _ h => ?_) rfl
    simp only [Term.inst, hbare _ _ h]
  | data c u ps | record c u ps =>
    rw [Term.inst, Term.instAll_eq_map]
    refine replaced_all hctx (Term.overAll_iff.mp ht.2) fun vs _ hvs hbares => ?_
    refine .ret ⟨ht.1, Term.overAll_iff.mpr hvs⟩ (fun _ _ h => ?_) (by simp)
    simp only [Term.inst, Term.instAll_eq_map, List.map_congr_left fun v hv => hbares v hv _ _ h]
  | con c u ps xs =>
    obtain ⟨harity, hu, hps, hxs⟩ := ht
    rw [Term.inst, Term.instAll_eq_map, Term.instAll_eq_map]
    refine replaced_all hctx (Term.overAll_iff.mp hps) fun vs _ hvs hbares =>
      replaced_all hctx (Term.overAll_iff.mp hxs) fun ws hlen hws hbares' => ?_
    refine .ret ⟨hlen.trans harity, hu, Term.overAll_iff.mpr hvs, Term.overAll_iff.mpr hws⟩
      (fun _ _ h => ?_) (by simp)
    simp only [Term.inst, Term.instAll_eq_map, List.map_congr_left fun v hv => hbares v hv _ _ h,
      List.map_congr_left fun v hv => hbares' v hv _ _ h]
  | new c u ps fs =>
    obtain ⟨-, hu, hps, hfs⟩ := ht
    rw [Term.inst, Term.instAll_eq_map, Term.instAll_eq_map]
    refine replaced_all hctx (Term.overAll_iff.mp hps) fun vs _ hvs hbares =>
      replaced_all hctx (Term.overAll_iff.mp hfs) fun ws _ hws hbares' => ?_
    refine .ret ⟨trivial, hu, Term.overAll_iff.mpr hvs, Term.overAll_iff.mpr hws⟩
      (fun _ _ h => ?_) (by simp)
    simp only [Term.inst, Term.instAll_eq_map, List.map_congr_left fun v hv => hbares v hv _ _ h,
      List.map_congr_left fun v hv => hbares' v hv _ _ h]
  | case a m bs =>
    obtain ⟨harity, ha, hm, hbs⟩ := ht
    have hbodies : ∀ b ∈ bs, b.body.Over (.ofArity A holes) ⊤ := fun b hb => by
      simpa using Term.overBranches_iff.mp hbs b hb
    refine replaced_nf hctx ha fun v hv hbare => replaced_nf_under hctx hm fun w hw hbare' =>
      replaced_branches hctx harity hbodies fun ds hads hds hbares => ?_
    refine .ret ⟨hads, hv, hw, Term.overBranches_iff.mpr fun d hd => ?_⟩ (fun _ _ h => ?_) rfl
    · simpa using hds d hd
    · simp only [Term.inst, Term.instBranches_eq_map, hbare _ _ h, hbare' _ _ (up_eq_up h),
        List.map_congr_left fun d hd => congrArg (fun body => { d with body })
          (hbares d hd _ _ (up_eq_up h))]
  | natRec m z s n =>
    obtain ⟨hm, hz, hs, hn⟩ := ht
    refine replaced_nf hctx hm fun m hm hbm => replaced_nf hctx hz fun z hz hbz =>
      replaced_nf hctx hs fun s hs hbs => replaced_nf hctx hn fun n hn hbn => ?_
    refine .ret ⟨hm, hz, hs, hn⟩ (fun _ _ h => ?_) rfl
    simp only [Term.inst, hbm _ _ h, hbz _ _ h, hbs _ _ h, hbn _ _ h]
  | path a x y =>
    obtain ⟨ha, hx, hy⟩ := ht
    refine replaced_nf hctx ha fun a ha hba => replaced_nf hctx hx fun x hx hbx =>
      replaced_nf hctx hy fun y hy hby => ?_
    refine .ret ⟨ha, hx, hy⟩ (fun _ _ h => ?_) rfl
    simp only [Term.inst, hba _ _ h, hbx _ _ h, hby _ _ h]
  | «at» l x p i =>
    obtain ⟨-, hl, hx, hp, hi⟩ := ht
    refine replaced_nf hctx hl fun l hl hbl => replaced_nf hctx hx fun x hx hbx =>
      replaced_nf hctx hp fun p hp hbp => replaced_nf hctx hi fun i hi hbi => ?_
    exact .ret ⟨trivial, hl, hx, hp, hi⟩
      (fun _ _ h => by simp only [Term.inst, hbl _ _ h, hbx _ _ h, hbp _ _ h, hbi _ _ h]) rfl
  | letIn => exact hsettled.elim
  | _ => exact .ret ht (fun _ _ _ => rfl) rfl

end Parts

end Round

/-- Calls for instances have rounds that correspond. -/
theorem Call.Replaced.round (henv : r.env.Closed A) {c c' : Call}
    (h : Call.Replaced A holes r r' σ c c') :
    Round.Replaced A holes r r' σ (c.Returns r) (r.round c) (r'.round c') := by
  cases h with
  | whnf hctx ht h =>
    subst h
    exact Round.replaced_head henv hctx ht
  | nf hctx ht h =>
    subst h
    exact .call (.whnf hctx ht rfl) fun v hv hsettled => Round.replaced_parts hctx hv hsettled

/-- A function unfolds at the instances of its arguments to the instance of what it unfolds to. -/
theorem Call.replaced_unfold (henv : r.env.Closed A) (hctx : Replaces A holes r depth r' depth' σ)
    {c : GlobalName} {u : Universe} {body : Term} {args : List Term}
    (hc : r.env.Saturates c body args) (hargs : ∀ a ∈ args, a.Over (.ofArity A holes) ⊤) :
    Call.Replaced A holes r r' σ (.unfold depth u body args)
      (.unfold depth' u body (args.map (Term.inst σ))) := by
  obtain ⟨d, decreasing, hd, hb, hlen⟩ := hc
  have hcontractum {as : List Term} :
      d.contractum? c u as = some ((body.substLevels u).substAll as) := by
    simp [Definition.contractum?, hb]
  have hadmits := Signature.admits_ofArity A holes u
  have hdef := henv.closedIn.standsOver holes c d u args _ trivial hd hlen hcontractum
  have hinst := Definition.contractum?_inst hdef hadmits hlen hcontractum σ
  rw [hcontractum] at hinst
  exact .whnf hctx (henv.closedIn.contractum? trivial hd hargs hlen hcontractum)
    (Option.some.inj hinst)

/-- Rounds that correspond evaluate to a term and its instance. -/
theorem Evals.replaced (henv : r.env.Closed A) {ρ ρ' : Round} {P : Term → Prop} {w : Term}
    {T : Trace Term} (h : Evals r ρ w T) (hρ : Round.Replaced A holes r r' σ P ρ ρ') :
    (∃ T', Evals r' ρ' (w.inst σ) T') ∧ w.Over (.ofArity A holes) ⊤ ∧ P w := by
  induction h generalizing σ P ρ' with
  | ret t =>
    cases hρ with
    | ret hover hP heq => exact ⟨⟨_, .ret_of_eq heq.symm⟩, hover, hP⟩
  | step _ ih =>
    cases hρ with
    | step hk =>
      obtain ⟨⟨T', hw⟩, h⟩ := ih hk
      exact ⟨⟨_, .step hw⟩, h⟩
  | call hc hk ihc ihk =>
    cases hρ with
    | call hcall hnext =>
      obtain ⟨⟨T', hv⟩, hover, hret⟩ := ihc (hcall.round henv)
      obtain ⟨⟨U', hw⟩, h⟩ := ihk (hnext _ hover hret)
      exact ⟨⟨_, .call hv hw⟩, h⟩
    | value hcall hP =>
      cases hk
      obtain ⟨hv, hover, hret⟩ := ihc (hcall.round henv)
      exact ⟨hv, hover, hP _ hret⟩
    | apps hcall hfull hargs hnext =>
      obtain ⟨⟨T', hv⟩, hover, hret⟩ := ihc (hcall.round henv)
      obtain ⟨⟨U', hw⟩, h⟩ := ihk (hnext _ hover hret)
      exact ⟨hv.apps (hfull 0 _ T' (by simpa using hv)) hargs hw, h⟩
  | @unfold _ _ u body _ _ _ _ _ _ hc hk ihc ihk =>
    cases hρ with
    | unfold hctx hsat hargs heq hnext =>
      subst heq
      obtain ⟨⟨T', hv⟩, hover, hret⟩ :=
        ihc ((Call.replaced_unfold (u := u) henv hctx hsat hargs).round henv)
      obtain ⟨⟨U', hw⟩, h⟩ := ihk (hnext _ (over_unblocked? hover))
      rw [← hctx.unblocked?_inst hret] at hw
      exact ⟨⟨_, .unfold hv hw⟩, h⟩

end Reducer

end LeveledTypes
