import LeveledTypes.Proofs.Reduction.Head
import LeveledTypes.Proofs.Reduction.Unfolding

/-!
# Weak head normal forms are reducts

A run that ends with a weak head normal form has only taken steps of head reduction, up to the names
of binders. What it remembers of an application is the outcome of such steps too, which is true of
the application in every context.
-/
namespace LeveledTypes

/-- What is remembered of a closed application without holes is a reduct of it, in every context. -/
def Memo.Sound (S : Signature) (env : Environment) (memo : Memo) : Prop :=
  ∀ k v, memo[k]? = some v → k.Over S.ground 0 → ∀ sol L, Reduces env sol L k v

namespace Memo
variable {S : Signature} {env : Environment} {memo : Memo}

theorem sound_empty : Memo.Sound S env {} := by
  intro k v h
  simp at h

theorem Sound.insert {k v : Term} (h : Memo.Sound S env memo)
    (hkv : ∀ sol L, Reduces env sol L k v) : Memo.Sound S env (memo.insert k v) := by
  intro k' v' hk' hover sol L
  rw [Std.HashMap.getElem?_insert] at hk'
  split at hk'
  case isTrue hsame =>
    obtain rfl := Option.some.inj hk'
    exact (Reduces.of_same (Term.same_symm hsame)).trans (hkv sol L)
  case isFalse => exact h k' v' hk' hover sol L

end Memo

namespace Reducer

/-- Head reduction over the definitions, the solutions and the values of a reducer, under binders in
the context. -/
abbrev Reaches (r : Reducer) (depth : ℕ) : Term → Term → Prop :=
  Reduces r.env r.store.solution? (r.locals.under depth)

/-- A run keeps what is remembered sound, and returns a reduct of a term. -/
def Yields (S : Signature) (r : Reducer) (depth : ℕ) (t : Term) (x : Reduce Term) : Prop :=
  Ensures (fun s => s.memo.Sound S r.env) x (r.Reaches depth t)

variable {S : Signature} {r : Reducer} {depth : ℕ} {t t' : Term}

/-- The value of a variable is that of the context, lifted over the variables from it on. -/
theorem localValue?_eq_some {i : ℕ} {v : Term} (h : r.localValue? depth i = some v) :
    ∃ w, (r.locals.under depth)[i]? = some (some w) ∧ v = w.lift (i + 1) := by
  unfold localValue? at h
  split at h
  case isTrue => simp at h
  case isFalse hi =>
    split at h
    case h_1 w hw =>
      refine ⟨w, ?_, (Option.some.inj h).symm⟩
      rw [Locals.under, List.getElem?_append_right (by simpa using hi)]
      simpa using hw
    case h_2 => simp at h

/-- A global that is applied to an argument for each parameter is unfolded at these arguments. -/
theorem whnfGas_apps_ref {gas : ℕ} {n : GlobalName} {u : Universe} {d : Definition}
    {args : List Term} {s : ReductionState} (hd : r.env.get? n = some d)
    (hlen : d.tele.length = args.length) :
    r.whnfGas depth (gas + 2) ((Term.ref n u).apps args) s = r.delta
      (r.whnfGas depth (gas + 1)) n u args s := by
  cases args using List.reverseRecOn with
  | nil => rfl
  | append_singleton args a =>
    have hspine : (Term.app ((Term.ref n u).apps args) a).spine = (.ref n u, args ++ [a]) :=
      Term.spineWith_apps (.ref n u) args [a]
    have hlt : ([] : List Term).length < d.tele.length := by simp [hlen]
    -- With too few arguments the global is in weak head normal form.
    have hhead : r.whnfGas depth (gas + 1) (.ref n u) s = .ok (.ref n u) s := by
      simp only [whnfGas, whnfWith, delta, hd, if_pos hlt]
      rfl
    have happs : (Term.ref n u).apps (args ++ [a]) = .app ((Term.ref n u).apps args) a :=
      Term.apps_append _ _ _
    rw [happs, whnfGas, whnfWith, hspine]
    exact bind_of_ok hhead

theorem whnfGas_apps_func {gas : ℕ} {n : GlobalName} {u : Universe} {d : Definition} {body : Term}
    {decreasing : Option ℕ} {args : List Term} {s : ReductionState} (hd : r.env.get? n = some d)
    (hlen : d.tele.length = args.length) (hb : d.body = .func body decreasing) :
    r.whnfGas depth (gas + 2) ((Term.ref n u).apps args) s = (do
      match ← unfold (r.whnfGas depth (gas + 1)) n u body args with
      | some t => r.whnfGas depth (gas + 1) t
      | none => return (Term.ref n u).apps args) s := by
  rw [whnfGas_apps_ref hd hlen, delta]
  simp only [hd, hlen, hb, lt_irrefl, if_false, List.take_length, List.drop_length]
  rfl

namespace Yields

theorem pure (h : r.Reaches depth t t') : Yields S r depth t (pure t') := Ensures.pure h

theorem of_reaches {x : Reduce Term} (h : r.Reaches depth t t') (hx : Yields S r depth t' x) :
    Yields S r depth t x :=
  Ensures.mono hx fun _ => h.trans

theorem bind {a : Term} {x : Reduce Term} {f : Term → Reduce Term} (hx : Yields S r depth a x)
    (hf : ∀ a', r.Reaches depth a a' → Yields S r depth t (f a')) : Yields S r depth t (x >>= f) :=
  Ensures.bind hx hf

theorem step {f : Unit → Reduce Term} (hf : Yields S r depth t (f ())) :
    Yields S r depth t (step >>= f) :=
  Ensures.bind ensures_step fun _ _ => hf

end Yields

section Round
variable {whnf : Term → Reduce Term} (henv : r.env.Over S)
  (hc : ContextOver S ⊤ r.store.solution? (r.locals.under depth)) (hw : ∀ t : Term, t.Over S ⊤ →
    Yields S r depth t (whnf t))

include henv hc hw

/-- Going on with a reduct. -/
theorem yields_next (hover : t.Over S ⊤) (h : r.Reaches depth t t') :
    Yields S r depth t (whnf t') :=
  .of_reaches h (hw t' (h.preserves_over henv hc hover))

/-- A remembered outcome is a reduct because the memo is sound, another one because the reduction
yields it. What is then remembered is closed, so that it holds in every context. -/
theorem yields_unfold {n : GlobalName} {u : Universe} {d : Definition} {body : Term}
    {args : List Term} (hd : r.env.get? n = some d)
    (hbody : d.contractum? n u args = some ((body.substLevels u).substAll args))
    (hargs : args.length = d.tele.length) (hover : ((Term.ref n u).apps args).Over S ⊤) :
    Ensures (fun s => s.memo.Sound S r.env) (unfold whnf n u body args) fun o => ∀ t, o = some t →
      r.Reaches depth ((Term.ref n u).apps args) t := by
  have hground (h : (((Term.ref n u).apps args).isClosed && !((Term.ref n u).apps args).hasHole) =
      true) : ((Term.ref n u).apps args).Over S.ground 0 := by
    rw [Bool.and_eq_true, Bool.not_eq_true'] at h
    exact hover.ground h.1 h.2
  refine ensures_unfold (yields_next henv hc hw hover (.of_head (.delta hd hargs hbody)))
    ?known ?fresh ?insert
  case known =>
    rintro memo v hm hk hv t ⟨⟩
    exact hm _ v hv (hground hk) _ _
  case fresh =>
    intro v hv t ht
    exact (mem_unblocked?_iff.mp ht).2 ▸ hv
  case insert =>
    exact fun memo v hm hv _ hk => hm.insert fun sol L => hv.of_ground henv (hground hk)

/-- A global with all its arguments takes a step to its unfolding, and nothing happens to one with
fewer. -/
theorem yields_delta {n : GlobalName} {u : Universe} {args : List Term}
    (hover : ((Term.ref n u).apps args).Over S ⊤) :
    Yields S r depth ((Term.ref n u).apps args) (r.delta whnf n u args) := by
  unfold delta
  extract_lets folded
  split
  case h_1 => exact .pure (.refl _)
  case h_2 d hd =>
    extract_lets arity
    split
    case isTrue => exact .pure (.refl _)
    case isFalse rest params hlen =>
      have hparams : params.length = d.tele.length := List.length_take_of_le (by omega)
      have hsplit : (Term.ref n u).apps args = ((Term.ref n u).apps params).apps rest := by
        rw [← Term.apps_append, List.take_append_drop]
      rw [hsplit] at hover ⊢
      have hunfold {t : Term} (h : d.contractum? n u params = some t) :
          r.Reaches depth (((Term.ref n u).apps params).apps rest) (t.apps rest) :=
        .apps (.of_head (.delta hd hparams h)) rest
      split
      case h_1 p hb =>
        exact yields_next henv hc hw hover (hunfold (by simp [Definition.contractum?, hb]))
      case h_2 body decreasing hb =>
        have hover' := (Term.over_apps.mp hover).1
        refine Ensures.bind (yields_unfold henv hc hw hd
          (by simp [Definition.contractum?, hb]) hparams hover') fun o ho => ?_
        split
        case h_1 t => exact yields_next henv hc hw hover (.apps (ho t rfl) rest)
        case h_2 => exact .pure (.refl _)
      case h_3 hb =>
        exact yields_next henv hc hw hover (hunfold (by simp [Definition.contractum?, hb]))
      case h_4 hb =>
        exact yields_next henv hc hw hover (hunfold (by simp [Definition.contractum?, hb]))
      case h_5 hb =>
        exact yields_next henv hc hw hover (hunfold (by simp [Definition.contractum?, hb]))
      case h_6 c i hb =>
        split
        case h_1 a ha =>
          exact yields_next henv hc hw hover (hunfold (by simp [Definition.contractum?, hb, ha]))
        case h_2 hnone =>
          -- The accessor of a field has the instance for a parameter.
          have hne := henv n d (Term.over_apps.mp (Term.over_apps.mp hover).1).1.1 hd
          simp only [Definition.Over, hb] at hne
          rw [List.getLast?_eq_none_iff.mp hnone] at hparams
          exact absurd (List.length_eq_zero_iff.mp hparams.symm) hne
      case h_7 body hb =>
        exact .step (yields_next henv hc hw hover (hunfold (by simp [Definition.contractum?, hb])))
      case h_8 => exact .pure (.refl _)

/-- A global unfolds, an abstraction takes its arguments one by one, and any other head keeps them.
-/
theorem yields_applySpine {head : Term} {args : List Term} (hover : (head.apps args).Over S ⊤) :
    Yields S r depth (head.apps args) (r.applySpine whnf head args) := by
  unfold applySpine
  split
  case h_1 x a b s args =>
    have hstep : r.Reaches depth ((Term.app (.lam x a b) s).apps args) ((b.subst s).apps args) :=
      Reduces.apps (.of_head .beta) args
    exact .step (yields_next henv hc hw hover hstep)
  case h_2 args m =>
    split
    case h_1 t ht => exact yields_next henv hc hw hover (.apps (.of_head (.hole ht)) _)
    case h_2 => exact .pure (.refl _)
  case h_3 n u args => exact yields_delta henv hc hw hover
  case h_4 => exact .pure (.refl _)

/-- One round of head reduction. -/
theorem yields_whnfWith (hover : t.Over S ⊤) : Yields S r depth t (r.whnfWith depth whnf t) := by
  unfold whnfWith
  split
  case h_1 i =>
    split
    case h_1 v hv =>
      obtain ⟨w, hw', rfl⟩ := localValue?_eq_some hv
      exact yields_next henv hc hw hover (.of_head (.local hw'))
    case h_2 => exact .pure (.refl _)
  case h_2 m =>
    split
    case h_1 s hs => exact yields_next henv hc hw hover (.of_head (.hole hs))
    case h_2 => exact .pure (.refl _)
  case h_3 n u => exact yields_delta henv hc hw hover
  case h_4 f a =>
    have hspine := Term.apps_spine (.app f a)
    generalize (Term.app f a).spine = spine at hspine ⊢
    obtain ⟨head, args⟩ := spine
    rw [← hspine] at hover ⊢
    refine .bind (hw head (Term.over_apps.mp hover).1) fun head' hhead => ?_
    have hspine' : r.Reaches depth (head.apps args) (head'.apps args) := hhead.apps args
    exact .of_reaches hspine' (yields_applySpine henv hc hw (hspine'.preserves_over henv hc hover))
  case h_5 x a t b => exact .step (yields_next henv hc hw hover (.of_head .letIn))
  case h_6 a side =>
    refine .bind (hw a hover) fun a' ha => ?_
    have hproj : r.Reaches depth (.proj a side) (.proj a' side) := ha.proj side
    split
    case h_1 x y =>
      refine .step ?_
      cases side with
      | fst => exact yields_next henv hc hw hover (hproj.trans (.of_head .fst))
      | snd => exact yields_next henv hc hw hover (hproj.trans (.of_head .snd))
    case h_2 => exact .pure hproj
  case h_7 a c i =>
    refine .bind (hw a hover) fun a' ha => ?_
    have hfield : r.Reaches depth (.field a c i) (.field a' c i) := ha.field c i
    split
    case h_1 n u ps fs =>
      split
      case h_1 f hf =>
        exact .step (yields_next henv hc hw hover (hfield.trans (.of_head (.field hf))))
      case h_2 => exact .pure hfield
    case h_2 => exact .pure hfield
  case h_8 a m bs =>
    refine .bind (hw a hover.2.1) fun a' ha => ?_
    have hscrut : r.Reaches depth (.case a m bs) (.case a' m bs) := ha.scrut m bs
    split
    case h_1 head args hcon =>
      split
      case h_1 b hb =>
        exact .step (yields_next henv hc hw hover (hscrut.trans (.of_head (.iota hcon hb))))
      case h_2 => exact .pure hscrut
    case h_2 => exact .pure hscrut
  case h_9 m z s n =>
    refine .bind (hw n hover.2.2.2) fun n' hn => ?_
    have htarget : r.Reaches depth (.natRec m z s n) (.natRec m z s n') := hn.target m z s
    split
    case h_1 => exact .step (yields_next henv hc hw hover (htarget.trans (.of_head .recZero)))
    case h_2 n => exact .step (yields_next henv hc hw hover (htarget.trans (.of_head .recSucc)))
    case h_3 => exact .pure htarget
  case h_10 l x p i =>
    have ⟨_, _, _, hp, hi⟩ := hover
    refine .bind (hw i hi) fun i' hi' => ?_
    have hpoint : r.Reaches depth (.at l x p i) (.at l x p i') := hi'.point l x p
    split
    case h_1 => exact yields_next henv hc hw hover (hpoint.trans (.of_head .atLeft))
    case h_2 => exact yields_next henv hc hw hover (hpoint.trans (.of_head .atRight))
    case h_3 =>
      refine .bind (hw p hp) fun p' hp' => ?_
      have hpath : r.Reaches depth (.at l x p i) (.at l x p' i') := hpoint.trans (hp'.path l x i')
      split
      case h_1 f => exact .step (yields_next henv hc hw hover (hpath.trans (.of_head .atPath)))
      case h_2 => exact .pure hpath
  case h_11 => exact .pure (.refl _)

end Round

theorem yields_whnfGas (henv : r.env.Over S)
    (hc : ContextOver S ⊤ r.store.solution? (r.locals.under depth)) (gas : ℕ) (t : Term)
    (hover : t.Over S ⊤) : Yields S r depth t (r.whnfGas depth gas t) := by
  induction gas generalizing t with
  | zero => exact Ensures.throw _
  | succ gas ih => exact yields_whnfWith henv hc ih hover

/-- A weak head normal form is a reduct. -/
theorem yields_whnf (henv : r.env.Over S)
    (hc : ContextOver S ⊤ r.store.solution? (r.locals.under depth)) (hover : t.Over S ⊤) :
    Yields S r depth t (r.whnf depth t) :=
  yields_whnfGas henv hc unboundedGas t hover

end Reducer


end LeveledTypes
