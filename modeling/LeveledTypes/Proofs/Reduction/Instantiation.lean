import LeveledTypes.Proofs.Conversion.Pattern
import LeveledTypes.Proofs.Term.Erasure

/-!
# Reduction of instances

An instance of a reduct is a reduct of the instance, up to erasure, if the variables that have
values are replaced by the instances of their values.
-/
namespace LeveledTypes

namespace Term
variable {S : Signature}

/-- Instances of a term agree if the free variables of the term have the same values. -/
theorem Over.inst_congr {t : Term} {n : ℕ} {σ τ : ℕ → Term} (ht : t.Over S n)
    (h : ∀ i < n, σ i = τ i) : t.inst σ = t.inst τ := by
  refine Term.inst_congr (p := fun i => decide (n ≤ i)) (ht.anyVarFrom_eq_false (c := 0) (by simp))
    fun i hi => h i ?_
  simpa using hi

theorem inst_apps (ρ : ℕ → Term) (f : Term) (as : List Term) :
    (f.apps as).inst ρ = (f.inst ρ).apps (as.map (inst ρ)) := by
  induction as generalizing f with
  | nil => rfl
  | cons a as ih => rw [apps_cons, ih, List.map_cons, apps_cons, inst]

/-- An instance of a term all whose free variables have been replaced. -/
theorem Over.inst_substAll {t : Term} {as : List Term} (ht : t.Over S as.length) (ρ : ℕ → Term) :
    (t.substAll as).inst ρ = t.substAll (as.map (Term.inst ρ)) := by
  rw [substAll_eq_inst, substAll_eq_inst, inst_inst]
  refine ht.inst_congr fun i hi => ?_
  rw [pushAll_inst, pushAll_of_lt (by simpa using hi), pushAll_of_lt (by simpa using hi)]

end Term

theorem Reducer.canonical_inst (p : Primitive) (args : List Term) (ρ : ℕ → Term) :
    canonical p (args.map (Term.inst ρ)) = (canonical p args).inst ρ := by
  have harg (i : ℕ) : (args.map (Term.inst ρ)).getD i .zero = (args.getD i .zero).inst ρ := by
    rw [List.getD_eq_getElem?_getD, List.getD_eq_getElem?_getD, List.getElem?_map]
    cases args[i]? <;> rfl
  cases p <;> simp only [canonical, harg, Term.inst]

theorem Reducer.constructor?_inst {a : Term} {h : BranchHead} {xs : List Term}
    (ha : constructor? a = some (h, xs)) (ρ : ℕ → Term) :
    constructor? (a.inst ρ) = some (h, xs.map (Term.inst ρ)) := by
  cases a <;> simp_all [constructor?]
  all_goals
    obtain ⟨rfl, rfl⟩ := ha
    simp

/-- Substitution goes into the arguments only, because the body has no other free variables than its
parameters. -/
theorem Definition.contractum?_inst {S : Signature} {d : Definition} {n : GlobalName} {u : Universe}
    {args : List Term} {t : Term} (hd : d.Over S n) (hu : S.Admits u)
    (hlen : args.length = d.tele.length) (h : d.contractum? n u args = some t) (ρ : ℕ → Term) :
    d.contractum? n u (args.map (Term.inst ρ)) = some (t.inst ρ) := by
  have hbody {body : Term} (hb : body.Over S.ground d.tele.length) :
      ((body.substLevels u).substAll args).inst ρ =
      (body.substLevels u).substAll (args.map (Term.inst ρ)) :=
    Term.Over.inst_substAll (hlen ▸ hb.of_ground.substLevels hu) ρ
  unfold Definition.Over at hd
  unfold contractum? at h ⊢
  cases hb : d.body <;> simp only [hb, Option.some.injEq, Option.map_eq_some_iff,
    reduceCtorEq] at hd h ⊢
  case func => rw [← h, hbody hd]
  case inst => rw [← h, hbody hd]
  case data => simp [← h]
  case constructor => simp [← h]
  case cls => simp [← h]
  case field =>
    obtain ⟨a, ha, rfl⟩ := h
    exact ⟨a.inst ρ, by simp [ha], rfl⟩
  case primitive p => rw [← h, Reducer.canonical_inst]

/-- Values for all variables that agree, up to erasure, with the values that the context gives to
some of them. -/
def Locals.Fits (L : Locals) (ρ : ℕ → Term) : Prop :=
  ∀ (i : ℕ) v, L[i]? = some (some v) → (ρ i).erase = ((v.lift (i + 1)).inst ρ).erase

/-- A relation that holds of eliminations if it holds of what is eliminated. -/
structure HeadCongruence (E : Term → Term → Prop) : Prop where
  refl : ∀ t, E t t
  app : ∀ {f f'} a, E f f' → E (.app f a) (.app f' a)
  proj : ∀ {a a'} s, E a a' → E (.proj a s) (.proj a' s)
  field : ∀ {a a'} n i, E a a' → E (.field a n i) (.field a' n i)
  scrut : ∀ {a a'} m bs, E a a' → E (.case a m bs) (.case a' m bs)
  target : ∀ {n n'} m z s, E n n' → E (.natRec m z s n) (.natRec m z s n')
  point : ∀ {i i'} l r p, E i i' → E (.at l r p i) (.at l r p i')
  path : ∀ {p p'} l r i, E p p' → E (.at l r p i) (.at l r p' i)

theorem headCongruence_erase : HeadCongruence fun s t => s.erase = t.erase := by
  constructor <;> simp +contextual [Term.erase]

section Step
variable {S : Signature} {env : Environment} {sol sol' : ℕ → Option Term} {L : Locals}
  {ρ : ℕ → Term} {t t' : Term} {E : Term → Term → Prop}

/-- An instance of a step is a step of the instance, or none at all, up to a relation between
solutions of holes and values of variables and their instances. -/
theorem HeadStep.inst_of (hE : HeadCongruence E) (h : HeadStep env sol L t t')
    (henv : env.StandsOver S) (hlocal : ∀ (i : ℕ) v, L[i]? = some (some v) →
      E (ρ i) ((v.lift (i + 1)).inst ρ))
    (hhole : ∀ m t, sol m = some t → sol' m = some t ∧ E t (t.inst ρ)) (ht : t.Over S ⊤) :
    ∃ s, (t.inst ρ = s ∨ HeadStep env sol' [] (t.inst ρ) s) ∧ E s (t'.inst ρ) := by
  induction h with
  | «local» hv => exact ⟨_, .inl rfl, hlocal _ _ hv⟩
  | hole hm => exact ⟨_, .inr (.hole (hhole _ _ hm).1), (hhole _ _ hm).2⟩
  | delta hd hlen hc =>
    rw [Term.over_apps, Term.Over] at ht
    refine ⟨_, .inr ?_, hE.refl _⟩
    rw [Term.inst_apps]
    have hover := henv _ _ _ _ _ ht.1.1 hd hlen hc
    exact .delta hd (by simpa using hlen) (Definition.contractum?_inst hover ht.1.2 hlen hc ρ)
  | beta => exact ⟨_, .inr .beta, by rw [Term.inst_subst]; exact hE.refl _⟩
  | letIn => exact ⟨_, .inr .letIn, by rw [Term.inst_subst]; exact hE.refl _⟩
  | fst => exact ⟨_, .inr .fst, hE.refl _⟩
  | snd => exact ⟨_, .inr .snd, hE.refl _⟩
  | field hf => exact ⟨_, .inr (.field (by simp [hf])), hE.refl _⟩
  | @iota a m bs head xs b ha hb =>
    obtain ⟨harity, hover, -, hbranches⟩ := ht
    have hhead := List.find?_some hb
    obtain ⟨hlen, hxs⟩ := Reducer.over_constructor? hover ha
    rw [← eq_of_beq hhead, ← harity _ (List.mem_of_find?_eq_some hb)] at hlen
    have hfind : (bs.map fun b => { b with body := b.body.inst (Term.up b.arity ρ) }).find?
      (fun b => b.head == head) =
        some { b with body := b.body.inst (Term.up b.arity ρ) } := by
      rw [List.find?_map]
      exact congrArg (Option.map _) hb
    refine ⟨_, .inr ?_, hE.refl _⟩
    rw [Term.inst, Term.instBranches_eq_map, Term.inst_substAll, hlen]
    exact .iota (Reducer.constructor?_inst ha ρ) hfind
  | recZero => exact ⟨_, .inr .recZero, hE.refl _⟩
  | recSucc => exact ⟨_, .inr .recSucc, by simpa using hE.refl _⟩
  | atLeft => exact ⟨_, .inr .atLeft, hE.refl _⟩
  | atRight => exact ⟨_, .inr .atRight, hE.refl _⟩
  | atPath => exact ⟨_, .inr .atPath, hE.refl _⟩
  | app _ ih =>
    obtain ⟨s, h, hs⟩ := ih ht.1
    exact ⟨.app s _, h.imp (congrArg (Term.app · _)) .app, hE.app _ hs⟩
  | proj _ ih =>
    obtain ⟨s, h, hs⟩ := ih ht
    exact ⟨.proj s _, h.imp (congrArg (Term.proj · _)) .proj, hE.proj _ hs⟩
  | fieldOf _ ih =>
    obtain ⟨s, h, hs⟩ := ih ht
    exact ⟨.field s _ _, h.imp (congrArg (Term.field · _ _)) .fieldOf, hE.field _ _ hs⟩
  | scrut _ ih =>
    obtain ⟨s, h, hs⟩ := ih ht.2.1
    exact ⟨.case s _ _, h.imp (congrArg (Term.case · _ _)) .scrut, hE.scrut _ _ hs⟩
  | target _ ih =>
    obtain ⟨s, h, hs⟩ := ih ht.2.2.2
    exact ⟨.natRec _ _ _ s, h.imp (congrArg (Term.natRec _ _ _ ·)) .target, hE.target _ _ _ hs⟩
  | point _ ih =>
    obtain ⟨s, h, hs⟩ := ih ht.2.2.2.2
    exact ⟨.at _ _ _ s, h.imp (congrArg (Term.at _ _ _ ·)) .point, hE.point _ _ _ hs⟩
  | path _ ih =>
    obtain ⟨s, h, hs⟩ := ih ht.2.2.2.1
    exact ⟨.at _ _ s _, h.imp (congrArg (Term.at _ _ · _)) .path, hE.path _ _ _ hs⟩

/-- An instance of a step is a step of the instance, or none at all, up to erasure. More holes may
be solved. -/
theorem HeadStep.inst (h : HeadStep env sol L t t') (henv : env.Over S)
    (hclosed : ∀ m t, sol m = some t → t.ErasesClosed) (hsol : ∀ m t, sol m = some t →
      sol' m = some t) (hρ : L.Fits ρ)
    (ht : t.Over S ⊤) : ∃ s, (t.inst ρ = s ∨ HeadStep env sol' [] (t.inst ρ) s) ∧
    s.erase = (t'.inst ρ).erase :=
  h.inst_of headCongruence_erase henv.standsOver hρ
    (fun m t hm => ⟨hsol m t hm, ((hclosed m t hm).inst ρ).symm⟩) ht

end Step

/-- Steps of head reduction of closed terms, up to erasure. -/
def Evaluates (env : Environment) (sol : ℕ → Option Term) : Term → Term → Prop :=
  Relation.ReflTransGen fun t t' => HeadStep env sol [] t t' ∨ t.erase = t'.erase

namespace Evaluates
variable {env : Environment} {sol : ℕ → Option Term} {t t' u : Term}

theorem of_erase (h : t.erase = t'.erase) : Evaluates env sol t t' := .single (.inr h)

theorem of_head (h : HeadStep env sol [] t t') : Evaluates env sol t t' := .single (.inl h)

theorem trans (h : Evaluates env sol t t') (h' : Evaluates env sol t' u) : Evaluates env sol t u :=
  Relation.ReflTransGen.trans h h'

/-- What a term evaluates to depends on its erasure only. -/
theorem congr_left (h : t.erase = t'.erase) : Evaluates env sol t u ↔ Evaluates env sol t' u :=
  ⟨(of_erase h.symm).trans, (of_erase h).trans⟩

/-- An instance of a reduct is what the instance of the term evaluates to, also when more holes are
solved. -/
theorem of_reduces {S : Signature} {sol' : ℕ → Option Term} {L : Locals} {ρ : ℕ → Term}
    (h : Reduces env sol L t t') (henv : env.Over S) (hc : ContextOver S ⊤ sol L)
    (hclosed : ∀ m t, sol m = some t → t.ErasesClosed) (hsol : ∀ m t, sol m = some t →
      sol' m = some t) (hρ : L.Fits ρ) (ht : t.Over S ⊤) :
    Evaluates env sol' (t.inst ρ) (t'.inst ρ) := by
  induction h with
  | refl => exact .refl
  | @tail u u' h hstep ih =>
    refine ih.trans ?_
    have hu := Reduces.preserves_over h henv hc ht
    cases hstep with
    | inl hstep =>
      obtain ⟨s, hs, herase⟩ := hstep.inst henv hclosed hsol hρ hu
      refine trans ?_ (.of_erase herase)
      rcases hs with rfl | hs
      · exact .refl
      · exact .of_head hs
    | inr hsame =>
      exact .of_erase (Term.erase_inst_congr (Term.erase_eq_of_same hsame) fun _ => rfl)

end Evaluates

end LeveledTypes
