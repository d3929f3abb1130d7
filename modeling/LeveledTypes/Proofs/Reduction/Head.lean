import LeveledTypes.Proofs.Term.Over
import LeveledTypes.Reduction
import Mathlib.Logic.Relation

/-!
# Head reduction

One step of head reduction contracts the redex at the head of a term: a definition, a solved hole,
the value of a variable, or one of the computation rules. A term over a signature reduces within it,
and a closed term without holes reduces in the same way in every context.
-/
namespace LeveledTypes

/-- The context under `k` further binders, whose variables have no values. -/
def Locals.under (L : Locals) (k : ℕ) : Locals := List.replicate k none ++ L

@[simp] theorem Locals.under_zero (L : Locals) : L.under 0 = L := rfl

theorem Locals.under_add (L : Locals) (j k : ℕ) : (L.under j).under k = L.under (j + k) := by
  rw [under, under, under, Nat.add_comm, ← List.replicate_append_replicate, List.append_assoc]

theorem Locals.mem_under {L : Locals} {k : ℕ} {v : Term} : some v ∈ L.under k ↔ some v ∈ L := by
  simp [under]

/-- What a definition stands for under its name at given arguments, one for each of its
parameters. -/
def Definition.contractum? (d : Definition) (n : GlobalName) (u : Universe) (args : List Term) :
    Option Term :=
  match d.body with
  | .func body _ | .inst _ body => some ((body.substLevels u).substAll args)
  | .data _ => some (.data n u args)
  | .constructor _ _ params _ => some (.con n u (args.take params) (args.drop params))
  | .cls _ _ => some (.record n u args)
  | .field c i => args.getLast?.map fun a => .field a c i
  | .primitive p => some (Reducer.canonical p args)
  | .pending => none

/-- One step of head reduction, in a context where some variables have values and some holes have
solutions. -/
inductive HeadStep (env : Environment) (sol : ℕ → Option Term) (L : Locals) : Term → Term → Prop
  | local {i : ℕ} {v : Term} : L[i]? = some (some v) → HeadStep env sol L (.var i) (v.lift (i + 1))
  | hole {m : ℕ} {t : Term} : sol m = some t → HeadStep env sol L (.hole m) t
  | delta {n : GlobalName} {u : Universe} {d : Definition} {args : List Term} {t : Term} :
    env.get? n = some d →
      args.length = d.tele.length → d.contractum? n u args = some t →
      HeadStep env sol L ((Term.ref n u).apps args) t
  | beta {x : Binder} {a b s : Term} : HeadStep env sol L (.app (.lam x a b) s) (b.subst s)
  | letIn {x : Binder} {t a b : Term} : HeadStep env sol L (.letIn x t a b) (b.subst a)
  | fst {a b : Term} : HeadStep env sol L (.proj (.pair a b) .fst) a
  | snd {a b : Term} : HeadStep env sol L (.proj (.pair a b) .snd) b
  | field {n c : GlobalName} {u : Universe} {ps fs : List Term} {i : ℕ} {f : Term} :
    fs[i]? = some f →
      HeadStep env sol L (.field (.new n u ps fs) c i) f
  | iota {a m : Term} {bs : List (Branch Term)} {h : BranchHead} {xs : List Term}
    {b : Branch Term} :
      Reducer.constructor? a = some (h, xs) → bs.find? (fun b => b.head == h) = some b →
      HeadStep env sol L (.case a m bs) (b.body.substAll xs)
  | recZero {m z s : Term} : HeadStep env sol L (.natRec m z s .zero) z
  | recSucc {m z s n : Term} :
    HeadStep env sol L (.natRec m z s (.succ n)) (s.apps [n, .natRec m z s n])
  | atLeft {l r p : Term} : HeadStep env sol L (.at l r p .left) l
  | atRight {l r p : Term} : HeadStep env sol L (.at l r p .right) r
  | atPath {l r f i : Term} : HeadStep env sol L (.at l r (.pathLam f) i) (.app f i)
  | app {f f' a : Term} : HeadStep env sol L f f' → HeadStep env sol L (.app f a) (.app f' a)
  | proj {a a' : Term} {s : Side} : HeadStep env sol L a a' →
    HeadStep env sol L (.proj a s) (.proj a' s)
  | fieldOf {a a' : Term} {n : GlobalName} {i : ℕ} : HeadStep env sol L a a' →
      HeadStep env sol L (.field a n i) (.field a' n i)
  | scrut {a a' m : Term} {bs : List (Branch Term)} : HeadStep env sol L a a' →
      HeadStep env sol L (.case a m bs) (.case a' m bs)
  | target {m z s n n' : Term} : HeadStep env sol L n n' →
    HeadStep env sol L (.natRec m z s n) (.natRec m z s n')
  | point {l r p i i' : Term} : HeadStep env sol L i i' →
    HeadStep env sol L (.at l r p i) (.at l r p i')
  | path {l r p p' i : Term} : HeadStep env sol L p p' →
    HeadStep env sol L (.at l r p i) (.at l r p' i)

variable {S : Signature} {env : Environment} {sol : ℕ → Option Term} {L : Locals}

/-- A definition over a signature: what it stands for is closed but for its parameters, has no
holes, and stays within the signature; the accessor of a field has a parameter for the instance. -/
def Definition.Over (S : Signature) (n : GlobalName) (d : Definition) : Prop :=
  match d.body with
  | .func body _ | .inst _ body => body.Over S.ground d.tele.length
  | .constructor _ _ params _ => d.tele.length - params = S.arity n
  | .field _ _ => d.tele ≠ []
  | .primitive p => p = .pathLam ∨ p = .at → S.paths
  | _ => True

/-- An environment over a signature: all globals that the signature allows are over it. -/
def Environment.Over (S : Signature) (env : Environment) : Prop :=
  ∀ n d, S.global n → env.get? n = some d → d.Over S n

/-- All globals that the signature allows are over it if they stand for something at any
arguments. -/
def Environment.StandsOver (S : Signature) (env : Environment) : Prop :=
  ∀ n d u args t, S.global n → env.get? n = some d → args.length = d.tele.length →
    d.contractum? n u args = some t → d.Over S n

theorem Environment.Over.standsOver (henv : env.Over S) : env.StandsOver S :=
  fun n d _ _ _ hn hd _ _ => henv n d hn hd

/-- An environment over a signature is one over it without holes. -/
theorem Environment.Over.ground (henv : env.Over S) : env.Over S.ground := henv

namespace Reducer

theorem over_canonical {n : ℕ∞} {p : Primitive} {args : List Term} (hp : p = .pathLam ∨
    p = .at → S.paths) (hargs : ∀ a ∈ args, a.Over S n) : (canonical p args).Over S n := by
  have harg (i : ℕ) : (args.getD i .zero).Over S n := by
    rw [List.getD_eq_getElem?_getD]
    cases h : args[i]? with
    | none => trivial
    | some a => exact hargs a (List.mem_of_getElem? h)
  cases p <;> simp_all [canonical]

theorem over_constructor? {n : ℕ∞} {a : Term} {h : BranchHead} {xs : List Term} (ha : a.Over S n)
    (hx : constructor? a = some (h, xs)) : xs.length = S.headArity h ∧ ∀ x ∈ xs, x.Over S n := by
  cases a <;> simp only [constructor?, Option.some.injEq, Prod.mk.injEq, reduceCtorEq] at hx
  all_goals
    obtain ⟨rfl, rfl⟩ := hx
    simp_all [Signature.headArity]

end Reducer

/-- What a definition stands for at arguments over a signature is over the signature. -/
theorem Definition.Over.contractum? {n : ℕ∞} {d : Definition} {c : GlobalName} {u : Universe}
    {args : List Term} {t : Term} (hd : d.Over S c) (hu : S.Admits u)
    (hargs : ∀ a ∈ args, a.Over S n) (hlen : args.length = d.tele.length)
    (ht : d.contractum? c u args = some t) : t.Over S n := by
  have hunfold {body : Term} (hbody : body.Over S.ground d.tele.length) :
      ((body.substLevels u).substAll args).Over S n := by
    refine Term.Over.substAll ((hbody.of_ground.substLevels hu).mono ?_) hargs
    rw [hlen]
    exact le_add_left le_rfl
  unfold Definition.Over at hd
  unfold Definition.contractum? at ht
  cases hb : d.body <;> simp only [hb, Option.some.injEq, Option.map_eq_some_iff,
    reduceCtorEq] at hd ht
  case func body _ => exact ht ▸ hunfold hd
  case inst _ body => exact ht ▸ hunfold hd
  case data => exact ht ▸ ⟨hu, Term.overAll_iff.mpr hargs⟩
  case constructor =>
    exact ht ▸
      ⟨by simpa [hlen] using hd, hu, Term.overAll_iff.mpr fun p hp => hargs p
          (List.mem_of_mem_take hp),
      Term.overAll_iff.mpr fun x hx => hargs x (List.mem_of_mem_drop hx)⟩
  case cls => exact ht ▸ ⟨hu, Term.overAll_iff.mpr hargs⟩
  case field =>
    obtain ⟨a, ha, rfl⟩ := ht
    exact hargs a (List.mem_of_getLast? ha)
  case primitive p => exact ht ▸ Reducer.over_canonical hd hargs

/-- The solutions of holes and the values of variables that a term over a signature can mention are
over it. -/
structure ContextOver (S : Signature) (n : ℕ∞) (sol : ℕ → Option Term) (L : Locals) : Prop where
  solutions : ∀ m t, S.hole m → sol m = some t → t.Over S n
  values : ∀ (i : ℕ) v, i < n → L[i]? = some (some v) → (v.lift (i + 1)).Over S n

/-- A closed term without holes depends on no context. -/
theorem ContextOver.ground (S : Signature) (sol : ℕ → Option Term) (L : Locals) :
    ContextOver S.ground 0 sol L :=
  ⟨fun _ _ h => h.elim, fun _ _ h => absurd h not_lt_zero⟩

/-- A step of head reduction introduces nothing but what the definitions, the values and the
solutions have. -/
theorem HeadStep.over_of {n : ℕ∞} {t t' : Term} (h : HeadStep env sol L t t')
    (henv : env.StandsOver S) (hc : ContextOver S n sol L) (ht : t.Over S n) : t'.Over S n := by
  induction h with
  | «local» hv => exact hc.values _ _ ht hv
  | hole hm => exact hc.solutions _ _ ht hm
  | delta hd hlen hc =>
    rw [Term.over_apps, Term.Over] at ht
    exact (henv _ _ _ _ _ ht.1.1 hd hlen hc).contractum? ht.1.2 ht.2 hlen hc
  | beta => exact ht.1.2.subst ht.2
  | letIn => exact ht.2.2.subst ht.2.1
  | field hi => exact Term.overAll_iff.mp ht.2.2.2 _ (List.mem_of_getElem? hi)
  | @iota a m bs head xs b ha hb =>
    obtain ⟨harity, hover, -, hbranches⟩ := ht
    have hmem := List.mem_of_find?_eq_some hb
    have hhead := List.find?_some hb
    obtain ⟨hlen, hxs⟩ := Reducer.over_constructor? hover ha
    refine Term.Over.substAll ?_ hxs
    rw [hlen, ← eq_of_beq hhead, ← harity _ hmem]
    exact Term.overBranches_iff.mp hbranches _ hmem
  | scrut _ ih => exact ⟨ht.1, ih ht.2.1, ht.2.2⟩
  | _ => simp_all

theorem HeadStep.preserves_over {n : ℕ∞} {t t' : Term} (h : HeadStep env sol L t t')
    (henv : env.Over S) (hc : ContextOver S n sol L) (ht : t.Over S n) : t'.Over S n :=
      h.over_of henv.standsOver hc ht

/-- A step depends on what the context says about the variables and the holes that the term can
mention only. -/
theorem HeadStep.transport {sol' : ℕ → Option Term} {L' : Locals} {n : ℕ∞} {t t' : Term}
    (h : HeadStep env sol L t t') (hsol : ∀ m s, S.hole m → sol m = some s → sol' m = some s)
    (hL : ∀ (i : ℕ) v, i < n → L[i]? = some (some v) → L'[i]? = some (some v)) (ht : t.Over S n) :
    HeadStep env sol' L' t t' := by
  induction h with
  | «local» hv => exact .local (hL _ _ ht hv)
  | hole hm => exact .hole (hsol _ _ ht hm)
  | delta hd hlen hc => exact .delta hd hlen hc
  | beta => exact .beta
  | letIn => exact .letIn
  | fst => exact .fst
  | snd => exact .snd
  | field hi => exact .field hi
  | iota ha hb => exact .iota ha hb
  | recZero => exact .recZero
  | recSucc => exact .recSucc
  | atLeft => exact .atLeft
  | atRight => exact .atRight
  | atPath => exact .atPath
  | app _ ih => exact .app (ih ht.1)
  | proj _ ih => exact .proj (ih ht)
  | fieldOf _ ih => exact .fieldOf (ih ht)
  | scrut _ ih => exact .scrut (ih ht.2.1)
  | target _ ih => exact .target (ih ht.2.2.2)
  | point _ ih => exact .point (ih ht.2.2.2.2)
  | path _ ih => exact .path (ih ht.2.2.2.1)

/-- Steps of head reduction, up to the names of binders. -/
def Reduces (env : Environment) (sol : ℕ → Option Term) (L : Locals) : Term → Term → Prop :=
  Relation.ReflTransGen fun t t' => HeadStep env sol L t t' ∨ t.same t' = true

namespace Reduces
variable {n : ℕ∞} {t t' u : Term}

theorem refl (t : Term) : Reduces env sol L t t := Relation.ReflTransGen.refl

theorem of_head (h : HeadStep env sol L t t') : Reduces env sol L t t' := .single (.inl h)

theorem of_same (h : t.same t' = true) : Reduces env sol L t t' := .single (.inr h)

theorem trans (h : Reduces env sol L t t') (h' : Reduces env sol L t' u) : Reduces env sol L t u :=
  Relation.ReflTransGen.trans h h'

theorem preserves_over (h : Reduces env sol L t t') (henv : env.Over S) (hc : ContextOver S n sol L)
    (ht : t.Over S n) :
    t'.Over S n := by
  induction h with
  | refl => exact ht
  | tail _ hstep ih => exact hstep.elim (·.preserves_over henv hc ih) ih.of_same

/-- A reduction that starts over a signature uses only the solutions and the values of that
signature, so that it goes through wherever these are the same. -/
theorem transport {sol' : ℕ → Option Term} {L' : Locals} (h : Reduces env sol L t t')
    (henv : env.Over S) (hc : ContextOver S n sol L) (hsol : ∀ m s, S.hole m → sol m = some s →
      sol' m = some s)
    (hL : ∀ (i : ℕ) v, i < n → L[i]? = some (some v) → L'[i]? = some (some v)) (ht : t.Over S n) :
    Reduces env sol' L' t t' := by
  induction h with
  | refl => exact refl t
  | tail h hstep ih =>
    have hover := preserves_over h henv hc ht
    exact ih.trans (hstep.elim (fun h => of_head (h.transport hsol hL hover)) of_same)

/-- A closed term without holes reduces in the same way in every context. -/
theorem of_ground {sol' : ℕ → Option Term} {L' : Locals} (h : Reduces env sol L t t')
    (henv : env.Over S) (ht : t.Over S.ground 0) : Reduces env sol' L' t t' :=
  h.transport henv.ground (.ground S sol L) (fun _ _ h => h.elim)
    (fun _ _ h => absurd h not_lt_zero) ht

theorem app (h : Reduces env sol L t t') (a : Term) : Reduces env sol L (.app t a) (.app t' a) :=
  h.lift (Term.app · a) fun _ _ => Or.imp .app fun h => by
    simp [Term.same_iff, Term.anonymize, Term.same_iff.mp h]

theorem apps (h : Reduces env sol L t t') (as : List Term) :
    Reduces env sol L (t.apps as) (t'.apps as) := by
  induction as generalizing t t' with
  | nil => exact h
  | cons a as ih => exact ih (h.app a)

theorem proj (h : Reduces env sol L t t') (s : Side) : Reduces env sol L (.proj t s) (.proj t' s) :=
  h.lift (Term.proj · s) fun _ _ => Or.imp .proj fun h => by
    simp [Term.same_iff, Term.anonymize, Term.same_iff.mp h]

theorem field (h : Reduces env sol L t t') (c : GlobalName) (i : ℕ) :
    Reduces env sol L (.field t c i) (.field t' c i) :=
  h.lift (Term.field · c i) fun _ _ => Or.imp .fieldOf fun h => by
    simp [Term.same_iff, Term.anonymize, Term.same_iff.mp h]

theorem scrut (h : Reduces env sol L t t') (m : Term) (bs : List (Branch Term)) :
    Reduces env sol L (.case t m bs) (.case t' m bs) :=
  h.lift (Term.case · m bs) fun _ _ => Or.imp .scrut fun h => by
    simp [Term.same_iff, Term.anonymize, Term.same_iff.mp h]

theorem target (h : Reduces env sol L t t') (m z s : Term) :
    Reduces env sol L (.natRec m z s t) (.natRec m z s t') :=
  h.lift (Term.natRec m z s ·) fun _ _ => Or.imp .target fun h => by
    simp [Term.same_iff, Term.anonymize, Term.same_iff.mp h]

theorem point (h : Reduces env sol L t t') (l r p : Term) :
    Reduces env sol L (.at l r p t) (.at l r p t') :=
  h.lift (Term.at l r p ·) fun _ _ => Or.imp .point fun h => by
    simp [Term.same_iff, Term.anonymize, Term.same_iff.mp h]

theorem path (h : Reduces env sol L t t') (l r i : Term) :
    Reduces env sol L (.at l r t i) (.at l r t' i) :=
  h.lift (Term.at l r · i) fun _ _ => Or.imp .path fun h => by
    simp [Term.same_iff, Term.anonymize, Term.same_iff.mp h]

end Reduces

end LeveledTypes
