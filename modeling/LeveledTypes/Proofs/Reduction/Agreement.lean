import LeveledTypes.Proofs.Reduction.Head
import LeveledTypes.Proofs.Reduction.Round
import LeveledTypes.Proofs.Term.Names

/-!
# Reduction in different contexts

What a call of reduction does depends on what the context says about the variables and the holes
that the term can mention, and on nothing else; names of binders do not matter. In particular, a
closed term without holes is reduced in the same way in every context, if constructors have the
arguments that branches ask for.
-/
namespace LeveledTypes

/-- A signature that says which globals may be named, how many arguments constructors have, and
whether there are holes. -/
def Signature.naming (G : GlobalName → Prop) (A : GlobalName → ℕ) (holes : Prop) : Signature where
  global := G
  hole _ := holes
  first _ := True
  second _ := True
  arity := A
  paths := True
  record _ _ := True

/-- A signature that says nothing but how many arguments constructors have, and whether there are
holes. -/
abbrev Signature.ofArity (A : GlobalName → ℕ) (holes : Prop) : Signature :=
  naming (fun _ => True) A holes

@[simp] theorem Signature.admits_naming (G : GlobalName → Prop) (A : GlobalName → ℕ) (holes : Prop)
    (u : Universe) : (naming G A holes).Admits u :=
  ⟨fun _ _ => trivial, fun _ _ => trivial⟩

@[simp] theorem Signature.admits_ofArity (A : GlobalName → ℕ) (holes : Prop) (u : Universe) :
    (ofArity A holes).Admits u :=
  admits_naming _ A holes u

@[simp] theorem Signature.record_naming (G : GlobalName → Prop) (A : GlobalName → ℕ) (holes : Prop)
    (n : GlobalName) (k : ℕ) : (naming G A holes).record n k := trivial

theorem Term.Over.naming_mono {G G' : GlobalName → Prop} {A : GlobalName → ℕ} {holes : Prop}
    {n : ℕ∞} {t : Term} (ht : t.Over (.naming G A holes) n) (h : ∀ c, G c → G' c) :
    t.Over (.naming G' A holes) n := by
  refine ht.of_allowed fun t n ha => ?_
  cases t with
  | ref c u => exact ⟨h c ha.1, ha.2⟩
  | case a m bs =>
    intro b hb
    rw [ha b hb]
    cases b.head <;> rfl
  | _ => exact ha

theorem Term.Over.ofArity {G : GlobalName → Prop} {A : GlobalName → ℕ} {holes : Prop}
    {n : ℕ∞} {t : Term} (ht : t.Over (.naming G A holes) n) : t.Over (.ofArity A holes) n :=
      ht.naming_mono fun _ _ => trivial

/-- The definitions are closed and have no holes, and constructors take the numbers of arguments
that branches ask for. -/
def Environment.Closed (A : GlobalName → ℕ) (env : Environment) : Prop :=
  ∀ n d, env.get? n = some d →
    match d.body with
    | .func body _ | .inst _ body => body.Over (.ofArity A False) d.tele.length
    | .constructor _ _ params _ => d.tele.length - params = A n
    | _ => True

/-- The same of some definitions, none of which names any other. -/
def Environment.ClosedIn (G : GlobalName → Prop) (A : GlobalName → ℕ) (env : Environment) : Prop :=
  ∀ n d, G n → env.get? n = some d →
    match d.body with
    | .func body _ | .inst _ body => body.Over (.naming G A False) d.tele.length
    | .constructor _ _ params _ => d.tele.length - params = A n
    | _ => True

theorem Environment.Closed.closedIn {A : GlobalName → ℕ} {env : Environment} (henv : env.Closed A) :
    env.ClosedIn (fun _ => True) A := fun n d _ => henv n d

/-- Definitions that name none outside of a set stay over the names of the set when they are
unfolded. -/
theorem Environment.ClosedIn.standsOver {G : GlobalName → Prop} {A : GlobalName → ℕ}
    {env : Environment} (henv : env.ClosedIn G A) (holes : Prop) :
    env.StandsOver (.naming G A holes) := by
  intro n d u args t hn hd hlen ht
  have hclosed := henv n d hn hd
  unfold Definition.Over
  cases hb : d.body with
  | field k i =>
    rintro hnil
    rw [hnil, List.length_nil, List.length_eq_zero_iff] at hlen
    simp [Definition.contractum?, hb, hlen] at ht
  | primitive p => exact fun _ => trivial
  | _ =>
    simp only [hb] at hclosed
    exact hclosed

theorem Environment.ClosedIn.contractum? {G : GlobalName → Prop} {A : GlobalName → ℕ}
    {env : Environment} {holes : Prop} {n : ℕ∞} {c : GlobalName} {d : Definition} {u : Universe}
    {args : List Term} {t : Term} (henv : env.ClosedIn G A) (hc : G c) (hd : env.get? c = some d)
    (hargs : ∀ a ∈ args, a.Over (.naming G A holes) n) (hlen : args.length = d.tele.length)
    (ht : d.contractum? c u args = some t) : t.Over (.naming G A holes) n :=
  (henv.standsOver holes c d u args t hc hd hlen ht).contractum?
    (Signature.admits_naming G A holes u) hargs hlen ht

/-- The global is a function with the given body, and there is an argument for each of its
parameters. -/
def Environment.Saturates (env : Environment) (c : GlobalName) (body : Term) (args : List Term) :
    Prop :=
  ∃ d decreasing, env.get? c = some d ∧ d.body = .func body decreasing ∧ args.length = d.tele.length

theorem Environment.Saturates.body_eq {env : Environment} {c : GlobalName} {body body' : Term}
    {args args' : List Term} (h : env.Saturates c body args) (h' : env.Saturates c body' args') :
    body = body' := by
  obtain ⟨d, decreasing, hd, hb, -⟩ := h
  obtain ⟨d', decreasing', hd', hb', -⟩ := h'
  obtain rfl : d = d' := Option.some.inj (hd.symm.trans hd')
  exact (Body.func.inj (hb.symm.trans hb')).1

theorem Environment.Saturates.of_length {env : Environment} {c : GlobalName} {body : Term}
    {args args' : List Term} (h : env.Saturates c body args) (hlen : args'.length = args.length) :
    env.Saturates c body args' := by
  obtain ⟨d, decreasing, hd, hb, hargs⟩ := h
  exact ⟨d, decreasing, hd, hb, hlen.trans hargs⟩

namespace Reducer

/-- New variables have no values, and the values of the others are lifted over them. -/
theorem localValue?_add (r : Reducer) (depth k i : ℕ) :
    r.localValue? (depth + k) i = if i < k then none else (r.localValue? depth (i - k)).map
      (·.lift k) := by
  unfold localValue?
  by_cases hk : i < k
  · rw [if_pos hk, if_pos (by omega)]
  · by_cases hd : i - k < depth
    · rw [if_neg hk, if_pos hd, if_pos (by omega), Option.map_none]
    · have hindex : i - (depth + k) = i - k - depth := by omega
      have hlift : i - k + 1 + k = i + 1 := by omega
      rw [if_neg hk, if_neg hd, if_neg (by omega), hindex]
      split
      case h_1 v _ => rw [Option.map_some, Term.lift_lift, hlift]
      case h_2 => rfl

/-- The globals that may be named, the values of the variables below a bound, and up to names the
solutions of the holes that may occur are the same in both contexts, and they are over the
signature. -/
structure Agree (S : Signature) (n : ℕ∞) (r : Reducer) (depth : ℕ) (r' : Reducer) (depth' : ℕ) :
    Prop where
  env : ∀ n, S.global n → r'.env.get? n = r.env.get? n
  solutions : ∀ m, S.hole m → (r'.store.solution? m).map Term.anonymize =
    (r.store.solution? m).map Term.anonymize
  values : ∀ i : ℕ, i < n → r'.localValue? depth' i = r.localValue? depth i
  over_solutions : ∀ m t, S.hole m → r.store.solution? m = some t → t.Over S n
  over_values : ∀ (i : ℕ) v, i < n → r.localValue? depth i = some v → v.Over S n

namespace Agree
variable {S : Signature} {n : ℕ∞} {r r' : Reducer} {depth depth' : ℕ}

theorem sub_lt {i k : ℕ} (hi : (i : ℕ∞) < n + k) (hk : ¬i < k) : ((i - k : ℕ) : ℕ∞) < n := by
  obtain ⟨j, rfl⟩ := Nat.exists_eq_add_of_le' (not_lt.mp hk)
  rw [Nat.add_sub_cancel]
  rw [Nat.cast_add] at hi
  exact lt_of_add_lt_add_right hi

/-- Contexts that agree still agree under binders. -/
theorem under (h : Agree S n r depth r' depth') (k : ℕ) :
    Agree S (n + k) r (depth + k) r' (depth' + k) where
  env := h.env
  solutions := h.solutions
  values i hi := by
    rw [localValue?_add, localValue?_add]
    split
    case isTrue => rfl
    case isFalse hk => rw [h.values (i - k) (sub_lt hi hk)]
  over_solutions m t hm ht := (h.over_solutions m t hm ht).mono (le_add_right le_rfl)
  over_values i v hi hv := by
    rw [localValue?_add] at hv
    split at hv
    case isTrue => simp at hv
    case isFalse hk =>
      obtain ⟨w, hw, rfl⟩ := Option.map_eq_some_iff.mp hv
      exact (h.over_values (i - k) w (sub_lt hi hk) hw).lift k

/-- A context agrees with itself. -/
theorem refl (hsolutions : ∀ m t, S.hole m → r.store.solution? m = some t → t.Over S n)
    (hvalues : ∀ (i : ℕ) v, i < n → r.localValue? depth i = some v → v.Over S n) :
    Agree S n r depth r depth :=
  ⟨fun _ _ => rfl, fun _ _ => rfl, fun _ _ => rfl, hsolutions, hvalues⟩

/-- All contexts that define some globals alike agree about closed terms without holes that name
these globals only. -/
theorem ground_naming {G : GlobalName → Prop} {A : GlobalName → ℕ}
    (henv : ∀ n, G n → r'.env.get? n = r.env.get? n) (depth depth' : ℕ) :
    Agree (.naming G A False) 0 r depth r' depth' :=
  ⟨henv, fun _ h => h.elim, fun _ h => absurd h not_lt_zero, fun _ _ h => h.elim,
    fun _ _ h => absurd h not_lt_zero⟩

/-- All contexts agree about closed terms without holes. -/
theorem ground {A : GlobalName → ℕ} (henv : r'.env = r.env) (depth depth' : ℕ) :
    Agree (.ofArity A False) 0 r depth r' depth' :=
      .ground_naming (fun _ _ => by rw [henv]) depth depth'

end Agree

/-- Calls for terms that differ in names only, in contexts that agree. -/
inductive Call.Agrees (S : Signature) (r r' : Reducer) (n : ℕ∞) : Call → Call → Prop
  | whnf {depth depth' : ℕ} {t t' : Term} : Agree S n r depth r' depth' → t.Over S n →
    t.anonymize = t'.anonymize →
      Agrees S r r' n (.whnf depth t) (.whnf depth' t')
  | nf {depth depth' : ℕ} {t t' : Term} : Agree S n r depth r' depth' → t.Over S n →
    t.anonymize = t'.anonymize →
      Agrees S r r' n (.nf depth t) (.nf depth' t')

/-- Rounds that make the same calls, whatever comes back. -/
inductive Round.Agrees (S : Signature) (r r' : Reducer) (n : ℕ∞) : Round → Round → Prop
  | ret {t t' : Term} : t.Over S n → t.anonymize = t'.anonymize → Agrees S r r' n (.ret t) (.ret t')
  | step {k k' : Round} : Agrees S r r' n k k' → Agrees S r r' n (.step k) (.step k')
  | call {m : ℕ∞} {c c' : Call} {k k' : Term → Round} : Call.Agrees S r r' m c c' →
      (∀ v v', v.Over S m → v.anonymize = v'.anonymize → Agrees S r r' n (k v) (k' v')) →
      Agrees S r r' n (.call c k) (.call c' k')
  | unfold {m : ℕ∞} {depth depth' : ℕ} {c : GlobalName} {u : Universe} {body : Term}
    {args args' : List Term}
      {k k' : Option Term → Round} : Agree S m r depth r' depth' → S.global c →
      r.env.Saturates c body args → (∀ a ∈ args, a.Over S m) →
      args.map Term.anonymize = args'.map Term.anonymize →
      (∀ o o', (∀ t ∈ o, t.Over S m) → o.map Term.anonymize = o'.map Term.anonymize →
        Agrees S r r' n (k o) (k' o')) →
      Agrees S r r' n (.unfold depth c u body args k) (.unfold depth' c u body args' k')

section Round
variable {S : Signature} {G : GlobalName → Prop} {A : GlobalName → ℕ} {holes : Prop} {n : ℕ∞}
  {r r' : Reducer} {depth depth' : ℕ} {t t' : Term} {args args' : List Term}

theorem canonical_alike (p : Primitive) (h : args.map Term.anonymize = args'.map Term.anonymize) :
    (canonical p args).anonymize = (canonical p args').anonymize := by
  have harg (i : ℕ) : (args.getD i .zero).anonymize = (args'.getD i .zero).anonymize := by
    have hget : args[i]?.map Term.anonymize = args'[i]?.map Term.anonymize := by
      rw [← List.getElem?_map, ← List.getElem?_map, h]
    rw [List.getD_eq_getElem?_getD, List.getD_eq_getElem?_getD]
    cases ha : args[i]? <;> cases hb : args'[i]? <;> simp_all
  cases p <;> simp only [canonical, Term.anonymize, harg]

/-- What a definition stands for at arguments that differ in names only. -/
theorem contractum?_alike {d : Definition} {c : GlobalName} {u : Universe}
    (h : args.map Term.anonymize = args'.map Term.anonymize) :
    (d.contractum? c u args).map Term.anonymize = (d.contractum? c u args').map Term.anonymize := by
  unfold Definition.contractum?
  cases d.body with
  | field k i =>
    have hlast : args.getLast?.map Term.anonymize = args'.getLast?.map Term.anonymize := by
      rw [← List.getLast?_map, ← List.getLast?_map, h]
    cases ha : args.getLast? <;> cases hb : args'.getLast? <;> simp_all [Term.anonymize]
  | func body _ => exact congrArg some (Term.substAll_alike rfl h)
  | inst k body => exact congrArg some (Term.substAll_alike rfl h)
  | constructor data i params _ => simp [Term.anonymize, List.map_take, List.map_drop, h]
  | primitive p => exact congrArg some (canonical_alike p h)
  | _ => simp [Term.anonymize, h]

theorem isStuck_alike (h : t.anonymize = t'.anonymize) : isStuck t = isStuck t' := by
  have hnil : ([] : List Term).map Term.anonymize = [].map Term.anonymize := rfl
  have hhead := (Term.spineWith_alike h hnil).1
  unfold isStuck Term.head Term.spine
  generalize (t.spineWith []).1 = a at hhead ⊢
  generalize (t'.spineWith []).1 = b at hhead ⊢
  cases Term.alike hhead <;> rfl

theorem constructor?_alike (h : t.anonymize = t'.anonymize) :
    (constructor? t).map (fun c => (c.1, c.2.map Term.anonymize)) =
      (constructor? t').map fun c => (c.1, c.2.map Term.anonymize) := by
  cases Term.alike h <;> simp_all [constructor?]

/-- Branches that differ in names are found under the same heads. -/
theorem find?_alike {bs ds : List (Branch Term)}
    (h : bs.map Term.anonymizeBranch = ds.map Term.anonymizeBranch) (head : BranchHead) :
    (bs.find? fun b => b.head == head).map Term.anonymizeBranch =
      (ds.find? fun b => b.head == head).map Term.anonymizeBranch := by
  have hmap (bs : List (Branch Term)) :
      (bs.find? fun b => b.head == head).map Term.anonymizeBranch =
      (bs.map Term.anonymizeBranch).find? fun b => b.head == head := by
    rw [List.find?_map]
    rfl
  rw [hmap, hmap, h]

namespace Round

theorem agrees_whnf (hctx : Agree S n r depth r' depth') (ht : t.Over S n)
    (h : t.anonymize = t'.anonymize) : Agrees S r r' n (.whnf depth t) (.whnf depth' t') :=
  .call (.whnf hctx ht h) fun _ _ hv h => .ret hv h

variable (henv : r.env.ClosedIn G A) (hctx : Agree (.naming G A holes) n r depth r' depth')

include henv hctx

/-- Unfolding looks the global up, which agrees since the name is one of those that the environments
share, and then reduces the body at the arguments. One case for each kind of body. -/
theorem agrees_delta {c : GlobalName} {u : Universe} (hc : G c)
    (hargs : ∀ a ∈ args, a.Over (.naming G A holes) n)
    (h : args.map Term.anonymize = args'.map Term.anonymize) :
    Agrees (.naming G A holes) r r' n (delta r depth c u args) (delta r' depth' c u args') := by
  have hlen : args.length = args'.length := by simpa using congrArg List.length h
  have hfolded {as bs : List Term} (has : ∀ a ∈ as, a.Over (.naming G A holes) n)
      (h : as.map Term.anonymize = bs.map Term.anonymize) :
      Agrees (.naming G A holes) r r' n (.ret ((Term.ref c u).apps as))
        (.ret ((Term.ref c u).apps bs)) :=
    .ret (Term.over_apps.mpr ⟨⟨hc, Signature.admits_naming G A holes u⟩, has⟩)
      (Term.apps_alike rfl h)
  unfold delta
  rw [hctx.env c hc]
  cases hd : r.env.get? c with
  | none => exact hfolded hargs h
  | some d =>
    simp only
    rw [← hlen]
    split
    case isTrue => exact hfolded hargs h
    case isFalse hle =>
      have htake : (args.take d.tele.length).map Term.anonymize =
          (args'.take d.tele.length).map Term.anonymize := by
        rw [List.map_take, List.map_take, h]
      have hdrop : (args.drop d.tele.length).map Term.anonymize =
          (args'.drop d.tele.length).map Term.anonymize := by
        rw [List.map_drop, List.map_drop, h]
      have hparams : (args.take d.tele.length).length = d.tele.length :=
        List.length_take_of_le (not_lt.mp hle)
      have hoverTake : ∀ a ∈ args.take d.tele.length, a.Over (.naming G A holes) n := fun a ha =>
        hargs a (List.mem_of_mem_take ha)
      have hoverDrop : ∀ a ∈ args.drop d.tele.length, a.Over (.naming G A holes) n := fun a ha =>
        hargs a (List.mem_of_mem_drop ha)
      generalize args.take d.tele.length = params at *
      generalize args'.take d.tele.length = params' at *
      generalize args.drop d.tele.length = rest at *
      generalize args'.drop d.tele.length = rest' at *
      -- Most definitions go on with what they stand for.
      have hunfold {t t' : Term} (ht : d.contractum? c u params = some t)
          (ht' : d.contractum? c u params' = some t') :
          Agrees (.naming G A holes) r r' n (.whnf depth (t.apps rest))
            (.whnf depth' (t'.apps rest')) := by
        have halike : t.anonymize = t'.anonymize := by
          simpa [ht, ht'] using contractum?_alike (d := d) (c := c) (u := u) htake
        have hover := henv.contractum? hc hd hoverTake hparams ht
        exact agrees_whnf hctx (Term.over_apps.mpr ⟨hover, hoverDrop⟩)
          (Term.apps_alike halike hdrop)
      have hblocked : Agrees (.naming G A holes) r r' n
          (.ret (((Term.ref c u).apps params).apps rest))
          (.ret (((Term.ref c u).apps params').apps rest')) := by
        rw [← Term.apps_append, ← Term.apps_append]
        refine hfolded (List.forall_mem_append.mpr ⟨hoverTake, hoverDrop⟩) ?_
        rw [List.map_append, List.map_append, htake, hdrop]
      cases hb : d.body with
      | func body decreasing =>
        refine .unfold hctx hc ⟨d, decreasing, hd, hb, hparams⟩ hoverTake htake fun o o' ho h => ?_
        cases o with
        | none =>
          obtain rfl : o' = none := by simpa using h.symm
          exact hblocked
        | some t =>
          obtain ⟨t', rfl, ht'⟩ := Option.map_eq_some_iff.mp h.symm
          exact agrees_whnf hctx (Term.over_apps.mpr ⟨ho t rfl, hoverDrop⟩)
            (Term.apps_alike ht'.symm hdrop)
      | inst k body =>
        exact .step (hunfold (by simp [Definition.contractum?, hb])
          (by simp [Definition.contractum?, hb]))
      | field k i =>
        have hlast : params.getLast?.map Term.anonymize = params'.getLast?.map Term.anonymize := by
          rw [← List.getLast?_map, ← List.getLast?_map, htake]
        cases ha : params.getLast? with
        | none =>
          have ha' : params'.getLast? = none := by simpa [ha] using hlast.symm
          simp only [ha']
          exact hfolded hoverTake htake
        | some a =>
          obtain ⟨a', ha', -⟩ := Option.map_eq_some_iff.mp
            (hlast.symm.trans (congrArg (Option.map _) ha))
          simp only [ha']
          exact hunfold (by simp [Definition.contractum?, hb, ha])
            (by simp [Definition.contractum?, hb, ha'])
      | pending => exact hblocked
      | _ =>
        exact hunfold (by simp [Definition.contractum?, hb]) (by simp [Definition.contractum?, hb])

/-- The root decides what a spine does, and names of binders do not change the root. -/
theorem agrees_spine {g g' : Term} (hg : g.Over (.naming G A holes) n)
    (h : g.anonymize = g'.anonymize) (hargs : ∀ a ∈ args, a.Over (.naming G A holes) n)
    (has : args.map Term.anonymize = args'.map Term.anonymize) :
    Agrees (.naming G A holes) r r' n (spine r depth g args) (spine r' depth' g' args') := by
  have hfolded : Agrees (.naming G A holes) r r' n (.ret (g.apps args)) (.ret (g'.apps args')) :=
    .ret (Term.over_apps.mpr ⟨hg, hargs⟩) (Term.apps_alike h has)
  cases Term.alike h with
  | hole m =>
    simp only [spine]
    have hsolution := hctx.solutions m hg
    cases hm : r.store.solution? m with
    | none =>
      have hm' : r'.store.solution? m = none := by simpa [hm] using hsolution
      simpa only [hm'] using hfolded
    | some t =>
      obtain ⟨t', hm', ht⟩ := Option.map_eq_some_iff.mp
        (hsolution.trans (congrArg (Option.map _) hm))
      simp only [hm']
      exact agrees_whnf hctx (Term.over_apps.mpr ⟨hctx.over_solutions m t hg hm, hargs⟩)
        (Term.apps_alike ht.symm has)
  | ref c u => exact agrees_delta henv hctx hg.1 hargs has
  | @lam x y a b a' b' _ _ hb =>
    cases args with
    | nil =>
      obtain rfl : args' = [] := by simpa using has.symm
      exact hfolded
    | cons s args =>
      cases args' with
      | nil => simp at has
      | cons s' args' =>
        obtain ⟨hs, has⟩ := List.cons.inj has
        obtain ⟨hover, hargs⟩ := List.forall_mem_cons.mp hargs
        exact .step (agrees_whnf hctx (Term.over_apps.mpr ⟨hg.2.subst hover, hargs⟩)
          (Term.apps_alike (Term.subst_alike hb hs) has))
  | _ => exact hfolded

omit henv in
/-- A path at a point that is no end: the function that it is made of is applied to the point, or
the path is put together again. -/
theorem agrees_along {l x p i l' x' p' i' : Term}
    (ht : (Term.at l x p i).Over (.naming G A holes) n) (hl : l.anonymize = l'.anonymize)
    (hx : x.anonymize = x'.anonymize) (hp : p.anonymize = p'.anonymize)
    (hi : i.anonymize = i'.anonymize) :
    Agrees (.naming G A holes) r r' n (along depth l x p i) (along depth' l' x' p' i') := by
  obtain ⟨-, hleft, hright, hpath, hpoint⟩ := ht
  refine .call (.whnf hctx hpath hp) fun q q' hq hqq => ?_
  have hstuck : Agrees (.naming G A holes) r r' n (.ret (.at l x q i)) (.ret (.at l' x' q' i')) :=
    .ret ⟨trivial, hleft, hright, hq, hpoint⟩ (by simp only [Term.anonymize, hl, hx, hqq, hi])
  cases Term.alike hqq with
  | pathLam hf =>
    exact .step (agrees_whnf hctx ⟨hq.2, hpoint⟩ (by simp only [Term.anonymize, hf, hi]))
  | _ => exact hstuck

/-- One case for each form of terms. Variables and holes are where the contexts come in. -/
theorem agrees_head (ht : t.Over (.naming G A holes) n) (h : t.anonymize = t'.anonymize) :
    Agrees (.naming G A holes) r r' n (head r depth t) (head r' depth' t') := by
  cases Term.alike h with
  | var i =>
    simp only [head]
    rw [hctx.values i ht]
    cases hi : r.localValue? depth i with
    | none => exact .ret ht h
    | some v => exact agrees_whnf hctx (hctx.over_values i v ht hi) rfl
  | hole m =>
    simp only [head]
    have hsolution := hctx.solutions m ht
    cases hm : r.store.solution? m with
    | none =>
      have hm' : r'.store.solution? m = none := by simpa [hm] using hsolution
      simpa only [hm'] using .ret ht h
    | some s =>
      obtain ⟨s', hm', hs⟩ := Option.map_eq_some_iff.mp
        (hsolution.trans (congrArg (Option.map _) hm))
      simp only [hm']
      exact agrees_whnf hctx (hctx.over_solutions m s ht hm) hs.symm
  | ref c u => exact agrees_delta henv hctx ht.1 (by simp) rfl
  | @app f g a b hf ha =>
    have hnil : ([] : List Term).map Term.anonymize = [].map Term.anonymize := rfl
    obtain ⟨hhead, hargs⟩ := Term.spineWith_alike h hnil
    rw [← Term.apps_spine (.app f a), Term.over_apps] at ht
    exact .call (.whnf hctx ht.1 hhead) fun v v' hv h => agrees_spine henv hctx hv h ht.2 hargs
  | letIn _ _ ha hb => exact .step (agrees_whnf hctx (ht.2.2.subst ht.2.1) (Term.subst_alike hb ha))
  | proj side ha =>
    refine .call (.whnf hctx ht ha) fun v v' hv h => ?_
    cases Term.alike h with
    | pair hx hy =>
      cases side with
      | fst => exact .step (agrees_whnf hctx hv.1 hx)
      | snd => exact .step (agrees_whnf hctx hv.2 hy)
    | _ => exact .ret hv (congrArg (Term.proj · side) h)
  | field c i ha =>
    refine .call (.whnf hctx ht ha) fun v v' hv h => ?_
    have hstuck : Agrees (.naming G A holes) r r' n (.ret (.field v c i)) (.ret (.field v' c i)) :=
      .ret hv (congrArg (Term.field · c i) h)
    cases Term.alike h with
    | @new _ _ _ _ fs gs _ hfs =>
      have hget : fs[i]?.map Term.anonymize = gs[i]?.map Term.anonymize := by
        rw [← List.getElem?_map, ← List.getElem?_map, hfs]
      cases hf : fs[i]? with
      | none =>
        have hg : gs[i]? = none := by simpa [hf] using hget.symm
        simpa only [hf, hg] using hstuck
      | some f =>
        obtain ⟨g, hg, hfg⟩ := Option.map_eq_some_iff.mp
          (hget.symm.trans (congrArg (Option.map _) hf))
        simp only [hf, hg]
        exact .step (agrees_whnf hctx
          (Term.overAll_iff.mp hv.2.2.2 f (List.mem_of_getElem? hf)) hfg.symm)
    | _ => exact hstuck
  | @case a b m k bs ds ha hm hbs =>
    obtain ⟨harity, hover, hmotive, hbranches⟩ := ht
    refine .call (.whnf hctx hover ha) fun v v' hv h => ?_
    have hstuck : Agrees (.naming G A holes) r r' n (.ret (.case v m bs)) (.ret (.case v' k ds)) :=
      .ret ⟨harity, hv, hmotive, hbranches⟩ (by simp [Term.anonymize, h, hm, hbs])
    have hcon := constructor?_alike h
    cases hc : constructor? v with
    | none =>
      have hc' : constructor? v' = none := by simpa [hc] using hcon.symm
      simpa only [hc'] using hstuck
    | some x =>
      obtain ⟨head, xs⟩ := x
      obtain ⟨⟨head', ys⟩, hc', hxs⟩ :=
        Option.map_eq_some_iff.mp (hcon.symm.trans (congrArg (Option.map _) hc))
      obtain ⟨rfl, hxs⟩ := Prod.mk.inj hxs
      simp only [hc']
      cases hb : bs.find? fun b => b.head == head' with
      | none =>
        have hb' : (ds.find? fun b => b.head == head') = none := by
          simpa [hb] using (find?_alike hbs head').symm
        simpa only [hb'] using hstuck
      | some b =>
        obtain ⟨b', hb', halike⟩ :=
          Option.map_eq_some_iff.mp
            ((find?_alike hbs head').symm.trans (congrArg (Option.map _) hb))
        simp only [hb']
        have hmem := List.mem_of_find?_eq_some hb
        have hhead := List.find?_some hb
        obtain ⟨hlen, hargs⟩ := over_constructor? hv hc
        have hbody : b.body.Over (.naming G A holes) (n + xs.length) := by
          rw [hlen, ← eq_of_beq hhead, ← harity b hmem]
          exact Term.overBranches_iff.mp hbranches b hmem
        have hbodies : b.body.anonymize = b'.body.anonymize := congrArg Branch.body halike.symm
        exact .step (agrees_whnf hctx (hbody.substAll hargs) (Term.substAll_alike hbodies hxs.symm))
  | @natRec m z s t m' z' s' t' hm hz hs ht' =>
    obtain ⟨hover, hzero, hsucc, htarget⟩ := ht
    refine .call (.whnf hctx htarget ht') fun v v' hv h => ?_
    have hrec {v v' : Term} (hv : v.Over (.naming G A holes) n) (h : v.anonymize = v'.anonymize) :
        (Term.natRec m z s v).Over (.naming G A holes) n ∧
          (Term.natRec m z s v).anonymize = (Term.natRec m' z' s' v').anonymize :=
      ⟨⟨hover, hzero, hsucc, hv⟩, by simp only [Term.anonymize, hm, hz, hs, h]⟩
    have hstuck : Agrees (.naming G A holes) r r' n (.ret (.natRec m z s v))
        (.ret (.natRec m' z' s' v')) :=
      .ret (hrec hv h).1 (hrec hv h).2
    cases Term.alike h with
    | zero => exact .step (agrees_whnf hctx hzero hz)
    | @succ v v' hpred =>
      rw [Term.Over] at hv
      obtain ⟨hnext, halike⟩ := hrec hv hpred
      refine .step (agrees_whnf hctx (Term.over_apps.mpr ⟨hsucc, ?_⟩) (Term.apps_alike hs ?_))
      · exact List.forall_mem_cons.mpr ⟨hv, List.forall_mem_singleton.mpr hnext⟩
      · simp only [List.map_cons, List.map_nil, hpred, halike]
    | _ => exact hstuck
  | @«at» l x p i l' x' p' i' hl hx hp hi =>
    obtain ⟨-, hleft, hright, hpath, hpoint⟩ := ht
    refine .call (.whnf hctx hpoint hi) fun v v' hv h => ?_
    cases Term.alike h with
    | left => exact agrees_whnf hctx hleft hl
    | right => exact agrees_whnf hctx hright hx
    | _ => exact agrees_along hctx ⟨trivial, hleft, hright, hpath, hv⟩ hl hx hp h
  | _ => exact .ret ht h

omit henv

section Parts
variable {next next' : Term → Round}

theorem agrees_nf (ht : t.Over (.naming G A holes) n) (h : t.anonymize = t'.anonymize)
    (hnext : ∀ v v', v.Over (.naming G A holes) n → v.anonymize = v'.anonymize →
      Agrees (.naming G A holes) r r' n (next v) (next' v')) :
    Agrees (.naming G A holes) r r' n (.call (.nf depth t) next) (.call (.nf depth' t') next') :=
  .call (.nf hctx ht h) hnext

theorem agrees_nf_under {k : ℕ} (ht : t.Over (.naming G A holes) (n + k))
    (h : t.anonymize = t'.anonymize) (hnext : ∀ v v', v.Over (.naming G A holes) (n + k) →
      v.anonymize = v'.anonymize → Agrees (.naming G A holes) r r' n (next v) (next' v')) :
    Agrees (.naming G A holes) r r' n (.call (.nf (depth + k) t) next)
      (.call (.nf (depth' + k) t') next') :=
  .call (.nf (hctx.under k) ht h) hnext

/-- The function part of an application is normalized with its arguments in turn, and a global at
the root stays. -/
theorem agrees_spineHead (ht : t.Over (.naming G A holes) n) (h : t.anonymize = t'.anonymize)
    (hnext : ∀ v v', v.Over (.naming G A holes) n → v.anonymize = v'.anonymize →
      Agrees (.naming G A holes) r r' n (next v) (next' v')) :
    Agrees (.naming G A holes) r r' n (spineHead depth t next) (spineHead depth' t' next') := by
  fun_induction spineHead depth t next generalizing t' next' with
  | case1 next f a ih =>
    cases Term.alike h with
    | app hf ha =>
      rw [spineHead]
      refine ih ht.1 hf fun v v' hv hvv => agrees_nf hctx ht.2 ha fun w w' hw hww => ?_
      exact hnext _ _ ⟨hv, hw⟩ (congrArg₂ Term.app hvv hww)
  | case2 next n u => cases Term.alike h with | ref => exact hnext _ _ ht h
  | case3 next t happ href =>
    rw [spineHead.eq_3]
    · exact agrees_nf hctx ht h hnext
    · rintro f a rfl
      cases Term.alike h with | app => exact happ _ _ rfl
    · rintro n u rfl
      cases Term.alike h with | ref => exact href _ _ rfl

/-- The terms are normalized in order, and what follows gets the values of all. -/
theorem agrees_all {ts ts' : List Term} {next next' : List Term → Round}
    (hts : ∀ t ∈ ts, t.Over (.naming G A holes) n)
    (h : ts.map Term.anonymize = ts'.map Term.anonymize) (hnext : ∀ vs vs', vs.length = ts.length →
      (∀ v ∈ vs, v.Over (.naming G A holes) n) →
      vs.map Term.anonymize = vs'.map Term.anonymize →
      Agrees (.naming G A holes) r r' n (next vs) (next' vs')) :
    Agrees (.naming G A holes) r r' n (all depth next ts) (all depth' next' ts') := by
  induction ts generalizing ts' next next' with
  | nil =>
    obtain rfl : ts' = [] := by simpa using h.symm
    exact hnext [] [] rfl (by simp) rfl
  | cons t ts ih =>
    cases ts' with
    | nil => simp at h
    | cons t' ts' =>
      obtain ⟨ht, htail⟩ := List.forall_mem_cons.mp hts
      obtain ⟨hhead, h⟩ := List.cons.inj h
      refine agrees_nf hctx ht hhead fun v v' hv hvv => ih htail h fun vs vs' hlen hvs hvvs => ?_
      exact hnext _ _ (congrArg (· + 1) hlen) (List.forall_mem_cons.mpr ⟨hv, hvs⟩)
        (congrArg₂ List.cons hvv hvvs)

/-- The branches are normalized in order, each under as many binders as its constructor has
arguments. -/
theorem agrees_branches {bs bs' : List (Branch Term)} {next next' : List (Branch Term) → Round}
    (harity : ∀ b ∈ bs, b.arity = (Signature.naming G A holes).headArity b.head)
    (hbs : ∀ b ∈ bs, b.body.Over (.naming G A holes) (n + b.arity))
    (h : bs.map Term.anonymizeBranch = bs'.map Term.anonymizeBranch)
    (hnext : ∀ ds ds', (∀ d ∈ ds, d.arity = (Signature.naming G A holes).headArity d.head) →
      (∀ d ∈ ds, d.body.Over (.naming G A holes) (n + d.arity)) →
      ds.map Term.anonymizeBranch = ds'.map Term.anonymizeBranch →
      Agrees (.naming G A holes) r r' n (next ds) (next' ds')) :
    Agrees (.naming G A holes) r r' n (branches depth next bs) (branches depth' next' bs') := by
  induction bs generalizing bs' next next' with
  | nil =>
    obtain rfl : bs' = [] := by simpa using h.symm
    exact hnext [] [] (by simp) (by simp) rfl
  | cons b bs ih =>
    cases bs' with
    | nil => simp at h
    | cons b' bs' =>
      obtain ⟨hb, htail⟩ := List.forall_mem_cons.mp hbs
      obtain ⟨hab, harity⟩ := List.forall_mem_cons.mp harity
      obtain ⟨hhead, h⟩ := List.cons.inj h
      simp only [Term.anonymizeBranch, Branch.mk.injEq] at hhead
      obtain ⟨hheads, hnames, hbody⟩ := hhead
      have hlen : b'.arity = b.arity := by
        simpa [Branch.arity] using (congrArg List.length hnames).symm
      simp only [branches]
      rw [hlen]
      refine agrees_nf_under hctx hb hbody fun v v' hv hvv =>
        ih harity htail h fun ds ds' hads hds hdds => ?_
      refine hnext _ _ (List.forall_mem_cons.mpr ⟨hab, hads⟩)
        (List.forall_mem_cons.mpr ⟨hv, hds⟩) ?_
      exact congrArg₂ List.cons (by simp [Term.anonymizeBranch, hheads, hnames, hvv]) hdds

/-- Rounds that normalize the domain and the body of a binder. -/
theorem agrees_binder {a a' b b' : Term} {f f' : Term → Term → Term}
    (ha : a.Over (.naming G A holes) n) (hb : b.Over (.naming G A holes) (n + 1))
    (haa : a.anonymize = a'.anonymize) (hbb : b.anonymize = b'.anonymize)
    (hf : ∀ v v' w w', v.Over (.naming G A holes) n → w.Over (.naming G A holes) (n + 1) →
      v.anonymize = v'.anonymize → w.anonymize = w'.anonymize →
      (f v w).Over (.naming G A holes) n ∧ (f v w).anonymize = (f' v' w').anonymize) :
    Agrees (.naming G A holes) r r' n
      (.call (.nf (depth + 0) a) fun a => .call (.nf (depth + 1) b) fun b => .ret (f a b))
      (.call (.nf (depth' + 0) a') fun a => .call (.nf (depth' + 1) b') fun b =>
        .ret (f' a b)) := by
  refine agrees_nf hctx ha haa fun v v' hv hvv => agrees_nf_under hctx
    (by simpa using hb) hbb fun w w' hw hww => ?_
  obtain ⟨hover, halike⟩ := hf v v' w w' hv (by simpa using hw) hvv hww
  exact .ret hover halike

/-- The parts of a term in weak head normal form are normalized, those under a binder in the longer
context. One case for each form of terms. -/
theorem agrees_parts (ht : t.Over (.naming G A holes) n) (h : t.anonymize = t'.anonymize) :
    Agrees (.naming G A holes) r r' n (parts depth t) (parts depth' t') := by
  cases Term.alike h with
  | lam hx ha hb | pi hx ha hb | sigma hx ha hb =>
    refine agrees_binder hctx ht.1 ht.2 ha hb fun v v' w w' hv hw hvv hww => ⟨⟨hv, hw⟩, ?_⟩
    simp only [Term.anonymize, Binder.anonymize_eq_iff.mpr hx, hvv, hww]
  | app hf ha =>
    refine agrees_spineHead hctx ht.1 hf fun v v' hv hvv =>
      agrees_nf hctx ht.2 ha fun w w' hw hww => ?_
    exact .ret ⟨hv, hw⟩ (congrArg₂ Term.app hvv hww)
  | pair ha hb =>
    refine agrees_nf hctx ht.1 ha fun v v' hv hvv => agrees_nf hctx ht.2 hb fun w w' hw hww => ?_
    exact .ret ⟨hv, hw⟩ (congrArg₂ Term.pair hvv hww)
  | proj s ha =>
    exact agrees_nf hctx ht ha fun v v' hv hvv => .ret hv (congrArg (Term.proj · s) hvv)
  | field c i ha =>
    exact agrees_nf hctx ht ha fun v v' hv hvv => .ret hv (congrArg (Term.field · c i) hvv)
  | succ ha => exact agrees_nf hctx ht ha fun v v' hv hvv => .ret hv (congrArg Term.succ hvv)
  | data c u hps | record c u hps =>
    refine agrees_all hctx (Term.overAll_iff.mp ht.2) hps fun vs vs' _ hvs hvvs => ?_
    exact .ret ⟨ht.1, Term.overAll_iff.mpr hvs⟩ (by simp [Term.anonymize, hvvs])
  | con c u hps hxs =>
    obtain ⟨harity, hu, hparams, hargs⟩ := ht
    refine agrees_all hctx (Term.overAll_iff.mp hparams) hps fun vs vs' _ hvs hvvs =>
      agrees_all hctx (Term.overAll_iff.mp hargs) hxs fun ws ws' hlen hws hwws => ?_
    exact .ret ⟨hlen.trans harity, hu, Term.overAll_iff.mpr hvs, Term.overAll_iff.mpr hws⟩
      (by simp [Term.anonymize, hvvs, hwws])
  | new c u hps hfs =>
    obtain ⟨-, hu, hparams, hfields⟩ := ht
    refine agrees_all hctx (Term.overAll_iff.mp hparams) hps fun vs vs' _ hvs hvvs =>
      agrees_all hctx (Term.overAll_iff.mp hfields) hfs fun ws ws' _ hws hwws => ?_
    exact .ret ⟨trivial, hu, Term.overAll_iff.mpr hvs, Term.overAll_iff.mpr hws⟩
      (by simp [Term.anonymize, hvvs, hwws])
  | case ha hm hbs =>
    obtain ⟨harity, hover, hmotive, hbranches⟩ := ht
    refine agrees_nf hctx hover ha fun v v' hv hvv => agrees_nf_under hctx
      (by simpa using hmotive) hm
      fun w w' hw hww => agrees_branches hctx harity (Term.overBranches_iff.mp hbranches) hbs
      fun ds ds' hads hds hdds => ?_
    exact .ret ⟨hads, hv, by simpa using hw, Term.overBranches_iff.mpr hds⟩
      (by simp [Term.anonymize, hvv, hww, hdds])
  | natRec hm hz hs hn =>
    obtain ⟨hover, hzero, hsucc, htarget⟩ := ht
    refine agrees_nf hctx hover hm fun m m' hm hmm => agrees_nf hctx hzero hz fun z z' hz hzz =>
      agrees_nf hctx hsucc hs fun s s' hs hss => agrees_nf hctx htarget hn fun v v' hv hvv => ?_
    exact .ret ⟨hm, hz, hs, hv⟩ (by simp only [Term.anonymize, hmm, hzz, hss, hvv])
  | path ha hx hy =>
    refine agrees_nf hctx ht.1 ha fun a a' ha haa => agrees_nf hctx ht.2.1 hx fun x x' hx hxx =>
      agrees_nf hctx ht.2.2 hy fun y y' hy hyy => ?_
    exact .ret ⟨ha, hx, hy⟩ (by simp only [Term.anonymize, haa, hxx, hyy])
  | pathLam hf =>
    exact agrees_nf hctx ht.2 hf fun v v' hv hvv => .ret ⟨trivial, hv⟩ (congrArg Term.pathLam hvv)
  | «at» hl hx hp hi =>
    obtain ⟨-, hleft, hright, hpath, hpoint⟩ := ht
    refine agrees_nf hctx hleft hl fun l l' hl hll => agrees_nf hctx hright hx fun x x' hx hxx =>
      agrees_nf hctx hpath hp fun p p' hp hpp => agrees_nf hctx hpoint hi fun i i' hi hii => ?_
    exact .ret ⟨trivial, hl, hx, hp, hi⟩ (by simp only [Term.anonymize, hll, hxx, hpp, hii])
  | _ => exact .ret ht h

end Parts

end Round

/-- Calls that agree have rounds that agree. -/
theorem Call.Agrees.round (henv : r.env.ClosedIn G A) {c c' : Call}
    (h : Call.Agrees (.naming G A holes) r r' n c c') :
    Round.Agrees (.naming G A holes) r r' n (r.round c) (r'.round c') := by
  cases h with
  | whnf hctx ht h => exact Round.agrees_head henv hctx ht h
  | nf hctx ht h => exact .call (.whnf hctx ht h) fun v v' hv hvv => Round.agrees_parts hctx hv hvv

end Round

end Reducer

end LeveledTypes
