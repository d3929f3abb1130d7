import LeveledTypes.Proofs.Elaboration.State
import LeveledTypes.Proofs.Matching.Pattern
import LeveledTypes.Proofs.Matching.Value

/-!
# The constructors of a type

The constructors that a type is split into are those that build its values. An instance of the type
has a value for each of them whose arguments have the types of its telescope.
-/
namespace LeveledTypes

namespace Term

/-- Replaces the free variables of a telescope. -/
def instTele (σ : ℕ → Term) : Telescope Term → Telescope Term
  | [] => []
  | p :: tele => { p with type := p.type.inst σ } :: instTele (up 1 σ) tele

theorem inst_pis (σ : ℕ → Term) (tele : Telescope Term) (t : Term) :
    (pis tele t).inst σ = pis (instTele σ tele) (t.inst (up tele.length σ)) := by
  induction tele generalizing σ with
  | nil => simp [pis, instTele]
  | cons p tele ih =>
    have h := ih (up 1 σ)
    rw [up_up, Nat.add_comm] at h
    exact congrArg (Term.pi p.toBinder (p.type.inst σ)) h

theorem getElem?_instTele (σ : ℕ → Term) (tele : Telescope Term) (a : ℕ) :
    (instTele σ tele)[a]? = tele[a]?.map fun p => { p with type := p.type.inst (up a σ) } := by
  induction tele generalizing σ a with
  | nil => rfl
  | cons p tele ih =>
    cases a with
    | zero => simp [instTele]
    | succ a => simp [instTele, ih, up_up, Nat.add_comm 1 a]

theorem length_instTele (σ : ℕ → Term) (tele : Telescope Term) :
    (instTele σ tele).length = tele.length := by
  induction tele generalizing σ with
  | nil => rfl
  | cons p tele ih => simp [instTele, ih]

theorem domains_pis (tele : Telescope Term) (t : Term) :
    (pis tele t).domains tele.length = tele := by
  induction tele with
  | nil => cases t <;> rfl
  | cons p tele ih => exact congrArg _ ih

theorem substLevels_pis (u : Universe) (tele : Telescope Term) (t : Term) :
    (pis tele t).substLevels u = pis (tele.map (·.map (·.substLevels u))) (t.substLevels u) := by
  unfold substLevels
  split
  · simp [Param.map]
  · have hbinder (t : Term) (c : ℕ) :
        t.replace (fun _ i => .var i) (·.subst u) c = t.mapUniverses (·.subst u) :=
      t.replace_add c 0
    induction tele with
    | nil => rfl
    | cons p tele ih =>
      refine congrArg (Term.pi p.toBinder (p.type.mapUniverses (·.subst u))) ?_
      exact (hbinder _ 1).trans ih

/-- A type of functions is over a signature if each type of its telescope is, in the context of
those before it, and the result is. -/
theorem over_pis_iff {S : Signature} {n : ℕ∞} {tele : Telescope Term} {t : Term} :
    (pis tele t).Over S n ↔ (∀ (a : ℕ) p, tele[a]? = some p → p.type.Over S (n + a)) ∧
    t.Over S (n + tele.length) := by
  induction tele generalizing n with
  | nil => simp [pis]
  | cons p tele ih =>
    change p.type.Over S n ∧ (pis tele t).Over S (n + 1) ↔ _
    have hadd (a : ℕ) : n + 1 + (a : ℕ∞) = n + ↑(a + 1) := by
      rw [Nat.cast_succ, add_right_comm, add_assoc]
    rw [ih, hadd]
    constructor
    · rintro ⟨hp, htele, ht⟩
      refine ⟨fun a q hq => ?_, ht⟩
      cases a with
      | zero => simpa using (Option.some.inj hq) ▸ hp
      | succ a => exact hadd a ▸ htele a q hq
    · rintro ⟨htele, ht⟩
      exact ⟨by simpa using htele 0 p rfl, fun a q hq => (hadd a).symm ▸ htele (a + 1) q hq, ht⟩

end Term

/-- A constructor with values for its leading parameters, as the head of a branch. -/
def Definition.head (k : Definition) (params : ℕ) (u : Universe) (values : List Term) : Head :=
  let fields := k.tele.drop params
  ⟨.con k.name, k.name, (((Term.pis fields .nat).substLevels u).substAll values).domains
    fields.length, some (u, values)⟩

namespace Definition
variable {k : Definition} {params : ℕ} {u : Universe} {values : List Term}

/-- The arguments of a constructor are the rest of its telescope, with levels and parameters put in.
-/
theorem args_head : (k.head params u values).args =
    Term.instTele (Term.pushAll values .var)
      ((k.tele.drop params).map (·.map (·.substLevels u))) := by
  rw [head, Term.substLevels_pis, Term.substAll_eq_inst, Term.inst_pis]
  have hlen : (k.tele.drop params).length =
      (Term.instTele (Term.pushAll values .var)
        ((k.tele.drop params).map (·.map (·.substLevels u)))).length := by
    rw [Term.length_instTele, List.length_map]
  dsimp only
  rw [hlen, Term.domains_pis]

theorem length_args_head : (k.head params u values).args.length = k.tele.length - params := by
  rw [args_head, Term.length_instTele]
  simp

/-- The type of an argument, under the arguments before it. -/
theorem getElem?_args_head (a : ℕ) :
    (k.head params u values).args[a]? = k.tele[params + a]?.map fun p =>
    { p with type := (p.type.substLevels u).inst (Term.up a (Term.pushAll values .var)) } := by
  rw [args_head, Term.getElem?_instTele, List.getElem?_map, List.getElem?_drop]
  cases k.tele[params + a]? <;> rfl

end Definition

/-- The arguments of a constructor, and what it builds from them, are over a signature. -/
structure Head.Over (S : Signature) (h : Head) : Prop where
  arity : h.args.length = S.headArity h.head
  args : ∀ p ∈ h.args, p.type.Over S ⊤
  term : h.term.Over S ⊤

/-- An instance of the terms of a context, in which more holes may be solved. -/
structure Instance (sol : ℕ → Option Term) (L : Locals) (sol' : ℕ → Option Term) (ρ : ℕ → Term) :
    Prop where
  keeps : ∀ m t, sol m = some t → sol' m = some t
  fits : L.Fits ρ

section Splits
variable (env : Environment) (sol : ℕ → Option Term) (L : Locals)

/-- The head for a constructor at a universe and arguments of its data type. There is one if the
constructor builds some instance of the data type at these arguments, and its leading parameters
have the values that building needs. -/
structure HeadOf (u : Universe) (args : List Term) (k : Definition) (o : Option Head) : Prop where
  sound : ∀ h, o = some h → ∃ data index params patterns values,
    k.body = .constructor data index params patterns ∧
    h = k.head (min params k.tele.length) u values ∧ (patterns = none → values = args)
  complete : ∀ sol' ρ args' values', Instance sol L sol' ρ →
    args'.map Term.erase = args.map (fun a => (a.inst ρ).erase) → k.Builds env sol' args' values' →
    ∃ values, o = some (k.head values.length u values) ∧
      values'.map Term.erase = values.map fun a => (a.inst ρ).erase

/-- A type with the heads for all its constructors. -/
inductive Splits (type : Term) : List Head → Prop
  | nat : (∀ sol' ρ, Instance sol L sol' ρ → Evaluates env sol' (type.inst ρ) .nat) →
      Splits type [⟨.zero, Primitive.globalName "zero", [], none⟩,
        ⟨.succ, Primitive.globalName "suc", [{ Binder.named "n" with type := .nat }], none⟩]
  | data {d : GlobalName} {u : Universe} {args : List Term} {data : Definition}
    {ctors : List GlobalName}
      {os : List (Option Head)} : (∀ sol' ρ, Instance sol L sol' ρ →
        Evaluates env sol' (type.inst ρ) (.data d u (args.map (Term.inst ρ)))) →
        env.get? d = some data →
      data.body = .data ctors →
      List.Forall₂ (HeadOf env sol L u args) (ctors.filterMap env.get?) os →
      Splits type (os.filterMap id)

end Splits

namespace Term

/-- The variables of a branch stand for the arguments of the constructor. -/
theorem map_inst_pushAll (xs : List Term) (ρ : ℕ → Term) :
    ((List.range xs.length).reverse.map var).map (inst (pushAll xs ρ)) = xs := by
  refine List.ext_getElem (by simp) fun a ha ha' => ?_
  simp only [List.map_reverse, List.getElem_reverse, List.getElem_map, List.length_map,
    List.length_range, List.getElem_range, inst]
  rw [pushAll_of_lt (by omega)]
  congr 1
  omega

theorem erase_pushAll_congr {as bs : List Term} (h : as.map erase = bs.map erase)
    (σ : ℕ → Term) (i : ℕ) : (pushAll as σ i).erase = (pushAll bs σ i).erase := by
  have hlen : as.length = bs.length := by simpa using congrArg List.length h
  have hget := congrArg (fun l : List Term => l.reverse[i]?) h
  simp only [← List.map_reverse, List.getElem?_map] at hget
  rw [pushAll, pushAll, hlen]
  cases ha : as.reverse[i]? <;> cases hb : bs.reverse[i]? <;> simp_all

theorem erase_substAll_congr {t : Term} {as bs : List Term} (h : as.map erase = bs.map erase) :
    (t.substAll as).erase = (t.substAll bs).erase := by
  rw [substAll_eq_inst, substAll_eq_inst]
  exact erase_inst_congr rfl (erase_pushAll_congr h var)

/-- The type of an argument of a constructor, at values of the leading parameters and the arguments
before it. -/
theorem Over.inst_argument {S : Signature} {t : Term} {values ys : List Term}
    (ht : t.Over S ↑(values.length + ys.length)) (ρ : ℕ → Term) :
    (t.inst (up ys.length (pushAll values var))).inst (pushAll ys ρ) =
      t.substAll (values.map (Term.inst ρ) ++ ys) := by
  rw [substAll_eq_inst, inst_inst]
  refine ht.inst_congr fun i hi => ?_
  rw [pushAll_of_lt (by simpa using hi)]
  rcases lt_or_ge i ys.length with h | h
  · rw [up_of_lt h, Term.inst, pushAll_of_lt h, List.getElem_append_right (by simp; omega)]
    congr 1
    simp
    omega
  · rw [up_of_le h, lift_inst_pushAll, pushAll_of_lt (by omega),
      List.getElem_append_left (by simp; omega), List.getElem_map]
    congr 2
    simp
    omega

end Term

theorem exists_mem_of_forall₂ {α β : Type} {R : α → β → Prop} {as : List α} {bs : List β}
    (h : List.Forall₂ R as bs) {a : α} (ha : a ∈ as) : ∃ b ∈ bs, R a b := by
  induction h with
  | nil => contradiction
  | cons hab _ ih =>
    obtain rfl | ha := List.mem_cons.mp ha
    · exact ⟨_, by simp, hab⟩
    · obtain ⟨b, hb, h⟩ := ih ha
      exact ⟨b, by simp [hb], h⟩

theorem exists_mem_of_forall₂_right {α β : Type} {R : α → β → Prop} {as : List α} {bs : List β}
    (h : List.Forall₂ R as bs) {b : β} (hb : b ∈ bs) : ∃ a ∈ as, R a b :=
  exists_mem_of_forall₂ h.flip hb

section Values
variable {env : Environment} {sol sol' : ℕ → Option Term} {others : Term → Term → Prop}
  {L : Locals} {ρ : ℕ → Term} {type v : Term} {hs : List Head}

/-- What is known of a value of a type in the branch of one of its constructors. -/
structure Head.Fits (env : Environment) (sol : ℕ → Option Term) (others : Term → Term → Prop)
    (ρ : ℕ → Term) (h : Head) (v : Term) (xs : List Term) : Prop extends h.Heads v xs where
  erase_eq : v.erase = (h.term.inst (Term.pushAll xs ρ)).erase
  args : ∀ (a : ℕ) p x, h.args[a]? = some p → xs[a]? = some x →
    Value env sol others x (p.type.inst (Term.pushAll (xs.take a) ρ))

/-- What a constructor builds is, up to erasure, the constructor value of its arguments. -/
theorem erase_term_head {k : Definition} {params : ℕ} {u : Universe} {values xs : List Term}
    (hlen : (k.head params u values).args.length = xs.length) :
    ((k.head params u values).term.inst (Term.pushAll xs ρ)).erase = .con k.name .zero []
    (xs.map Term.erase) := by
  have hterm : (k.head params u values).term =
      .con k.name u (values.map (·.lift xs.length)) ((List.range xs.length).reverse.map .var) := by
    rw [← hlen]
    rfl
  rw [hterm, Term.inst, Term.instAll_eq_map, Term.instAll_eq_map, Term.map_inst_pushAll, Term.erase,
    Term.eraseAll_eq_map]

/-- Every value of an instance of a type is in the branch of one of the constructors of the type. -/
theorem Splits.fits (h : Splits env sol L type hs) (henv : env.WellFormed)
    (hi : Instance sol L sol' ρ) (hv : Value env sol' others v (type.inst ρ)) :
    ∃ head xs, Reducer.constructor? v = some (head, xs) ∧
      (∃ h ∈ hs, h.head = head) ∧ ∀ h ∈ hs, h.head = head → h.Fits env sol' others ρ v xs := by
  cases h with
  | nat heval =>
    have hnat := heval sol' ρ hi
    cases hv with
    | zero =>
      refine ⟨.zero, [], rfl, by simp, ?_⟩
      rintro h hh hhead
      obtain rfl : h = ⟨.zero, Primitive.globalName "zero", [], none⟩ := by
        rcases List.mem_pair.mp hh with rfl | rfl
        · rfl
        · contradiction
      exact ⟨⟨rfl, rfl, rfl⟩, rfl, by simp⟩
    | @succ a _ _ ha =>
      refine ⟨.succ, [a], rfl, by simp, ?_⟩
      rintro h hh hhead
      obtain rfl : h = ⟨.succ, Primitive.globalName "suc",
          [{ Binder.named "n" with type := .nat }], none⟩ := by
        rcases List.mem_pair.mp hh with rfl | rfl
        · contradiction
        · rfl
      refine ⟨⟨rfl, rfl, rfl⟩, rfl, fun b p x hp hx => ?_⟩
      obtain rfl : b = 0 := by
        have := (List.getElem?_eq_some_iff.mp hp).1
        simpa using this
      obtain rfl := Option.some.inj hp
      obtain rfl := Option.some.inj hx
      exact ha
    | con hform => exact absurd (hform.unique .nat trivial hnat) (by simp [Term.erase])
    | other hnone => exact absurd hnat (hnone .nat trivial)
  | @data d u args data ctors os heval hdata hbody hos =>
    have heval := heval sol' ρ hi
    have hdataForm : (Term.data d u (args.map (Term.inst ρ))).IsForm := trivial
    cases hv with
    | zero hnat => exact absurd (hnat.unique _ hdataForm heval) (by simp [Term.erase])
    | succ hnat => exact absurd (hnat.unique _ hdataForm heval) (by simp [Term.erase])
    | other hnone => exact absurd heval (hnone _ hdataForm)
    | @con n d' u' w args' values' qs xs _ data' k ctors' hform hdata' hbody' hn hk
      hbuilds hlen hxs =>
      have herase := hform.unique _ hdataForm heval
      simp only [Term.erase, Term.eraseAll_eq_map, Term.data.injEq, List.map_map] at herase
      obtain ⟨rfl, rfl, hargs⟩ := herase
      obtain rfl := Option.some.inj (hdata.symm.trans hdata')
      obtain rfl : ctors = ctors' := by simpa [hbody] using hbody'
      have hhead (o : Option Head) (ho : HeadOf env sol L u args k o) :
          ∃ values, o = some (k.head values.length u values) ∧
            values'.map Term.erase = values.map fun a => (a.inst ρ).erase :=
        ho.complete sol' ρ args' values' hi hargs.symm hbuilds
      have hname : k.name = n := henv.name n k hk
      have hexists : ∃ h ∈ os.filterMap id, h.head = .con n := by
        obtain ⟨o, ho, hof⟩ := exists_mem_of_forall₂ hos (List.mem_filterMap.mpr ⟨n, hn, hk⟩)
        obtain ⟨values, rfl, -⟩ := hhead o hof
        exact ⟨_, List.mem_filterMap.mpr ⟨_, ho, rfl⟩, congrArg BranchHead.con hname⟩
      refine ⟨.con n, xs, rfl, hexists, ?_⟩
      intro h hh hhd
      obtain ⟨o, ho, rfl⟩ := List.mem_filterMap.mp hh
      obtain ⟨k', hk', hof⟩ := exists_mem_of_forall₂_right hos ho
      obtain ⟨m, -, hm⟩ := List.mem_filterMap.mp hk'
      obtain rfl : k' = k := by
        obtain ⟨_, _, _, _, _, -, rfl, -⟩ := hof.sound h rfl
        have hmn : k'.name = n := BranchHead.con.inj hhd
        rw [henv.name m k' hm] at hmn
        exact Option.some.inj (hm.symm.trans (hmn ▸ hk))
      obtain ⟨values, hvalues, herase⟩ := hhead _ hof
      obtain rfl := Option.some.inj hvalues
      have hlength : values'.length = values.length := by simpa using congrArg List.length herase
      have hargs : (k'.head values.length u values).args.length = xs.length := by
        rw [Definition.length_args_head]
        omega
      refine ⟨⟨by rw [← hname]; rfl, by rw [← hname]; rfl, hargs⟩, ?_, fun a p x hp hx => ?_⟩
      · rw [erase_term_head hargs, ← hname, Term.erase, Term.eraseAll_eq_map]
      · obtain ⟨q, hq, rfl⟩ := Option.map_eq_some_iff.mp
          ((Definition.getElem?_args_head a).symm.trans hp)
        obtain ⟨ha, rfl⟩ := List.getElem?_eq_some_iff.mp hx
        have htake : (xs.take a).length = a := by simp; omega
        have hover : (q.type.substLevels u).Over env.signature ↑(values.length +
            (xs.take a).length) := by
          rw [htake]
          simpa using ((Term.over_pis_iff.mp (henv.type n k' hk)).1 _ q hq).substLevels
            (env.admits u)
        have htype := hover.inst_argument ρ
        rw [htake] at htype
        rw [htype]
        refine (hxs a q _ (hlength ▸ hq) hx).congr (Term.erase_substAll_congr ?_)
        simp [herase]

end Values

end LeveledTypes
