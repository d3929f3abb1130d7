import LeveledTypes.Proofs.Matching.Heads

/-!
# Types with values

A type is populated if it is `Nat` or a data type without guarded constructors, it has a value, and
the types of the arguments of its constructors are populated as well. Such a type has a value for
each of its constructors.
-/
namespace LeveledTypes

section Populated
variable (env : Environment) (sol : ℕ → Option Term) (others : Term → Term → Prop)

/-- Values of the types of a telescope, from the parameter `n` on, given those of the parameters
before it. -/
def ValuesOf (tele : Telescope Term) (u : Universe) (params xs : List Term) : Prop :=
  ∀ (a : ℕ) p x, tele[params.length + a]? = some p → xs[a]? = some x →
    Value env sol others x ((p.type.substLevels u).substAll (params ++ xs.take a))

/-- The types with a property have values, are `Nat` or data types without guarded constructors, and
the types of the arguments of these constructors have the property too. -/
def Populating (P : Term → Prop) : Prop :=
  ∀ type, P type → (∃ v, Value env sol others v type) ∧ (HasForm env sol type .nat ∨
    ∃ d u args data ctors, HasForm env sol type (.data d u args) ∧ env.get? d = some data ∧
      data.body = .data ctors ∧
      ∀ n ∈ ctors, ∀ k, env.get? n = some k →
        (∃ d index params, k.body = .constructor d index params none) ∧
        k.Builds env sol args args ∧
        ∀ (a : ℕ) p xs, k.tele[args.length + a]? = some p → xs.length = a →
          ValuesOf env sol others k.tele u args xs →
          P ((p.type.substLevels u).substAll (args ++ xs)))

/-- A closed type that is built from `Nat` and data types all whose constructors have values. -/
def Populated (type : Term) : Prop := ∃ P, Populating env sol others P ∧ P type

end Populated

variable {env : Environment} {sol : ℕ → Option Term} {others : Term → Term → Prop}
  {type type' : Term}

theorem Populated.populating : Populating env sol others (Populated env sol others) := by
  rintro type ⟨P, hP, htype⟩
  obtain ⟨hvalue, hnat | ⟨d, u, args, data, ctors, hform, hdata, hbody, hctors⟩⟩ := hP type htype
  · exact ⟨hvalue, .inl hnat⟩
  · refine ⟨hvalue, .inr ⟨d, u, args, data, ctors, hform, hdata, hbody, fun n hn k hk => ?_⟩⟩
    obtain ⟨hguard, hbuilds, hargs⟩ := hctors n hn k hk
    exact ⟨hguard, hbuilds, fun a p xs hp hxs hvalues => ⟨P, hP, hargs a p xs hp hxs hvalues⟩⟩

theorem Populated.exists_value (h : Populated env sol others type) :
    ∃ v, Value env sol others v type :=
  (Populated.populating type h).1

/-- Types with the same erasure are populated together. -/
theorem Populated.congr (h : Populated env sol others type) (ht : type.erase = type'.erase) :
    Populated env sol others type' := by
  refine ⟨fun t => ∃ t', Populated env sol others t' ∧ t'.erase = t.erase, ?_, type, h, ht⟩
  rintro t ⟨t', ht', herase⟩
  obtain ⟨⟨v, hv⟩, hshape⟩ := Populated.populating t' ht'
  refine ⟨⟨v, hv.congr herase⟩, hshape.imp (·.congr herase) ?_⟩
  rintro ⟨d, u, args, data, ctors, hform, hdata, hbody, hctors⟩
  refine ⟨d, u, args, data, ctors, hform.congr herase, hdata, hbody, fun n hn k hk => ?_⟩
  obtain ⟨hguard, hbuilds, hargs⟩ := hctors n hn k hk
  exact ⟨hguard, hbuilds, fun a p xs hp hxs hvalues => ⟨_, hargs a p xs hp hxs hvalues, rfl⟩⟩

theorem populated_nat : Populated env sol others .nat := by
  refine ⟨fun t => t = .nat, ?_, rfl⟩
  rintro t rfl
  have hform : HasForm env sol .nat .nat := .self trivial
  exact ⟨⟨.zero, .zero hform⟩, .inl hform⟩

/-- The type of an argument of a constructor, at instances of the parameters and values of the
arguments before it. -/
theorem Definition.type_args_head {k : Definition} {n : GlobalName} {u : Universe}
    {args : List Term} {a : ℕ} {p : Param Term} (henv : env.WellFormed) (hk : env.get? n = some k)
    (hp : (k.head args.length u args).args[a]? = some p) :
    ∃ q, k.tele[args.length + a]? = some q ∧ ∀ (ρ : ℕ → Term) (xs : List Term), xs.length = a →
      p.type.inst (Term.pushAll xs ρ) =
        (q.type.substLevels u).substAll (args.map (Term.inst ρ) ++ xs) := by
  obtain ⟨q, hq, rfl⟩ := Option.map_eq_some_iff.mp ((Definition.getElem?_args_head a).symm.trans hp)
  refine ⟨q, hq, fun ρ xs hxs => ?_⟩
  have hover : (q.type.substLevels u).Over env.signature ↑(args.length + xs.length) := by
    rw [hxs]
    simpa using ((Term.over_pis_iff.mp (henv.type n k hk)).1 _ q hq).substLevels (env.admits u)
  have htype := hover.inst_argument ρ
  rwa [hxs] at htype

/-- The arguments of a constructor have values of their types. -/
def Head.Valued (env : Environment) (sol : ℕ → Option Term) (others : Term → Term → Prop)
    (h : Head) (ρ : ℕ → Term) (xs : List Term) : Prop :=
  ∀ (a : ℕ) p x, h.args[a]? = some p → xs[a]? = some x →
    Value env sol others x (p.type.inst (Term.pushAll (xs.take a) ρ))

section Splits
variable {sol' : ℕ → Option Term} {L : Locals} {ρ σ : ℕ → Term} {hs : List Head} {h : Head}
  {xs ys : List Term}

/-- A constructor of a populated data type. -/
theorem Splits.data_of_populated {d : GlobalName} {u : Universe} {args : List Term}
    {data : Definition} {ctors : List GlobalName} {os : List (Option Head)} (henv : env.WellFormed)
    (heval : Evaluates env sol' (type.inst ρ) (.data d u (args.map (Term.inst ρ))))
    (hdata : env.get? d = some data) (hbody : data.body = .data ctors)
    (hos : List.Forall₂ (HeadOf env sol L u args) (ctors.filterMap env.get?) os)
    (hpop : Populated env sol' others (type.inst ρ)) (hh : h ∈ os.filterMap id) :
    ∃ k args', env.get? k.name = some k ∧ k.name ∈ ctors ∧ h = k.head args.length u args ∧
      HasForm env sol' (type.inst ρ) (.data d u args') ∧ args'.map Term.erase =
        (args.map (Term.inst ρ)).map Term.erase ∧
      k.Builds env sol' args' args' ∧ args.length ≤ k.tele.length ∧
      ∀ (a : ℕ) p xs, k.tele[args'.length + a]? = some p → xs.length = a →
        ValuesOf env sol' others k.tele u args' xs →
        Populated env sol' others ((p.type.substLevels u).substAll (args' ++ xs)) := by
  obtain ⟨o, ho, rfl⟩ := List.mem_filterMap.mp hh
  obtain ⟨k, hk, hof⟩ := exists_mem_of_forall₂_right hos ho
  obtain ⟨n, hn, hnk⟩ := List.mem_filterMap.mp hk
  have hname := henv.name n k hnk
  subst hname
  obtain ⟨-, hshape⟩ := Populated.populating _ hpop
  rcases hshape with hnat | ⟨d', u', args', data', ctors', hform, hdata', hbody', hctors⟩
  · exact absurd (hnat.unique (.data d u (args.map (Term.inst ρ))) trivial heval)
      (by simp [Term.erase])
  · have herase := hform.unique (.data d u (args.map (Term.inst ρ))) trivial heval
    simp only [Term.erase, Term.eraseAll_eq_map, Term.data.injEq] at herase
    obtain ⟨rfl, rfl, herase⟩ := herase
    obtain rfl := Option.some.inj (hdata.symm.trans hdata')
    obtain rfl : ctors = ctors' := by simpa [hbody] using hbody'
    obtain ⟨⟨_, index, params, hkbody⟩, hbuilds, hargs⟩ := hctors _ hn k hnk
    obtain ⟨_, index', params', patterns, values, hkbody', rfl, hvalues⟩ := hof.sound h rfl
    rw [hkbody] at hkbody'
    obtain ⟨-, -, rfl, rfl⟩ := Body.constructor.inj hkbody'
    obtain rfl := hvalues rfl
    have hb := hbuilds
    rw [Definition.Builds, hkbody] at hb
    obtain ⟨-, hlen, hle⟩ := hb
    have hlength : args'.length = values.length := by simpa using (congrArg List.length herase).symm
    refine ⟨k, args', hnk, hn, ?_, hform, herase.symm, hbuilds, by omega, hargs⟩
    rw [min_eq_left hle, ← hlen, hlength]

/-- The types of the arguments of a constructor of a populated type are populated. -/
theorem Splits.populated_args (hsplits : Splits env sol L type hs) (henv : env.WellFormed)
    (hi : Instance sol L sol' ρ) (hpop : Populated env sol' others (type.inst ρ)) (hh : h ∈ hs)
    {a : ℕ} {p : Param Term} (hp : h.args[a]? = some p) (hxs : xs.length = a)
    (hvalues : h.Valued env sol' others ρ xs) :
    Populated env sol' others (p.type.inst (Term.pushAll xs ρ)) := by
  cases hsplits with
  | nat =>
    rcases List.mem_pair.mp hh with rfl | rfl
    · simp at hp
    · obtain rfl : a = 0 := by simpa using (List.getElem?_eq_some_iff.mp hp).1
      obtain rfl := Option.some.inj hp
      exact populated_nat
  | @data d u args data ctors os heval hdata hbody hos =>
    obtain ⟨k, args', hk, -, rfl, -, herase, -, -, hargs⟩ :=
      Splits.data_of_populated henv (heval sol' ρ hi) hdata hbody hos hpop hh
    obtain ⟨q, hq, htype⟩ := Definition.type_args_head henv hk hp
    have hlen : args'.length = args.length := by simpa using congrArg List.length herase
    rw [htype ρ xs hxs]
    refine (hargs a q xs (hlen ▸ hq) hxs fun b q' x hq' hx => ?_).congr
      (Term.erase_substAll_congr (by simpa using herase))
    obtain ⟨p', hp'⟩ : ∃ p', (k.head args.length u args).args[b]? = some p' :=
      ⟨_, (Definition.getElem?_args_head b).trans (by rw [← hlen, hq']; rfl)⟩
    obtain ⟨q'', hq'', htype'⟩ := Definition.type_args_head henv hk hp'
    rw [← hlen, hq'] at hq''
    obtain rfl := Option.some.inj hq''
    have hx' := hvalues b p' x hp' hx
    have hb := (List.getElem?_eq_some_iff.mp hx).1
    rw [htype' ρ (xs.take b) (by simp; omega)] at hx'
    exact hx'.congr (Term.erase_substAll_congr (by simpa using herase.symm))

/-- A constructor of a populated type builds a value from values of its arguments. -/
theorem Splits.value_of_head (hsplits : Splits env sol L type hs) (henv : env.WellFormed)
    (hi : Instance sol L sol' ρ) (hpop : Populated env sol' others (type.inst ρ)) (hh : h ∈ hs)
    (hlen : h.args.length = xs.length) (hvalues : h.Valued env sol' others ρ xs) :
    Value env sol' others (h.term.inst (Term.pushAll xs ρ)) (type.inst ρ) ∧
      h.Heads (h.term.inst (Term.pushAll xs ρ)) xs := by
  cases hsplits with
  | nat heval =>
    have hform : HasForm env sol' (type.inst ρ) .nat := by
      obtain ⟨-, hnat | ⟨d, u, args, data, ctors, hform, -⟩⟩ := Populated.populating _ hpop
      · exact hnat
      · exact absurd (hform.unique .nat trivial (heval sol' ρ hi)) (by simp [Term.erase])
    rcases List.mem_pair.mp hh with rfl | rfl
    · obtain rfl := List.length_eq_zero_iff.mp hlen.symm
      exact ⟨.zero hform, rfl, rfl, rfl⟩
    · obtain ⟨x, rfl⟩ := List.length_eq_one_iff.mp hlen.symm
      exact ⟨.succ hform (hvalues 0 _ x rfl rfl), rfl, rfl, rfl⟩
  | @data d u args data ctors os heval hdata hbody hos =>
    obtain ⟨k, args', hk, hn, rfl, hform, herase, hbuilds, hle, -⟩ :=
      Splits.data_of_populated henv (heval sol' ρ hi) hdata hbody hos hpop hh
    have hlength : args'.length = args.length := by simpa using congrArg List.length herase
    have hterm : (k.head args.length u args).term.inst (Term.pushAll xs ρ) =
        .con k.name u (args.map (Term.inst ρ)) xs := by
      have hterm : (k.head args.length u args).term =
          .con k.name u (args.map (·.lift xs.length))
            ((List.range xs.length).reverse.map .var) := by
        rw [← hlen]
        rfl
      rw [hterm, Term.inst, Term.instAll_eq_map, Term.instAll_eq_map, Term.map_inst_pushAll,
        List.map_map]
      simp only [Function.comp_def, Term.lift_inst_pushAll]
    have hargsLength := hlen
    rw [Definition.length_args_head] at hargsLength
    rw [hterm]
    refine ⟨.con hform hdata hbody hn hk hbuilds (by omega) fun a q x hq hx => ?_, rfl, rfl, hlen⟩
    have ha := (List.getElem?_eq_some_iff.mp hx).1
    obtain ⟨p, hp⟩ : ∃ p, (k.head args.length u args).args[a]? = some p :=
      ⟨_, List.getElem?_eq_getElem (by omega)⟩
    obtain ⟨q', hq', htype⟩ := Definition.type_args_head henv hk hp
    rw [← hlength, hq] at hq'
    obtain rfl := Option.some.inj hq'
    have hvalue := hvalues a p x hp hx
    rw [htype ρ (xs.take a) (by simp; omega)] at hvalue
    exact hvalue.congr (Term.erase_substAll_congr (by simpa using herase.symm))

/-- The types of the arguments of a constructor depend on the type and on the arguments before them
only. -/
theorem Splits.erase_args (hsplits : Splits env sol L type hs) (henv : env.WellFormed)
    (hi : Instance sol L sol' ρ) (hi' : Instance sol L sol' σ)
    (hpop : Populated env sol' others (type.inst ρ)) (htype : (type.inst ρ).erase =
      (type.inst σ).erase) (hh : h ∈ hs) {a : ℕ} {p : Param Term}
    (hp : h.args[a]? = some p) (hxs : xs.length = a) (hys : ys.map Term.erase = xs.map Term.erase) :
    (p.type.inst (Term.pushAll xs ρ)).erase = (p.type.inst (Term.pushAll ys σ)).erase := by
  have hlength : ys.length = xs.length := by simpa using congrArg List.length hys
  cases hsplits with
  | nat =>
    rcases List.mem_pair.mp hh with rfl | rfl
    · simp at hp
    · obtain rfl : a = 0 := by simpa using (List.getElem?_eq_some_iff.mp hp).1
      obtain rfl := Option.some.inj hp
      rfl
  | @data d u args data ctors os heval hdata hbody hos =>
    obtain ⟨k, args', hk, -, rfl, hform, herase, -⟩ :=
      Splits.data_of_populated henv (heval sol' ρ hi) hdata hbody hos hpop hh
    have heval' := (Evaluates.congr_left htype).mpr (heval sol' σ hi')
    have herase' := hform.unique (.data d u (args.map (Term.inst σ))) trivial heval'
    simp only [Term.erase, Term.eraseAll_eq_map, Term.data.injEq, true_and] at herase'
    obtain ⟨q, -, hq⟩ := Definition.type_args_head henv hk hp
    rw [hq ρ xs hxs, hq σ ys (hlength.trans hxs)]
    refine Term.erase_substAll_congr ?_
    rw [List.map_append, List.map_append, hys, ← herase, herase']

/-- What a constructor of a type builds depends on its arguments only, but for what erasure
removes. -/
theorem Splits.erase_term (hsplits : Splits env sol L type hs) (hh : h ∈ hs)
    (hlen : h.args.length = xs.length) (hys : ys.map Term.erase = xs.map Term.erase) :
    (h.term.inst (Term.pushAll xs ρ)).erase = (h.term.inst (Term.pushAll ys σ)).erase := by
  have hlength : ys.length = xs.length := by simpa using congrArg List.length hys
  cases hsplits with
  | nat =>
    rcases List.mem_pair.mp hh with rfl | rfl
    · rfl
    · obtain ⟨x, rfl⟩ := List.length_eq_one_iff.mp hlen.symm
      obtain ⟨y, rfl⟩ := List.length_eq_one_iff.mp hlength
      simpa [Head.term, Term.inst, Term.erase, Term.pushAll] using hys.symm
  | data _ _ _ hos =>
    obtain ⟨o, ho, rfl⟩ := List.mem_filterMap.mp hh
    obtain ⟨k, -, hof⟩ := exists_mem_of_forall₂_right hos ho
    obtain ⟨_, _, _, _, values, -, rfl, -⟩ := hof.sound h rfl
    rw [erase_term_head hlen, erase_term_head (hlen.trans hlength.symm), hys]

end Splits

end LeveledTypes
