import LeveledTypes.Proofs.Matching.Heads

/-!
# Finding the constructors of a type

The constructors of a type are found by reduction only, in a context that the type may have
variables of. So they are the constructors of every instance of the type.
-/
namespace LeveledTypes

/-- A state over the given definitions with the given store. -/
structure ElaborationState.Frozen (e : Elaborator) (env : Environment) (store : Store)
    (s : ElaborationState) : Prop where
  environment : ⟨e.base, s.own⟩ = env
  conversion : s.conversion.Frozen env.signature env store

namespace Elaborator
variable {α : Type} {e : Elaborator} {env : Environment} {store : Store}
  {sol : ℕ → Option Term} {c : Context} {type : Term} {span : Span}

/-- A run that leaves the store as it is keeps the solutions of holes. -/
theorem keeps_of_frozen {x : Elab α} {Q : α → Prop}
    (h : ∀ store : Store, store.Valid env.signature →
      Ensures (ElaborationState.Frozen e env store) x Q) :
    e.Keeps env sol x Q := by
  intro s hs
  have hx := h s.conversion.store hs.conversion.valid s ⟨hs.environment, ⟨rfl, hs.conversion.memo⟩⟩
  split at hx
  case h_1 a s' hr =>
    obtain ⟨⟨henvironment, hstore, hmemo⟩, hQ⟩ := hx
    exact ⟨⟨henvironment, hstore ▸ hs.conversion.keeps, hstore ▸ hs.conversion.valid, hmemo⟩, hQ⟩
  case h_2 err s' hr =>
    obtain ⟨henvironment, hstore, hmemo⟩ := hx
    exact ⟨henvironment, hstore ▸ hs.conversion.keeps, hstore ▸ hs.conversion.valid, hmemo⟩

section Frozen

theorem frozen_mismatch {expected actual : String} {Q : α → Prop} :
    Ensures (ElaborationState.Frozen e env store) (mismatch expected actual span : Elab α) Q :=
      .throw _

theorem frozen_environment :
    Ensures (ElaborationState.Frozen e env store) e.environment (· = env) :=
  fun _ hs => ⟨hs, hs.environment⟩

theorem frozen_shown {t : Term} :
    Ensures (ElaborationState.Frozen e env store) (shown c t) fun _ => True :=
  fun _ hs => ⟨hs, trivial⟩

/-- Reduction of a type leaves the store as it is and gives a reduct over the signature. -/
theorem frozen_whnf (henv : env.WellFormed) (hstore : store.Valid env.signature)
    (hc : c.Over env.signature) {t : Term} (ht : t.Over env.signature ⊤) :
    Ensures (ElaborationState.Frozen e env store) (e.whnf c t span) fun t' =>
      Reduces env store.solution? c.locals t t' ∧ t'.Over env.signature ⊤ := by
  refine .bind (P := fun k => k.env = env ∧ k.locals = c.locals) ?_ fun k ⟨hk, hlocals⟩ => ?_
  · exact .bind frozen_environment fun _ h => .pure ⟨h, rfl⟩
  · subst hk
    have hrun : Ensures (ConversionState.Frozen k.env.signature k.env store) (k.whnf 0 t) fun t' =>
        Reduces k.env store.solution? (k.locals.under 0) t t' ∧ t'.Over k.env.signature ⊤ :=
      Converter.ensures_whnf henv.bodies (hlocals ▸ hc.locals) hstore ht
    rw [Locals.under_zero, hlocals] at hrun
    intro s hs
    have hks := hrun s.conversion hs.conversion
    unfold converting
    dsimp only
    cases hr : k.whnf 0 t s.conversion with
    | ok a t =>
      simp only [hr] at hks
      exact ⟨⟨hs.environment, hks.1⟩, hks.2⟩
    | error err t =>
      simp only [hr] at hks
      exact ⟨hs.environment, hks⟩

end Frozen

section Indices

/-- The values of the variables of index patterns, and instances of the terms that stand for
them. -/
def Agree (ρ : ℕ → Term) (out' out : List (ℕ × Term)) : Prop :=
  out'.map (fun p => (p.1, p.2.erase)) = out.map fun p => (p.1, (p.2.inst ρ).erase)

/-- What matching an index pattern found, from what was found before: terms that in every instance
stand for the values that the pattern gives to its variables. -/
structure Finds (env : Environment) (sol : ℕ → Option Term) (L : Locals) (p a : Term)
    (out : List (ℕ × Term)) (o : Option (List (ℕ × Term))) : Prop where
  terms : ∀ out', o = some out' → ∀ q ∈ out', q.2.Over env.signature ⊤
  complete : ∀ sol' ρ a' out₁ out₂, Instance sol L sol' ρ → a'.erase = (a.inst ρ).erase →
    Agree ρ out₁ out →
    IndexMatch env sol' p a' out₁ out₂ → ∃ out', o = some out' ∧ Agree ρ out₂ out'

/-- What matching a list of index patterns has found is over the signature, and has the values of
every instance of the indices that the patterns match. -/
structure FindsAll (env : Environment) (sol : ℕ → Option Term) (L : Locals) (ps as : List Term)
    (out : List (ℕ × Term)) (o : Option (List (ℕ × Term))) : Prop where
  terms : ∀ out', o = some out' → ∀ q ∈ out', q.2.Over env.signature ⊤
  complete : ∀ sol' ρ as' out₁ out₂, Instance sol L sol' ρ →
    as'.map Term.erase = as.map (fun a => (a.inst ρ).erase) →
    Agree ρ out₁ out → IndexMatches env sol' ps as' out₁ out₂ → ∃ out', o = some out' ∧
    Agree ρ out₂ out'

variable {data : GlobalName} (henv : env.WellFormed) (hstore : store.Valid env.signature)
  (hc : c.Over env.signature)

section Matching
include henv hstore hc

/-- A form that a term reduces to is the form of all its instances. -/
theorem erase_eq_of_reduces {sol' : ℕ → Option Term} {ρ : ℕ → Term} {a a' t form : Term}
    (hi : Instance store.solution? c.locals sol' ρ) (ha : a.Over env.signature ⊤)
    (ha' : a'.erase = (a.inst ρ).erase) (hred : Reduces env store.solution? c.locals a t)
    (ht : t.IsForm) (hform : HasForm env sol' a' form) : (t.inst ρ).erase = form.erase := by
  have hctx : ContextOver env.signature ⊤ store.solution? c.locals :=
    hc.locals.contextOver fun m t _ => hstore.solutions m t
  have heval := Evaluates.of_reduces hred henv.bodies hctx hstore.closed hi.keeps hi.fits ha
  exact hform.unique _ (ht.inst ρ) ((Evaluates.congr_left ha').mpr heval)

end Matching

/-- Patterns are matched one after the other, and each adds the values that it finds to those found
before. -/
theorem frozen_matchIndices {ps as : List Term} {out : List (ℕ × Term)}
    (hps : ∀ p ∈ ps, ∀ a out, a.Over env.signature ⊤ → (∀ q ∈ out, q.2.Over env.signature ⊤) →
      Ensures (ElaborationState.Frozen e env store) (e.matchIndex c data span p a out)
        (Finds env store.solution? c.locals p a out))
    (has : ∀ a ∈ as, a.Over env.signature ⊤) (hout : ∀ q ∈ out, q.2.Over env.signature ⊤) :
    Ensures (ElaborationState.Frozen e env store) (e.matchIndices c data span ps as out)
      (FindsAll env store.solution? c.locals ps as out) := by
  induction ps generalizing as out with
  | nil =>
    refine Ensures.pure
      ⟨by simpa using hout, fun sol' ρ as' out₁ out₂ _ _ hagree hmatch => ⟨out, rfl, ?_⟩⟩
    rw [IndexMatches] at hmatch
    · exact hmatch ▸ hagree
    · simp
  | cons p ps ih =>
    obtain ⟨hp, hps⟩ := List.forall_mem_cons.mp hps
    cases as with
    | nil =>
      refine Ensures.pure
        ⟨by simpa using hout, fun sol' ρ as' out₁ out₂ _ has' hagree hmatch => ⟨out, rfl, ?_⟩⟩
      obtain rfl : as' = [] := by simpa using has'
      rw [IndexMatches] at hmatch
      · exact hmatch ▸ hagree
      · simp
    | cons a as =>
      obtain ⟨ha, has⟩ := List.forall_mem_cons.mp has
      rw [matchIndices]
      refine .bind (hp a out ha hout) fun o ho => ?_
      cases o with
      | none =>
        refine Ensures.pure ⟨by simp, fun sol' ρ as' out₁ out₂ hi has' hagree hmatch => ?_⟩
        obtain ⟨a', as', rfl, ha', -⟩ := List.map_eq_cons_iff.mp has'
        obtain ⟨mid, hmid, -⟩ := hmatch
        obtain ⟨_, h, -⟩ := ho.complete sol' ρ a' out₁ mid hi ha' hagree hmid
        contradiction
      | some mid =>
        refine (ih hps has (ho.terms mid rfl)).mono fun o' ho' => ⟨ho'.terms, ?_⟩
        intro sol' ρ as' out₁ out₂ hi has' hagree hmatch
        obtain ⟨a', as', rfl, ha', has'⟩ := List.map_eq_cons_iff.mp has'
        obtain ⟨mid', hmid, hrest⟩ := hmatch
        obtain ⟨_, h, hagree'⟩ := ho.complete sol' ρ a' out₁ mid' hi ha' hagree hmid
        obtain rfl := Option.some.inj h
        exact ho'.complete sol' ρ as' mid' out₂ hi has' hagree' hrest

/-- A term of another form than the pattern asks for. -/
theorem frozen_notMatched {a : Term} {Q : Option (List (ℕ × Term)) → Prop} (h : a.IsForm → Q none) :
    Ensures (ElaborationState.Frozen e env store) (notMatched c data span a) Q := by
  unfold notMatched
  split
  case h_1 => exact .pure (h trivial)
  case h_2 => exact .pure (h trivial)
  case h_3 => exact .pure (h trivial)
  case h_4 => exact .bind frozen_shown fun _ _ => frozen_mismatch

include henv hstore hc

/-- Matching an index reduces it and looks at its root. It finds the values of the variables of the
pattern, that the pattern cannot match, or that this is not known. The induction is on the pattern.
-/
theorem frozen_matchIndex (p a : Term) (out : List (ℕ × Term)) (ha : a.Over env.signature ⊤)
    (hout : ∀ q ∈ out, q.2.Over env.signature ⊤) :
    Ensures (ElaborationState.Frozen e env store) (e.matchIndex c data span p a out)
      (Finds env store.solution? c.locals p a out) := by
  have hform {sol' ρ a a' t form} :=
    @erase_eq_of_reduces env store c henv hstore hc sol' ρ a a' t form
  have hwhnf {a : Term} (ha : a.Over env.signature ⊤) :
      Ensures (ElaborationState.Frozen e env store) (e.whnf c a span)
      fun t => Reduces env store.solution? c.locals a t ∧ t.Over env.signature ⊤ :=
        frozen_whnf henv hstore hc ha
  -- A pattern for another constructor than the one that the term reduces to.
  have hmismatch {p a t : Term} {out : List (ℕ × Term)} (ha : a.Over env.signature ⊤)
      (hred : Reduces env store.solution? c.locals a t)
      (h : ∀ sol' a' out₁ out₂, IndexMatch env sol' p a' out₁ out₂ →
        ∃ form, HasForm env sol' a' form ∧
        (t.IsForm → ∀ ρ : ℕ → Term, (t.inst ρ).erase ≠ form.erase)) :
      Ensures (ElaborationState.Frozen e env store) (notMatched c data span t)
        (Finds env store.solution? c.locals p a out) := by
    refine frozen_notMatched fun ht => ⟨by simp, fun sol' ρ a' out₁ out₂ hi ha' _ hmatch => ?_⟩
    obtain ⟨form, hhas, hne⟩ := h sol' a' out₁ out₂ hmatch
    exact absurd (hform hi ha ha' hred ht hhas) (hne ht ρ)
  induction p generalizing a out with
  | var i =>
    refine Ensures.pure ⟨?_, ?_⟩
    · rintro out' h
      obtain rfl := Option.some.inj h
      exact List.forall_mem_cons.mpr ⟨ha, hout⟩
    · rintro sol' ρ a' out₁ _ hi ha' hagree rfl
      exact ⟨_, rfl, by simpa [Agree, ha'] using hagree⟩
  | zero =>
    rw [matchIndex]
    refine .bind (hwhnf ha) ?_
    rintro t ⟨hred, ht⟩
    split
    case h_1 =>
      refine Ensures.pure ⟨by simpa using hout, ?_⟩
      rintro sol' ρ a' out₁ _ hi ha' hagree ⟨-, rfl⟩
      exact ⟨out, rfl, hagree⟩
    case h_2 hne =>
      exact hmismatch ha hred fun sol' a' out₁ out₂ hmatch =>
        ⟨_, hmatch.1, fun ht ρ h => hne (ht.eq_zero h)⟩
  | succ p ih =>
    rw [matchIndex]
    refine .bind (hwhnf ha) ?_
    rintro t ⟨hred, ht⟩
    split
    case h_1 b =>
      refine (ih b out ht hout).mono fun o ho => ⟨ho.terms, ?_⟩
      rintro sol' ρ a' out₁ out₂ hi ha' hagree ⟨b', hb', hmatch⟩
      have herase := hform hi ha ha' hred trivial hb'
      simp only [Term.inst, Term.erase, Term.succ.injEq] at herase
      exact ho.complete sol' ρ b' out₁ out₂ hi herase.symm hagree hmatch
    case h_2 hne =>
      refine hmismatch ha hred fun sol' a' out₁ out₂ hmatch => ?_
      obtain ⟨b, hb, -⟩ := hmatch
      refine ⟨_, hb, fun ht ρ h => ?_⟩
      obtain ⟨b, rfl⟩ := ht.eq_succ h
      exact hne b rfl
  | con k u qs ps ihq ihp =>
    rw [matchIndex]
    refine .bind (hwhnf ha) ?_
    rintro t ⟨hred, ht⟩
    split
    case h_1 m w rs xs =>
      split
      case isTrue hk =>
        have hxs := Term.overAll_iff.mp ht.2.2.2
        have hall : Ensures (ElaborationState.Frozen e env store)
            (e.matchIndices c data span ps xs out)
            (FindsAll env store.solution? c.locals ps xs out) := frozen_matchIndices ihp hxs hout
        refine hall.mono fun o ho => ⟨ho.terms, ?_⟩
        rintro sol' ρ a' out₁ out₂ hi ha' hagree ⟨w, rs, ys, hcon, hmatch⟩
        have herase := hform hi ha ha' hred trivial hcon
        simp only [Term.inst, Term.erase, Term.eraseAll_eq_map, Term.instAll_eq_map, Term.con.injEq,
          List.map_map] at herase
        exact ho.complete sol' ρ ys out₁ out₂ hi herase.2.2.2.symm hagree hmatch
      case isFalse hk =>
        refine hmismatch ha hred fun sol' a' out₁ out₂ hmatch => ?_
        obtain ⟨w, rs, ys, hcon, -⟩ := hmatch
        exact ⟨_, hcon, fun ht ρ h => hk (Term.con.inj h).1.symm⟩
    case h_2 hne =>
      refine hmismatch ha hred fun sol' a' out₁ out₂ hmatch => ?_
      obtain ⟨w, rs, ys, hcon, -⟩ := hmatch
      refine ⟨_, hcon, fun ht ρ h => ?_⟩
      obtain ⟨v, qs, ys, rfl⟩ := ht.eq_con h
      exact hne k v qs ys rfl
  | _ =>
    refine .bind (hwhnf ha) ?_
    rintro t ⟨hred, ht⟩
    exact hmismatch ha hred fun sol' a' out₁ out₂ hmatch => hmatch.elim

end Indices

section Heads

/-- Values that agree up to erasure are found for the same variables. -/
theorem lookup_agree {ρ : ℕ → Term} {out' out : List (ℕ × Term)} (h : Agree ρ out' out) (i : ℕ) :
    (out'.lookup i).map Term.erase = (out.lookup i).map fun a => (a.inst ρ).erase := by
  have hmap (f : Term → Term) (out : List (ℕ × Term)) :
      (out.map fun p => (p.1, f p.2)).lookup i = (out.lookup i).map f := by
    induction out with
    | nil => rfl
    | cons p out ih =>
      obtain ⟨k, a⟩ := p
      cases hk : i == k <;> simp [List.lookup_cons, hk, ih]
  rw [← hmap Term.erase, ← hmap (fun a => (a.inst ρ).erase), h]

/-- The values that are looked up agree if the lists agree. -/
theorem mapM_lookup_agree {ρ : ℕ → Term} {out' out : List (ℕ × Term)}
    (h : Agree ρ out' out) {is : List ℕ} {values' : List Term}
    (hvalues : is.mapM (fun i => out'.lookup i) = some values') :
    ∃ values, is.mapM (fun i => out.lookup i) = some values ∧
      values'.map Term.erase = values.map fun a => (a.inst ρ).erase := by
  induction is generalizing values' with
  | nil =>
    obtain rfl : values' = [] := by simpa using hvalues.symm
    exact ⟨[], rfl, rfl⟩
  | cons i is ih =>
    rw [List.mapM_cons] at hvalues
    obtain ⟨a', ha', hvalues⟩ := Option.bind_eq_some_iff.mp hvalues
    obtain ⟨as', has', hvalues⟩ := Option.bind_eq_some_iff.mp hvalues
    obtain rfl := Option.some.inj hvalues
    have hlookup := lookup_agree h i
    rw [ha', Option.map_some, eq_comm, Option.map_eq_some_iff] at hlookup
    obtain ⟨a, ha, herase⟩ := hlookup
    obtain ⟨as, has, heraseAll⟩ := ih has'
    exact ⟨a :: as, by rw [List.mapM_cons, ha, has]; rfl, by simp [herase, heraseAll]⟩

theorem forall_of_mapM_lookup {P : Term → Prop} {out : List (ℕ × Term)}
    (h : ∀ q ∈ out, P q.2) {is : List ℕ} {values : List Term}
    (hvalues : is.mapM (fun i => out.lookup i) = some values) : ∀ a ∈ values, P a := by
  intro a ha
  obtain ⟨i, -, hi⟩ := exists_mem_of_forall₂_right (forall₂_of_mapM hvalues) ha
  obtain ⟨l, r, rfl, -⟩ := List.lookup_eq_some_iff.mp hi
  exact h (i, a) (by simp)

section Runs
variable {data : GlobalName} (henv : env.WellFormed) (hstore : store.Valid env.signature)
  (hc : c.Over env.signature)

/-- A constructor with its arguments and the types of these is over the signature if the values of
its parameters are. -/
theorem over_head {k : Definition} {params index : ℕ} {patterns : Option (List Term)} {u : Universe}
    {values : List Term} (henv : env.WellFormed) (hk : env.get? k.name = some k)
    (hbody : k.body = .constructor data index params patterns)
    (hvalues : ∀ t ∈ values, t.Over env.signature ⊤) :
    (k.head (min params k.tele.length) u values).Over env.signature := by
  have harity : (k.head (min params k.tele.length) u values).args.length =
      env.signature.arity k.name := by
    rw [Definition.length_args_head, Environment.arity_eq hk hbody]
    omega
  have hfields : (Term.pis (k.tele.drop (min params k.tele.length)) .nat).Over env.signature ⊤ := by
    refine Term.over_pis (fun p hp => ?_) trivial
    obtain ⟨a, ha⟩ := List.getElem?_of_mem (List.mem_of_mem_drop hp)
    exact ((Term.over_pis_iff.mp (henv.type _ k hk)).1 a p ha).top
  have hinst := Term.Over.substAll (n := ⊤) (hfields.substLevels (env.admits u))
    (by simpa using hvalues)
  refine ⟨harity, ?_, ?_⟩
  · rw [Term.substLevels_pis, Term.substAll_eq_inst, Term.inst_pis, ← Definition.args_head] at hinst
    intro p hp
    obtain ⟨a, ha⟩ := List.getElem?_of_mem hp
    exact ((Term.over_pis_iff.mp hinst).1 a p ha).top
  · refine ⟨?_, env.admits u, ?_, ?_⟩
    · rw [← harity]
      simp [Definition.head]
    · rw [Term.overAll_iff]
      intro t ht
      obtain ⟨a, ha, rfl⟩ := List.mem_map.mp ht
      exact ((hvalues a ha).lift _).top
    · simp

include henv hstore hc

/-- The values that index patterns give are those that every instance of the indices has. -/
theorem frozen_indexValues {ps as : List Term} {n : ℕ} (has : ∀ a ∈ as, a.Over env.signature ⊤) :
    Ensures (ElaborationState.Frozen e env store) (e.indexValues c data ps as n span) fun o =>
      (∀ values, o = some values → ∀ a ∈ values, a.Over env.signature ⊤) ∧
      ∀ sol' ρ as' out values', Instance store.solution? c.locals sol' ρ →
        as'.map Term.erase = as.map (fun a => (a.inst ρ).erase) →
        IndexMatches env sol' ps as' [] out →
        (List.range n).mapM (fun i => out.lookup (n - 1 - i)) = some values' →
        ∃ values, o = some values ∧ values'.map Term.erase = values.map fun a =>
          (a.inst ρ).erase := by
  have hmapM (out : List (ℕ × Term)) : (List.range n).mapM (fun k => out.lookup (n - 1 - k)) =
      ((List.range n).map (n - 1 - ·)).mapM fun i => out.lookup i := by
    rw [List.mapM_map]
    rfl
  refine .bind (frozen_matchIndices (fun p _ => frozen_matchIndex henv hstore hc p) has
    (by simp)) fun o ho => ?_
  split
  case h_1 out =>
    refine .pure ⟨fun values hvalues => ?_, ?_⟩
    · rw [hmapM] at hvalues
      exact forall_of_mapM_lookup (ho.terms out rfl) hvalues
    · intro sol' ρ as' out' values' hi has' hout hvalues'
      obtain ⟨_, h, hagree⟩ := ho.complete sol' ρ as' [] out' hi has' rfl hout
      obtain rfl := Option.some.inj h
      rw [hmapM] at hvalues' ⊢
      exact mapM_lookup_agree hagree hvalues'
  case h_2 =>
    refine .pure ⟨by simp, fun sol' ρ as' out' values' hi has' hout _ => ?_⟩
    obtain ⟨_, h, -⟩ := ho.complete sol' ρ as' [] out' hi has' rfl hout
    contradiction

/-- Whether a constructor can build a type is found without changing the store: it cannot, it can
with the given arguments, or this is not known. -/
theorem frozen_headOf {k : Definition} {u : Universe} {args : List Term}
    (hk : env.get? k.name = some k) (hargs : ∀ a ∈ args, a.Over env.signature ⊤) :
    Ensures (ElaborationState.Frozen e env store) (e.headOf c data u args span k) fun o =>
      HeadOf env store.solution? c.locals u args k o ∧ ∀ h, o = some h → h.Over env.signature := by
  unfold headOf
  split
  case h_1 d index params patterns hbody =>
    have hpure (o : Option (List Term)) (hover : ∀ values, o = some values →
        ∀ a ∈ values, a.Over env.signature ⊤)
        (hnone : ∀ values, o = some values → patterns = none → values = args)
        (hcomplete : ∀ sol' ρ args' values', Instance store.solution? c.locals sol' ρ →
          args'.map Term.erase = args.map (fun a => (a.inst ρ).erase) →
          k.Builds env sol' args' values' →
          ∃ values, o = some values ∧
            values'.map Term.erase = values.map fun a => (a.inst ρ).erase) :
        Ensures (ElaborationState.Frozen e env store)
          (Pure.pure (o.map (k.head (min params k.tele.length) u)) : Elab (Option Head)) fun o =>
            HeadOf env store.solution? c.locals u args k o ∧ ∀ h, o = some h →
              h.Over env.signature := by
      refine .pure ⟨⟨fun h hh => ?_, fun sol' ρ args' values' hi hargs' hbuilds => ?_⟩,
        fun h hh => ?_⟩
      · obtain ⟨values, hvalues, rfl⟩ := Option.map_eq_some_iff.mp hh
        exact ⟨d, index, params, patterns, values, hbody, rfl, hnone values hvalues⟩
      · obtain ⟨values, rfl, herase⟩ := hcomplete sol' ρ args' values' hi hargs' hbuilds
        have hlen : values.length = min params k.tele.length := by
          rw [← Definition.length_of_builds hbody hbuilds]
          simpa using (congrArg List.length herase).symm
        exact ⟨values, by rw [hlen]; rfl, herase⟩
      · obtain ⟨values, hvalues, rfl⟩ := Option.map_eq_some_iff.mp hh
        exact over_head henv hk hbody (hover values hvalues)
    cases patterns with
    | none =>
      refine hpure (some args) (by simpa using hargs) (by simp) fun sol' ρ args' values' hi
        hargs' hbuilds => ?_
      rw [Definition.Builds, hbody] at hbuilds
      exact ⟨args, rfl, hbuilds.1 ▸ hargs'⟩
    | some ps =>
      refine .bind (frozen_indexValues henv hstore hc hargs) ?_
      rintro o ⟨hover, hcomplete⟩
      refine hpure o hover (by simp) fun sol' ρ args' values' hi hargs' hbuilds => ?_
      rw [Definition.Builds, hbody] at hbuilds
      obtain ⟨hlen, out, hout, hvalues⟩ := hbuilds
      exact hcomplete sol' ρ args' out values' hi hargs' hout (by rwa [min_eq_left hlen])
  case h_2 hne =>
    refine .pure ⟨⟨by simp, fun sol' ρ args' values' hi hargs' hbuilds => ?_⟩, by simp⟩
    unfold Definition.Builds at hbuilds
    split at hbuilds
    · exact absurd ‹_› (hne _ _ _ _)
    · exact absurd ‹_› (hne _ _ _ _)
    · contradiction

/-- The constructors of a type are found without a change to the store. -/
theorem frozen_heads? (htype : type.Over env.signature ⊤) :
    Ensures (ElaborationState.Frozen e env store)
      (e.heads? c type span) fun o => ∀ hs, o = some hs →
      Splits env store.solution? c.locals type hs ∧ ∀ h ∈ hs, h.Over env.signature := by
  have hctx : ContextOver env.signature ⊤ store.solution? c.locals :=
    hc.locals.contextOver fun m t _ => hstore.solutions m t
  have heval {t : Term} (hred : Reduces env store.solution? c.locals type t) sol' ρ
      (hi : Instance store.solution? c.locals sol' ρ) :
        Evaluates env sol' (type.inst ρ) (t.inst ρ) :=
    Evaluates.of_reduces hred henv.bodies hctx hstore.closed hi.keeps hi.fits htype
  refine .bind (frozen_whnf henv hstore hc htype) fun t ⟨hred, ht⟩ => ?_
  split
  case h_1 =>
    refine .pure fun hs h => ?_
    obtain rfl := Option.some.inj h
    refine ⟨.nat (heval hred), ?_⟩
    simp only [List.mem_cons, List.not_mem_nil, or_false, forall_eq_or_imp, forall_eq]
    exact ⟨⟨rfl, by simp, trivial⟩, ⟨rfl, by simp, ENat.natCast_lt_top 0⟩⟩
  case h_2 d u args _ =>
    refine .bind frozen_environment fun env' henv' => ?_
    subst henv'
    split
    case h_1 data ctors hdata =>
      have hargs : ∀ a ∈ args, a.Over env'.signature ⊤ := Term.overAll_iff.mp ht.2
      let R (k : Definition) (o : Option Head) : Prop :=
        HeadOf env' store.solution? c.locals u args k o ∧ ∀ h, o = some h → h.Over env'.signature
      refine .bind (.mapM (R := R) fun k hk => ?_) fun os hos => .pure fun hs h => ?_
      · obtain ⟨n, -, hn⟩ := List.mem_filterMap.mp hk
        exact frozen_headOf henv hstore hc (henv.name n k hn ▸ hn) hargs
      · obtain rfl := Option.some.inj h
        refine ⟨.data ?_ hdata rfl (hos.imp fun _ _ ho => ho.1), fun h hh => ?_⟩
        · intro sol' ρ hi
          simpa using heval hred sol' ρ hi
        · obtain ⟨o, ho, rfl⟩ := List.mem_filterMap.mp hh
          obtain ⟨k, -, hko⟩ := exists_mem_of_forall₂_right hos ho
          exact hko.2 h rfl
    case h_2 => exact .pure (by simp)
  case h_3 => exact .pure (by simp)

end Runs

end Heads

end Elaborator

end LeveledTypes
