import LeveledTypes.Proofs.Conversion.PatternRule
import LeveledTypes.Proofs.Conversion.Stable
import LeveledTypes.Proofs.Elaboration.Declaration
import LeveledTypes.Proofs.Elaboration.State
import LeveledTypes.Proofs.Reduction.Holes

/-!
# Solutions do not go round in circles

A hole is only solved by a term that does not lead back to it, where all holes with solutions have
been filled before. So zonking, which follows solutions as far as they go, comes to an end. Besides
this term, a solution has the domains of the type of the hole, and the values that variables have
may get into it, so that neither of these may have holes.
-/
namespace LeveledTypes

namespace Term
variable {sol : ℕ → Option Term} {t s u : Term} {m k N : ℕ} {H L : ℕ → Prop}

theorem LeadsTo.trans (h : LeadsTo sol t m) (hm : sol m = some s) (hs : LeadsTo sol s k) :
    LeadsTo sol t k := by
  induction h with
  | hole hmem => exact .solution hmem hm hs
  | solution hmem hsol _ ih => exact .solution hmem hsol (ih hm)

/-- The solutions with one more. -/
def solving (sol : ℕ → Option Term) (m : ℕ) (u : Term) (k : ℕ) : Option Term :=
  if m = k then some u else sol k

/-- With one more solution, a term leads to what it did, and to what the solution leads to if it
leads to the hole. -/
theorem leadsTo_of_solving (hu : ¬LeadsTo sol u m) (h : LeadsTo (solving sol m u) t k) :
    LeadsTo sol t k ∨ LeadsTo sol t m ∧ LeadsTo sol u k := by
  induction h with
  | hole hmem => exact .inl (.hole hmem)
  | @solution t s j k hmem hs _ ih =>
    unfold solving at hs
    split at hs
    case isTrue hj =>
      subst hj
      obtain rfl := Option.some.inj hs
      obtain h | ⟨h, -⟩ := ih
      · exact .inr ⟨.hole hmem, h⟩
      · exact absurd h hu
    case isFalse => exact ih.imp (.solution hmem hs) fun h => ⟨.solution hmem hs h.1, h.2⟩

theorem LeadsTo.solving (hm : sol m = none) (h : LeadsTo sol t k) :
    LeadsTo (solving sol m u) t k := by
  induction h with
  | hole hmem => exact .hole hmem
  | @solution t s j k hmem hs _ ih =>
    refine .solution hmem ?_ ih
    rw [Term.solving, if_neg, hs]
    rintro rfl
    simp [hm] at hs

/-- The occurs check is exact: a hole may be solved with the terms that do not lead to it. -/
theorem acyclic_solving_iff (h : Acyclic sol) (hm : sol m = none) :
    Acyclic (solving sol m u) ↔ ¬LeadsTo sol u m := by
  refine ⟨fun h' hu => h' m u (if_pos rfl) (hu.solving hm), fun hu k s hk hs => ?_⟩
  unfold solving at hk
  split at hk
  case isTrue hmk =>
    subst hmk
    obtain rfl := Option.some.inj hk
    exact (leadsTo_of_solving hu hs).elim hu fun h => hu h.1
  case isFalse =>
    obtain hs | ⟨hsm, huk⟩ := leadsTo_of_solving hu hs
    · exact h k s hk hs
    · exact hu (huk.trans hk hsm)

/-- A term all of whose holes are unsolved leads to no other holes. -/
theorem HolesIn.of_leadsTo (h : t.HolesIn H L) (hH : ∀ j, H j → sol j = none)
    (hk : LeadsTo sol t k) : H k := by
  cases hk with
  | hole hmem => exact (h _ hmem).1 k rfl
  | solution hmem hs _ => simp [hH _ ((h _ hmem).1 _ rfl)] at hs

/-- Zonking the second term zonks the first one, which is the solution of a hole in it. -/
def Follows (sol : ℕ → Option Term) (s t : Term) : Prop := ∃ m, hole m ∈ t.subterms ∧ sol m = some s

section Depth
variable (hacyclic : Acyclic sol) (hbound : ∀ m, (sol m).isSome → m < N)

open Classical in
/-- The solved holes below a bound that a term leads to. -/
noncomputable def solvedBelow (sol : ℕ → Option Term) (N : ℕ) (t : Term) : Finset ℕ :=
  (Finset.range N).filter fun m => (sol m).isSome ∧ LeadsTo sol t m

include hacyclic hbound

/-- A solution leads to fewer solved holes than the term that its hole is in, as it does not lead to
that hole. -/
theorem card_solvedBelow_lt (h : Follows sol s t) :
    (solvedBelow sol N s).card < (solvedBelow sol N t).card := by
  obtain ⟨m, hmem, hm⟩ := h
  have hsome : (sol m).isSome := by simp [hm]
  refine Finset.card_lt_card (Finset.ssubset_iff_of_subset ?_ |>.mpr ⟨m, ?_, ?_⟩)
  · intro k hk
    simp only [solvedBelow, Finset.mem_filter] at hk ⊢
    exact ⟨hk.1, hk.2.1, .solution hmem hm hk.2.2⟩
  · simpa [solvedBelow, hsome] using ⟨hbound m hsome, LeadsTo.hole hmem⟩
  · simp only [solvedBelow, Finset.mem_filter, not_and]
    exact fun _ _ => hacyclic m s hm

/-- Solutions are followed finitely often. -/
theorem wellFounded_follows : WellFounded (Follows sol) :=
  Subrelation.wf (card_solvedBelow_lt hacyclic hbound)
    (measure fun t => (solvedBelow sol N t).card).wf

/-- Filling to a depth that exceeds the number of holes that a term leads to changes nothing more.
Each round replaces holes by solutions that lead to fewer ones. -/
theorem fillDeep_succ {n : ℕ} (hn : (solvedBelow sol N t).card ≤ n) :
    t.fillDeep sol (n + 1) = t.fillDeep sol n := by
  induction n generalizing t with
  | zero =>
    refine fillWith_eq_self fun m hm => ?_
    cases hs : sol m with
    | none => rfl
    | some s => exact absurd (card_solvedBelow_lt hacyclic hbound ⟨m, hm, hs⟩) (by omega)
  | succ n ih =>
    refine fillWith_congr fun m hm => ?_
    cases hs : sol m with
    | none => rfl
    | some s =>
      have hlt := card_solvedBelow_lt hacyclic hbound ⟨m, hm, hs⟩
      exact congrArg some (ih (by omega))

/-- Filling deeper than the number of holes fills nothing more. -/
theorem fillDeep_of_le {n : ℕ} (hn : N ≤ n) : t.fillDeep sol n = t.fillDeep sol N := by
  induction n, hn using Nat.le_induction with
  | base => rfl
  | succ n hn ih =>
    have hcard : (solvedBelow sol N t).card ≤ N := by
      classical exact (Finset.card_filter_le _ _).trans_eq (Finset.card_range N)
    rw [fillDeep_succ hacyclic hbound (hcard.trans hn), ih]

end Depth

/-- The types of the parameters of a function type. -/
def paramTypes : Term → List Term
  | .pi _ a b => a :: b.paramTypes
  | _ => []

end Term

open Term

/-- The parameters of a solution have the types that the type of the hole has, or the lowest
universe where that type is too short. -/
theorem Converter.type_of_mem_solutionTele {type : Term} {n : ℕ} {p : Param Term}
    (hp : p ∈ solutionTele type n) : p.type ∈ type.paramTypes ∨ p.type = .univ .zero := by
  induction type, n using solutionTele.induct with
  | case1 t => simp [solutionTele] at hp
  | case2 x a b k ih =>
    rw [solutionTele, List.mem_cons] at hp
    obtain rfl | hp := hp
    · exact .inl List.mem_cons_self
    · exact (ih hp).imp_left (List.mem_cons_of_mem a)
  | case3 t k hpi ih =>
    rw [solutionTele.eq_3 _ _ hpi, List.mem_cons] at hp
    obtain rfl | hp := hp
    · exact .inr rfl
    · exact ih hp

theorem Term.HolesAmong.lams {H : ℕ → Prop} {tele : Telescope Term} {t : Term}
    (htele : ∀ p ∈ tele, p.type.HolesAmong H) (ht : t.HolesAmong H) :
    (Term.lams tele t).HolesAmong H := by
  induction tele with
  | nil => exact ht
  | cons p tele ih =>
    obtain ⟨hp, htele⟩ := List.forall_mem_cons.mp htele
    exact holesAmong_iff.mpr (by simpa [Term.lams, parts] using ⟨hp, ih htele⟩)

theorem Converter.holesAmong_patternSolution {H : ℕ → Prop} {type body : Term}
    (htype : ∀ a ∈ type.paramTypes, a.Filled) (hbody : body.HolesAmong H) (n : ℕ) :
    (patternSolution type body n).HolesAmong H := by
  refine HolesAmong.lams (fun p hp => ?_) (holesIn_contractEta hbody)
  obtain hp | hp := type_of_mem_solutionTele hp
  · exact Filled.among (htype _ hp)
  · exact hp ▸ holesAmong_iff.mpr (by simp [parts])

/-- A state whose solutions do not go round in circles, where the terms that solutions are made from
besides the one that was looked for have no holes: the domains of the types of holes, the values of
variables, and what is remembered. -/
structure ConversionState.Tidy (s : ConversionState) : Prop where
  orderly : s.store.Orderly
  domains : ∀ (m : ℕ) (h : Hole), s.store.holes[m]? = some h → ∀ a ∈ h.type.paramTypes, a.Filled
  locals : ∀ k ∈ s.store.constraints, k.locals.Filled
  memo : s.memo.Filled

namespace ConversionState.Tidy
variable {s : ConversionState} {m : ℕ} {u : Term}

theorem empty : ConversionState.Tidy {} where
  orderly :=
    ⟨fun m t h => by simp [Store.solution?] at h, fun m l h => by simp [Store.levelSolution?] at h⟩
  domains m h hm := by simp at hm
  locals := by simp
  memo k v h := by simp at h

/-- A fresh hole has no solution, so it adds nothing to the cycles that solutions could make. -/
theorem fresh (hs : s.Tidy) {ctx : Telescope Term} {type : Term}
    (hdomains : ∀ a ∈ (Term.pis ctx type).paramTypes, a.Filled) (kind : HoleKind) (span : Span) :
    ConversionState.Tidy { s with store := (s.store.fresh ctx type kind span).2 } := by
  have hsolution : (s.store.fresh ctx type kind span).2.solution? = s.store.solution? :=
    funext fun m => Option.ext fun t => Store.solution?_fresh
  refine ⟨⟨?_, hs.orderly.levels⟩, fun m h hm => ?_, hs.locals, hs.memo⟩
  · change Acyclic (s.store.fresh ctx type kind span).2.solution?
    exact hsolution ▸ hs.orderly.acyclic
  · obtain hm | ⟨-, htype⟩ := Store.getElem?_fresh hm
    · exact hs.domains m h hm
    · exact htype ▸ hdomains

/-- Assigning a term that does not lead to the hole keeps the assignments free of cycles: a new
cycle would have to pass through the hole. -/
theorem assign (hs : s.Tidy) (hm : s.store.solution? m = none)
    (hu : ¬LeadsTo s.store.solution? u m) :
    ConversionState.Tidy { s with store := s.store.assign m u } := by
  refine ⟨⟨?_, hs.orderly.levels⟩, fun k h hk => ?_, hs.locals, hs.memo⟩
  · change Acyclic (s.store.assign m u).solution?
    by_cases hlt : m < s.store.holes.size
    · have hsolution : (s.store.assign m u).solution? = solving s.store.solution? m u := by
        funext k
        rw [Store.solution?_assign, solving]
        split
        case isTrue h => rw [← h, Array.getElem?_eq_getElem hlt, Option.map_some]
        case isFalse => rfl
      exact hsolution ▸ (acyclic_solving_iff hs.orderly.acyclic hm).mpr hu
    · have hsolution : (s.store.assign m u).solution? = s.store.solution? := by
        funext k
        rw [Store.solution?_assign]
        split
        case isTrue h => rw [← h, hm, Array.getElem?_eq_none (not_lt.mp hlt), Option.map_none]
        case isFalse => rfl
      exact hsolution ▸ hs.orderly.acyclic
  · change (s.store.assign m u).holes[k]? = some h at hk
    rw [Store.getElem?_assign] at hk
    split at hk
    · obtain ⟨h', hh', rfl⟩ := Option.map_eq_some_iff.mp hk
      exact hs.domains k h' hh'
    · exact hs.domains k h hk

theorem postpone (hs : s.Tidy) {k : Constraint} (hk : k.locals.Filled) :
    ConversionState.Tidy
      { s with store := { s.store with constraints := s.store.constraints ++ [k] } } := by
  refine ⟨⟨hs.orderly.acyclic, hs.orderly.levels⟩, hs.domains, fun k' hk' => ?_, hs.memo⟩
  obtain hk' | rfl := by simpa using hk'
  · exact hs.locals k' hk'
  · exact hk

theorem holeType (hs : s.Tidy) (m : ℕ) : ∀ a ∈ (s.store.holeType m).paramTypes, a.Filled := by
  unfold Store.holeType
  cases h : s.store.holes[m]? with
  | none => exact List.forall_mem_nil _
  | some x => exact hs.domains m x h

end ConversionState.Tidy

namespace Converter
variable {c : Converter} {σ : Store} {binders m : ℕ} {s : ConversionState}

/-- The store is the given one, and what is remembered has no holes. -/
structure Unchanged (σ : Store) (s : ConversionState) : Prop where
  store : s.store = σ
  memo : s.memo.Filled

theorem Unchanged.tidy {t : ConversionState} (h : Unchanged s.store t) (hs : s.Tidy) : t.Tidy := by
  obtain ⟨hstore, hmemo⟩ := h
  exact ⟨hstore ▸ hs.orderly, hstore ▸ hs.domains, hstore ▸ hs.locals, hmemo⟩

/-- Reduction changes only what is remembered. -/
theorem ensures_reduce_filled {α : Type} {f : Reducer → Reduce α} {Q : α → Prop}
    (hf : Ensures (fun s => s.memo.Filled) (f ⟨c.env, σ, c.locals⟩) Q) :
    Ensures (Unchanged σ) (c.reduce f) Q := by
  rintro s ⟨rfl, hmemo⟩
  unfold reduce
  dsimp only
  cases hr : f ⟨c.env, s.store, c.locals⟩ ⟨c.limits.reductionFuel, s.memo⟩ with
  | ok a t =>
    obtain ⟨ht, ha⟩ := hf.ok hmemo hr
    exact ⟨⟨rfl, ht⟩, ha⟩
  | error e t => exact ⟨rfl, hf.error hmemo hr⟩

theorem ensures_tidy {α : Type} {x : Convert α} {Q : α → Prop}
    (hx : ∀ σ, Ensures (Unchanged σ) x Q) :
    Ensures ConversionState.Tidy x Q := by
  refine .of_forall fun s hs =>
    ⟨fun a t h => ?_, fun e t h => ((hx s.store).error ⟨rfl, hs.memo⟩ h).tidy hs⟩
  obtain ⟨ht, ha⟩ := (hx s.store).ok ⟨rfl, hs.memo⟩ h
  exact ⟨ht.tidy hs, ha⟩

section Compare
variable (henv : c.env.Filled) (hL : c.locals.Filled)

include henv hL

theorem unchanged_whnf (t : Term) : Ensures (Unchanged σ) (c.whnf binders t) fun _ => True := by
  have hall (u : Term) : u.HolesAmong fun _ => True :=
    Term.holesIn_of_holes (fun _ _ => trivial) fun _ _ => trivial
  exact ensures_reduce_filled <| .mono (Reducer.fills_whnfGas (r := ⟨c.env, σ, c.locals⟩)
    (H := fun _ => True) henv hL (fun _ _ _ _ => hall _) _ (hall t)) fun _ _ => trivial

/-- Comparing two terms, whatever they are, does not make solutions go round in circles. -/
theorem preserves_tidy : c.Preserves ConversionState.Tidy where
  whnf binders t := ensures_tidy fun σ => unchanged_whnf henv hL t
  addUniverse cmp u v := ensures_addUniverse fun s hs => by
    obtain ⟨p, h, hstore⟩ := addUniverse_fst s.store cmp u v c.span
    rw [hstore]
    exact ⟨⟨hs.orderly.acyclic, hs.orderly.levels⟩, hs.domains, hs.locals, hs.memo⟩
  solve {binders m cmp l r s} hs hl hm := by
    -- The holes of what the hole is solved with: not the hole itself, and none with a solution.
    let H (k : ℕ) : Prop := k ≠ m ∧ s.store.solution? k = none
    have hH : Reducer.Inherited s.store.solution? H := fun k t hk ht => by simp [hk.2] at ht
    have hzonk (t : ConversionState) (ht : Unchanged s.store t)
        (habsent : (t.store.zonk r).holes.contains m = false) : (t.store.zonk r).HolesAmong H := by
      rw [ht.store] at habsent ⊢
      refine Term.holesIn_of_holes
        (fun k hk => ⟨?_, ((hs.orderly.holesIn_zonk r).of_mem_holes hk).1⟩) fun _ _ => trivial
      rintro rfl
      simp [hk] at habsent
    have hnf (t : Term) (ht : t.HolesAmong H) :
        Ensures (Unchanged s.store) (c.reduce (·.nf binders t)) (·.HolesAmong H) :=
      ensures_reduce_filled (Reducer.fills_nfGas (r := ⟨c.env, s.store, c.locals⟩) henv hL hH _ ht)
    have hassign (t : ConversionState) (u : Term) (vars : List ℕ) (body : Term)
        (ht : Unchanged s.store t) (hu : u.HolesAmong H)
        (hbody : u.renameFree? (patternName vars) = some body) :
        let sol := patternSolution (t.store.holeType m) body vars.length
        ConversionState.Tidy { t with store := t.store.assign m sol } := by
      have hname : body.HolesAmong H := (Term.renameFree?_eq_some hbody).2 ▸ holesIn_rename hu _
      have htidy := ht.tidy hs
      refine htidy.assign (ht.store ▸ hm) fun hleads => ?_
      have hsolution := (holesAmong_patternSolution (htidy.holeType m) hname vars.length).of_leadsTo
        (fun k hk => ht.store ▸ hk.2) hleads
      exact hsolution.1 rfl
    have hdefer (t : ConversionState) (r' : Term) (ht : Unchanged s.store t) :
        let ks := t.store.constraints ++ [c.postponed binders cmp l r']
        ConversionState.Tidy { t with store := { t.store with constraints := ks } } := by
      refine (ht.tidy hs).postpone fun v hv => hL v ?_
      obtain hv | hv := List.mem_append.mp hv
      · simp at hv
      · exact hv
    obtain ⟨hok, herror⟩ := outcome_of_solve (R :=
      ConversionState.Tidy) (unchanged_whnf henv hL) hzonk hnf hassign hdefer ⟨rfl, hs.memo⟩
    exact ⟨hok, fun e t h => (herror e t h).tidy hs⟩

end Compare

/-- The states that lead from the empty store by making holes, comparing terms, taking up
constraints, and solving levels, in any order, for any terms, and whether or not a comparison fails.
The types of the parameters of holes have no holes, and neither have definitions and the values of
variables. -/
inductive Reached : ConversionState → Prop
  | start : Reached {}
  | fresh {s : ConversionState} (h : Reached s) (ctx : Telescope Term) (type : Term)
    (kind : HoleKind) (span : Span) (htypes : ∀ a ∈ (Term.pis ctx type).paramTypes, a.Filled) :
    Reached { s with store := (s.store.fresh ctx type kind span).2 }
  | freshUniverse {s : ConversionState} (h : Reached s) :
    Reached { s with store := s.store.freshUniverse.2 }
  | compare {s t : ConversionState} (h : Reached s) (c : Converter) (henv : c.env.Filled)
    (hL : c.locals.Filled) (cmp : Comparison) (l r : Term) (hrun : c.convert cmp l r s = .ok () t ∨
      ∃ e, c.convert cmp l r s = .error e t) :
    Reached t
  | retry {s t : ConversionState} (h : Reached s) (env : Environment) (limits : Limits)
    (henv : env.Filled) (hrun : (∃ b, retryConstraints env limits s = .ok b t) ∨
      ∃ e, retryConstraints env limits s = .error e t) : Reached t
  | solveLevels {s : ConversionState} {store : Store} (h : Reached s)
    (hsolve : s.store.solveLevels = .ok store) : Reached { s with store }

/-- The run lemma: every step keeps the store tidy, so every state that is reached is. -/
theorem tidy_of_reached (h : Reached s) : s.Tidy := by
  induction h with
  | start => exact .empty
  | fresh _ ctx type kind span htypes ih => exact ih.fresh htypes kind span
  | freshUniverse _ ih =>
    exact ⟨⟨ih.orderly.acyclic, ih.orderly.levels⟩, ih.domains, ih.locals, ih.memo⟩
  | compare _ c henv hL cmp l r hrun ih =>
    have hconvert : Ensures ConversionState.Tidy (c.convert cmp l r) fun _ => True :=
      (preserves_tidy henv hL).convert
    obtain hrun | ⟨e, hrun⟩ := hrun
    · exact (hconvert.ok ih hrun).1
    · exact hconvert.error ih hrun
  | retry _ env limits henv hrun ih =>
    have hround : Ensures ConversionState.Tidy (retryOnce env limits) fun _ => True :=
      ensures_retryOnce
        (fun s hs => ⟨⟨hs.orderly.acyclic, hs.orderly.levels⟩, hs.domains, by simp, hs.memo⟩)
        fun s hs k hk => preserves_tidy henv (hs.locals k hk)
    obtain ⟨b, hrun⟩ | ⟨e, hrun⟩ := hrun
    · exact ((ensures_retryConstraints hround).ok ih hrun).1
    · exact (ensures_retryConstraints hround).error ih hrun
  | solveLevels _ hsolve ih =>
    have hlevels := (Store.settled_of_solveLevels hsolve).closed
    obtain ⟨ps, qs, -, -, rfl⟩ := Store.solveLevels_eq_ok hsolve
    exact ⟨⟨ih.orderly.acyclic, hlevels⟩, ih.domains, ih.locals, ih.memo⟩

/-- In every state that is reached, zonking comes to an end: solutions are followed finitely often,
and to a depth that the number of holes bounds. What it gives has neither holes nor level holes with
solutions, and is zonked already. -/
theorem zonk_of_reached (h : Reached s) :
    WellFounded (Term.Follows s.store.solution?) ∧
    ∀ t, (∀ n, s.store.holes.size ≤ n → s.store.zonk t =
      (t.fillDeep s.store.solution? n).fillLevels s.store.levelSolution?) ∧
      (∀ k ∈ (s.store.zonk t).holes, s.store.solution? k = none) ∧
      (∀ k ∈ (s.store.zonk t).levelHoles, s.store.levelSolution? k = none) ∧
      s.store.zonk (s.store.zonk t) = s.store.zonk t := by
  have hs := (tidy_of_reached h).orderly
  have hbound (m : ℕ) : (s.store.solution? m).isSome → m < s.store.holes.size :=
    Store.lt_size_of_solution?
  refine ⟨wellFounded_follows hs.acyclic hbound, fun t => ?_⟩
  have hzonk := hs.holesIn_zonk t
  have hholes (k : ℕ) (hk : k ∈ (s.store.zonk t).holes) : s.store.solution? k = none :=
    (hzonk.of_mem_holes hk).1
  refine ⟨fun n hn => ?_, hholes, fun k hk => hzonk.of_mem_levelHoles hk, ?_⟩
  · rw [Store.zonk, fillDeep_of_le hs.acyclic hbound hn]
  · have hfill := fillDeep_eq_self (fun k hk => hholes k (mem_holes_iff.mpr hk)) s.store.holes.size
    rw [Store.zonk, hfill]
    exact fillLevels_eq_self hzonk

section Example

theorem reached_functionStore : Reached { store := functionStore } := by
  have htypes : ∀ a ∈ (Term.pis [] (.pi (.named "x") .nat .nat)).paramTypes, a.Filled := by
    simpa [Term.pis, paramTypes] using holesAmong_iff.mpr (by simp [parts])
  exact .fresh (.fresh .start [] _ .implicit default htypes) [] _ .implicit default htypes

/-- The first function is compared with the successor of the second one, and is solved. -/
theorem zonk_of_reached_nextValue : ∃ t, Reached t ∧ (t.store.solution? 0).isSome ∧
    WellFounded (Term.Follows t.store.solution?) ∧
    ∀ u, (∀ n, t.store.holes.size ≤ n → t.store.zonk u =
      (u.fillDeep t.store.solution? n).fillLevels t.store.levelSolution?) ∧
      (∀ k ∈ (t.store.zonk u).holes, t.store.solution? k = none) ∧
      (∀ k ∈ (t.store.zonk u).levelHoles, t.store.levelSolution? k = none) ∧
      t.store.zonk (t.store.zonk u) = t.store.zonk u := by
  have henv : emptyConverter.env.Filled := fun n d hd => by
    simp [emptyConverter, Environment.get?, Registry.get?] at hd
  have hL : emptyConverter.locals.Filled := fun v hv => by simp [emptyConverter] at hv
  obtain ⟨t, hrun, hsome⟩ : ∃ t : ConversionState,
      emptyConverter.convert .eq (.app (.hole 0) (.var 0)) nextValue { store := functionStore } =
        .ok () t ∧ (t.store.solution? 0).isSome := ⟨_, rfl, rfl⟩
  have ht : Reached t := .compare reached_functionStore emptyConverter henv hL .eq _ _ (.inl hrun)
  exact ⟨t, ht, hsome, zonk_of_reached ht⟩

end Example

end Converter

end LeveledTypes
