import LeveledTypes.Proofs.Conversion.Growth
import LeveledTypes.Proofs.Conversion.PatternRule
import LeveledTypes.Proofs.Conversion.Solving
import LeveledTypes.Proofs.Conversion.Stable
import Mathlib.Data.Prod.Lex

/-!
# Taking up constraints

Constraints are taken up in rounds, as long as a round leaves fewer constraints or fewer unsolved
holes than there were before it. No comparison makes a hole or takes a solution back. A round that
solves no hole may leave more constraints than there were, but then each of them has an unsolved
hole at its head, and as long as no hole is solved it stays one constraint. So a round that helped
is not undone by a later one that did not.
-/
namespace LeveledTypes

section Loops
variable {σ ρ : Type}

/-- What a round of a loop comes to. -/
inductive Turn (σ ρ : Type) where
  /-- There is another round. -/
  | again (s : σ)
  /-- The loop is left. -/
  | done (r : ρ)

/-- The loop is left after finitely many rounds, with a result. -/
inductive Ends (turn : σ → Turn σ ρ) : σ → ρ → Prop
  | done {s : σ} {r : ρ} (h : turn s = .done r) : Ends turn s r
  | again {s t : σ} {r : ρ} (h : turn s = .again t) (ht : Ends turn t r) : Ends turn s r

/-- A loop is a function of its state: it ends with one result at most. -/
theorem Ends.unique {turn : σ → Turn σ ρ} {s : σ} {r r' : ρ} (h : Ends turn s r)
    (h' : Ends turn s r') : r = r' := by
  induction h with
  | done h =>
    cases h' with
    | done h' => exact Turn.done.inj (h.symm.trans h')
    | again h' _ => simp [h] at h'
  | again h _ ih =>
    cases h' with
    | done h' => simp [h] at h'
    | again h' ht =>
      obtain rfl := Turn.again.inj (h.symm.trans h')
      exact ih ht

end Loops

namespace Store
variable {s t : Store} {m : ℕ} {u : Term}

/-- The fold counts the holes without a solution. -/
theorem unsolvedCount_eq (s : Store) :
    s.unsolvedCount = s.holes.toList.countP (·.solution.isNone) := by
  have hcount (hs : List Hole) (n : ℕ) :
      hs.foldl (fun n h => if h.solution.isNone then n + 1 else n) n =
      n + hs.countP (·.solution.isNone) := by
    induction hs generalizing n with
    | nil => rfl
    | cons h hs ih =>
      rw [List.foldl_cons, ih, List.countP_cons]
      by_cases hnone : h.solution.isNone = true
      · rw [if_pos hnone, if_pos hnone]
        omega
      · rw [if_neg hnone, if_neg hnone]
        omega
  rw [unsolvedCount, ← Array.foldl_toList, hcount, Nat.zero_add]

/-- A hole that gets a solution is counted no more. -/
theorem countP_modify {hs : List Hole} {h : Hole} (hm : hs[m]? = some h)
    (hnone : h.solution = none) (u : Term) :
    (hs.modify m fun h => { h with solution := some u }).countP (·.solution.isNone) + 1 =
      hs.countP (·.solution.isNone) := by
  induction hs generalizing m with
  | nil => simp at hm
  | cons x hs ih =>
    cases m with
    | zero =>
      obtain rfl := Option.some.inj hm
      simp [hnone]
    | succ m =>
      have hrest := ih (m := m) hm
      simp only [List.modify_succ_cons, List.countP_cons]
      omega

/-- A hole that gets a solution is not counted any more. -/
theorem unsolvedCount_assign (hm : s.solution? m = none) (u : Term) :
    (s.assign m u).unsolvedCount < s.unsolvedCount ∨ s.assign m u = s := by
  cases h : s.holes[m]? with
  | none =>
    have hholes : (s.assign m u).holes = s.holes := by
      refine Array.ext_getElem? fun k => ?_
      rw [getElem?_assign]
      split
      case isTrue hk => rw [← hk, h, Option.map_none]
      case isFalse => rfl
    exact .inr (congrArg (fun holes => { s with holes }) hholes)
  | some x =>
    have hnone : x.solution = none := by simpa [solution?, h] using hm
    have hcount := countP_modify (Array.getElem?_toList.trans h) hnone u
    rw [unsolvedCount_eq, unsolvedCount_eq, assign, Array.toList_modify]
    exact .inl (by omega)

theorem unsolvedCount_addUniverse (s : Store) (cmp : Comparison) (v w : Universe) (span : Span) :
    (s.addUniverse cmp v w span).1.unsolvedCount = s.unsolvedCount := by
  rw [unsolvedCount, Converter.holes_addUniverse, unsolvedCount]

/-- How much there is left to do: the unsolved holes, and then the constraints. -/
def left (s : Store) : ℕ ×ₗ ℕ := toLex (s.unsolvedCount, s.constraints.length)

theorem left_lt_iff : s.left < t.left ↔ s.unsolvedCount < t.unsolvedCount ∨
    s.unsolvedCount = t.unsolvedCount ∧ s.constraints.length < t.constraints.length :=
      Prod.Lex.toLex_lt_toLex

theorem left_le_of_length (h : s.unsolvedCount = t.unsolvedCount)
    (hlen : s.constraints.length ≤ t.constraints.length) :
    s.left ≤ t.left := Prod.Lex.toLex_le_toLex.mpr (.inr ⟨h, hlen⟩)

end Store

/-- A constraint with an unsolved hole at its head. -/
def Constraint.Headed (s : Store) (k : Constraint) : Prop :=
  ∃ m, k.lhs.headHole? = some m ∧ s.solution? m = none

/-- What taking up constraints makes of a store. Fewer holes are unsolved, or the same; in the
latter case the constraints that are kept have unsolved holes at their heads. -/
structure Store.Continues (σ s : Store) : Prop where
  unsolvedCount : s.unsolvedCount ≤ σ.unsolvedCount
  solution? : s.unsolvedCount = σ.unsolvedCount → s.solution? = σ.solution?
  headed : s.unsolvedCount = σ.unsolvedCount → ∀ k ∈ s.constraints, k.Headed σ

namespace Store.Continues
variable {σ s : Store} {m : ℕ} {u : Term} {k : Constraint}

theorem start (σ : Store) : σ.Continues { σ with constraints := [] } :=
  ⟨le_rfl, fun _ => rfl, fun _ => by simp⟩

theorem addUniverse (h : σ.Continues s) {cmp : Comparison} {v w : Universe} {span : Span} :
    σ.Continues (s.addUniverse cmp v w span).1 := by
  have hholes := Converter.holes_addUniverse s cmp v w span
  have hconstraints : (s.addUniverse cmp v w span).1.constraints = s.constraints := by
    obtain ⟨p, h, hstore⟩ := Converter.addUniverse_fst s cmp v w span
    rw [hstore]
  have hcount := unsolvedCount_addUniverse s cmp v w span
  refine ⟨hcount ▸ h.unsolvedCount, fun heq => ?_,
    fun heq => hconstraints ▸ h.headed (hcount ▸ heq)⟩
  rw [← h.solution? (hcount ▸ heq)]
  funext m
  rw [Store.solution?, hholes, Store.solution?]

theorem assign (h : σ.Continues s) (hm : s.solution? m = none) : σ.Continues (s.assign m u) := by
  obtain hlt | heq := unsolvedCount_assign hm u
  · have hlt' := hlt.trans_le h.unsolvedCount
    exact ⟨hlt'.le, fun heq => absurd heq hlt'.ne, fun heq => absurd heq hlt'.ne⟩
  · rwa [heq]

theorem postpone (h : σ.Continues s) (hk : k.Headed s) :
    σ.Continues { s with constraints := s.constraints ++ [k] } := by
  refine ⟨h.unsolvedCount, h.solution?, fun heq k' hk' => ?_⟩
  obtain hk' | rfl := by simpa using hk'
  · exact h.headed heq k' hk'
  · obtain ⟨m, hl, hm⟩ := hk
    exact ⟨m, hl, h.solution? heq ▸ hm⟩

end Store.Continues

namespace Converter
variable {σ : Store} {c : Converter} {env : Environment} {limits : Limits} {cmp : Comparison}
  {l r : Term} {m : ℕ} {s t : ConversionState}

theorem preserves_continues (σ : Store) (c : Converter) :
    c.Preserves fun s => σ.Continues s.store where
  whnf _ _ := stays_whnf
  addUniverse _ _ _ := stays_addUniverse fun _ hs => hs.addUniverse
  solve hs hl hm := by
    obtain ⟨hok, herror⟩ := store_of_solve
    refine ⟨fun t h => ?_, fun e t h => herror e t h ▸ hs⟩
    obtain ⟨u, hu⟩ | ⟨r', hr'⟩ := hok t h
    · exact hu ▸ hs.assign hm
    · exact hr' ▸ hs.postpone ⟨_, hl, hm⟩

/-- Conversion makes no holes, so that at most as many are unsolved after it as before. -/
theorem preserves_unsolvedCount (n : ℕ) (c : Converter) :
    c.Preserves fun s => s.store.unsolvedCount ≤ n where
  whnf _ _ := stays_whnf (I := (·.unsolvedCount ≤ n))
  addUniverse _ _ _ := stays_addUniverse (I := (·.unsolvedCount ≤ n)) fun s hs => by
    rwa [s.unsolvedCount_addUniverse]
  solve hs _ hm := by
    obtain ⟨hok, herror⟩ := store_of_solve
    refine ⟨fun t h => ?_, fun e t h => herror e t h ▸ hs⟩
    obtain ⟨u, hu⟩ | ⟨r', hr'⟩ := hok t h
    · obtain hlt | heq := Store.unsolvedCount_assign hm u
      · exact hu ▸ hlt.le.trans hs
      · rwa [hu, heq]
    · rwa [hr']

section Rounds
variable {ks : List Constraint}

/-- Takes up each of some constraints. -/
def takeUp (env : Environment) (limits : Limits) (ks : List Constraint) : Convert Unit :=
  ks.forM fun k => convert ⟨env, k.locals, limits, k.span⟩ k.cmp k.lhs k.rhs

theorem retryOnce_eq : retryOnce env limits s =
    takeUp env limits s.store.constraints { s with store := { s.store with constraints := [] } } :=
      rfl

theorem ensures_takeUp {I : ConversionState → Prop} (hI : ∀ c : Converter, c.Preserves I) :
    Ensures I (takeUp env limits ks) fun _ => True := .forM fun _ _ => (hI _).convert

/-- One round of taking up the constraints. -/
theorem continues_retryOnce (h : retryOnce env limits s = .ok () t) : s.store.Continues t.store :=
  ((ensures_takeUp (preserves_continues s.store)).ok (.start s.store) (retryOnce_eq ▸ h)).1

/-- A problem with an unsolved hole at its head becomes one constraint at most. -/
theorem constraints_of_convert (hl : l.headHole? = some m) (hm : s.store.solution? m = none)
    (h : c.convert cmp l r s = .ok () t) :
    t.store.constraints.length ≤ s.store.constraints.length + 1 := by
  have hsame {u : ConversionState} {memo : Memo}
      (h : EStateM.Result.ok () { s with memo } = (.ok () u :
      EStateM.Result Error ConversionState Unit)) :
        u.store.constraints.length ≤ s.store.constraints.length + 1 := by
    obtain ⟨-, rfl⟩ := EStateM.Result.ok.inj h
    exact Nat.le_succ _
  unfold convert convertIn at h
  split at h
  case isTrue => exact hsame h
  case isFalse =>
    cases hroom : c.limits.conversionDepth with
    | zero =>
      simp only [hroom] at h
      contradiction
    | succ room =>
      simp only [hroom] at h
      unfold convertWith at h
      have hwhnf : c.whnf 0 ((Term.hole m).apps l.spine.2) s = .ok _ s :=
        whnf_hole_apps hm l.spine.2
      rw [hole_apps_of_headHole? hl] at hwhnf
      rw [bind_of_ok hwhnf] at h
      obtain ⟨r', u, hr', h⟩ := bind_eq_ok.mp h
      obtain ⟨⟨memo, rfl⟩, -⟩ := headNormal_of_whnf hr'
      split at h
      case isTrue => exact hsame h
      case isFalse =>
        have hget : (get : Convert ConversionState) { s with memo } = .ok { s with memo }
            { s with memo } := rfl
        rw [bind_of_ok hget] at h
        simp only [hl, Option.filter_some, hm, Option.isNone_none, if_true] at h
        obtain ⟨u, hu⟩ | ⟨_, hr⟩ := store_of_solve.1 _ h
        · rw [hu]
          exact Nat.le_succ _
        · simp [hr]

/-- A round that solves no hole does not leave more constraints than there were, if these have
unsolved holes at their heads. -/
theorem constraints_of_retryOnce (hs : ∀ k ∈ s.store.constraints, k.Headed s.store)
    (h : retryOnce env limits s = .ok () t)
    (hcount : t.store.unsolvedCount = s.store.unsolvedCount) :
    t.store.constraints.length ≤ s.store.constraints.length := by
  suffices hrun : ∀ ks : List Constraint, (∀ k ∈ ks, k.Headed s.store) → ∀ u : ConversionState,
      s.store.Continues u.store → takeUp env limits ks u = .ok () t →
      t.store.constraints.length ≤ u.store.constraints.length + ks.length by
    exact (hrun _ hs _ (.start s.store) (retryOnce_eq ▸ h)).trans (Nat.zero_add _).le
  intro ks hks
  induction ks with
  | nil =>
    intro u _ h
    obtain ⟨-, rfl⟩ := EStateM.Result.ok.inj h
    exact Nat.le_add_right _ _
  | cons k ks ih =>
    intro u hu h
    obtain ⟨⟨m, hl, hm⟩, hks⟩ := List.forall_mem_cons.mp hks
    have hfewer : t.store.unsolvedCount ≤ u.store.unsolvedCount :=
      ((ensures_takeUp (preserves_unsolvedCount u.store.unsolvedCount)).ok le_rfl h).1
    obtain ⟨_, v, hk, h⟩ := bind_eq_ok.mp h
    -- No hole is solved on the whole way, so that the hole at the head is unsolved when its turn
    -- comes.
    have hsolution : u.store.solution? = s.store.solution? :=
      hu.solution? (hu.unsolvedCount.antisymm (hcount ▸ hfewer))
    have hv := constraints_of_convert hl (congrFun hsolution m ▸ hm) hk
    have hrest := ih hks v ((preserves_continues s.store _).convert.ok hu hk).1 h
    rw [List.length_cons]
    omega

end Rounds

section Loop

/-- A round helped if fewer constraints are left, or fewer holes are unsolved. -/
def Helped (s t : Store) : Prop := t.constraints.length < s.constraints.length ∨
    t.unsolvedCount < s.unsolvedCount

instance (s t : Store) : Decidable (Helped s t) := inferInstanceAs (Decidable (_ ∨ _))

/-- A round of the loop that takes up the constraints. The loop is left when there are none, when a
comparison fails, and when a round did not help; it tells whether any round helped. -/
def retryTurn (env : Environment) (limits : Limits) :
    Bool × ConversionState → Turn (Bool × ConversionState)
      (EStateM.Result Error ConversionState Bool)
  | (progress, s) =>
    if s.store.constraints = [] then .done (.ok progress s)
    else
      match retryOnce env limits s with
      | .error e t => .done (.error e t)
      | .ok () t => if Helped s.store t.store then .again (true, t) else .done (.ok progress t)

/-- After a round, less is left to do just if the round helped. -/
theorem left_lt_iff_helped (h : retryOnce env limits s = .ok () t) :
    t.store.left < s.store.left ↔ Helped s.store t.store := by
  have hcount := (continues_retryOnce h).unsolvedCount
  rw [Store.left_lt_iff, Helped]
  omega

/-- The loop is left with what `retryFrom` gives. -/
theorem ends_retryFrom (progress : Bool) (s : ConversionState) :
    Ends (retryTurn env limits) (progress, s) (retryFrom env limits progress s) := by
  induction progress, s using retryFrom.induct env limits with
  | case1 progress s pending hpending =>
    rw [retryFrom, if_pos hpending]
    exact .done (if_pos (List.length_eq_zero_iff.mp hpending))
  | case2 progress s pending hpending e t hr =>
    unfold retryFrom
    simp only [hr]
    rw [if_neg hpending]
    refine .done ?_
    rw [retryTurn, if_neg fun h => hpending (List.length_eq_zero_iff.mpr h), hr]
  | case3 progress s unsolved pending hpending t hr hless ih =>
    unfold retryFrom
    simp only [hr]
    rw [if_neg hpending, if_pos hless]
    refine .again ?_ ih
    rw [retryTurn, if_neg fun h => hpending (List.length_eq_zero_iff.mpr h), hr]
    exact if_pos ((left_lt_iff_helped hr).mp (Store.left_lt_iff.mpr hless))
  | case4 progress s unsolved pending hpending t hr hless =>
    unfold retryFrom
    simp only [hr]
    rw [if_neg hpending, if_neg hless]
    refine .done ?_
    rw [retryTurn, if_neg fun h => hpending (List.length_eq_zero_iff.mpr h), hr]
    exact if_neg fun h => hless (Store.left_lt_iff.mp ((left_lt_iff_helped hr).mpr h))

theorem unsolvedCount_of_retryFrom {progress b : Bool}
    (h : retryFrom env limits progress s = .ok b t) :
    t.store.unsolvedCount ≤ s.store.unsolvedCount := by
  have hround : Ensures (fun t => t.store.unsolvedCount ≤ s.store.unsolvedCount)
      (retryOnce env limits) fun _ => True :=
    ensures_retryOnce (fun _ hs => hs) fun _ _ _ _ =>
      preserves_unsolvedCount s.store.unsolvedCount _
  exact ((ensures_retryFrom hround progress).ok le_rfl h).1

/-- A round that helped is not undone by what comes after it. -/
theorem left_of_round {u : ConversionState} {b : Bool} (hr : retryOnce env limits s = .ok () u)
    (hless : u.store.left < s.store.left) (h : retryFrom env limits true u = .ok b t)
    (hleft : (∀ k ∈ u.store.constraints, k.Headed u.store) → t.store.left ≤ u.store.left) :
    t.store.left < s.store.left := by
  have hround := continues_retryOnce hr
  obtain hlt | heq := hround.unsolvedCount.lt_or_eq
  · exact Store.left_lt_iff.mpr (.inl ((unsolvedCount_of_retryFrom h).trans_lt hlt))
  · refine (hleft fun k hk => ?_).trans_lt hless
    obtain ⟨m, hl, hm⟩ := hround.headed heq k hk
    exact ⟨m, hl, hround.solution? heq ▸ hm⟩

/-- Once a round has solved no hole, nothing is undone. The last round may leave as much to do as
there was, as it is only followed by another one if it helped. -/
theorem left_of_retryFrom {progress b : Bool} (hs : ∀ k ∈ s.store.constraints, k.Headed s.store)
    (h : retryFrom env limits progress s = .ok b t) : t.store.left ≤ s.store.left := by
  induction progress, s using retryFrom.induct env limits with
  | case1 progress s pending hpending =>
    rw [retryFrom, if_pos hpending] at h
    obtain ⟨-, rfl⟩ := EStateM.Result.ok.inj h
    exact le_rfl
  | case2 progress s pending hpending e u hr =>
    unfold retryFrom at h
    simp only [hr] at h
    rw [if_neg hpending] at h
    contradiction
  | case3 progress s unsolved pending hpending u hr hless ih =>
    unfold retryFrom at h
    simp only [hr] at h
    rw [if_neg hpending, if_pos hless] at h
    refine (left_of_round hr (Store.left_lt_iff.mpr hless) h fun hu => ih hu h).le
  | case4 progress s unsolved pending hpending u hr hless =>
    unfold retryFrom at h
    simp only [hr] at h
    rw [if_neg hpending, if_neg hless] at h
    obtain ⟨-, rfl⟩ := EStateM.Result.ok.inj h
    have hcount := (continues_retryOnce hr).unsolvedCount
    have heq : u.store.unsolvedCount = s.store.unsolvedCount := by omega
    exact Store.left_le_of_length heq (constraints_of_retryOnce hs hr heq)

/-- If taking up the constraints helped, less is left to do. -/
theorem left_lt_of_retryConstraints (h : retryConstraints env limits s = .ok true t) :
    t.store.left < s.store.left := by
  unfold retryConstraints at h
  rw [retryFrom] at h
  split at h
  case isTrue => cases h
  case isFalse =>
    split at h
    case h_1 => contradiction
    case h_2 u hr =>
      split at h
      case isTrue hless =>
        exact left_of_round hr (Store.left_lt_iff.mpr hless) h fun hu => left_of_retryFrom hu h
      case isFalse => cases h

end Loop

end Converter

end LeveledTypes
