import LeveledTypes.Proofs.Conversion.Run
import LeveledTypes.Proofs.Ensures

/-!
# Stable properties of the store

A comparison changes the state only through reductions, constraints on levels, and problems that a
hole heads, so what these keep is kept by every comparison, however it ends. Elaboration changes the
store of holes in few ways. A property of stores is stable if each of them keeps it; then
comparisons keep it, as reduction keeps the store as it is.
-/
namespace LeveledTypes

/-- What all changes to a store keep. A hole gets a solution only after it had none in a store with
the property; nothing is known of the solution. -/
structure Store.Stable (I : Store → Prop) : Prop where
  fresh {s : Store} (ctx : Telescope Term) (type : Term) (kind : HoleKind) (span : Span) :
    I s → I (s.fresh ctx type kind span).2
  freshUniverse {s : Store} : I s → I s.freshUniverse.2
  addUniverse {s : Store} (cmp : Comparison) (u v : Universe) (span : Span) :
    I s → I (s.addUniverse cmp u v span).1
  assign {s s' : Store} {m : ℕ} (t : Term) : I s → s.solution? m = none → I s' → I (s'.assign m t)
  constraints {s : Store} (ks : List Constraint) : I s → I { s with constraints := ks }
  levelSolutions {s : Store} (ls : List (ℕ × Level)) : I s → I { s with levelSolutions := ls }

namespace Converter

/-- The steps that comparisons are made of keep a property of the state, whatever the terms are. A
problem is given to the hole at the head of its left side, which has no solution then. -/
structure Preserves (c : Converter) (I : ConversionState → Prop) : Prop where
  whnf (binders : ℕ) (t : Term) : Ensures I (c.whnf binders t) fun _ => True
  addUniverse (cmp : Comparison) (u v : Universe) : Ensures I (c.addUniverse cmp u v) fun _ => True
  solve {binders m : ℕ} {cmp : Comparison} {l r : Term} {s : ConversionState} (hs : I s)
    (hl : l.headHole? = some m) (hm : s.store.solution? m = none) :
    (∀ t, c.solve binders m cmp l r s = .ok () t → I t) ∧
    ∀ e t, c.solve binders m cmp l r s = .error e t → I t

section Runs
variable {I : ConversionState → Prop} {c : Converter} {binders : ℕ} {l r : Term} {cmp : Comparison}

theorem ensures_mismatch {Q : Unit → Prop} : Ensures I (c.mismatch l r) Q := .throw _

/-- Looking for a pattern reduces arguments and changes nothing else. -/
theorem ensures_patternVars (hwhnf : ∀ t, Ensures I (c.whnf binders t) fun _ => True)
    {args : List Term} {vars : List ℕ} :
    Ensures I (c.patternVars binders args vars) fun _ => True := by
  induction args generalizing vars with
  | nil => exact .pure trivial
  | cons a args ih =>
    unfold patternVars
    split
    case' h_1 => refine .bind (.pure (P := fun _ => True) trivial) fun a' _ => ?_
    case' h_2 => refine .bind (hwhnf _) fun a' _ => ?_
    -- Either way, the search goes on if the argument is a variable that was not there.
    all_goals
      beta_reduce
      split
      · split
        · exact .pure trivial
        · exact ih
      · exact .pure trivial

theorem ensures_addUniverse {u v : Universe}
    (hadd : ∀ s, I s → I { s with store := (s.store.addUniverse cmp u v c.span).1 }) :
    Ensures I (c.addUniverse cmp u v) fun _ => True := by
  intro s hs
  have hstore := hadd s hs
  unfold addUniverse
  cases hr : s.store.addUniverse cmp u v c.span with
  | mk store e =>
    rw [hr] at hstore
    cases e with
    | none => exact ⟨hstore, trivial⟩
    | some e => exact hstore

theorem ensures_all {eq : Term → Term → Convert Unit}
    (heq : ∀ {a b : Term}, Ensures I (eq a b) fun _ => True) {xs ys : List Term} :
    Ensures I (c.all eq xs ys) fun _ => True := by
  unfold all
  split
  · exact .throw _
  · exact .forM fun _ _ => heq

namespace Preserves
variable (hc : c.Preserves I)

include hc

section Shapes
variable {conv : ℕ → Comparison → Term → Term → Convert Unit}
  (hconv : ∀ {k : ℕ} {cmp : Comparison} {a b : Term}, Ensures I (conv k cmp a b) fun _ => True)

include hconv

/-- The comparison of rigid sides consists of comparisons of parts, failures, and demands on levels.
-/
theorem rigid : Ensures I (c.rigid conv cmp l r) fun _ => True := by
  unfold Converter.rigid
  extract_lets eq
  split
  case h_1 => exact hc.addUniverse _ _ _
  case h_2 =>
    split
    · exact hc.addUniverse _ _ _
    · exact ensures_mismatch
  case h_3 =>
    split
    · exact .bind hconv fun _ _ => hconv
    · exact ensures_mismatch
  case h_5 | h_6 =>
    split
    · exact .bind (hc.addUniverse _ _ _) fun _ _ => ensures_all hconv
    · exact ensures_mismatch
  case h_7 =>
    split
    · exact ensures_all hconv
    · exact ensures_mismatch
  case h_8 => exact hconv
  case h_9 | h_10 =>
    split
    · exact hconv
    · exact ensures_mismatch
  case h_4 | h_12 | h_15 => exact .bind hconv fun _ _ => hconv
  case h_11 | h_13 => exact .bind hconv fun _ _ => .bind hconv fun _ _ => hconv
  case h_14 =>
    split
    · refine .bind hconv fun _ _ => .forM fun p _ => ?_
      dsimp only
      split
      · exact ensures_mismatch
      · exact hconv
    · exact ensures_mismatch
  case h_16 => exact ensures_mismatch

/-- Apart from solving a hole, comparing two shapes only leads to further comparisons. -/
theorem shapes : Ensures I (c.shapes conv cmp l r) fun _ => True := by
  unfold Converter.shapes
  extract_lets eq recordLeft
  split
  case h_4 | h_5 | h_6 => exact .bind hconv fun _ _ => hconv
  case h_7 =>
    split
    · exact ensures_all hconv
    · exact .forM fun _ _ => hconv
  case h_8 | h_9 => exact .forM fun _ _ => hconv
  case h_13 => exact hc.rigid hconv
  all_goals exact hconv

/-- A round of comparison reduces both sides, solves a hole or keeps a problem, or compares parts;
an invariant that each of these keeps is kept. -/
theorem convertWith : Ensures I (c.convertWith binders conv cmp l r) fun _ => True := by
  unfold Converter.convertWith
  refine .bind (hc.whnf _ _) fun l' _ => .bind (hc.whnf _ _) fun r' _ => ?_
  split
  case isTrue => exact .pure trivial
  case isFalse =>
    refine .of_forall fun s hs => ?_
    have hget : (get : Convert ConversionState) s = .ok s s := rfl
    rw [bind_of_ok hget]
    have hsolve {a b : Term} {m : ℕ}
        (h : (a.headHole?.filter fun m => (s.store.solution? m).isNone) = some m) :
        (∀ u t, c.solve binders m cmp a b s = .ok u t → I t ∧ True) ∧
          ∀ e t, c.solve binders m cmp a b s = .error e t → I t := by
      obtain ⟨ha, hm⟩ := Option.filter_eq_some_iff.mp h
      obtain ⟨hok, herror⟩ : (∀ t, c.solve binders m cmp a b s = .ok () t → I t) ∧
          ∀ e t, c.solve binders m cmp a b s = .error e t → I t :=
            hc.solve hs ha (by simpa using hm)
      exact ⟨fun _ t ht => ⟨hok t ht, trivial⟩, herror⟩
    beta_reduce
    cases hl : l'.headHole?.filter fun m => (s.store.solution? m).isNone with
    | some m => exact hsolve hl
    | none =>
      cases hr : r'.headHole?.filter fun m => (s.store.solution? m).isNone with
      | some m => exact hsolve hr
      | none =>
        have hshapes : Ensures I (c.shapes conv cmp l' r') fun _ => True := hc.shapes hconv
        exact ⟨fun _ _ => hshapes.ok hs, fun _ _ => hshapes.error hs⟩

end Shapes

theorem convertIn (room : ℕ) : Ensures I (c.convertIn room binders cmp l r) fun _ => True := by
  induction room generalizing binders cmp l r with
  | zero =>
    unfold Converter.convertIn
    split
    · exact .pure trivial
    · exact .throw _
  | succ room ih =>
    unfold Converter.convertIn
    split
    · exact .pure trivial
    · exact hc.convertWith ih

theorem convert : Ensures I (c.convert cmp l r) fun _ => True := hc.convertIn _

end Preserves

variable {env : Environment} {limits : Limits}

theorem ensures_retryOnce
    (hnone : ∀ s, I s → I { s with store := { s.store with constraints := [] } })
    (hc : ∀ s, I s → ∀ k ∈ s.store.constraints,
      (⟨env, k.locals, limits, k.span⟩ : Converter).Preserves I) :
    Ensures I (retryOnce env limits) fun _ => True := by
  refine .bind (P := I) (fun s hs => ⟨hs, hs⟩) fun s hs => ?_
  exact .bind (P := fun _ => True) (fun u hu => ⟨hnone u hu, trivial⟩) fun _ _ => .forM fun k hk =>
    (hc s hs k hk).convert

/-- Taking up the constraints until that no longer helps. -/
theorem ensures_retryFrom (hround : Ensures I (retryOnce env limits) fun _ => True)
    (progress : Bool) : Ensures I (retryFrom env limits progress) fun _ => True := by
  intro s hs
  have hrun := hround s hs
  induction progress, s using retryFrom.induct env limits with
  | case1 progress s pending hpending =>
    rw [retryFrom, if_pos hpending]
    exact ⟨hs, trivial⟩
  | case2 progress s pending hpending e t hr =>
    rw [hr] at hrun
    unfold retryFrom
    simp only [hr]
    rw [if_neg hpending]
    exact hrun
  | case3 progress s unsolved pending hpending t hr hless ih =>
    rw [hr] at hrun
    unfold retryFrom
    simp only [hr]
    rw [if_neg hpending, if_pos hless]
    exact ih hrun.1 (hround t hrun.1)
  | case4 progress s unsolved pending hpending t hr hless =>
    rw [hr] at hrun
    unfold retryFrom
    simp only [hr]
    rw [if_neg hpending, if_neg hless]
    exact ⟨hrun.1, trivial⟩

theorem ensures_retryConstraints (hround : Ensures I (retryOnce env limits) fun _ => True) :
    Ensures I (retryConstraints env limits) fun _ => True := ensures_retryFrom hround false

end Runs

/-- A run that keeps a property of the store, and returns what is said. -/
abbrev Stays {α : Type} (I : Store → Prop) (x : Convert α) (Q : α → Prop) : Prop :=
  Ensures (fun s => I s.store) x Q

section Stores
variable {I : Store → Prop} {α : Type} {c : Converter} {binders : ℕ} {t l r : Term}
  {cmp : Comparison}

theorem stays_reduce {f : Reducer → Reduce α} : Stays I (c.reduce f) fun _ => True := by
  intro s hs
  unfold reduce
  dsimp only
  cases f ⟨c.env, s.store, c.locals⟩ ⟨c.limits.reductionFuel, s.memo⟩ with
  | ok a t => exact ⟨hs, trivial⟩
  | error e t => exact hs

theorem stays_whnf : Stays I (c.whnf binders t) fun _ => True := stays_reduce

theorem stays_addUniverse {u v : Universe} (hadd : ∀ s, I s → I (s.addUniverse cmp u v c.span).1) :
    Stays I (c.addUniverse cmp u v) fun _ => True := ensures_addUniverse fun s => hadd s.store

end Stores

section Solve
variable {c : Converter} {binders m : ℕ} {cmp : Comparison} {l r : Term} {s t : ConversionState}

/-- A problem that is kept for later, with one of its sides reduced. -/
def postponed (c : Converter) (binders : ℕ) (cmp : Comparison) (l r : Term) : Constraint :=
  ⟨l, r, cmp, List.replicate binders none ++ c.locals, c.span⟩

/-- All that becomes of a problem with a hole at its head. What is said of states by `K` is kept up
to the last step, which solves the hole or keeps the problem for later; the term that the hole is
solved with comes from one with `P`. -/
theorem outcome_of_solve {K R : ConversionState → Prop} {P : Term → Prop}
    (hwhnf : ∀ t, Ensures K (c.whnf binders t) fun _ => True)
    (hzonk : ∀ s, K s → (s.store.zonk r).holes.contains m = false → P (s.store.zonk r))
    (hnf : ∀ t, P t → Ensures K (c.reduce (·.nf binders t)) P)
    (hassign : ∀ s t vars body, K s → P t → t.renameFree? (patternName vars) = some body →
      R { s with
        store := s.store.assign m (patternSolution (s.store.holeType m) body vars.length) })
    (hdefer : ∀ s r', K s → R { s with
      store := { s.store with constraints := s.store.constraints ++ [c.postponed binders cmp l r'] }
        }) (hs : K s) :
    (∀ t, c.solve binders m cmp l r s = .ok () t → R t) ∧
    ∀ e t, c.solve binders m cmp l r s = .error e t → K t := by
  let Outcome (x : Convert Unit) : Prop := ∀ s, K s → (∀ t, x s = .ok () t → R t) ∧
    ∀ e t, x s = .error e t → K t
  have hbind {α : Type} {x : Convert α} {f : α → Convert Unit} {Q : α → Prop} (hx : Ensures K x Q)
      (hf : ∀ a, Q a → Outcome (f a)) : Outcome (x >>= f) := by
    intro s hs
    cases h : x s with
    | ok a t =>
      rw [bind_of_ok h]
      obtain ⟨ht, ha⟩ := hx.ok hs h
      exact hf a ha t ht
    | error e t =>
      rw [bind_of_error h]
      refine ⟨fun _ h => by contradiction, fun e' t' h' => ?_⟩
      obtain ⟨-, rfl⟩ := EStateM.Result.error.inj h'
      exact hx.error hs h
  have hkept (r' : Term) : Outcome (c.defer binders cmp l r') := by
    refine fun s hs => ⟨fun t h => ?_, fun _ _ h => by contradiction⟩
    obtain ⟨-, rfl⟩ := EStateM.Result.ok.inj h
    exact hdefer s r' hs
  suffices h : Outcome (c.solve binders m cmp l r) from h s hs
  unfold solve
  refine hbind (ensures_patternVars hwhnf) fun o _ => ?_
  split
  case h_1 => exact hkept r
  case h_2 vars =>
    refine hbind (Q := K) (fun s hs => ⟨hs, hs⟩) fun s hs => ?_
    have hrhs := hzonk s hs
    extract_lets rhs n rename assign join
    have hsolved {t body : Term} (ht : P t) (hbody : rename t = some body) :
        Outcome (assign body) := by
      refine fun s hs => ⟨fun u h => ?_, fun _ _ h => by contradiction⟩
      obtain ⟨-, rfl⟩ := EStateM.Result.ok.inj h
      exact hassign s t vars body hs ht hbody
    split
    case isTrue =>
      exact hbind (x := c.mismatch _ _) (Q := fun _ => False) (.throw _) fun _ => False.elim
    case isFalse habsent =>
      have hrhs := hrhs (by simpa using habsent)
      unfold join
      split
      case h_1 body hbody => exact hsolved hrhs hbody
      case h_2 =>
        refine hbind (hnf _ hrhs) fun rhs' hrhs' => ?_
        split
        case h_1 body hbody => exact hsolved hrhs' hbody
        case h_2 => exact hkept _

/-- A problem with a hole at its head ends with a solution of the hole or is kept for later, unless
it fails. -/
theorem store_of_solve : (∀ t, c.solve binders m cmp l r s = .ok () t →
      (∃ u, t.store = s.store.assign m u) ∨
        ∃ r', t.store =
          { s.store with constraints := s.store.constraints ++ [c.postponed binders cmp l r'] }) ∧
    ∀ e t, c.solve binders m cmp l r s = .error e t → t.store = s.store :=
  outcome_of_solve (K := fun t => t.store = s.store) (P :=
    fun _ => True) (fun _ => stays_reduce (I := (· = s.store)))
    (fun _ _ _ => trivial) (fun _ _ => stays_reduce (I := (· = s.store)))
    (fun _ _ _ _ hu _ _ => .inl ⟨_, congrArg (Store.assign · m _) hu⟩)
    (fun _ _ hu => .inr ⟨_, by rw [hu]⟩) rfl

end Solve

section Stable
variable {I : Store → Prop} {c : Converter} {l r : Term} {cmp : Comparison} (hI : Store.Stable I)

include hI

theorem preserves_of_stable (c : Converter) : c.Preserves fun s => I s.store where
  whnf _ _ := stays_whnf
  addUniverse cmp u v := stays_addUniverse fun _ => hI.addUniverse cmp u v c.span
  solve hs _ hm := by
    obtain ⟨hok, herror⟩ := store_of_solve
    refine ⟨fun t h => ?_, fun e t h => herror e t h ▸ hs⟩
    obtain ⟨u, hu⟩ | ⟨r', hr'⟩ := hok t h
    · exact hu ▸ hI.assign u hs hm hs
    · exact hr' ▸ hI.constraints _ hs

theorem stays_convert : Stays I (c.convert cmp l r) fun _ => True :=
  (preserves_of_stable hI c).convert

theorem stays_retryConstraints {env : Environment} {limits : Limits} :
    Stays I (retryConstraints env limits) fun _ => True :=
  ensures_retryConstraints (ensures_retryOnce (fun _ => hI.constraints []) fun _ _ _ _ =>
    preserves_of_stable hI _)

end Stable

end Converter

end LeveledTypes
