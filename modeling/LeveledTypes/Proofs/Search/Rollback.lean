import LeveledTypes.Elaboration.Instance
import LeveledTypes.Proofs.Conversion.Stable

/-!
# Searches that fail

A search that fails leaves the store of holes as it was. Looking candidates up only reduces types,
which does not touch the store, and every trial that fails is taken back.
-/
namespace LeveledTypes.Elaborator

variable {α β : Type} {σ : Store} {e : Elaborator} {c : Context} {span : Span} {t : Term}

/-- A run that leaves the store as it is, however it ends. -/
abbrev KeepsStore (σ : Store) (x : Elab α) : Prop :=
  Ensures (fun s => s.conversion.store = σ) x fun _ => True

/-- A run that leaves the store as it is if it fails. -/
def RollsBack (σ : Store) (x : Elab α) : Prop :=
  ∀ s err t, s.conversion.store = σ → x s = .error err t → t.conversion.store = σ

theorem KeepsStore.rollsBack {x : Elab α} (hx : KeepsStore σ x) : RollsBack σ x :=
  fun _ _ _ hs h => hx.error hs h

theorem RollsBack.bind {x : Elab α} {f : α → Elab β} (hx : KeepsStore σ x)
    (hf : ∀ a, RollsBack σ (f a)) : RollsBack σ (x >>= f) := by
  intro s err t hs h
  obtain h | ⟨a, u, ha, h⟩ := bind_eq_error.mp h
  · exact hx.error hs h
  · exact hf a u err t (hx.ok hs ha).1 h

section Lookup

theorem keepsStore_environment : KeepsStore σ e.environment := fun _ hs => ⟨hs, trivial⟩

theorem keepsStore_store : KeepsStore σ store := fun _ hs => ⟨hs, trivial⟩

theorem keepsStore_whnf : KeepsStore σ (e.whnf c t span) := by
  refine .bind (P := fun _ => True) (fun _ hs => ⟨hs, trivial⟩) fun k _ s hs => ?_
  have hstays : Converter.Stays (· = σ) (k.whnf 0 t) fun _ => True := Converter.stays_whnf
  have hwhnf := hstays s.conversion hs
  unfold converting
  dsimp only
  generalize k.whnf 0 t s.conversion = r at hwhnf
  cases r with
  | ok a u => exact hwhnf
  | error err u => exact hwhnf

theorem keepsStore_classType : KeepsStore σ (e.classType c t span) := by
  refine .bind keepsStore_whnf fun v _ => ?_
  split
  · exact .pure trivial
  · exact .bind (.bind keepsStore_store fun _ _ => .pure (P := fun _ => True) trivial)
      fun _ _ => .throw _

theorem keepsStore_classFields {n : GlobalName} : KeepsStore σ (e.classFields n) :=
  .bind keepsStore_environment fun _ _ => .pure trivial

theorem keepsStore_provided {cls : GlobalName} {gas : ℕ} {x : Typed} :
    KeepsStore σ (e.provided c cls span gas x) := by
  induction gas generalizing x with
  | zero => exact .throw _
  | succ gas ih =>
    unfold provided
    refine .bind keepsStore_whnf fun v _ => ?_
    split
    · split
      · exact .pure trivial
      · exact .bind keepsStore_classFields fun _ _ => .bind
          (.mapM fun _ _ => ih) fun _ _ => .pure trivial
    · exact .pure trivial

theorem keepsStore_localInstances {cls : GlobalName} : KeepsStore σ (e.localInstances c cls span) :=
  .bind (.mapM fun _ _ => keepsStore_provided) fun _ _ => .pure trivial

end Lookup

section Trials

theorem store_attempt_none {f : Elab α} {s u : ElaborationState} (h : attempt f s = .ok none u) :
    u.conversion.store = s.conversion.store := by
  unfold attempt at h
  cases hf : f s with
  | ok a v => simp [hf] at h
  | error err v =>
    simp only [hf] at h
    obtain ⟨-, rfl⟩ := EStateM.Result.ok.inj h
    rfl

theorem attempt_ne_error {f : Elab α} {s u : ElaborationState} {err : Error} :
    attempt f s ≠ .error err u := by
  unfold attempt
  cases f s <;> simp

theorem keepsStore_probe {f : Elab α} : KeepsStore σ (probe f) := by
  intro s hs
  unfold probe
  cases f s with
  | ok a u => exact ⟨hs, trivial⟩
  | error err u => exact ⟨hs, trivial⟩

theorem keepsStore_fits {trial : GlobalName → SuperclassPath → Elab Term}
    {ps : List (GlobalName × SuperclassPath)} : KeepsStore σ (fits trial ps) := by
  induction ps with
  | nil => exact .pure trivial
  | cons p ps ih => exact .bind keepsStore_probe fun _ _ => .bind ih fun _ _ => .pure trivial

/-- Looking through local instances does not fail: one that does not fit is passed over. -/
theorem firstFit_ne_error {goal : Term} {xs : List Typed} {s u : ElaborationState} {err : Error} :
    e.firstFit c goal span xs s ≠ .error err u := by
  induction xs generalizing s with
  | nil => simp [firstFit, pure, EStateM.pure]
  | cons x xs ih =>
    intro h
    obtain h | ⟨o, v, -, h⟩ := bind_eq_error.mp h
    · exact attempt_ne_error h
    · cases o with
      | some _ => cases h
      | none => exact ih h

/-- If no local instance fits, every trial has been taken back. -/
theorem store_firstFit_none {goal : Term} {xs : List Typed} {s u : ElaborationState}
    (h : e.firstFit c goal span xs s = .ok none u) : u.conversion.store = s.conversion.store := by
  induction xs generalizing s with
  | nil =>
    obtain ⟨-, rfl⟩ := EStateM.Result.ok.inj h
    rfl
  | cons x xs ih =>
    obtain ⟨o, v, ho, h⟩ := bind_eq_ok.mp h
    cases o with
    | some _ => cases (EStateM.Result.ok.inj h).1
    | none => exact (ih h).trans (store_attempt_none ho)

end Trials

/-- A search fails where no candidate fits, where several do, or where one is broken off; in each
case the store is put back. The induction is on the room for nested searches. -/
theorem rollsBack_search {goal : Term} {room : ℕ} : RollsBack σ (e.search c span room goal) := by
  cases room with
  | zero => exact .bind keepsStore_classType fun _ => KeepsStore.rollsBack (.throw _)
  | succ room =>
    refine .bind keepsStore_classType fun cls =>
      .bind keepsStore_localInstances fun xs s err t hs h => ?_
    obtain h | ⟨o, u, hfirst, h⟩ := bind_eq_error.mp h
    · exact absurd h firstFit_ne_error
    cases o with
    | some v => cases h
    | none =>
      refine RollsBack.bind (x := e.environment) keepsStore_environment (fun env => ?_) u err t
        ((store_firstFit_none hfirst).trans hs) h
      refine .bind keepsStore_fits fun found => ?_
      rcases found with _ | ⟨_, _ | _⟩
      · exact KeepsStore.rollsBack (.throw _)
      · intro s err t hs h
        cases h
      · exact KeepsStore.rollsBack (.throw _)

/-- A search that fails leaves the store as it was: solutions, constraints that wait, and both
graphs of levels. -/
theorem store_of_search_error {goal : Term} {room : ℕ} {s t : ElaborationState} {err : Error}
    (h : e.search c span room goal s = .error err t) : t.conversion.store = s.conversion.store :=
  rollsBack_search s err t rfl h

end LeveledTypes.Elaborator
