import LeveledTypes.Elaboration.Matching
import LeveledTypes.Proofs.Conversion.Stable
import LeveledTypes.Proofs.Coupled
import LeveledTypes.Proofs.Likeness.Registry

/-!
# Elaboration in states that are alike

Elaboration looks at the definitions of the module, and changes them only by announcing what is
being defined. In states that are alike it takes the same course, if the changes that it makes keep
them alike: over two registries that hold the same, whatever warnings there have been, or in two
copies of one state whose store has a stable property.
-/
namespace LeveledTypes

/-- Two states of elaborations that started over two registries: the same has been announced, under
some of the names, and all else is the same but warnings. -/
structure ElaborationState.Beside (names : List GlobalName) (own own' : Registry)
    (s s' : ElaborationState) : Prop where
  announced : ∃ ds : List Definition, (∀ d ∈ ds, d.name ∈ names ∧ d.body = .pending) ∧
    s.own = own.insertAll ds ∧ s'.own = own'.insertAll ds
  conversion : s.conversion = s'.conversion
  obligations : s.obligations = s'.obligations
  goals : s.goals = s'.goals

namespace Elaborator

/-- States that are alike look the same to elaboration, and stay alike with every change that it
makes. Their stores have a stable property. -/
structure Likeness (e : Elaborator) (I : Store → Prop) (R : ElaborationState → ElaborationState →
    Prop) : Prop where
  stable : Store.Stable I
  environment {s s' : ElaborationState} : R s s' →
  (⟨e.base, s.own⟩ : Environment).Equiv ⟨e.base, s'.own⟩
  conversion {s s' : ElaborationState} : R s s' → s.conversion = s'.conversion
  obligations {s s' : ElaborationState} : R s s' → s.obligations = s'.obligations
  goals {s s' : ElaborationState} : R s s' → s.goals = s'.goals
  property {s s' : ElaborationState} : R s s' → I s.conversion.store
  converted {s s' : ElaborationState} {k : ConversionState} : R s s' → I k.store →
    R { s with conversion := k } { s' with conversion := k }
  waiting {s s' : ElaborationState} (os : List Obligation) (gs : List ℕ) : R s s' →
    R { s with obligations := os, goals := gs } { s' with obligations := os, goals := gs }
  warned {s s' : ElaborationState} (ws : List Warning) : R s s' →
    R { s with warnings := s.warnings ++ ws } { s' with warnings := s'.warnings ++ ws }
  announced {s s' : ElaborationState} {d : Definition} : R s s' → d.name ∈ e.current →
  d.body = .pending →
    R { s with own := s.own.insert d } { s' with own := s'.own.insert d }

/-- A run that ends alike from states that are alike. -/
abbrev Blind {α : Type} (R : ElaborationState → ElaborationState → Prop) (x : Elab α) :
    Prop := Coupled R x x

section Instances
variable {e : Elaborator}

/-- Elaboration does not see which of two registries that hold the same it is over. -/
theorem likeness_beside {own own' : Registry} (hown : own.Equiv own') :
    e.Likeness (fun _ => True) (ElaborationState.Beside e.current own own') where
  stable := ⟨fun _ _ _ _ => id, id, fun _ _ _ _ => id, fun _ _ _ => id, fun _ => id, fun _ => id⟩
  environment h := by
    obtain ⟨ds, -, hs, hs'⟩ := h.announced
    exact ⟨rfl, by simpa only [hs, hs'] using hown.insertAll ds⟩
  conversion h := h.conversion
  obligations h := h.obligations
  goals h := h.goals
  property _ := trivial
  converted h _ := ⟨h.announced, rfl, h.obligations, h.goals⟩
  waiting _ _ h := ⟨h.announced, h.conversion, rfl, rfl⟩
  warned _ h := ⟨h.announced, h.conversion, h.obligations, h.goals⟩
  announced {s s' d} h hname hbody := by
    refine ⟨?_, h.conversion, h.obligations, h.goals⟩
    obtain ⟨ds, hds, hs, hs'⟩ := h.announced
    refine ⟨ds ++ [d], List.forall_mem_append.mpr ⟨hds,
      List.forall_mem_singleton.mpr ⟨hname, hbody⟩⟩, ?_, ?_⟩
    · rw [Registry.insertAll_append, ← hs]
      rfl
    · rw [Registry.insertAll_append, ← hs']
      rfl

/-- A state is like itself if its store has a stable property. -/
theorem likeness_self {I : Store → Prop} (hI : Store.Stable I) :
    e.Likeness I fun s s' => s = s' ∧ I s.conversion.store where
  stable := hI
  environment h := ⟨rfl, h.1 ▸ .refl _⟩
  conversion h := congrArg ElaborationState.conversion h.1
  obligations h := congrArg ElaborationState.obligations h.1
  goals h := congrArg ElaborationState.goals h.1
  property h := h.2
  converted h hk := ⟨by rw [h.1], hk⟩
  waiting _ _ h := ⟨by rw [h.1], h.2⟩
  warned _ h := ⟨by rw [h.1], h.2⟩
  announced h _ _ := ⟨by rw [h.1], h.2⟩

end Instances

section Primitives
variable {α β : Type} {e : Elaborator} {I : Store → Prop} {R : ElaborationState → ElaborationState →
  Prop} {c : Context} {t type : Term} {span : Span}

theorem blind_fail {p : Problem} : Blind R (fail p span : Elab α) := .throw _

theorem blind_mismatch {expected actual : String} :
    Blind R (mismatch expected actual span : Elab α) := .throw _

theorem twins_get {f g : ElaborationState → Elab α} (h : ∀ s s', R s s' → Coupled R (f s) (g s')) :
    Coupled R (get >>= f) (get >>= g) := fun s s' hs => h s s' hs s s' hs

variable (hR : e.Likeness I R)

include hR

theorem blind_store_bind {f : Store → Elab α} (h : ∀ store, I store → Blind R (f store)) :
    Blind R (store >>= f) :=
  fun s s' hs => by
    have hf := h _ (hR.property hs) s s' hs
    change EndAlike R (f s.conversion.store s) (f s'.conversion.store s')
    rwa [← hR.conversion hs]

theorem blind_store : Blind R store := by
  have h := blind_store_bind hR fun store _ => Coupled.pure (R := R) (ε := Error) store
  simpa using h

/-- The store is the same in both states, and so is what it is changed to. -/
theorem blind_modifyStore {f : Store → α × Store} (hf : ∀ store, I store → I (f store).2) :
    Blind R (modifyStore f) := by
  intro s s' hs
  have hconversion := hR.conversion hs
  have hstate := hR.converted (k := ⟨(f s.conversion.store).2, s.conversion.memo⟩) hs
    (hf _ (hR.property hs))
  have hrun (t : ElaborationState) : modifyStore f t = .ok (f t.conversion.store).1
      { t with conversion := ⟨(f t.conversion.store).2, t.conversion.memo⟩ } := rfl
  rw [hrun, hrun, ← hconversion]
  exact .ok _ hstate

/-- A run of conversion changes the store and the memo, which are the same in both states, and
depends on the environment, which holds the same. -/
theorem blind_converting {f : Convert α} {Q : α → Prop} (hf : Converter.Stays I f Q) :
    Blind R (converting f) := by
  intro s s' hs
  have hfs := hf s.conversion (hR.property hs)
  unfold converting
  dsimp only
  rw [← hR.conversion hs]
  cases hr : f s.conversion with
  | ok x k =>
    simp only [hr] at hfs
    exact .ok x (hR.converted hs hfs.1)
  | error err k =>
    simp only [hr] at hfs
    exact .error err (hR.converted hs hfs)

theorem blind_waits {os : ElaborationState → List Obligation} {gs : ElaborationState → List ℕ}
    (hos : ∀ s s', R s s' → os s = os s') (hgs : ∀ s s', R s s' → gs s = gs s') :
    Blind R (modify fun s => { s with obligations := os s, goals := gs s }) :=
  .modify fun s s' hs => by
    rw [← hos s s' hs, ← hgs s s' hs]
    exact hR.waiting _ _ hs

theorem blind_shown : Blind R (shown c t) := .bind (blind_store hR) fun _ => .pure _

theorem blind_fresh {kind : HoleKind} : Blind R (fresh c type kind span) :=
  blind_modifyStore hR fun _ => hR.stable.fresh c.tele type kind span

theorem blind_freshUniverse : Blind R freshUniverse :=
  blind_modifyStore hR fun _ => hR.stable.freshUniverse

theorem blind_freshType : Blind R (freshType c span) :=
  .bind (blind_freshUniverse hR) fun _ => blind_fresh hR

theorem blind_goal : Blind R (goal c type span) := by
  refine .bind (blind_fresh hR) fun t => .bind ?_ fun _ => .pure t
  exact blind_waits hR (fun _ _ => hR.obligations) fun _ _ hs => congrArg
    (· ++ t.headHole?.toList) (hR.goals hs)

theorem blind_universeLe {u v : Universe} : Blind R (universeLe u v span) := by
  refine .bind (blind_modifyStore hR fun _ => hR.stable.addUniverse .le u v span) fun err => ?_
  cases err with
  | none => exact .pure ()
  | some err => exact .throw _

theorem blind_maxUniverse {u v : Universe} : Blind R (maxUniverse u v span) := by
  unfold maxUniverse
  split
  case isTrue => exact .pure u
  case isFalse =>
    split
    · exact .pure _
    · refine .bind (blind_freshUniverse hR) fun w => ?_
      exact .bind (blind_universeLe hR) fun _ => .bind (blind_universeLe hR) fun _ => .pure w

omit hR in
theorem blind_localVar {v : Variable} : Blind R (localVar c v span) := by
  unfold localVar
  cases c.lookup? v with
  | some r => exact .pure r
  | none => exact blind_fail

theorem twins_environment {f g : Environment → Elab α} (h : ∀ env env', env.Equiv env' →
    Coupled R (f env) (g env')) : Coupled R (e.environment >>= f) (e.environment >>= g) :=
  fun s s' hs => h _ _ (hR.environment hs) s s' hs

theorem twins_converter {f g : Converter → Elab α}
    (h : ∀ env env', env.Equiv env' →
      Coupled R (f ⟨env, c.locals, e.limits, span⟩) (g ⟨env', c.locals, e.limits, span⟩)) :
    Coupled R (e.converter c span >>= f) (e.converter c span >>= g) :=
  fun s s' hs => h _ _ (hR.environment hs) s s' hs

theorem blind_whnf : Blind R (e.whnf c t span) :=
  twins_converter hR fun env env' henv => by
    rw [Converter.whnf_equiv henv]
    exact blind_converting hR Converter.stays_whnf

theorem blind_convert {cmp : Comparison} {l r : Term} : Blind R (e.convert c cmp l r span) :=
  twins_converter hR fun env env' henv => by
    rw [Converter.convert_equiv henv]
    refine .tryCatch (blind_converting hR (Converter.stays_convert hR.stable)) fun err => ?_
    split
    · exact .bind (blind_shown hR) fun _ => .bind (blind_shown hR) fun _ => blind_mismatch
    · exact .throw _

theorem blind_unify {l r : Term} : Blind R (e.unify c l r span) := blind_convert hR

theorem blind_subtype {l r : Term} : Blind R (e.subtype c l r span) := blind_convert hR

theorem blind_classType : Blind R (e.classType c type span) := by
  refine .bind (blind_whnf hR) fun t => ?_
  split
  · exact .pure _
  · exact .bind (blind_shown hR) fun _ => blind_mismatch

theorem blind_implicitArg {info : BinderInfo} : Blind R (e.implicitArg c type info span) := by
  unfold implicitArg
  split
  · exact blind_fresh hR
  · refine .bind (blind_classType hR) fun _ => .bind (blind_fresh hR) fun t =>
      .bind ?_ fun _ => .pure t
    exact blind_waits hR (fun _ _ hs => congrArg (· ++ _) (hR.obligations hs)) fun _ _ => hR.goals

theorem blind_classFields {n : GlobalName} : Blind R (e.classFields n) :=
  twins_environment hR fun env env' henv => by
    rw [henv.classFields]
    exact .pure _

/-- The definition that is looked up is the same. -/
theorem blind_global {n : GlobalName} : Blind R (e.global n span) := by
  unfold global
  split
  case' isTrue => refine .bind (.pure _) fun u => twins_environment hR fun env env' henv => ?_
  case' isFalse => refine .bind (blind_freshUniverse hR) fun u =>
    twins_environment hR fun env env' henv => ?_
  all_goals
    rw [henv.get?]
    cases env'.get? n with
    | some d => exact .pure _
    | none => exact blind_fail

end Primitives

end Elaborator

end LeveledTypes
