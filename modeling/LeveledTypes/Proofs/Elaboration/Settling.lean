import LeveledTypes.Proofs.Conversion.Retrying
import LeveledTypes.Proofs.Elaboration.Declaration
import LeveledTypes.Proofs.Search.Rollback

/-!
# Solving constraints ends

What is left to be found is looked for in rounds: constraints are taken up, then the instance
arguments that wait. A search for an instance may make holes and leave constraints, but it makes no
instance argument wait, and the argument that it is for does not wait any more. So a round that
helped leaves fewer instance arguments, or as many and less to do in the store, and there is a last
round.
-/
namespace LeveledTypes

namespace ElaborationState

/-- The parts of the state that a search leaves alone. -/
def besides (s : ElaborationState) : Registry × List Obligation × List ℕ × List Warning :=
  (s.own, s.obligations, s.goals, s.warnings)

end ElaborationState

namespace Elaborator

open ElaborationState

section Search
variable {α : Type} {σ : Registry × List Obligation × List ℕ × List Warning} {e : Elaborator}
  {c : Context} {span : Span} {t goal : Term}

/-- A run that changes nothing but holes, constraints and what is remembered. -/
abbrev Converts (σ : Registry × List Obligation × List ℕ × List Warning) (x : Elab α) : Prop :=
  Ensures (fun s => s.besides = σ) x fun _ => True

theorem converts_modifyStore {f : Store → α × Store} : Converts σ (modifyStore f) :=
  fun _ hs => ⟨hs, trivial⟩

theorem converts_converting {f : Convert α} : Converts σ (converting f) := by
  intro s hs
  unfold converting
  dsimp only
  cases f s.conversion with
  | ok a u => exact ⟨hs, trivial⟩
  | error err u => exact hs

theorem converts_environment : Converts σ e.environment := fun _ hs => ⟨hs, trivial⟩

theorem converts_store : Converts σ store := fun _ hs => ⟨hs, trivial⟩

theorem converts_converter : Converts σ (e.converter c span) := fun _ hs => ⟨hs, trivial⟩

theorem converts_shown : Converts σ (shown c t) := fun _ hs => ⟨hs, trivial⟩

theorem converts_whnf : Converts σ (e.whnf c t span) :=
  .bind converts_converter fun _ _ => converts_converting

theorem converts_unify {l r : Term} : Converts σ (e.unify c l r span) := by
  refine .bind converts_converter fun k _ => .tryCatch converts_converting fun err => ?_
  split
  · exact .bind converts_shown fun _ _ => .bind converts_shown fun _ _ => .throw _
  · exact .throw _

theorem converts_classType : Converts σ (e.classType c t span) := by
  refine .bind converts_whnf fun v _ => ?_
  split
  · exact .pure trivial
  · exact .bind converts_shown fun _ _ => .throw _

theorem converts_classFields {n : GlobalName} : Converts σ (e.classFields n) :=
  .bind converts_environment fun _ _ => .pure trivial

theorem converts_global {n : GlobalName} : Converts σ (e.global n span) := by
  unfold global
  split
  case' isTrue => refine .bind (.pure (P := fun _ => True) trivial) fun u _ => ?_
  case' isFalse => refine .bind converts_modifyStore fun u _ => ?_
  all_goals
    refine .bind converts_environment fun env _ => ?_
    split
    · exact .pure trivial
    · exact .throw _

theorem converts_provided {cls : GlobalName} {gas : ℕ} {x : Typed} :
    Converts σ (e.provided c cls span gas x) := by
  induction gas generalizing x with
  | zero => exact .throw _
  | succ gas ih =>
    unfold provided
    refine .bind converts_whnf fun v _ => ?_
    split
    · split
      · exact .pure trivial
      · exact .bind converts_classFields fun _ _ => .bind
          (.mapM fun _ _ => ih) fun _ _ => .pure trivial
    · exact .pure trivial

theorem converts_localInstances {cls : GlobalName} : Converts σ (e.localInstances c cls span) :=
  .bind (.mapM fun _ _ => converts_provided) fun _ _ => .pure trivial

theorem converts_attempt {f : Elab α} (hf : Converts σ f) : Converts σ (attempt f) := by
  intro s hs
  unfold attempt
  dsimp only
  cases hr : f s with
  | ok a u => exact ⟨(hf.ok hs hr).1, trivial⟩
  | error err u =>
    have hu : u.besides = σ := hf.error hs hr
    exact ⟨hu, trivial⟩

/-- A probe puts back all that it changed but what reduction remembers. -/
theorem converts_probe {f : Elab α} (hf : Converts σ f) : Converts σ (probe f) := by
  intro s hs
  unfold probe
  dsimp only
  cases hr : f s with
  | ok a u =>
    have hu : u.besides = σ := (hf.ok hs hr).1
    exact ⟨hu, trivial⟩
  | error err u =>
    have hu : u.besides = σ := hf.error hs hr
    exact ⟨hu, trivial⟩

theorem converts_firstFit {xs : List Typed} : Converts σ (e.firstFit c goal span xs) := by
  induction xs with
  | nil => exact .pure trivial
  | cons x xs ih =>
    refine .bind (converts_attempt converts_unify) fun o _ => ?_
    split
    · exact .pure trivial
    · exact ih

/-- Applying a candidate to holes adds holes and reduces types, which is all that conversion does to
the state. -/
theorem converts_applyToHoles {gas : ℕ} {x : Typed} {pending : List Typed} :
    Converts σ (e.applyToHoles c span gas x pending) := by
  induction gas generalizing x pending with
  | zero => exact .throw _
  | succ gas ih =>
    unfold applyToHoles
    refine .bind converts_whnf fun v _ => ?_
    split
    case h_1 q dom cod =>
      have hjoin (kind : HoleKind) {all : Term → List Typed} : Converts σ (do
          let a ← fresh c dom kind span
          e.applyToHoles c span gas ⟨.app x.term a, cod.subst a⟩ (all a) :
            Elab (Typed × List Typed)) :=
        .bind converts_modifyStore fun _ _ => ih
      split
      · exact .bind converts_classType fun _ _ => .bind (.pure (P := fun _ => True) trivial)
          fun kind _ => hjoin kind
      · exact .bind (.pure (P := fun _ => True) trivial) fun kind _ => hjoin kind
    case h_2 => exact .pure trivial

theorem converts_followPath {x : Typed} {path : SuperclassPath} :
    Converts σ (e.followPath c span x path) := by
  refine .foldlM trivial fun x p _ _ => ?_
  refine .bind converts_classType fun cls _ => .bind converts_classFields fun fs _ => ?_
  split
  · exact .pure trivial
  · exact .pure trivial

theorem converts_tryInstance {search : Term → Elab Term}
    (hsearch : ∀ {goal : Term}, Converts σ (search goal)) {inst : GlobalName}
    {path : SuperclassPath} : Converts σ (e.tryInstance c goal span search inst path) := by
  unfold tryInstance
  refine .bind converts_global fun p _ => .bind converts_applyToHoles fun q _ => ?_
  refine .bind converts_followPath fun x _ => .bind converts_unify fun _ _ => ?_
  refine .bind (.forIn fun arg _ => ?_) fun _ _ => .pure trivial
  refine .bind converts_store fun s _ => .bind hsearch fun found _ => ?_
  exact .bind converts_unify fun _ _ => .pure trivial

theorem converts_fits {trial : GlobalName → SuperclassPath → Elab Term}
    (htrial : ∀ {n : GlobalName} {path : SuperclassPath}, Converts σ (trial n path))
    {ps : List (GlobalName × SuperclassPath)} : Converts σ (fits trial ps) := by
  induction ps with
  | nil => exact .pure trivial
  | cons p ps ih => exact .bind (converts_probe htrial) fun _ _ => .bind ih fun _ _ => .pure trivial

/-- A search makes no instance argument wait. -/
theorem converts_search {room : ℕ} : Converts σ (e.search c span room goal) := by
  induction room generalizing goal with
  | zero => exact .bind converts_classType fun _ _ => .throw _
  | succ room ih =>
    unfold search
    refine .bind converts_classType fun cls _ => .bind converts_localInstances fun xs _ => ?_
    refine .bind converts_firstFit fun o _ => ?_
    split
    case h_1 => exact .pure trivial
    case h_2 =>
      refine .bind converts_environment fun env _ => .bind (converts_fits (converts_tryInstance ih))
        fun found _ => ?_
      split
      · exact .throw _
      · exact .bind converts_modifyStore fun _ _ => .pure trivial
      · exact .throw _

end Search

section Obligations
variable {e : Elaborator} {force : Bool} {s t : ElaborationState} {b : Bool}

/-- An instance argument that has been taken up does not wait any more if an instance was found.
Otherwise nothing has happened. -/
theorem of_resolveObligation {o : Obligation} {os : List Obligation}
    (h : e.resolveObligation force o s = .ok (os, b) t) :
    t.besides = s.besides ∧ os.length + (if b then 1 else 0) ≤ 1 ∧ (b = false → t = s) := by
  unfold resolveObligation at h
  obtain ⟨σ, u, hstore, h⟩ := bind_eq_ok.mp h
  obtain ⟨-, rfl⟩ := EStateM.Result.ok.inj hstore
  have hkept {os' : List Obligation} (hlen : os'.length ≤ 1)
      (h : (pure (os', false) : Elab _) s = .ok (os, b) t) :
      t.besides = s.besides ∧ os.length + (if b then 1 else 0) ≤ 1 ∧ (b = false → t = s) := by
    obtain ⟨hr, rfl⟩ := EStateM.Result.ok.inj h
    obtain ⟨rfl, rfl⟩ := Prod.mk.inj hr
    exact ⟨rfl, hlen, fun _ => rfl⟩
  split at h
  case isTrue => exact hkept (Nat.zero_le _) h
  case isFalse =>
    dsimp only at h
    split at h
    case isTrue => exact hkept le_rfl h
    case isFalse =>
      obtain ⟨found, u, hfound, h⟩ := bind_eq_ok.mp h
      obtain ⟨_, v, hunify, h⟩ := bind_eq_ok.mp h
      obtain ⟨hr, rfl⟩ := EStateM.Result.ok.inj h
      obtain ⟨rfl, rfl⟩ := Prod.mk.inj hr
      exact ⟨(converts_unify.ok (converts_search.ok rfl hfound).1 hunify).1, le_rfl,
        fun h => by contradiction⟩

/-- Of each waiting instance argument nothing is left if it was found; if none was found, the state
is as before. -/
theorem of_mapM_resolveObligation {os : List Obligation} {rs : List (List Obligation × Bool)}
    (h : os.mapM (e.resolveObligation force) s = .ok rs t) :
    t.besides = s.besides ∧ (rs.flatMap (·.1)).length + rs.countP (·.2) ≤ os.length ∧
    (rs.countP (·.2) = 0 → t = s) := by
  induction os generalizing rs s with
  | nil =>
    obtain ⟨rfl, rfl⟩ := EStateM.Result.ok.inj h
    simp
  | cons o os ih =>
    rw [List.mapM_cons] at h
    obtain ⟨⟨os', b⟩, u, ho, h⟩ := bind_eq_ok.mp h
    obtain ⟨rs', v, hrs, h⟩ := bind_eq_ok.mp h
    obtain ⟨rfl, rfl⟩ := EStateM.Result.ok.inj h
    obtain ⟨hbesides, hle, hnone⟩ := of_resolveObligation ho
    obtain ⟨hbesides', hle', hnone'⟩ := ih hrs
    simp only [List.flatMap_cons, List.length_append, List.countP_cons, List.length_cons]
    refine ⟨hbesides'.trans hbesides, by omega, fun hzero => ?_⟩
    cases b with
    | false => exact (hnone' hzero).trans (hnone rfl)
    | true => simp at hzero

/-- Taking up the instance arguments that wait: if an instance was found, fewer wait afterwards.
Otherwise no more wait, and the store is as it was. -/
theorem of_resolveObligations (h : e.resolveObligations force s = .ok b t) :
    (b = true → t.obligations.length < s.obligations.length) ∧
    (b = false → t.obligations.length ≤ s.obligations.length ∧ t.conversion = s.conversion) := by
  unfold resolveObligations at h
  obtain ⟨σ, u, hget, h⟩ := bind_eq_ok.mp h
  obtain ⟨rfl, rfl⟩ := EStateM.Result.ok.inj hget
  obtain ⟨_, u, hmodify, h⟩ := bind_eq_ok.mp h
  obtain ⟨-, rfl⟩ := EStateM.Result.ok.inj hmodify
  obtain ⟨rs, v, hrs, h⟩ := bind_eq_ok.mp h
  obtain ⟨_, w, hmodify, h⟩ := bind_eq_ok.mp h
  obtain ⟨-, rfl⟩ := EStateM.Result.ok.inj hmodify
  obtain ⟨rfl, rfl⟩ := EStateM.Result.ok.inj h
  obtain ⟨hbesides, hle, hnone⟩ := of_mapM_resolveObligation hrs
  have hwait : v.obligations = [] := congrArg (·.2.1) hbesides
  simp only [hwait, List.nil_append]
  refine ⟨fun hfound => ?_, fun hfound => ⟨by omega, ?_⟩⟩
  · have hpos : 0 < rs.countP (·.2) := List.countP_pos_iff.mpr (List.any_eq_true.mp hfound)
    omega
  · have hzero : rs.countP (·.2) = 0 := List.countP_eq_zero.mpr (by simpa using hfound)
    rw [hnone hzero]

end Obligations

section Loop
variable {e : Elaborator} {force : Bool} {s t : ElaborationState} {b : Bool}

/-- A round of the loop that finds what is left to be found. The loop is left when a round fails,
and when it did not help. -/
def settleTurn (e : Elaborator) (force : Bool) (s : ElaborationState) :
    Turn ElaborationState (EStateM.Result Error ElaborationState Unit) :=
  match e.round force s with
  | .error err t => .done (.error err t)
  | .ok true t => .again t
  | .ok false t => .done (.ok () t)

/-- What is left to be found: the instances, and then what is left in the store. -/
def left (s : ElaborationState) : ℕ ×ₗ (ℕ ×ₗ ℕ) :=
  toLex (s.obligations.length, s.conversion.store.left)

theorem left_lt_iff : left s < left t ↔ s.open?.1 < t.open?.1 ∨ s.open?.1 = t.open?.1 ∧
    (s.open?.2.1 < t.open?.2.1 ∨ s.open?.2.1 = t.open?.2.1 ∧ s.open?.2.2 < t.open?.2.2) :=
  Prod.Lex.toLex_lt_toLex.trans (or_congr_right (and_congr_right fun _ => Store.left_lt_iff))

/-- If the constraints that wait have been of use, then less is left to be found. -/
theorem left_lt_of_converting {env : Environment} {limits : Limits}
    (h : converting (Converter.retryConstraints env limits) s = .ok true t) :
    t.conversion.store.left < s.conversion.store.left := by
  unfold converting at h
  dsimp only at h
  split at h
  case h_1 b u hr =>
    obtain ⟨rfl, rfl⟩ := EStateM.Result.ok.inj h
    exact Converter.left_lt_of_retryConstraints hr
  case h_2 => contradiction

/-- Less is left to be found after a round that helped. -/
theorem left_lt_of_round (h : e.round force s = .ok true t) : left t < left s := by
  unfold round at h
  obtain ⟨env, u, henv, h⟩ := bind_eq_ok.mp h
  obtain ⟨-, rfl⟩ := EStateM.Result.ok.inj henv
  obtain ⟨retried, u, hretried, h⟩ := bind_eq_ok.mp h
  obtain ⟨found, v, hfound, h⟩ := bind_eq_ok.mp h
  obtain ⟨hhelped, rfl⟩ := EStateM.Result.ok.inj h
  obtain ⟨hlt, hle⟩ := of_resolveObligations hfound
  have hbesides : u.besides = s.besides := (converts_converting.ok rfl hretried).1
  have hwait : u.obligations = s.obligations := congrArg (·.2.1) hbesides
  rw [hwait] at hlt hle
  cases found with
  | true => exact Prod.Lex.toLex_lt_toLex.mpr (.inl (hlt rfl))
  | false =>
    obtain rfl : retried = true := by simpa using hhelped
    obtain ⟨hlen, hconversion⟩ := hle rfl
    have hstore : v.conversion.store.left < s.conversion.store.left := by
      rw [hconversion]
      exact left_lt_of_converting hretried
    obtain hlen | hlen := hlen.lt_or_eq
    · exact Prod.Lex.toLex_lt_toLex.mpr (.inl hlen)
    · exact Prod.Lex.toLex_lt_toLex.mpr (.inr ⟨hlen, hstore⟩)

/-- The loop is left with what `settle` gives. -/
theorem ends_settle (e : Elaborator) (force : Bool) (s : ElaborationState) :
    Ends (e.settleTurn force) s (e.settle force s) := by
  induction s using settle.induct e force with
  | case1 s x err t hr =>
    rw [settle_of_error hr]
    refine .done ?_
    have hround : e.round force s = _ := hr
    rw [settleTurn, hround]
  | case2 s before x helped t hr hless ih =>
    rw [settle_of_ok hr, if_pos hless]
    obtain ⟨rfl, -⟩ := hless
    refine .again ?_ ih
    have hround : e.round force s = _ := hr
    rw [settleTurn, hround]
  | case3 s before x helped t hr hless =>
    rw [settle_of_ok hr, if_neg hless]
    refine .done ?_
    have hround : e.round force s = .ok helped t := hr
    cases helped with
    | false => rw [settleTurn, hround]
    | true => exact absurd ⟨rfl, left_lt_iff.mp (left_lt_of_round hround)⟩ hless

end Loop

/-- Solving constraints ends, from every state. The loop that takes up the constraints is left after
finitely many rounds, with what `retryConstraints` gives; and so is the loop around it, which takes
up the instance arguments too, both while those whose type has holes are postponed and when they are
not. -/
theorem settling_ends : (∀ env limits s r, Ends (Converter.retryTurn env limits) (false, s) r ↔
      r = Converter.retryConstraints env limits s) ∧
    ∀ (e : Elaborator) force s r, Ends (e.settleTurn force) s r ↔ r = e.settle force s := by
  refine ⟨fun env limits s r => ⟨fun h => h.unique (Converter.ends_retryFrom false s), ?_⟩,
    fun e force s r => ⟨fun h => h.unique (ends_settle e force s), ?_⟩⟩
  · rintro rfl
    exact Converter.ends_retryFrom false s
  · rintro rfl
    exact ends_settle e force s

end Elaborator

end LeveledTypes
