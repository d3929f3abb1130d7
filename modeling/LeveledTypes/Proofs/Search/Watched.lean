import LeveledTypes.Proofs.Elaboration.Instance
import LeveledTypes.Proofs.Ensures

/-!
# Watching a search

A search goes on when a candidate fails, for whatever reason, so that its outcome does not tell what
has been met on the way. A watched search is broken off when a limit is met, when a given instance
fits a goal by its type, or when a class is searched for that a watch is set on. One that is not
broken off is the search itself.
-/
namespace LeveledTypes

/-- What a search is watched for, apart from limits. -/
structure Watch where
  /-- Instances whose type is unified with the goal of a search. -/
  fits : GlobalName → Bool := fun _ => false
  /-- Classes whose global instances are looked up. -/
  seeks : GlobalName → Bool := fun _ => false

/-- Elaboration under a watch; it is broken off without an error. -/
abbrev Watched := EStateM (Option Error) ElaborationState

namespace Watched

/-- Breaks off. -/
def stop : Watched α := throw none

/-- Runs a step, and breaks off if a limit is met. -/
def heed (f : Elab α) : Watched α := fun s =>
  match f s with
  | .ok x s => .ok x s
  | .error e s => .error (if e.kind = .reductionLimit then none else some e) s

/-- Tries a run, as a search does, unless it is broken off. -/
def attempt (f : Watched α) : Watched (Option α) := fun s =>
  let saved := s.conversion.store
  match f s with
  | .ok x s => .ok (some x) s
  | .error none s => .error none s
  | .error (some _) s => .ok none { s with conversion := { s.conversion with store := saved } }

/-- Tries a run and takes it back, as a search does, unless it is broken off. -/
def probe (f : Watched α) : Watched (Option (α × Store)) := fun s =>
  let saved := s.conversion.store
  let back (s : ElaborationState) := { s with conversion := { s.conversion with store := saved } }
  match f s with
  | .ok x s => .ok (some (x, s.conversion.store)) (back s)
  | .error none s => .error none s
  | .error (some _) s => .ok none (back s)

/-- The first local instance that fits. -/
def firstFit (e : Elaborator) (c : Context) (goal : Term) (span : Span) :
    List Typed → Watched (Option Term)
  | [] => return none
  | x :: xs => do
    match ← attempt (heed (e.unify c x.type goal span)) with
    | some () => return some x.term
    | none => firstFit e c goal span xs

/-- Tries a candidate. One that is watched breaks the search off if it fits. -/
def tryInstance (w : Watch) (e : Elaborator) (c : Context) (goal : Term) (span : Span)
    (search : Term → Watched Term) (inst : GlobalName) (path : SuperclassPath) : Watched Term := do
  let (term, type) ← heed (e.global inst span)
  let (x, pending) ← heed (e.applyToHoles c span unboundedGas ⟨term, type⟩ [])
  let x ← heed (e.followPath c span x path)
  heed (e.unify c x.type goal span)
  if w.fits inst then stop
  else
    for arg in pending do
      let found ← search ((← heed Elaborator.store).zonk arg.type)
      heed (e.unify c arg.term found span)
    return x.term

/-- The candidates that fit, with the stores that they leave. -/
def fits (trial : GlobalName → SuperclassPath → Watched Term) :
    List (GlobalName × SuperclassPath) → Watched (List (GlobalName × Term × Store))
  | [] => return []
  | (n, path) :: rest => do
    let fit ← probe (trial n path)
    return (fit.map fun (t, s) => (n, t, s)).toList ++ (← fits trial rest)

/-- The search with its trials watched. -/
def search (w : Watch) (e : Elaborator) (c : Context) (span : Span) : ℕ → Term → Watched Term
  | 0, goal => heed do
    Elaborator.fail (.noInstance (← e.classType c goal span).name.short) span
  | room + 1, goal => do
    let cls := (← heed (e.classType c goal span)).name
    match ← firstFit e c goal span (← heed (e.localInstances c cls span)) with
    | some t => return t
    | none =>
      if w.seeks cls then stop
      else
        let candidates := (← heed e.environment).instanceCandidates cls
        match ← fits (tryInstance w e c goal span (search w e c span room)) candidates with
        | [] => heed (Elaborator.fail (.noInstance cls.short) span)
        | [(_, t, s)] => do
          heed (Elaborator.modifyStore fun _ => ((), s))
          return t
        | found => heed (Elaborator.fail
          (.ambiguousInstance cls.short (found.map (·.1.short))) span)

/-- Two results are the same, unless the first run was broken off. -/
def Same (r : EStateM.Result (Option Error) ElaborationState α)
    (r' : EStateM.Result Error ElaborationState α) : Prop :=
  match r with
  | .ok a s => r' = .ok a s
  | .error (some e) s => r' = .error e s
  | .error none _ => True

/-- A watched run that is not broken off is the run itself. -/
def Follows (x : Watched α) (f : Elab α) : Prop := ∀ s, Same (x s) (f s)

namespace Follows
variable {α β : Type} {x : Watched α} {f : Elab α} {s t : ElaborationState}

theorem ok {a : α} (h : Follows x f) (hx : x s = .ok a t) : f s = .ok a t := by
  have hs := h s
  rwa [hx] at hs

theorem error {e : Error} (h : Follows x f) (hx : x s = .error (some e) t) : f s = .error e t := by
  have hs := h s
  rwa [hx] at hs

/-- The run itself is the watched run if this is not broken off. -/
theorem ok_of_ok {a : α} (h : Follows x f) (hx : ∀ u, x s ≠ .error none u) (hf : f s = .ok a t) :
    x s = .ok a t := by
  have hs := h s
  rw [hf] at hs
  generalize hr : x s = r at hs
  rcases r with ⟨a, t⟩ | ⟨_ | e, t⟩
  · obtain ⟨rfl, rfl⟩ := EStateM.Result.ok.inj hs
    rfl
  · exact absurd hr (hx t)
  · cases hs

theorem pure (a : α) : Follows (pure a) (pure a) := fun _ => rfl

theorem stop (f : Elab α) : Follows stop f := fun _ => trivial

theorem heed (f : Elab α) : Follows (heed f) f := by
  intro s
  unfold Watched.heed
  cases hf : f s with
  | ok a t => exact rfl
  | error e t =>
    dsimp only
    split
    · trivial
    · exact rfl

theorem bind {g : α → Watched β} {k : α → Elab β} (hx : Follows x f)
    (hg : ∀ a, Follows (g a) (k a)) : Follows (x >>= g) (f >>= k) := by
  intro s
  change Same (EStateM.bind x g s) (EStateM.bind f k s)
  unfold EStateM.bind
  have hxs := hx s
  generalize x s = r at hxs
  rcases r with ⟨a, t⟩ | ⟨_ | e, t⟩
  · rw [show f s = .ok a t from hxs]
    exact hg a t
  · trivial
  · rw [show f s = .error e t from hxs]
    exact rfl

theorem attempt (hx : Follows x f) : Follows (attempt x) (Elaborator.attempt f) := by
  intro s
  unfold Watched.attempt Elaborator.attempt
  have hxs := hx s
  generalize x s = r at hxs
  rcases r with ⟨a, t⟩ | ⟨_ | e, t⟩
  · rw [show f s = .ok a t from hxs]
    exact rfl
  · trivial
  · rw [show f s = .error e t from hxs]
    exact rfl

theorem probe (hx : Follows x f) : Follows (probe x) (Elaborator.probe f) := by
  intro s
  unfold Watched.probe Elaborator.probe
  have hxs := hx s
  generalize x s = r at hxs
  rcases r with ⟨a, t⟩ | ⟨_ | e, t⟩
  · rw [show f s = .ok a t from hxs]
    exact rfl
  · trivial
  · rw [show f s = .error e t from hxs]
    exact rfl

theorem forIn {γ : Type} {as : List γ} {g : γ → PUnit → Watched (ForInStep PUnit)}
    {k : γ → PUnit → Elab (ForInStep PUnit)} (h : ∀ a, Follows (g a ⟨⟩) (k a ⟨⟩)) :
    Follows (forIn as PUnit.unit g) (forIn as PUnit.unit k) := by
  induction as with
  | nil => exact .pure _
  | cons a as ih =>
    rw [List.forIn_cons, List.forIn_cons]
    refine .bind (h a) fun step => ?_
    cases step with
    | done => exact .pure _
    | yield => exact ih

section Search
variable {w : Watch} {e : Elaborator} {c : Context} {goal : Term} {span : Span}

theorem firstFit (xs : List Typed) :
    Follows (firstFit e c goal span xs) (e.firstFit c goal span xs) := by
  induction xs with
  | nil => exact .pure none
  | cons x xs ih =>
    refine .bind (.attempt (.heed _)) fun o => ?_
    cases o with
    | some _ => exact .pure _
    | none => exact ih

theorem tryInstance {search : Term → Watched Term} {search' : Term → Elab Term}
    (h : ∀ t, Follows (search t) (search' t)) (inst : GlobalName) (path : SuperclassPath) :
    Follows (tryInstance w e c goal span search inst path)
      (e.tryInstance c goal span search' inst path) := by
  refine .bind (.heed _) fun p => .bind (.heed _) fun p => .bind (.heed _) fun x =>
    .bind (.heed _) fun _ => ?_
  split
  · exact .stop _
  · refine .bind (.forIn fun arg => .bind (.heed _) fun s => .bind (h _) fun found => ?_)
      fun _ => .pure _
    exact .bind (.heed _) fun _ => .pure _

theorem fits {trial : GlobalName → SuperclassPath → Watched Term}
    {trial' : GlobalName → SuperclassPath → Elab Term}
    (h : ∀ n path, Follows (trial n path) (trial' n path))
    (candidates : List (GlobalName × SuperclassPath)) :
    Follows (fits trial candidates) (Elaborator.fits trial' candidates) := by
  induction candidates with
  | nil => exact .pure []
  | cons p rest ih => exact .bind (.probe (h p.1 p.2)) fun o => .bind ih fun found => .pure _

/-- A watched search that is not broken off is the search itself. -/
theorem search (room : ℕ) : Follows (search w e c span room goal) (e.search c span room goal) := by
  induction room generalizing goal with
  | zero => exact .heed _
  | succ room ih =>
    refine .bind (.heed _) fun cls => .bind (.heed _) fun xs => .bind (.firstFit xs) fun o => ?_
    cases o with
    | some t => exact .pure t
    | none =>
      dsimp only
      split
      · exact .stop _
      · refine .bind (.heed _) fun env => .bind (.fits (.tryInstance fun t => ih) _) fun found => ?_
        rcases found with _ | ⟨_, _ | _⟩
        · exact .heed _
        · exact .bind (.heed _) fun _ => .pure _
        · exact .heed _

end Search

end Follows

section Runs
open Elaborator
variable {α : Type} {s t u : ElaborationState} {err : Error}

theorem heed_of_ok {f : Elab α} {a : α} (h : f s = .ok a t) : heed f s = .ok a t := by
  rw [heed, h]

theorem heed_of_error {f : Elab α} (h : f s = .error err t) (hkind : err.kind ≠ .reductionLimit) :
    heed f s = .error (some err) t := by
  rw [heed, h]
  exact congrArg (EStateM.Result.error · t) (if_neg hkind)

section Fits
variable {trial : GlobalName → SuperclassPath → Watched Term} {n : GlobalName}
  {path : SuperclassPath} {ps : List (GlobalName × SuperclassPath)}
  {fs : List (GlobalName × Term × Store)}

theorem fits_cons_of_ok {x : Term} (h : trial n path s = .ok x t)
    (hrest : fits trial ps
      { t with conversion := { t.conversion with store := s.conversion.store } } = .ok fs u) :
    fits trial ((n, path) :: ps) s = .ok ((n, x, t.conversion.store) :: fs) u := by
  have hprobe : probe (trial n path) s = .ok (some (x, t.conversion.store))
      { t with conversion := { t.conversion with store := s.conversion.store } } := by
    unfold probe
    simp only [h]
  exact (bind_of_ok hprobe).trans (bind_of_ok hrest)

theorem fits_cons_of_error (h : trial n path s = .error (some err) t)
    (hrest : fits trial ps
      { t with conversion := { t.conversion with store := s.conversion.store } } = .ok fs u) :
    fits trial ((n, path) :: ps) s = .ok fs u := by
  have hprobe : probe (trial n path) s = .ok none
      { t with conversion := { t.conversion with store := s.conversion.store } } := by
    unfold probe
    simp only [h]
  exact (bind_of_ok hprobe).trans (bind_of_ok hrest)

end Fits

variable {w : Watch} {e : Elaborator} {c : Context} {span : Span} {cls : GlobalName}
  {v x : Universe} {ps qs : List Term} {d : Definition}

/-- An instance without parameters is tried by comparing its type, at fresh levels, with the
goal. -/
theorem tryInstance_eq {goal : Term} {search : Term → Watched Term} (hcurrent : d.name ∉ e.current)
    (hget : (⟨e.base, s.own⟩ : Environment).get? d.name = some d)
    (hfresh : freshUniverse s = .ok x t) (htype : d.fullType x = .record cls v qs) :
    tryInstance w e c goal span search d.name [] s =
      (heed (e.unify c (.record cls v qs) goal span) >>= fun _ =>
        if w.fits d.name then stop else Pure.pure (Term.ref d.name x)) t := by
  have hglobal := global_eq_ok span hcurrent hget hfresh
  rw [htype] at hglobal
  exact (bind_of_ok (heed_of_ok hglobal)).trans
    ((bind_of_ok (heed_of_ok applyToHoles_record)).trans rfl)

/-- Without instance parameters, a search is decided by the global candidates that fit. -/
theorem search_eq_ok {candidates : List (GlobalName × SuperclassPath)}
    (hlocal : ∀ x ∈ c.entries, x.binder.info ≠ .inst) (hseeks : w.seeks cls = false)
    (hcandidates : (⟨e.base, s.own⟩ : Environment).instanceCandidates cls = candidates) {room : ℕ}
    {n : GlobalName} {y : Term} {store : Store}
    (hfits : fits (tryInstance w e c (.record cls v ps) span (search w e c span room)) candidates
      s = .ok [(n, y, store)] t) :
    search w e c span (room + 1) (.record cls v ps) s = .ok y
      { t with conversion := { t.conversion with store } } := by
  have henvironment : heed e.environment s = .ok ⟨e.base, s.own⟩ s := rfl
  have hfirst : firstFit e c (.record cls v ps) span [] s = .ok none s := rfl
  rw [search, bind_of_ok (heed_of_ok classType_record),
    bind_of_ok (heed_of_ok (localInstances_eq_nil hlocal)), bind_of_ok hfirst]
  dsimp only
  rw [if_neg (by simp [hseeks]), bind_of_ok henvironment, hcandidates, bind_of_ok hfits]
  rfl

end Runs

end Watched

end LeveledTypes
