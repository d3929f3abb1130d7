import LeveledTypes.Proofs.Likeness.State

/-!
# Instance search in states that are alike

The same candidates are tried in states that are alike, in the same order, and the same ones fit.
-/
namespace LeveledTypes.Elaborator

variable {α : Type} {e : Elaborator} {I : Store → Prop} {R : ElaborationState → ElaborationState →
  Prop} {c : Context} {span : Span} {goal : Term}

section Trials
variable {f : Elab α} (hR : e.Likeness I R)

include hR

/-- Going back to the store from before. -/
theorem Likeness.restore {s s' t t' : ElaborationState} (hs : R s s') (ht : R t t') :
    R { t with conversion := { t.conversion with store := s.conversion.store } }
      { t' with conversion := { t'.conversion with store := s'.conversion.store } } := by
  rw [← hR.conversion hs, ← hR.conversion ht]
  exact hR.converted ht (hR.property hs)

theorem blind_attempt (hf : Blind R f) : Blind R (attempt f) := by
  intro s s' hs
  have hfs := hf s s' hs
  unfold attempt
  dsimp only
  generalize f s = a, f s' = b at hfs ⊢
  cases hfs with
  | ok x h => exact .ok (some x) h
  | error err h => exact .ok none (hR.restore hs h)

theorem blind_probe (hf : Blind R f) : Blind R (probe f) := by
  intro s s' hs
  have hfs := hf s s' hs
  unfold probe
  dsimp only
  generalize f s = a, f s' = b at hfs ⊢
  cases hfs with
  | ok x h =>
    dsimp only
    rw [← hR.conversion h]
    exact .ok _ (hR.conversion h ▸ hR.restore hs h)
  | error err h => exact .ok none (hR.restore hs h)

theorem blind_fits {trial : GlobalName → SuperclassPath → Elab Term}
    (htrial : ∀ n path, Blind R (trial n path)) {candidates : List (GlobalName × SuperclassPath)} :
    Blind R (fits trial candidates) := by
  induction candidates with
  | nil => exact .pure []
  | cons x xs ih =>
    exact .bind (blind_probe hR (htrial x.1 x.2)) fun o => .bind ih fun found => .pure _

/-- The stores that trials end in have the property. -/
theorem stable_fits {trial : GlobalName → SuperclassPath → Elab Term}
    (htrial : ∀ n path, Blind R (trial n path)) {candidates : List (GlobalName × SuperclassPath)} :
    Ensures (fun s => ∃ s', R s s') (fits trial candidates) fun found => ∀ x ∈ found, I x.2.2 := by
  induction candidates with
  | nil => exact .pure (by simp)
  | cons x xs ih =>
    have hprobe : Ensures (fun s => ∃ s', R s s') (probe (trial x.1 x.2)) fun o => ∀ p,
        o = some p → I p.2 := by
      rintro s ⟨s', hs⟩
      have hx := htrial x.1 x.2 s s' hs
      unfold probe
      dsimp only
      generalize trial x.1 x.2 s = a, trial x.1 x.2 s' = b at hx
      cases hx with
      | ok t h => exact ⟨⟨_, hR.restore hs h⟩, by simpa using hR.property h⟩
      | error err h => exact ⟨⟨_, hR.restore hs h⟩, by simp⟩
    refine .bind hprobe fun o ho => .bind ih fun found hfound => .pure fun y hy => ?_
    rcases List.mem_append.mp hy with hy | hy
    · obtain ⟨p, hp, rfl⟩ := Option.map_eq_some_iff.mp (Option.mem_toList.mp hy)
      exact ho p hp
    · exact hfound y hy

end Trials

variable (hR : e.Likeness I R)

include hR

theorem blind_provided {cls : GlobalName} {gas : ℕ} {x : Typed} :
    Blind R (e.provided c cls span gas x) := by
  induction gas generalizing x with
  | zero => exact blind_fail
  | succ gas ih =>
    unfold provided
    refine .bind (blind_whnf hR) fun t => ?_
    split
    case h_1 n u ps =>
      split
      · exact .pure _
      · exact .bind (blind_classFields hR) fun fs => .bind (.mapM fun p => ih) fun xss => .pure _
    case h_2 => exact .pure []

theorem blind_localInstances {cls : GlobalName} : Blind R (e.localInstances c cls span) :=
  .bind (.mapM fun _ => blind_provided hR) fun _ => .pure _

theorem blind_firstFit {xs : List Typed} : Blind R (e.firstFit c goal span xs) := by
  induction xs with
  | nil => exact .pure none
  | cons x xs ih =>
    refine .bind (blind_attempt hR (blind_unify hR)) fun o => ?_
    split
    · exact .pure _
    · exact ih

/-- The holes for the parameters of a candidate have the same numbers on both sides. -/
theorem blind_applyToHoles {gas : ℕ} {x : Typed} {pending : List Typed} :
    Blind R (e.applyToHoles c span gas x pending) := by
  induction gas generalizing x pending with
  | zero => exact blind_fail
  | succ gas ih =>
    unfold applyToHoles
    refine .bind (blind_whnf hR) fun t => ?_
    split
    case h_1 q dom cod =>
      split
      · exact .bind (blind_classType hR) fun cls => .bind (.pure _) fun kind => .bind
          (blind_fresh hR) fun a => ih
      · exact .bind (.pure _) fun kind => .bind (blind_fresh hR) fun a => ih
    case h_2 => exact .pure _

theorem blind_followPath {path : SuperclassPath} {x : Typed} :
    Blind R (e.followPath c span x path) := by
  refine .foldlM fun y p => .bind (blind_classType hR) fun cls =>
    .bind (blind_classFields hR) fun fs => ?_
  split
  · exact .pure _
  · exact .pure _

theorem blind_tryInstance {search : Term → Elab Term} (hsearch : ∀ t, Blind R (search t))
    {inst : GlobalName} {path : SuperclassPath} :
    Blind R (e.tryInstance c goal span search inst path) := by
  refine .bind (blind_global hR) fun (term, type) =>
    .bind (blind_applyToHoles hR) fun (x, pending) => ?_
  refine .bind (blind_followPath hR) fun x => .bind (blind_unify hR) fun _ => ?_
  refine .bind (.forIn fun arg => ?_) fun _ => .pure _
  exact .bind (blind_store hR) fun s => .bind (hsearch _) fun found =>
    .bind (blind_unify hR) fun _ => .pure _

/-- The candidates are the same, and each is tried in a copy of the state that is thrown away. The
induction is on the room that is left for nested searches. -/
theorem blind_search {room : ℕ} : Blind R (e.search c span room goal) := by
  induction room generalizing goal with
  | zero => exact .bind (blind_classType hR) fun _ => blind_fail
  | succ room ih =>
    refine .bind (blind_classType hR) fun cls => .bind (blind_localInstances hR) fun xs => ?_
    refine .bind (blind_firstFit hR) fun o => ?_
    split
    case h_1 t => exact .pure t
    case h_2 =>
      refine twins_environment hR fun env env' henv => ?_
      rw [henv.instanceCandidates]
      have htrial (n : GlobalName) (path : SuperclassPath) :
          Blind R (e.tryInstance c goal span (e.search c span room) n path) :=
        blind_tryInstance hR fun t => ih
      refine .bind_of_ensures (blind_fits hR htrial) (stable_fits hR htrial) fun found hfound => ?_
      split
      case h_1 => exact blind_fail
      case h_2 n t s =>
        exact .bind (blind_modifyStore hR fun _ _ => hfound (n, t, s) (by simp)) fun _ => .pure t
      case h_3 => exact blind_fail

theorem blind_resolveObligation {force : Bool} {o : Obligation} :
    Blind R (e.resolveObligation force o) := by
  refine .bind (blind_store hR) fun s => ?_
  split
  · exact .pure _
  · extract_lets goal
    split
    · exact .pure _
    · exact .bind (blind_search hR) fun found => .bind (blind_unify hR) fun _ => .pure _

theorem blind_resolveObligations {force : Bool} : Blind R (e.resolveObligations force) := by
  refine twins_get fun s s' hs => ?_
  rw [hR.obligations hs]
  refine .bind (blind_waits hR (fun _ _ _ => rfl) fun _ _ => hR.goals) fun _ => ?_
  refine .bind (.mapM fun o => blind_resolveObligation hR) fun rs => .bind ?_ fun _ => .pure _
  exact blind_waits hR (fun _ _ ht => congrArg (· ++ rs.flatMap (·.1)) (hR.obligations ht))
    fun _ _ => hR.goals

end LeveledTypes.Elaborator
