import LeveledTypes.Proofs.Reduction.Transparency
import LeveledTypes.Proofs.Search.Candidates
import LeveledTypes.Proofs.Search.Twins

/-!
# What a search reads

All that a search reads is coherent if it agrees about how many arguments constructors have, and if
it names no globals but those at hand. Over environments that give coherent searches the same
definitions, and the same candidates but for their order and for watched instances, the searches are
twins.
-/
namespace LeveledTypes

/-- The definitions are closed and have no holes, they agree with each other about how many
arguments constructors have, and neither they nor the lists of a class name any globals but those
given. -/
structure Environment.Coherent (G : GlobalName → Prop) (A : GlobalName → ℕ) (env : Environment) :
    Prop where
  named : ∀ n d, env.get? n = some d → G n
  instances : ∀ cls, ∀ n ∈ env.instancesOf cls, G n
  subclasses : ∀ cls, ∀ n ∈ env.subclassesOf cls, G n
  closedIn : env.ClosedIn G A
  types : ∀ n d, env.get? n = some d → (Term.pis d.tele d.type).Over (.naming G A True) ⊤
  fields : ∀ n, ∀ f ∈ env.classFields n, f.type.Over (.naming G A True) ⊤

/-- So are the definitions, the context and the solutions and types of holes, and what is remembered
are outcomes of unfoldings of such applications. -/
structure Elaborator.Coherent (G : GlobalName → Prop) (A : GlobalName → ℕ)
    (e : Elaborator) (c : Context) (s : ElaborationState) : Prop where
  env : (⟨e.base, s.own⟩ : Environment).Coherent G A
  context : c.Over (.naming G A True)
  store : s.conversion.store.TermsOver (.naming G A True)
  keys : ∀ k ∈ s.conversion.memo, k.Over (.naming G A True) ⊤
  right : s.conversion.memo.Right (Reducer.bare ⟨e.base, s.own⟩)

section Environments
variable {G : GlobalName → Prop} {A : GlobalName → ℕ} {env env' : Environment}

namespace Environment

section Walk
open SubclassWalk

theorem SubclassWalk.found_visit {w : SubclassWalk} (h : ∀ cls, ∀ n ∈ env.instancesOf cls, G n)
    (hw : ∀ p ∈ w.found, G p.1) (c : GlobalName) (path : SuperclassPath) (sub : GlobalName) :
    ∀ p ∈ (w.visit env c path sub).found, G p.1 := by
  unfold visit
  split
  · exact hw
  · split
    · exact hw
    · exact List.forall_mem_append.mpr ⟨hw, List.forall_mem_map.mpr (h sub)⟩

/-- A walk finds registered instances only. -/
theorem SubclassWalk.found_run {w : SubclassWalk} (h : ∀ cls, ∀ n ∈ env.instancesOf cls, G n)
    (hw : ∀ p ∈ w.found, G p.1) (n : ℕ) : ∀ p ∈ (w.run env n).found, G p.1 := by
  have hfold (c : GlobalName) (path : SuperclassPath) (subs : List GlobalName) {w : SubclassWalk}
      (hw : ∀ p ∈ w.found, G p.1) : ∀ p ∈ (subs.foldl (visit env c path) w).found, G p.1 := by
    induction subs generalizing w with
    | nil => exact hw
    | cons sub subs ih => exact ih (found_visit h hw c path sub)
  induction n generalizing w with
  | zero => exact hw
  | succ n ih =>
    unfold run
    split
    · exact hw
    · exact ih (hfold _ _ _ hw)

end Walk

theorem instanceCandidates_named (h : ∀ cls, ∀ n ∈ env.instancesOf cls, G n) (cls : GlobalName) :
    ∀ p ∈ env.instanceCandidates cls, G p.1 := by
  unfold instanceCandidates
  split
  · exact SubclassWalk.found_run h (by simp) _
  · exact List.forall_mem_map.mpr (h cls)

namespace Coherent

/-- Definitions that name only globals at hand, whose constructors have the arguments that branches
ask for, are closed. -/
theorem closed (h : env.Coherent G A) : env.Closed A := by
  intro n d hd
  have hclosed := h.closedIn n d (h.named n d hd) hd
  cases hbody : d.body with
  | func body _ =>
    simp only [hbody] at hclosed
    exact hclosed.ofArity
  | inst k body =>
    simp only [hbody] at hclosed
    exact hclosed.ofArity
  | constructor data i params _ =>
    simp only [hbody] at hclosed
    exact hclosed
  | _ => trivial

theorem get?_eq_none {n : GlobalName} (h : env.Coherent (· ≠ n) A) : env.get? n = none := by
  by_contra hsome
  obtain ⟨d, hd⟩ := Option.ne_none_iff_exists'.mp hsome
  exact h.named n d hd rfl

theorem twins (h : env.Coherent G A) (h' : env'.Closed A)
    (hget : ∀ n, G n → env'.get? n = env.get? n) :
    env.Twins G A env' := ⟨h.closed, h', h.closedIn, hget⟩

/-- Searches over an environment that enlarges another one by instances that are watched. -/
theorem watched {e e' : Elaborator} {own own' : Registry} {w w' : Watch} {P : GlobalName → Prop}
    (h : (⟨e.base, own⟩ : Environment).Coherent G A) (h' : (⟨e'.base, own'⟩ : Environment).Closed A)
    (hget : ∀ n, G n → (⟨e'.base, own'⟩ : Environment).get? n =
      (⟨e.base, own⟩ : Environment).get? n)
    (hmore : Enlarges P ⟨e.base, own⟩ ⟨e'.base, own'⟩) (hlimits : e'.limits = e.limits)
    (hcurrent : e'.current = e.current) (hfits : ∀ n, P n → w'.fits n = true)
    (hseeks : ∀ cls, w'.seeks cls = false → (⟨e.base, own⟩ : Environment).instancesOf cls = [] →
      (⟨e'.base, own'⟩ : Environment).instancesOf cls = [] ∨
      (⟨e.base, own⟩ : Environment).inheritedInstances cls = []) :
    Watched.Twins G A w w' e e' own own' where
  env := h.twins h' hget
  classFields := hmore.classFields
  limits := hlimits
  current := hcurrent
  over_types n d _ := h.types n d
  over_fields := h.fields
  named := instanceCandidates_named h.instances
  candidates cls _ hcls := by
    obtain ⟨zs, hperm, hzs⟩ := hmore.more_instanceCandidates (hseeks cls hcls)
    exact ⟨zs, hperm, fun z hz => hfits _ (hzs z hz)⟩

theorem watched_self {e : Elaborator} {own : Registry} {w : Watch}
    (h : (⟨e.base, own⟩ : Environment).Coherent G A) : Watched.Twins G A w w e e own own :=
  h.watched h.closed (fun _ _ => rfl) (.refl (fun _ => False) _) rfl rfl
    (fun _ => False.elim) fun _ _ hnone => .inl hnone

end Coherent

end Environment

end Environments

namespace Elaborator

/-- No limit is met on the way of a search. -/
def Unlimited (e : Elaborator) (c : Context) (span : Span) (room : ℕ) (goal : Term)
    (s : ElaborationState) : Prop :=
  ∀ t, Watched.search {} e c span room goal s ≠ .error none t

/-- Two searches end alike: both find the same term, or both fail with errors of the same kind that
list the same candidates in whatever order. They leave the same store, all up to names of
binders. -/
def EndsAlike : EStateM.Result Error ElaborationState Term →
    EStateM.Result Error ElaborationState Term → Prop :=
  EndMatched (fun e : Error => some (e.kind, e.candidates))
    (fun t t' => t.conversion.store.anonymize = t'.conversion.store.anonymize) fun v
      v' => v.same v' = true

namespace Coherent
variable {G G' : GlobalName → Prop} {A : GlobalName → ℕ} {e e' : Elaborator} {c : Context}
  {s : ElaborationState} {own' : Registry} {w w' : Watch} {span : Span} {room : ℕ} {goal : Term}

theorem backed (h : e.Coherent G A c s) : s.conversion.memo.Backed A ⟨e.base, s.own⟩ :=
  (Reducer.backed_iff (r := Reducer.bare ⟨e.base, s.own⟩) h.env.closed).mpr ⟨h.right, fun k hk =>
    (h.keys k hk).ofArity⟩

/-- The state, over two environments that define the globals at hand alike. -/
theorem twins (h : e.Coherent G A c s)
    (henv : (⟨e.base, s.own⟩ : Environment).Twins G A ⟨e'.base, own'⟩) :
    ElaborationState.Twins G A e e' s.own own' s { s with own := own' } :=
  ⟨rfl, rfl, ⟨h.store, rfl⟩, h.backed, henv.backed h.backed h.keys⟩

/-- Searches from a coherent state end alike over environments that are twins, if neither is broken
off. -/
theorem endsAlike (h : e.Coherent G A c s) (htwins : Watched.Twins G A w w' e e' s.own own')
    (hright : Watched.Twins G' A w' w' e' e' own' own') (hG : ∀ n, G n → G' n)
    (hgoal : goal.Over (.naming G A True) ⊤)
    (hs : ∀ t, Watched.search w e c span room goal s ≠ .error none t)
    (hs' : ∀ t, Watched.search w' e' c span room goal { s with own := own' } ≠ .error none t) :
    EndsAlike (e.search c span room goal s)
      (e'.search c span room goal { s with own := own' }) := by
  have hmatched : Watched.Match G A e e' s.own own' (Term.Twins (.naming G A True))
      (Watched.search w e c span room goal)
      (Watched.search w' e' c span room goal) :=
        Watched.matched_search htwins hright hG h.context room (.refl hgoal)
  have hend := hmatched s { s with own := own' } (h.twins htwins.env)
  obtain ⟨v, v', t, t', hrun, hrun', hv, ht⟩ | ⟨err, err', t, t', hrun, hrun', he, ht⟩ | ⟨t,
      hrun⟩ | ⟨t', hrun'⟩ :=
    Watched.cases_of_endMatched hend
  · rw [(Watched.Follows.search room).ok hrun, (Watched.Follows.search room).ok hrun']
    exact .ok (Term.same_iff.mpr hv.alike) ht.conversion.store.alike
  · rw [(Watched.Follows.search room).error hrun, (Watched.Follows.search room).error hrun']
    exact .error he ht.conversion.store.alike
  · exact absurd hrun (hs t)
  · exact absurd hrun' (hs' t')

end Coherent

end Elaborator

end LeveledTypes
