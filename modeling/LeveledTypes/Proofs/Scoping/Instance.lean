import LeveledTypes.Proofs.Scoping.Expression

/-!
# Scoped instances

Instances are sought in the context that an instance argument was made in, and what is found is a
term over it. Trying a candidate keeps the store scoped, and so do going back to the store from
before and going on to the store of a candidate that fits.
-/
namespace LeveledTypes

/-- The type of a hole is over the context the hole was made in. -/
theorem Elaborator.scoped_holeGoal_cod {A : Arities} {t : Term} {n k : ℕ} (ht : t.Scoped A n) :
    (holeGoal.cod t k).Scoped A (n + k) := by
  induction t, k using holeGoal.cod.induct generalizing n with
  | case1 x a b k ih =>
    rw [holeGoal.cod, Nat.succ_eq_one_add, ← Nat.add_assoc]
    exact ih ht.2
  | case2 t k h =>
    rw [holeGoal.cod]
    · exact ht.mono (Nat.le_add_right n k)
    · exact h

/-- Going back to an earlier store. -/
theorem ElaborationState.Scoped.restore {A : Arities} {e : Elaborator} {env : Environment}
    {os : List Obligation} {s t : ElaborationState} (hs : s.Scoped A e env (some os))
    (ht : t.Scoped A e env (some os)) :
    ElaborationState.Scoped A e env (some os)
      { t with conversion := { t.conversion with store := s.conversion.store } } :=
  ⟨ht.environment, ⟨hs.conversion.store, ht.conversion.memo⟩, ht.contexts, ht.among⟩

namespace Elaborator
variable {e : Elaborator} {A : Arities} {env : Environment} {c : Context} {span : Span}
  {os : List Obligation}

section Trials
variable {α : Type} {f : Elab α} {Q : α → Prop}

/-- A trial that fails is taken back, so that only one that succeeds has to keep the state scoped.
-/
theorem scopes_attempt (hf : e.Scopes A env (some os) f Q) :
    e.Scopes A env (some os) (attempt f) fun o => ∀ a, o = some a → Q a := by
  intro s hs
  have hfs := hf s hs
  unfold attempt
  cases h : f s with
  | ok a t =>
    simp only [h] at hfs ⊢
    refine ⟨hfs.1, ?_⟩
    rintro b ⟨⟩
    exact hfs.2
  | error err t =>
    simp only [h] at hfs ⊢
    exact ⟨hs.restore hfs, by simp⟩

/-- The state after a trial is scoped for the obligations from before, as they are put back. -/
theorem scopes_probe (hf : e.Scopes A env (some os) f Q) :
    e.Scopes A env (some os) (probe f) fun o => ∀ p, o = some p → Q p.1 ∧ p.2.Scoped A os := by
  intro s hs
  have hfs := hf s hs
  unfold probe
  cases h : f s with
  | ok a t =>
    simp only [h] at hfs ⊢
    refine ⟨hs.restore hfs.1, ?_⟩
    rintro p ⟨⟩
    exact ⟨hfs.2, hfs.1.conversion.store⟩
  | error err t =>
    simp only [h] at hfs ⊢
    exact ⟨hs.restore hfs, by simp⟩

/-- The candidates that fit, each with a scoped store. -/
theorem scopes_fits {trial : GlobalName → SuperclassPath → Elab Term}
    (htrial : ∀ n path, e.Scopes A env (some os) (trial n path) (·.Scoped A c.length))
    {candidates : List (GlobalName × SuperclassPath)} :
    e.Scopes A env (some os) (fits trial candidates) fun found =>
      ∀ x ∈ found, x.2.1.Scoped A c.length ∧ x.2.2.Scoped A os := by
  induction candidates with
  | nil => exact .pure (by simp)
  | cons x xs ih =>
    refine .bind (scopes_probe (htrial x.1 x.2)) fun o ho => .bind ih fun found hfound =>
      .pure fun y hy => ?_
    rcases List.mem_append.mp hy with hy | hy
    · obtain ⟨p, hp, rfl⟩ := Option.map_eq_some_iff.mp (Option.mem_toList.mp hy)
      exact ho p hp
    · exact hfound y hy

end Trials

section Search
variable {fixed : Option (List Obligation)} (henv : env.Scoped A) (hc : c.Scoped A)

include henv

theorem scopes_classFields {n : GlobalName} :
    e.Scopes A env fixed (e.classFields n) fun fs => ∀ (i : ℕ) f, fs[i]? = some f →
    f.type.Scoped A (A.record n + i) := by
  refine .bind scopes_environment fun env' h => .pure fun i f hf => ?_
  subst h
  exact (henv.classFields hf).1

omit henv in
/-- A field of an instance, whose type is over the fields before it. -/
theorem scoped_fieldOf {cls : ClassType} {t : Term} {i n : ℕ} {f : ClassField}
    (hcls : cls.term.Scoped A n) (ht : t.Scoped A n)
    (hf : f.type.Scoped A (A.record cls.name + i)) : (fieldOf cls t i f).Scoped A n := by
  refine ⟨ht, ClassType.scoped_instantiate hcls (fun v hv => ?_) (by simpa using hf)⟩
  obtain ⟨j, -, rfl⟩ := List.mem_map.mp hv
  exact ht

include hc

/-- The fields of an instance over the context are over the context. The induction is on how deep
superclasses may be nested. -/
theorem scopes_provided {cls : GlobalName} {gas : ℕ} {x : Typed} (hx : x.Scoped A c.length) :
    e.Scopes A env fixed (e.provided c cls span gas x) fun xs => ∀ x ∈ xs, x.Scoped A c.length := by
  induction gas generalizing x with
  | zero => exact scopes_fail
  | succ gas ih =>
    unfold provided
    refine .bind (scopes_whnf henv hc hx.type) fun t ht => ?_
    split
    case h_1 n u ps =>
      split
      · exact .pure (by simpa using hx)
      · refine .bind (scopes_classFields henv) fun fs hfs => ?_
        extract_lets supers
        refine .bind (.mapM (R := fun _ xs => ∀ x ∈ xs, x.Scoped A c.length) fun p hp => ?_) fun xss
          hxss => .pure ?_
        · have hmem := (List.mem_filter.mp (List.mem_reverse.mp hp)).1
          have hf := hfs p.2 p.1 (List.mem_zipIdx_iff_getElem?.mp hmem)
          have hcls : (⟨n, u, ps⟩ : ClassType).term.Scoped A c.length := ht
          exact ih (scoped_fieldOf hcls hx.term hf)
        · intro y hy
          obtain ⟨xs, hxs, hy⟩ := List.mem_flatten.mp hy
          obtain ⟨p, -, hp⟩ := exists_mem_of_forall₂_right hxss hxs
          exact hp y hy
    case h_2 => exact .pure (by simp)

theorem scopes_localInstances {cls : GlobalName} :
    e.Scopes A env fixed (e.localInstances c cls span) fun xs => ∀ x ∈ xs, x.Scoped A c.length := by
  refine .bind (.mapM (R := fun _ xs => ∀ x ∈ xs, x.Scoped A c.length) fun p hp => ?_) fun xss
    hxss => .pure ?_
  · have hx := List.mem_zipIdx_iff_getElem?.mp (List.mem_filter.mp hp).1
    have hlt : p.2 < c.length := (List.getElem?_eq_some_iff.mp hx).1
    exact scopes_provided henv hc ⟨hlt, (hc.entries.getElem? hx).1⟩
  · intro y hy
    obtain ⟨xs, hxs, hy⟩ := List.mem_flatten.mp hy
    obtain ⟨p, -, hp⟩ := exists_mem_of_forall₂_right hxss hxs
    exact hp y hy

theorem scopes_firstFit {goal : Term} (hgoal : goal.Scoped A c.length) {xs : List Typed}
    (hxs : ∀ x ∈ xs, x.Scoped A c.length) :
    e.Scopes A env (some os) (e.firstFit c goal span xs) fun o => ∀ t, o = some t →
    t.Scoped A c.length := by
  induction xs with
  | nil => exact .pure (by simp)
  | cons x xs ih =>
    obtain ⟨hx, hxs⟩ := List.forall_mem_cons.mp hxs
    refine .bind (scopes_attempt (scopes_convert henv hc hx.type hgoal)) fun o _ => ?_
    split
    · exact .pure (by simpa using hx.term)
    · exact ih hxs

/-- Every hole is over the context, and so are the types that are left. The induction is on how many
parameters there may be. -/
theorem scopes_applyToHoles {gas : ℕ} {x : Typed} {pending : List Typed} (hx : x.Scoped A c.length)
    (hpending : ∀ y ∈ pending, y.Scoped A c.length) :
    e.Scopes A env fixed (e.applyToHoles c span gas x pending) fun r =>
      r.1.Scoped A c.length ∧ ∀ y ∈ r.2, y.Scoped A c.length := by
  induction gas generalizing x pending with
  | zero => exact scopes_fail
  | succ gas ih =>
    unfold applyToHoles
    refine .bind (scopes_whnf henv hc hx.type) fun t ht => ?_
    split
    case h_1 q dom cod =>
      have hjoin (kind : HoleKind) {all : Term → List Typed}
          (hall : ∀ a, a.Scoped A c.length → ∀ y ∈ all a, y.Scoped A c.length) :
          e.Scopes A env fixed (do
            let a ← fresh c dom kind span
            e.applyToHoles c span gas ⟨.app x.term a, cod.subst a⟩ (all a)) fun r =>
              r.1.Scoped A c.length ∧ ∀ y ∈ r.2, y.Scoped A c.length :=
        .bind (scopes_fresh hc ht.1) fun a ha =>
          ih ⟨⟨hx.term, ha⟩, Term.Scoped.subst ht.2 ha⟩ (hall a ha)
      split
      · refine .bind (scopes_classType henv hc ht.1) fun cls _ => .bind
          (.pure (P := fun _ => True) trivial) fun kind _ => ?_
        refine hjoin kind fun a ha y hy => (List.mem_append.mp hy).elim (hpending y) fun hy => ?_
        exact List.mem_singleton.mp hy ▸ ⟨ha, ht.1⟩
      · exact .bind (.pure (P := fun _ => True) trivial) fun kind _ =>
          hjoin kind fun _ _ => hpending
    case h_2 => exact .pure ⟨hx, hpending⟩

theorem scopes_followPath {path : SuperclassPath} {x : Typed} (hx : x.Scoped A c.length) :
    e.Scopes A env fixed (e.followPath c span x path) (·.Scoped A c.length) := by
  refine .foldlM hx fun y p _ hy => .bind (scopes_classType henv hc hy.type) fun cls hcls => ?_
  refine .bind (scopes_classFields henv) fun fs hfs => ?_
  split
  case h_1 f hf => exact .pure (scoped_fieldOf hcls hy.term (hfs p.2 f hf))
  case h_2 => exact .pure hy

/-- A candidate is applied to holes, its projection compared with the goal, and its instance
parameters searched for in turn. -/
theorem scopes_tryInstance {goal : Term} (hgoal : goal.Scoped A c.length)
    {search : Term → Elab Term} (hsearch : ∀ t, t.Scoped A c.length →
      e.Scopes A env fixed (search t) (·.Scoped A c.length)) {inst : GlobalName}
    {path : SuperclassPath} : e.Scopes A env fixed (e.tryInstance c goal span search inst path)
    (·.Scoped A c.length) := by
  refine .bind (scopes_global henv) fun (term, type) ⟨hterm, htype⟩ => ?_
  refine .bind (scopes_applyToHoles henv hc ⟨hterm.closed, htype.closed⟩ (by simp)) fun (x, pending)
    ⟨hx, hpending⟩ => ?_
  refine .bind (scopes_followPath henv hc hx) fun x hx =>
    .bind (scopes_convert henv hc hx.type hgoal) fun _ _ => ?_
  refine .bind (.forIn fun arg harg => .bind scopes_store fun s hs => ?_) fun _ _ => .pure hx.term
  have harg := hpending arg harg
  refine .bind (hsearch _ (hs.zonk harg.type)) fun found hfound => ?_
  exact .bind (scopes_convert henv hc harg.term hfound) fun _ _ => .pure trivial

/-- What a search finds is over the context. -/
theorem scopes_search {room : ℕ} {goal : Term} (hgoal : goal.Scoped A c.length) :
    e.Scopes A env (some os) (e.search c span room goal) (·.Scoped A c.length) := by
  induction room generalizing goal with
  | zero => exact .bind (scopes_classType henv hc hgoal) fun _ _ => scopes_fail
  | succ room ih =>
    refine .bind (scopes_classType henv hc hgoal) fun cls _ => .bind
      (scopes_localInstances henv hc) fun xs hxs => ?_
    refine .bind (scopes_firstFit henv hc hgoal hxs) fun o ho => ?_
    split
    case h_1 t => exact .pure (ho t rfl)
    case h_2 =>
      refine .bind scopes_environment fun env' _ => ?_
      have htrial (n : GlobalName) (path : SuperclassPath) : e.Scopes A env (some os)
          (e.tryInstance c goal span (e.search c span room) n path) (·.Scoped A c.length) :=
        scopes_tryInstance henv hc hgoal fun t ht => ih ht
      refine .bind (scopes_fits htrial) fun found hfound => ?_
      split
      case h_1 => exact scopes_fail
      case h_2 n t s =>
        obtain ⟨ht, hs⟩ := hfound (n, t, s) (by simp)
        refine .bind (P := fun _ => True) (scopes_modifyStore fun _ os' hos _ => ?_)
          fun _ _ => .pure ht
        exact ⟨hos os rfl ▸ hs, trivial⟩
      case h_3 => exact scopes_fail

end Search

section Obligations
variable (henv : env.Scoped A)

include henv

/-- An obligation that finds an instance solves its hole by it, under the variables of its context,
and one that does not stays. -/
theorem scopes_resolveObligation {force : Bool} {o : Obligation} (ho : o ∈ os)
    (hcontext : o.context.Scoped A) :
    e.Scopes A env (some os) (e.resolveObligation force o) fun r => ∀ o' ∈ r.1, o' ∈ os := by
  refine .bind scopes_store fun s hs => ?_
  have hgoal : (s.zonk (holeGoal s o.hole)).Scoped A o.context.length := by
    obtain ⟨h, hh, harity⟩ := hs.waiting o ho
    refine hs.zonk (Term.Scoped.mono (n := 0 + h.arity) ?_ (by omega))
    simp only [holeGoal, hh]
    exact scoped_holeGoal_cod (hs.types _ h hh)
  split
  · exact .pure (by simp)
  · extract_lets goal
    split
    · exact .pure (by simpa using ho)
    · refine .bind (scopes_search henv hcontext hgoal) fun found hfound => ?_
      have htarget : ((Term.hole o.hole).apps
          ((List.range o.context.length).reverse.map .var)).Scoped A o.context.length :=
        Term.scoped_apps.mpr ⟨trivial, Term.scoped_range _⟩
      exact .bind (scopes_convert henv hcontext htarget hfound) fun _ _ => .pure (by simp)

/-- Taking up the instance arguments that wait keeps the state scoped. -/
theorem scopes_resolveObligations {force : Bool} :
    e.Scopes A env none (e.resolveObligations force) fun _ => True := by
  intro s hs
  have hrun := Ensures.mapM (R := fun _ r => ∀ o ∈ r.1, o ∈ s.obligations) (f :=
    e.resolveObligation force)
    (fun o ho => scopes_resolveObligation henv ho (hs.contexts o ho)) { s with obligations := [] }
    ⟨hs.environment, hs.conversion, hs.contexts, by simp⟩
  have hback {t : ElaborationState} (ht : t.Scoped A e env (some s.obligations))
      {os : List Obligation}
      (hos : ∀ o ∈ os, o ∈ s.obligations) :
        ElaborationState.Scoped A e env none { t with obligations := t.obligations ++ os } := by
    have hall : ∀ o ∈ t.obligations ++ os, o ∈ s.obligations :=
      fun o ho => (List.mem_append.mp ho).elim (ht.among o) (hos o)
    exact ⟨ht.environment, ⟨ht.conversion.store.mono hall, ht.conversion.memo⟩,
      fun o ho => ht.contexts o (hall o ho), fun _ => id⟩
  have hsteps : e.resolveObligations force s =
      (s.obligations.mapM (e.resolveObligation force) >>= fun rs => do
      modify fun s => { s with obligations := s.obligations ++ rs.flatMap (·.1) }
      return rs.any (·.2)) { s with obligations := [] } := rfl
  rw [hsteps]
  cases h : s.obligations.mapM (e.resolveObligation force) { s with obligations := [] } with
  | ok rs t =>
    simp only [h] at hrun
    rw [bind_of_ok h]
    refine ⟨hback hrun.1 fun o ho => ?_, trivial⟩
    obtain ⟨r, hr, ho⟩ := List.mem_flatMap.mp ho
    obtain ⟨o', -, hr⟩ := exists_mem_of_forall₂_right hrun.2 hr
    exact hr o ho
  | error err t =>
    simp only [h] at hrun
    rw [bind_of_error h]
    simpa using hback hrun (List.forall_mem_nil _)

end Obligations

end Elaborator

end LeveledTypes
