import LeveledTypes.Proofs.Elaboration.Twins
import LeveledTypes.Proofs.Search.Watched
import Mathlib.Data.List.Perm.Basic

/-!
# Searches of twins

Instance search in states that differ in names only, over environments whose candidates for a class
are the same but for their order and for watched instances. Each global candidate is tried with the
same store, so that its outcome is its own, up to names, whatever has been tried before. So both
searches find the same candidates, unless one of them is broken off.
-/
namespace LeveledTypes

namespace Watched

/-- What errors say; a search that is broken off says nothing. -/
abbrev outline (o : Option Error) : Option (ErrorKind × Multiset String) :=
  o.map fun e => (e.kind, e.candidates)

section Steps
variable {α β : Type} {R : ElaborationState → ElaborationState → Prop} {V : α → β → Prop}

/-- Running into the limit of nesting is passed on by both searches or by none, and other failures
are dropped by both. -/
theorem matched_heed {f : Elab α} {g : Elab β} (h : Matched Error.outline? R V f g) :
    Matched outline R V (heed f) (heed g) := by
  have houtline (e : Error) : outline (if e.kind = .reductionLimit then none else some e) =
      e.outline? := by
    unfold Error.outline?
    split <;> rfl
  intro s s' hs
  unfold heed
  have hrun := h s s' hs
  generalize f s = a, g s' = b at hrun
  cases hrun with
  | ok hV hst => exact .ok hV hst
  | error he hst => exact .error ((houtline _).trans (he.trans (houtline _).symm)) hst
  | left he => exact .left ((houtline _).trans he)
  | right he => exact .right ((houtline _).trans he)

theorem matched_stop_left {y : Watched β} : Matched outline R V stop y := fun _ _ _ => .left rfl

theorem matched_stop_right {x : Watched α} : Matched outline R V x stop := fun _ _ _ => .right rfl

/-- Two watched runs that match both return, or both fail with an error, or one of them is broken
off. -/
theorem cases_of_endMatched {r : EStateM.Result (Option Error) ElaborationState α}
    {r' : EStateM.Result (Option Error) ElaborationState β} (h : EndMatched outline R V r r') :
    (∃ a b s s', r = .ok a s ∧ r' = .ok b s' ∧ V a b ∧ R s s') ∨
    (∃ e e' s s', r = .error (some e) s ∧ r' = .error (some e') s' ∧
      outline (some e) = outline (some e') ∧ R s s') ∨
    (∃ s, r = .error none s) ∨ ∃ s', r' = .error none s' := by
  cases h with
  | ok hV hs => exact .inl ⟨_, _, _, _, rfl, rfl, hV, hs⟩
  | @error o o' s s' he hs =>
    cases o <;> cases o'
    case none.none => exact .inr (.inr (.inl ⟨s, rfl⟩))
    case some.some e e' => exact .inr (.inl ⟨e, e', s, s', rfl, rfl, he, hs⟩)
    all_goals cases he
  | left he =>
    obtain rfl := Option.map_eq_none_iff.mp he
    exact .inr (.inr (.inl ⟨_, rfl⟩))
  | right he =>
    obtain rfl := Option.map_eq_none_iff.mp he
    exact .inr (.inr (.inr ⟨_, rfl⟩))

variable {f : Watched α} {g : Watched β}
  (hR : ∀ {s s' t t'}, R s s' → R t t' →
    R { t with conversion := { t.conversion with store := s.conversion.store } }
    { t' with conversion := { t'.conversion with store := s'.conversion.store } })

include hR

/-- A trial is taken back by both searches or by none. -/
theorem matched_attempt (h : Matched outline R V f g) :
    Matched outline R (Option.Rel V) (attempt f) (attempt g) := by
  intro s s' hs
  unfold attempt
  have hrun := cases_of_endMatched (h s s' hs)
  generalize f s = a, g s' = b at hrun
  obtain ⟨_, _, t, t', rfl, rfl, hV, ht⟩ | ⟨_, _, t, t', rfl, rfl, -, ht⟩ | ⟨t, rfl⟩ | ⟨t', rfl⟩ :=
    hrun
  · exact .ok (.some hV) ht
  · exact .ok .none (hR hs ht)
  · exact .left rfl
  · exact .right rfl

/-- Both trials are taken back, and what they found with the store they came to correspond. -/
theorem matched_probe {S : Store → Store → Prop}
    (hS : ∀ s s', R s s' → S s.conversion.store s'.conversion.store) (h : Matched outline R V f g) :
    Matched outline R (Option.Rel fun p q => V p.1 q.1 ∧ S p.2 q.2) (probe f) (probe g) := by
  intro s s' hs
  unfold probe
  have hrun := cases_of_endMatched (h s s' hs)
  generalize f s = a, g s' = b at hrun
  obtain ⟨_, _, t, t', rfl, rfl, hV, ht⟩ | ⟨_, _, t, t', rfl, rfl, -, ht⟩ | ⟨t, rfl⟩ | ⟨t', rfl⟩ :=
    hrun
  · exact .ok (.some ⟨hV, hS _ _ ht⟩) (hR hs ht)
  · exact .ok .none (hR hs ht)
  · exact .left rfl
  · exact .right rfl

end Steps

section Probe
variable {α : Type} {f : Watched α} {s t : ElaborationState}

/-- However a trial ends, the store is as before. -/
theorem store_probe {o : Option (α × Store)} (h : probe f s = .ok o t) :
    t.conversion.store = s.conversion.store := by
  unfold probe at h
  generalize f s = r at h
  rcases r with ⟨a, t⟩ | ⟨_ | e, t⟩ <;> cases h <;> rfl

theorem probe_ne_some {e : Error} : probe f s ≠ .error (some e) t := by
  intro h
  unfold probe at h
  generalize f s = r at h
  rcases r with ⟨a, t⟩ | ⟨_ | e, t⟩ <;> cases h

end Probe

/-- What is found among candidates, each with a possible outcome of its trial. -/
inductive Found (T : GlobalName × SuperclassPath → Option (Term × Store) → Prop) :
    List (GlobalName × SuperclassPath) → List (GlobalName × Term × Store) → Prop
  | nil : Found T [] []
  | skip {p : GlobalName × SuperclassPath} {ps fs} : T p none → Found T ps fs → Found T (p :: ps) fs
  | hit {p : GlobalName × SuperclassPath} {t s ps fs} : T p (some (t, s)) → Found T ps fs →
      Found T (p :: ps) ((p.1, t, s) :: fs)

namespace Found
variable {T T' : GlobalName × SuperclassPath → Option (Term × Store) → Prop}
  {ps qs zs : List (GlobalName × SuperclassPath)} {fs gs : List (GlobalName × Term × Store)}

/-- Trials do not depend on each other, so that candidates in another order give the same hits in
that order. -/
theorem perm (h : Found T ps fs) (hp : ps.Perm qs) : ∃ gs, fs.Perm gs ∧ Found T qs gs := by
  induction hp generalizing fs with
  | nil => exact ⟨fs, .refl _, h⟩
  | cons p _ ih =>
    cases h with
    | skip hT h =>
      obtain ⟨gs, hgs, h⟩ := ih h
      exact ⟨gs, hgs, .skip hT h⟩
    | hit hT h =>
      obtain ⟨gs, hgs, h⟩ := ih h
      exact ⟨_ :: gs, hgs.cons _, .hit hT h⟩
  | swap p q ps =>
    cases h with
    | skip hp h =>
      cases h with
      | skip hq h => exact ⟨_, .refl _, .skip hq (.skip hp h)⟩
      | hit hq h => exact ⟨_, .refl _, .hit hq (.skip hp h)⟩
    | hit hp h =>
      cases h with
      | skip hq h => exact ⟨_, .refl _, .skip hq (.hit hp h)⟩
      | hit hq h => exact ⟨_, .swap _ _ _, .hit hq (.hit hp h)⟩
  | trans _ _ ih ih' =>
    obtain ⟨gs, hgs, h⟩ := ih h
    obtain ⟨hs, hhs, h⟩ := ih' h
    exact ⟨hs, hgs.trans hhs, h⟩

theorem eq_nil (h : Found T zs fs) (hz : ∀ z ∈ zs, ∀ o, T z o → o = none) : fs = [] := by
  induction h with
  | nil => rfl
  | skip _ _ ih => exact ih fun z hz' => hz z (List.mem_cons_of_mem _ hz')
  | hit hT => exact absurd (hz _ List.mem_cons_self _ hT) (by simp)

/-- Of candidates with outcomes that are related in pairs, the same fit, and with related results;
candidates that never fit do not matter. -/
theorem forall₂ {V : Term × Store → Term × Store → Prop} (h : Found T ps fs)
    (h' : Found T' (ps ++ zs) gs) (hT : ∀ p ∈ ps, ∀ o o', T p o → T' p o' → Option.Rel V o o')
    (hz : ∀ z ∈ zs, ∀ o, T' z o → o = none) :
    List.Forall₂ (fun x y => x.1 = y.1 ∧ V x.2 y.2) fs gs := by
  induction h generalizing gs with
  | nil =>
    obtain rfl := h'.eq_nil hz
    exact .nil
  | skip hp _ ih =>
    obtain ⟨hhead, htail⟩ := List.forall_mem_cons.mp hT
    cases h' with
    | skip _ h' => exact ih h' htail
    | hit hq _ => cases hhead _ _ hp hq
  | hit hp _ ih =>
    obtain ⟨hhead, htail⟩ := List.forall_mem_cons.mp hT
    cases h' with
    | skip hq _ => cases hhead _ _ hp hq
    | hit hq h' =>
      cases hhead _ _ hp hq with
      | some hV => exact .cons ⟨rfl, hV⟩ (ih h' htail)

end Found

section Fits
variable {I : ElaborationState → Prop} {trial : GlobalName → SuperclassPath → Watched Term}

/-- The trial of a candidate from a state with the invariant may have this outcome. -/
def Tried (I : ElaborationState → Prop) (trial : GlobalName → SuperclassPath → Watched Term)
    (p : GlobalName × SuperclassPath) (o : Option (Term × Store)) : Prop :=
  ∃ s t, I s ∧ probe (trial p.1 p.2) s = .ok o t

/-- Candidates are tried one after the other in states with the invariant. -/
theorem found_fits {ps : List (GlobalName × SuperclassPath)}
    (hI : ∀ p ∈ ps, ∀ s o t, I s → probe (trial p.1 p.2) s = .ok o t → I t)
    {s : ElaborationState} (hs : I s) :
    (∃ fs t, fits trial ps s = .ok fs t ∧ I t ∧ Found (Tried I trial) ps fs) ∨
    ∃ t, fits trial ps s = .error none t := by
  induction ps generalizing s with
  | nil => exact .inl ⟨[], s, rfl, hs, .nil⟩
  | cons p ps ih =>
    obtain ⟨hp, hps⟩ := List.forall_mem_cons.mp hI
    have hfits : fits trial (p :: ps) s =
        (probe (trial p.1 p.2) >>= fun fit => fits trial ps >>= fun fs =>
      pure ((fit.map fun q => (p.1, q.1, q.2)).toList ++ fs)) s := rfl
    rw [hfits]
    cases hprobe : probe (trial p.1 p.2) s with
    | error o t =>
      cases o with
      | none => exact .inr ⟨t, bind_of_error hprobe⟩
      | some e => exact absurd hprobe probe_ne_some
    | ok fit t =>
      rw [bind_of_ok hprobe]
      obtain ⟨fs, u, hrun, hu, hfound⟩ | ⟨u, hrun⟩ := ih hps (hp s fit t hs hprobe)
      · refine .inl ⟨_, u, bind_of_ok hrun, hu, ?_⟩
        cases fit with
        | none => exact .skip ⟨s, t, hs, hprobe⟩ hfound
        | some q => exact .hit ⟨s, t, hs, hprobe⟩ hfound
      · exact .inr ⟨u, bind_of_error hrun⟩

end Fits

end Watched

/-- Two elaborators whose searches for a class try the same candidates, but for their order and for
candidates on the right that are watched. -/
structure Watched.Twins (G : GlobalName → Prop) (A : GlobalName → ℕ) (w w' : Watch)
    (e e' : Elaborator) (own own' : Registry) : Prop extends e.Twins G A e' own own' where
  named : ∀ cls, ∀ p ∈ (⟨e.base, own⟩ : Environment).instanceCandidates cls, G p.1
  candidates : ∀ cls, w.seeks cls = false → w'.seeks cls = false → ∃ zs,
    ((⟨e'.base, own'⟩ : Environment).instanceCandidates cls).Perm
      ((⟨e.base, own⟩ : Environment).instanceCandidates cls ++ zs) ∧ ∀ z ∈ zs, w'.fits z.1 = true

theorem Context.Over.naming_mono {G G' : GlobalName → Prop} {A : GlobalName → ℕ} {c : Context}
    (hc : c.Over (.naming G A True)) (hG : ∀ n, G n → G' n) : c.Over (.naming G' A True) where
  types x hx := (hc.types x hx).naming_mono hG
  values x hx v hv := (hc.values x hx v hv).naming_mono hG
  aliases a ha := (hc.aliases a ha).imp (·.naming_mono hG) (·.naming_mono hG)

namespace ElaborationState.Twins
variable {G G' : GlobalName → Prop} {A : GlobalName → ℕ} {e e' : Elaborator} {own own' : Registry}
  {s s' t t' : ElaborationState}

/-- The state on the left is a twin of itself. -/
theorem left (hs : s.Twins G A e e' own own' s') : s.Twins G A e e own own s :=
  ⟨hs.own_left, hs.own_left, ⟨hs.conversion.store.over_left, rfl⟩, hs.conversion.memo,
    hs.conversion.memo⟩

/-- So is the state on the right. -/
theorem right (hs : s.Twins G A e e' own own' s') (hG : ∀ n, G n → G' n) :
    s'.Twins G' A e' e' own' own' s' := by
  refine ⟨hs.own_right, hs.own_right, ⟨?_, rfl⟩, hs.conversion.memo_right, hs.conversion.memo_right⟩
  have hover := hs.conversion.store.over_right
  exact ⟨fun m t ht => (hover.solutions m t ht).naming_mono hG, fun m k hk =>
    (hover.types m k hk).naming_mono hG⟩

theorem restore (hs : s.Twins G A e e' own own' s') (ht : t.Twins G A e e' own own' t') :
    ElaborationState.Twins G A e e' own own'
      { t with conversion := { t.conversion with store := s.conversion.store } }
      { t' with conversion := { t'.conversion with store := s'.conversion.store } } :=
  ⟨ht.own_left, ht.own_right, hs.conversion.store, ht.conversion.memo, ht.conversion.memo_right⟩

/-- Two states with stores that differ in names only are twins if each is one of itself. -/
theorem of_self (hs : s.Twins G A e e own own s) (hs' : s'.Twins G' A e' e' own' own' s')
    (hstore : s.conversion.store.Twins (.naming G A True) s'.conversion.store) :
    s.Twins G A e e' own own' s' :=
  ⟨hs.own_left, hs'.own_left, hstore, hs.conversion.memo, hs'.conversion.memo⟩

end ElaborationState.Twins

/-- A state that is a twin of itself, and that has the store of another one. -/
structure ElaborationState.Reverted (G : GlobalName → Prop) (A : GlobalName → ℕ) (e : Elaborator)
    (own : Registry) (s t : ElaborationState) : Prop where
  twins : t.Twins G A e e own own t
  store : t.conversion.store = s.conversion.store

namespace Watched

section Search
variable {G : GlobalName → Prop} {A : GlobalName → ℕ} {w w' : Watch} {e e' : Elaborator}
  {own own' : Registry} {c : Context} {span : Span} {goal goal' : Term}

/-- Two watched runs over such elaborators that match. -/
abbrev Match {α β : Type} (G : GlobalName → Prop) (A : GlobalName → ℕ) (e e' : Elaborator)
    (own own' : Registry) (V : α → β → Prop) (x : Watched α) (y : Watched β) : Prop :=
  Matched outline (ElaborationState.Twins G A e e' own own') V x y

section Steps
variable (h : e.Twins G A e' own own') (hc : c.Over (.naming G A True))
  (hgoal : goal.Twins (.naming G A True) goal')

include h hc hgoal

/-- The same local instance is the first that fits. -/
theorem matched_firstFit {xs xs' : List Typed}
    (hxs : List.Forall₂ (Typed.Twins (.naming G A True)) xs xs') :
    Match G A e e' own own' (Option.Rel (Term.Twins (.naming G A True))) (firstFit e c goal span xs)
      (firstFit e' c goal' span xs') := by
  induction hxs with
  | nil => exact .pure .none
  | cons hx _ ih =>
    refine .bind (matched_attempt .restore (matched_heed (h.matched_convert hc hx.type hgoal)))
      fun o o' ho => ?_
    cases ho with
    | none => exact ih
    | some => exact .pure (.some hx.term)

/-- The trials of a candidate match if the searches for its instance arguments do. A watched
instance does not fit. -/
theorem matched_tryInstance {search search' : Term → Watched Term}
    (hsearch : ∀ t t', t.Twins (.naming G A True) t' →
      Match G A e e' own own' (Term.Twins (.naming G A True)) (search t) (search' t'))
    {inst : GlobalName} (hinst : G inst) (path : SuperclassPath) :
    Match G A e e' own own' (fun t t' => t.Twins (.naming G A True) t' ∧ w'.fits inst = false)
      (tryInstance w e c goal span search inst path)
      (tryInstance w' e' c goal' span search' inst path) := by
  refine .bind (matched_heed (h.matched_global hinst)) fun p p' hp => ?_
  refine .bind (matched_heed (h.matched_applyToHoles hc ⟨hp.1, hp.2⟩ .nil _)) fun q q'
    ⟨hx, hpending⟩ => ?_
  refine .bind (matched_heed (h.matched_followPath hc hx path)) fun x x' hx => ?_
  refine .bind (matched_heed (h.matched_convert hc hx.type hgoal)) fun _ _ _ => ?_
  split
  · exact matched_stop_left
  · split
    case isTrue => exact matched_stop_right
    case isFalse hfits =>
      refine .bind (.forIn hpending fun a a' ha => ?_) fun _ _ _ =>
        .pure ⟨hx.term, by simpa using hfits⟩
      refine .bind (matched_heed Elaborator.Twins.matched_store) fun s s' hs => ?_
      refine .bind (hsearch _ _ (hs.zonk ha.type)) fun found found' hfound => ?_
      exact .bind (matched_heed (h.matched_convert hc ha.term hfound)) fun _ _ _ => .pure rfl

end Steps

section Fits
variable {G' : GlobalName → Prop} {trial trial' : GlobalName → SuperclassPath → Watched Term}
  {ps qs zs : List (GlobalName × SuperclassPath)} {V : Term → Term → Prop}

/-- After the trial of a candidate, in a run that matches itself, the store is as before. -/
theorem keeps_probe {s₀ s t : ElaborationState} {p : GlobalName × SuperclassPath}
    {o : Option (Term × Store)} (hp : Match G A e e own own V (trial p.1 p.2) (trial p.1 p.2))
    (hs : s₀.Reverted G A e own s) (h : probe (trial p.1 p.2) s = .ok o t) :
    s₀.Reverted G A e own t ∧ ∀ q, o = some q → V q.1 q.1 := by
  have hrun := matched_probe (S := fun _ _ => True) .restore (fun _ _ _ => trivial) hp
  obtain ⟨ho, ht⟩ := hrun.of_self hs.twins h
  refine ⟨⟨ht, (store_probe h).trans hs.store⟩, ?_⟩
  rintro q rfl
  cases ho with
  | some hq => exact hq.1

/-- Two lists of candidates that differ in their order, and in candidates that do not fit. -/
theorem matched_fits (htrial : ∀ p ∈ ps, Match G A e e' own own' (Term.Twins (.naming G A True))
    (trial p.1 p.2) (trial' p.1 p.2))
    (hleft : ∀ p ∈ ps, Match G A e e own own (fun _ _ => True) (trial p.1 p.2) (trial p.1 p.2))
    (hright : ∀ q ∈ qs, Match G' A e' e' own' own' (fun _ _ => q ∉ zs) (trial' q.1 q.2)
      (trial' q.1 q.2))
    (hperm : qs.Perm (ps ++ zs)) (hG : ∀ n, G n → G' n) :
    Match G A e e' own own' (fun fs gs => ∃ hs, gs.Perm hs ∧
      List.Forall₂ (fun x y => x.1 = y.1 ∧ x.2.1.Twins (.naming G A True) y.2.1 ∧
        x.2.2.Twins (.naming G A True) y.2.2) fs hs)
      (fits trial ps) (fits trial' qs) := by
  intro s s' hs
  have hR {u u' : ElaborationState} (hu : s.Reverted G A e own u)
      (hu' : s'.Reverted G' A e' own' u') :
      u.Twins G A e e' own own' u' := by
    refine hu.twins.of_self hu'.twins ?_
    rw [hu.store, hu'.store]
    exact hs.conversion.store
  obtain ⟨fs, t, hrun, ht, hfound⟩ | ⟨t, hrun⟩ :=
    found_fits (fun p hp u o v hu hrun => (keeps_probe (hleft p hp) hu hrun).1) ⟨hs.left, rfl⟩
  case inr => exact hrun ▸ .left rfl
  obtain ⟨gs, t', hrun', ht', hfound'⟩ | ⟨t', hrun'⟩ :=
    found_fits (fun q hq u o v hu hrun => (keeps_probe (hright q hq) hu hrun).1) ⟨hs.right hG, rfl⟩
  case inr => exact hrun' ▸ .right rfl
  obtain ⟨hs, hgs, hfound'⟩ := hfound'.perm hperm
  rw [hrun, hrun']
  let V (p q : Term × Store) : Prop :=
    p.1.Twins (.naming G A True) q.1 ∧ p.2.Twins (.naming G A True) q.2
  refine .ok ⟨hs, hgs, hfound.forall₂ (V := V) hfound' ?_ ?_⟩ (hR ht ht')
  · rintro p hp o o' ⟨u, v, hu, hprobe⟩ ⟨u', v', hu', hprobe'⟩
    have hend := matched_probe .restore (fun _ _ h => h.conversion.store)
      (htrial p hp) u u' (hR hu hu')
    rw [hprobe, hprobe'] at hend
    cases hend with
    | ok ho _ => exact ho
  · rintro z hz o ⟨u, v, hu, hprobe⟩
    have hz' : z ∈ qs := hperm.mem_iff.mpr (List.mem_append_right ps hz)
    obtain ⟨-, hnone⟩ := keeps_probe (hright z hz') hu hprobe
    exact Option.eq_none_iff_forall_ne_some.mpr fun q hq => hnone q hq hz

end Fits

section Step
variable {G' : GlobalName → Prop} (h : Watched.Twins G A w w' e e' own own')
  (hright : Watched.Twins G' A w' w' e' e' own' own') (hG : ∀ n, G n → G' n)

theorem Twins.left (h : Watched.Twins G A w w' e e' own own') :
    Watched.Twins G A w w e e own own where
  env := ⟨h.env.closed, h.env.closed, h.env.closedIn, fun _ _ => rfl⟩
  classFields _ := rfl
  limits := rfl
  current := rfl
  over_types := h.over_types
  over_fields := h.over_fields
  named := h.named
  candidates _ _ _ := ⟨[], by simp, by simp⟩

include h hright hG

/-- Searches match if nested searches do, those on either side with themselves too. -/
theorem matched_search_succ {room : ℕ} (hc : c.Over (.naming G A True))
    (hsearch : ∀ t t', t.Twins (.naming G A True) t' →
      Match G A e e' own own' (Term.Twins (.naming G A True)) (search w e c span room t)
        (search w' e' c span room t'))
    (hsearch_left : ∀ t t', t.Twins (.naming G A True) t' →
      Match G A e e own own (Term.Twins (.naming G A True)) (search w e c span room t)
        (search w e c span room t'))
    (hsearch_right : ∀ t t', t.Twins (.naming G' A True) t' →
      Match G' A e' e' own' own' (Term.Twins (.naming G' A True)) (search w' e' c span room t)
        (search w' e' c span room t'))
    (hgoal : goal.Twins (.naming G A True) goal') :
    Match G A e e' own own' (Term.Twins (.naming G A True)) (search w e c span (room + 1) goal)
      (search w' e' c span (room + 1) goal') := by
  have htwins := h.toTwins
  have hc' : c.Over (.naming G' A True) := hc.naming_mono hG
  refine .bind (matched_heed (htwins.matched_classType hc hgoal)) fun cls cls' hcls => ?_
  rw [hcls.name]
  refine .bind (matched_heed (htwins.matched_localInstances hc)) fun xs xs' hxs => ?_
  refine .bind (matched_firstFit htwins hc hgoal hxs) fun o o' ho => ?_
  cases ho with
  | some ht => exact .pure ht
  | none =>
    dsimp only
    cases hseeks : w.seeks cls'.name
    case true => exact matched_stop_left
    cases hseeks' : w'.seeks cls'.name
    case true => exact matched_stop_right
    refine .bind (matched_heed htwins.matched_environment_pure) fun env env' ⟨henv, henv'⟩ => ?_
    subst henv henv'
    obtain ⟨zs, hperm, hzs⟩ := h.candidates cls'.name hseeks hseeks'
    refine .bind (matched_fits ?_ ?_ ?_ hperm hG) fun fs gs ⟨hs, hgs, hfound⟩ => ?_
    · intro p hp
      exact (matched_tryInstance htwins hc hgoal hsearch (h.named _ p hp) p.2).mono
        fun _ _ ht => ht.1
    · intro p hp
      exact (matched_tryInstance h.left.toTwins hc (.refl hgoal.over_left) hsearch_left
        (h.named _ p hp) p.2).mono fun _ _ _ => trivial
    · intro q hq
      have hgoal' := Term.Twins.refl (hgoal.over_right.naming_mono hG)
      refine (matched_tryInstance hright.toTwins hc' hgoal' hsearch_right
        (hright.named _ q hq) q.2).mono fun _ _ ht hz => ?_
      exact absurd (hzs q hz) (by simp [ht.2])
    · have hnames : ((gs.map (·.1.short) : List String) : Multiset String) = fs.map
          (·.1.short) := by
        rw [Multiset.coe_eq_coe]
        refine (hgs.map _).trans (List.Perm.of_eq ?_)
        have heq : List.Forall₂ (· = ·) (fs.map (·.1.short)) (hs.map (·.1.short)) := by
          rw [List.forall₂_map_left_iff, List.forall₂_map_right_iff]
          exact hfound.imp fun x y hxy => congrArg GlobalName.short hxy.1
        rw [List.forall₂_eq_eq_eq] at heq
        exact heq.symm
      cases hfound with
      | nil =>
        obtain rfl := hgs.eq_nil
        exact matched_heed (Elaborator.Twins.matched_fail rfl)
      | cons hx hrest =>
        cases hrest with
        | nil =>
          obtain rfl := List.perm_singleton.mp hgs
          refine .bind (matched_heed
            (Elaborator.Twins.matched_modifyStore (V := fun _ _ => True) fun _ _ _ => ?_))
            fun _ _ _ => .pure hx.2.1
          exact ⟨trivial, hx.2.2⟩
        | cons _ _ =>
          have hlen := hgs.length_eq
          rcases gs with _ | ⟨_, _ | _⟩
          · simp at hlen
          · simp at hlen
          · refine matched_heed (Elaborator.Twins.matched_fail (congrArg some (Prod.ext rfl ?_)))
            exact hnames.symm

end Step

theorem matched_search_zero (h : e.Twins G A e' own own') (hc : c.Over (.naming G A True))
    (hgoal : goal.Twins (.naming G A True) goal') :
    Match G A e e' own own' (Term.Twins (.naming G A True)) (search w e c span 0 goal)
      (search w' e' c span 0 goal') :=
  matched_heed (.bind (h.matched_classType hc hgoal) fun _ _ _ => Elaborator.Twins.matched_fail rfl)

/-- A search from twins of one state over one environment. -/
theorem matched_search_self (h : Watched.Twins G A w w e e own own)
    (hc : c.Over (.naming G A True)) (room : ℕ) (hgoal : goal.Twins (.naming G A True) goal') :
    Match G A e e own own (Term.Twins (.naming G A True)) (search w e c span room goal)
      (search w e c span room goal') := by
  induction room generalizing goal goal' with
  | zero => exact matched_search_zero h.toTwins hc hgoal
  | succ room ih =>
    exact matched_search_succ h h (fun _ => id) hc (fun _ _ => ih) (fun _ _ => ih)
      (fun _ _ => ih) hgoal

/-- Searches of twins end alike, unless one of them is broken off. -/
theorem matched_search {G' : GlobalName → Prop} (h : Watched.Twins G A w w' e e' own own')
    (hright : Watched.Twins G' A w' w' e' e' own' own') (hG : ∀ n, G n → G' n)
    (hc : c.Over (.naming G A True)) (room : ℕ) (hgoal : goal.Twins (.naming G A True) goal') :
    Match G A e e' own own' (Term.Twins (.naming G A True)) (search w e c span room goal)
      (search w' e' c span room goal') := by
  induction room generalizing goal goal' with
  | zero => exact matched_search_zero h.toTwins hc hgoal
  | succ room ih =>
    exact matched_search_succ h hright hG hc (fun _ _ => ih)
      (fun _ _ => matched_search_self h.left hc room)
      (fun _ _ => matched_search_self hright (hc.naming_mono hG) room) hgoal

end Search

end Watched

end LeveledTypes
