import LeveledTypes.Proofs.Conversion.Covariance
import LeveledTypes.Proofs.Registry
import LeveledTypes.Proofs.Search.Coherent
import LeveledTypes.Proofs.Search.Rollback

/-!
# Searches as transactions

A search is all or nothing: if it fails, the store of holes is as before, and if it finds an
instance, the store is the one that trying this instance alone leaves, whatever has been tried
before it. So it is no matter in which order the instances have been registered.
-/
namespace LeveledTypes

/-- The same definitions and classes, with the instances of each class in any order. -/
structure Environment.Rearranged (env env' : Environment) : Prop where
  get? : ∀ n, env'.get? n = env.get? n
  subclassesOf : ∀ c, env'.subclassesOf c = env.subclassesOf c
  instancesOf : ∀ c, (env'.instancesOf c).Perm (env.instancesOf c)

namespace Environment.Rearranged
variable {A : GlobalName → ℕ} {env env' : Environment}

theorem enlarges (h : env.Rearranged env') : env.Enlarges (fun _ => False) env' where
  classFields n := by rw [classFields, h.get?, classFields]
  subclassesOf := h.subclassesOf
  instancesOf c := ⟨[], by simpa using h.instancesOf c, by simp⟩

theorem closed (h : env.Rearranged env') (hclosed : env.Closed A) : env'.Closed A :=
  fun n d hd => hclosed n d (h.get? n ▸ hd)

theorem coherent (h : env.Rearranged env') (hcoherent : env.Coherent (fun _ => True) A) :
    env'.Coherent (fun _ => True) A where
  named _ _ _ := trivial
  instances _ _ _ := trivial
  subclasses _ _ _ := trivial
  closedIn := (h.closed hcoherent.closed).closedIn
  types n d hd := hcoherent.types n d (h.get? n ▸ hd)
  fields n := h.enlarges.classFields n ▸ hcoherent.fields n

end Environment.Rearranged

section Registration
open Registry
variable {r : Registry} {ds ds' : List Definition}

theorem Registry.subclassesOf_insertAll (h : ∀ d ∈ ds, d.extends = []) (c : GlobalName) :
    (r.insertAll ds).subclassesOf c = r.subclassesOf c := by
  induction ds generalizing r with
  | nil => rfl
  | cons d ds ih =>
    obtain ⟨hd, hds⟩ := List.forall_mem_cons.mp h
    rw [insertAll, List.foldl_cons, ← insertAll, ih hds, subclassesOf, subclasses_insert, hd]
    rfl

/-- Registering instances in another order rearranges them. -/
theorem Environment.rearranged_insertAll (hr : r.Indexed) (hperm : ds.Perm ds')
    (hnames : (ds.map (·.name)).Nodup) (hnew : ∀ d ∈ ds, r.get? d.name = none)
    (hinst : ∀ d ∈ ds, d.extends = []) (own : Registry) :
    Environment.Rearranged ⟨r.insertAll ds, own⟩ ⟨r.insertAll ds', own⟩ := by
  have hnames' : (ds'.map (·.name)).Nodup := (hperm.map _).nodup_iff.mp hnames
  have hget (n : GlobalName) : (r.insertAll ds').get? n = (r.insertAll ds).get? n := by
    refine Option.ext fun d => ?_
    rw [get?_insertAll hnames, get?_insertAll hnames', hperm.mem_iff, (hperm.map _).mem_iff]
  have hindexed : (r.insertAll ds).Indexed := hr.insertAll hnames fun d hd d' hd' => by
    simp [hnew d hd] at hd'
  have hindexed' : (r.insertAll ds').Indexed :=
    hr.insertAll hnames' fun d hd d' hd' => by simp [hnew d (hperm.mem_iff.mpr hd)] at hd'
  have hcontains (n : GlobalName) : (r.insertAll ds').contains n = (r.insertAll ds).contains n := by
    have hisSome (r : Registry) : r.contains n = (r.get? n).isSome := by
      simp [Registry.contains, Registry.get?]
    rw [hisSome, hisSome, hget]
  have hsubclasses (c : GlobalName) :
      (r.insertAll ds').subclassesOf c = (r.insertAll ds).subclassesOf c := by
    rw [subclassesOf_insertAll hinst, subclassesOf_insertAll fun d hd => hinst d
      (hperm.mem_iff.mpr hd)]
  refine ⟨fun n => ?_, fun c => ?_, fun c => ?_⟩
  · simp only [Environment.get?, hget]
  · simp only [Environment.subclassesOf, both, hcontains, hsubclasses]
  · have hlists : ((r.insertAll ds').instancesOf c).Perm ((r.insertAll ds).instancesOf c) := by
      refine (List.perm_ext_iff_of_nodup (hindexed'.instances.nodup c)
        (hindexed.instances.nodup c)).mpr fun n => ?_
      rw [hindexed'.instances.mem_iff, hindexed.instances.mem_iff]
      simp only [hget]
    simp only [Environment.instancesOf, both, hcontains]
    exact hlists.append (.refl _)

end Registration

/-- Searches over the same instances in another order. -/
theorem Watched.Twins.of_rearranged {A : GlobalName → ℕ} {e e' : Elaborator} {own own' : Registry}
    (h : (⟨e.base, own⟩ : Environment).Rearranged ⟨e'.base, own'⟩)
    (hcoherent : (⟨e.base, own⟩ : Environment).Coherent (fun _ => True) A)
    (hlimits : e'.limits = e.limits) (hcurrent : e'.current = e.current) :
    Watched.Twins (fun _ => True) A {} {} e e' own own' :=
  hcoherent.watched (h.closed hcoherent.closed) (fun n _ => h.get? n) h.enlarges hlimits hcurrent
    (fun _ => False.elim) fun cls _ hnone => .inl (List.perm_nil.mp (hnone ▸ h.instancesOf cls))

namespace Watched
variable {α : Type} {f : Watched α} {s t : ElaborationState}

theorem ok_of_heed {f : Elab α} {a : α} (h : heed f s = .ok a t) : f s = .ok a t :=
  (Follows.heed f).ok h

theorem store_attempt_none (h : attempt f s = .ok none t) :
    t.conversion.store = s.conversion.store := by
  unfold attempt at h
  generalize f s = r at h
  rcases r with ⟨a, t⟩ | ⟨_ | e, t⟩ <;> cases h
  rfl

theorem ok_of_attempt_some {a : α} (h : attempt f s = .ok (some a) t) : f s = .ok a t := by
  unfold attempt at h
  generalize f s = r at h
  rcases r with ⟨a, t⟩ | ⟨_ | e, t⟩ <;> cases h
  rfl

theorem ok_of_probe_some {a : α} {σ : Store} (h : probe f s = .ok (some (a, σ)) t) :
    ∃ u, f s = .ok a u ∧ u.conversion.store = σ := by
  unfold probe at h
  generalize f s = r at h
  rcases r with ⟨a, u⟩ | ⟨_ | e, u⟩ <;> cases h
  exact ⟨u, rfl, rfl⟩

/-- Whatever is found is the outcome of a trial. -/
theorem Found.exists_of_mem {T : GlobalName × SuperclassPath → Option (Term × Store) → Prop}
    {ps : List (GlobalName × SuperclassPath)} {fs : List (GlobalName × Term × Store)}
    (h : Found T ps fs) {x : GlobalName × Term × Store} (hx : x ∈ fs) :
    ∃ p ∈ ps, T p (some x.2) := by
  induction h with
  | nil => cases hx
  | skip _ _ ih =>
    obtain ⟨p, hp, hT⟩ := ih hx
    exact ⟨p, List.mem_cons_of_mem _ hp, hT⟩
  | hit hT _ ih =>
    obtain rfl | hx := List.mem_cons.mp hx
    · exact ⟨_, List.mem_cons_self, hT⟩
    · obtain ⟨p, hp, hT⟩ := ih hx
      exact ⟨p, List.mem_cons_of_mem _ hp, hT⟩

end Watched

namespace Elaborator

/-- What a search may settle for. -/
inductive Candidate
  /-- An instance that the context gives. -/
  | given (x : Typed)
  /-- A global instance, with the way from its class to the one sought. -/
  | registered (inst : GlobalName) (path : SuperclassPath)

namespace Candidate

/-- Trying one candidate of a search by itself. -/
def trial (e : Elaborator) (c : Context) (span : Span) (room : ℕ) (goal : Term) :
    Candidate → Elab Term
  | .given x => do
    e.unify c x.type goal span
    return x.term
  | .registered inst path => e.tryInstance c goal span (e.search c span (room - 1)) inst path

/-- The same, watched for limits. -/
def watched (e : Elaborator) (c : Context) (span : Span) (room : ℕ) (goal : Term) :
    Candidate → Watched Term
  | .given x => do
    Watched.heed (e.unify c x.type goal span)
    return x.term
  | .registered inst path =>
    Watched.tryInstance {} e c goal span (Watched.search {} e c span (room - 1)) inst path

/-- A watched trial that is not broken off is the trial itself. -/
theorem follows {e : Elaborator} {c : Context} {span : Span} {room : ℕ} {goal : Term}
    (x : Candidate) :
    Watched.Follows (x.watched e c span room goal) (x.trial e c span room goal) := by
  cases x with
  | given x => exact Watched.Follows.bind (.heed (e.unify c x.type goal span)) fun _ => .pure x.term
  | registered inst path =>
    have hsearch (t : Term) : Watched.Follows (Watched.search {} e c span (room - 1) t)
        (e.search c span (room - 1) t) :=
      .search _
    exact Watched.Follows.tryInstance hsearch inst path

/-- The candidates for a goal: the instances of its class that the context gives, and the registered
ones. -/
inductive For (e : Elaborator) (c : Context) (span : Span) (goal : Term) (s : ElaborationState) :
    Candidate → Prop
  | given {cls : ClassType} {xs : List Typed} {x : Typed} {t u : ElaborationState} :
    e.classType c goal span s = .ok cls t →
      e.localInstances c cls.name span t = .ok xs u → x ∈ xs → For e c span goal s (.given x)
  | registered {cls : ClassType} {inst : GlobalName} {path : SuperclassPath}
    {t : ElaborationState} :
      e.classType c goal span s = .ok cls t →
      (inst, path) ∈ (⟨e.base, s.own⟩ : Environment).instanceCandidates cls.name →
      For e c span goal s (.registered inst path)

end Candidate

end Elaborator

namespace Watched
open Elaborator
variable {G : GlobalName → Prop} {A : GlobalName → ℕ} {e : Elaborator} {own : Registry}
  {c : Context} {span : Span} {goal : Term} {s t u : ElaborationState}

/-- A step that matches itself and leaves the store alone. -/
theorem reverted_of_ok {α : Type} {V : α → α → Prop} {f : Elab α} {a : α}
    (hf : Elaborator.Twins.Match G A e e own own V f f) (hkeeps : KeepsStore s.conversion.store f)
    (ht : s.Reverted G A e own t) (hrun : f t = .ok a u) : V a a ∧ s.Reverted G A e own u := by
  obtain ⟨ha, hu⟩ := hf.of_self ht.twins hrun
  exact ⟨ha, hu, (hkeeps.ok ht.store hrun).1⟩

section Steps
variable (h : e.Twins G A e own own) (hc : c.Over (.naming G A True))
  (hgoal : goal.Over (.naming G A True) ⊤)

include h hc hgoal

/-- An instance of the context that is found is one whose trial succeeds, from the store that there
was before. -/
theorem of_firstFit {xs : List Typed} (hxs : ∀ x ∈ xs, x.Twins (.naming G A True) x)
    (ht : s.Reverted G A e own t) {o : Option Term}
    (hrun : firstFit e c goal span xs t = .ok o u) (room : ℕ) :
    match o with
    | none => s.Reverted G A e own u
    | some v => ∃ x ∈ xs, ∃ t', s.Reverted G A e own t' ∧
      (Candidate.given x).watched e c span room goal t' = .ok v u := by
  induction xs generalizing t with
  | nil =>
    obtain ⟨rfl, rfl⟩ := EStateM.Result.ok.inj hrun
    exact ht
  | cons x xs ih =>
    obtain ⟨hx, hxs⟩ := List.forall_mem_cons.mp hxs
    obtain ⟨a, t', ha, hrun⟩ := bind_eq_ok.mp hrun
    cases a with
    | some _ =>
      obtain ⟨rfl, rfl⟩ := EStateM.Result.ok.inj hrun
      exact ⟨x, List.mem_cons_self, t, ht, bind_of_ok (ok_of_attempt_some ha)⟩
    | none =>
      have hunify : Match G A e e own own (fun _ _ => True) (heed (e.unify c x.type goal span))
          (heed (e.unify c x.type goal span)) :=
        matched_heed (h.matched_convert hc hx.type (.refl hgoal))
      have ht' := ((matched_attempt .restore hunify).of_self ht.twins ha).2
      have hrest := ih hxs ⟨ht', (store_attempt_none ha).trans ht.store⟩ hrun
      cases o with
      | none => exact hrest
      | some v =>
        obtain ⟨y, hy, h⟩ := hrest
        exact ⟨y, List.mem_cons_of_mem x hy, h⟩

end Steps

/-- What a search finds is what trying one candidate gives, from the store that there was before. -/
theorem of_search (h : Watched.Twins G A {} {} e e s.own s.own) (hc : c.Over (.naming G A True))
    (hgoal : goal.Over (.naming G A True) ⊤) (hs : s.Twins G A e e s.own s.own s)
    {room : ℕ} {v : Term} (hrun : search {} e c span (room + 1) goal s = .ok v t) :
    ∃ x : Candidate, x.For e c span goal s ∧
      Match G A e e s.own s.own (Term.Twins (.naming G A True)) (x.watched e c span (room + 1) goal)
        (x.watched e c span (room + 1) goal) ∧
      ∃ t' u, s.Reverted G A e s.own t' ∧ x.watched e c span (room + 1) goal t' = .ok v u ∧
        u.conversion.store = t.conversion.store := by
  have htwins := h.toTwins
  obtain ⟨cls, s₁, hcls, hrun⟩ := bind_eq_ok.mp hrun
  obtain ⟨-, hs₁⟩ := reverted_of_ok (htwins.matched_classType hc (.refl hgoal)) keepsStore_classType
    ⟨hs, rfl⟩ (ok_of_heed hcls)
  obtain ⟨xs, s₂, hxs, hrun⟩ := bind_eq_ok.mp hrun
  obtain ⟨hover, hs₂⟩ := reverted_of_ok (htwins.matched_localInstances hc) keepsStore_localInstances
    hs₁ (ok_of_heed hxs)
  obtain ⟨o, s₃, ho, hrun⟩ := bind_eq_ok.mp hrun
  have hfirst := of_firstFit htwins hc hgoal (List.forall₂_same.mp hover) hs₂ ho (room + 1)
  cases o with
  | some v' =>
    obtain ⟨rfl, rfl⟩ := EStateM.Result.ok.inj hrun
    obtain ⟨x, hx, t', ht', hwatched⟩ := hfirst
    have hx' := List.forall₂_same.mp hover x hx
    refine ⟨.given x, .given (ok_of_heed hcls) (ok_of_heed hxs) hx, ?_, t', _, ht', hwatched, rfl⟩
    exact .bind (matched_heed (htwins.matched_convert hc hx'.type (.refl hgoal))) fun _ _
      _ => .pure hx'.term
  | none =>
    obtain ⟨env, s₄, henv, hrun⟩ := bind_eq_ok.mp hrun
    obtain ⟨rfl, rfl⟩ := EStateM.Result.ok.inj (ok_of_heed henv)
    rw [hfirst.twins.own_left] at hrun
    obtain ⟨found, s₅, hfound, hrun⟩ := bind_eq_ok.mp hrun
    let trial := tryInstance {} e c goal span (search {} e c span room)
    have htrial : ∀ p ∈ (⟨e.base, s.own⟩ : Environment).instanceCandidates cls.name,
        Match G A e e s.own s.own (Term.Twins (.naming G A True)) (trial p.1 p.2)
          (trial p.1 p.2) := by
      intro p hp
      refine (matched_tryInstance htwins hc (.refl hgoal) (fun t t' ht => ?_)
        (h.named _ p hp) p.2).mono fun _ _ ht => ht.1
      exact matched_search_self h hc room ht
    obtain ⟨fs, s₆, hfits, -, hall⟩ | ⟨s₆, hfits⟩ :=
      found_fits (fun p hp u o u' hu hprobe => (keeps_probe (htrial p hp) hu hprobe).1) hfirst
    case inr => cases hfits.symm.trans hfound
    obtain ⟨rfl, rfl⟩ := EStateM.Result.ok.inj (hfits.symm.trans hfound)
    -- Exactly one candidate fits, or else the search fails.
    obtain _ | ⟨⟨n, v', σ⟩, _ | ⟨_, _⟩⟩ := fs
    · cases ok_of_heed hrun
    · obtain ⟨_, s₇, hstore, hrun⟩ := bind_eq_ok.mp hrun
      obtain ⟨-, rfl⟩ := EStateM.Result.ok.inj (ok_of_heed hstore)
      obtain ⟨rfl, rfl⟩ := EStateM.Result.ok.inj hrun
      obtain ⟨p, hp, t', t'', ht', hprobe⟩ := hall.exists_of_mem List.mem_cons_self
      obtain ⟨u, hu, rfl⟩ := ok_of_probe_some hprobe
      exact ⟨.registered p.1 p.2, .registered (ok_of_heed hcls) hp, htrial p hp, t',
        u, ht', hu, rfl⟩
    · cases ok_of_heed hrun

end Watched

namespace Elaborator
variable {A : GlobalName → ℕ} {e : Elaborator} {c : Context} {span : Span} {room : ℕ} {goal : Term}
  {s : ElaborationState}

/-- The candidate that a search settles for gives the same if it is tried alone, unless the trial
meets a limit that what other trials left to be remembered would have kept it from. -/
theorem Coherent.exists_candidate (h : e.Coherent (fun _ => True) A c s)
    (hgoal : goal.Over (.ofArity A True) ⊤) (hunlimited : e.Unlimited c span room goal s) {v : Term}
    {t : ElaborationState} (hrun : e.search c span room goal s = .ok v t) :
    ∃ x : Candidate, x.For e c span goal s ∧
      ((∃ u, x.watched e c span room goal s = .error none u) ∨
        ∃ v' u, x.trial e c span room goal s = .ok v' u ∧ v'.same v = true ∧
          u.conversion.store.anonymize = t.conversion.store.anonymize) := by
  have hwatched := (Watched.Follows.search room).ok_of_ok hunlimited hrun
  cases room with
  | zero =>
    obtain ⟨cls, t', -, hfail⟩ := bind_eq_ok.mp hrun
    cases hfail
  | succ room =>
    have htwins : Watched.Twins (fun _ => True) A {} {} e e s.own s.own := h.env.watched_self
    have hs := h.twins htwins.env
    obtain ⟨x, hx, hmatch, t', u, ht', htrial, hstore⟩ :=
      Watched.of_search htwins h.context hgoal hs hwatched
    refine ⟨x, hx, ?_⟩
    have hend := hmatch s t' (hs.of_self ht'.twins ⟨h.store, by rw [ht'.store]⟩)
    rw [htrial] at hend
    obtain ⟨v', w, s', u', hv', hw, htwins, hstate⟩ | ⟨_, _, _, _, -, hw, -⟩ | hleft | ⟨u', hu'⟩ :=
      Watched.cases_of_endMatched hend
    · obtain ⟨rfl, rfl⟩ := EStateM.Result.ok.inj hw
      refine .inr ⟨v', s', x.follows.ok hv', Term.same_iff.mpr htwins.alike, ?_⟩
      rw [← hstore]
      exact hstate.conversion.store.alike
    · cases hw
    · exact .inl hleft
    · cases hu'

/-- Instance search is a transaction, and blind to the order in which instances are registered. If
it fails, the store is as before; if it finds an instance, the store is what trying it alone leaves;
and over environments with the instances in another order it ends alike. -/
theorem search_transactional (h : e.Coherent (fun _ => True) A c s)
    (hgoal : goal.Over (.ofArity A True) ⊤) (hunlimited : e.Unlimited c span room goal s) :
    (∀ err t, e.search c span room goal s = .error err t →
      t.conversion.store = s.conversion.store) ∧
    (∀ v t, e.search c span room goal s = .ok v t → ∃ x : Candidate, x.For e c span goal s ∧
      ((∃ u, x.watched e c span room goal s = .error none u) ∨
        ∃ v' u, x.trial e c span room goal s = .ok v' u ∧ v'.same v = true ∧
          u.conversion.store.anonymize = t.conversion.store.anonymize)) ∧
    ∀ base' own', (⟨e.base, s.own⟩ : Environment).Rearranged ⟨base', own'⟩ →
      Unlimited { e with base := base' } c span room goal { s with own := own' } →
      EndsAlike (e.search c span room goal s)
        (search { e with base := base' } c span room goal { s with own := own' }) := by
  refine ⟨fun _ _ => store_of_search_error, fun _ _ => h.exists_candidate hgoal hunlimited,
    fun base' own' horder hs' => ?_⟩
  have hright : Watched.Twins (fun _ => True) A {} {} { e with base := base' }
    { e with base := base' } own' own' :=
    (horder.coherent h.env).watched_self
  exact h.endsAlike (.of_rearranged horder h.env rfl rfl) hright (fun _ => id) hgoal hunlimited hs'

section Example

/-- An instance of the class for functions. -/
def funPointed : Definition where
  span := default
  name := ⟨"other::funPointed"⟩
  tele := []
  type := .record ⟨"base::Pointed"⟩ .zero [.pi (Binder.named "n") .nat .nat]
  body := .inst ⟨"base::Pointed"⟩
    (.new ⟨"base::Pointed"⟩ .zero [.pi (Binder.named "n") .nat .nat]
      [.lam (Binder.named "n") .nat (.var 0)])

/-- The elaborator of a module, with instances in the order they are registered in. -/
def withInstances (ds : List Definition) : Elaborator :=
  { withPointed with base := withPointed.base.insertAll ds }

/-- The instance for numbers is registered, and maybe the one for functions, before or after it. -/
def Registered (ds : List Definition) : Prop :=
  ds = [natPointed] ∨ ds = [natPointed, funPointed] ∨ ds = [funPointed, natPointed]

section Registered
variable {ds : List Definition} {n : GlobalName} {d : Definition}

theorem Registered.nodup (hds : Registered ds) : (ds.map (·.name)).Nodup := by
  obtain rfl | rfl | rfl := hds <;> decide

theorem Registered.eq_or_eq (hds : Registered ds) (hd : d ∈ ds) :
    d = natPointed ∨ d = funPointed := by
  obtain rfl | rfl | rfl := hds
  · exact .inl (by simpa using hd)
  · simpa using hd
  · exact Or.symm (by simpa using hd)

theorem Registered.get?_eq_none (hds : Registered ds) (hd : d ∈ ds) :
    withPointed.base.get? d.name = none := by
  have hne : pointed.name ≠ d.name := by
    obtain rfl | rfl := hds.eq_or_eq hd <;> decide
  rw [withPointed, Registry.get?_insert, if_neg hne, Registry.get?_empty]

theorem indexed_withPointed : withPointed.base.Indexed :=
  Registry.indexed_empty.insert (by simp [Registry.get?_empty])

theorem get?_withInstances (hds : Registered ds) :
    (⟨(withInstances ds).base, {}⟩ : Environment).get? n = some d ↔
    d ∈ ds ∧ d.name = n ∨ n ∉ ds.map (·.name) ∧ pointed.name = n ∧ d = pointed := by
  rw [Environment.get?, Registry.get?_empty, Option.none_or, withInstances,
    Registry.get?_insertAll hds.nodup, withPointed, Registry.get?_insert, Registry.get?_empty]
  simp [eq_comm]

/-- Only what is registered is named. -/
theorem coherent_withInstances {G : GlobalName → Prop} (hds : Registered ds)
    (hG : ∀ d ∈ pointed :: ds, G d.name) : (withInstances ds).Coherent G (fun _ => 0) {} {} := by
  have hget {n : GlobalName} {d : Definition}
      (h : (⟨(withInstances ds).base, {}⟩ : Environment).get? n = some d) :
      G n ∧ (d = pointed ∨ d = natPointed ∨ d = funPointed) := by
    obtain ⟨hd, rfl⟩ | ⟨-, rfl, rfl⟩ := (get?_withInstances hds).mp h
    · exact ⟨hG d (List.mem_cons_of_mem _ hd), .inr (hds.eq_or_eq hd)⟩
    · exact ⟨hG pointed List.mem_cons_self, .inl rfl⟩
  have hindexed : (withInstances ds).base.Indexed :=
    indexed_withPointed.insertAll hds.nodup fun d hd d' hd' => by simp [hds.get?_eq_none hd] at hd'
  have hlisted {classes : Definition → List GlobalName}
      {m : Std.HashMap GlobalName (List GlobalName)}
      (hm : (withInstances ds).base.IsIndex classes m) {cls n : GlobalName}
      (hn : n ∈ m.getD cls []) : G n := by
    obtain ⟨d, hd, -⟩ := (hm.mem_iff cls n).mp hn
    exact (hget (n := n) (d :=
      d) (by rw [Environment.get?, Registry.get?_empty, Option.none_or, hd])).1
  refine ⟨⟨fun n d hd => (hget hd).1, fun cls n hn => ?_, fun cls n hn => ?_, fun n d _ hd => ?_,
    fun n d hd => ?_,
    fun n f hf => ?_⟩, ⟨by simp, by simp, by simp⟩,
      ⟨by simp [Store.solution?], by simp⟩, by simp, fun k v hk => by simp at hk⟩
  · exact hlisted hindexed.instances
      (by simpa [Environment.instancesOf, Environment.both, Registry.instancesOf] using hn)
  · exact hlisted hindexed.subclasses
      (by simpa [Environment.subclassesOf, Environment.both, Registry.subclassesOf] using hn)
  · obtain rfl | rfl | rfl := (hget hd).2 <;> simp [pointed, natPointed, funPointed, Term.numeral]
  · obtain rfl | rfl | rfl :=
      (hget hd).2 <;> simp [pointed, natPointed, funPointed, pointedNat, Term.pis]
  · cases hd : (⟨(withInstances ds).base, {}⟩ : Environment).get? n with
    | none => simp [Environment.classFields, hd] at hf
    | some d =>
      obtain rfl | rfl | rfl := (hget hd).2
      · obtain rfl : f = ⟨⟨"base::point"⟩, .var 0, none, none⟩ := by
          simpa [Environment.classFields, hd, pointed] using hf
        exact ENat.natCast_lt_top _
      · simp [Environment.classFields, hd, natPointed] at hf
      · simp [Environment.classFields, hd, funPointed] at hf

theorem instancesOf_withInstances (hds : Registered ds) :
    (⟨(withInstances ds).base, {}⟩ : Environment).instancesOf ⟨"base::Pointed"⟩ =
      ds.map (·.name) := by
  obtain rfl | rfl | rfl := hds <;>
    simp [withInstances, withPointed, pointed, natPointed, funPointed, Registry.insertAll,
      Registry.insert, Registry.instancesOf, Environment.instancesOf, Environment.both,
      Registry.enlist]

theorem instanceCandidates_withInstances (hds : Registered ds) :
    (⟨(withInstances ds).base, {}⟩ : Environment).instanceCandidates ⟨"base::Pointed"⟩ =
      ds.map fun d => (d.name, []) := by
  rw [Environment.instanceCandidates, instancesOf_withInstances hds]
  obtain rfl | rfl | rfl := hds <;> rfl

/-- The instance for numbers is found. -/
theorem search_withInstances (hds : Registered ds) {w : Watch}
    (hfits : w.fits natPointed.name = false) (hseeks : w.seeks ⟨"base::Pointed"⟩ = false) :
    ∃ t, Watched.search w (withInstances ds) {} default 8 pointedNat {} =
      .ok (.ref natPointed.name ⟨.hole 0, .hole 1⟩) t := by
  let t : ElaborationState :=
    { conversion := { store := { levelCount := 2, pLevels := [0], hLevels := [1] } } }
  have hfresh : freshUniverse {} = .ok ⟨.hole 0, .hole 1⟩ t := rfl
  have hnat : (withInstances ds).unify {} (natPointed.fullType ⟨.hole 0, .hole 1⟩) pointedNat
      default t = .ok () t := rfl
  obtain ⟨err, u, hfun, hkind, hu⟩ : ∃ err u,
      (withInstances ds).unify {} (funPointed.fullType ⟨.hole 0, .hole 1⟩) pointedNat default
        t = .error err u ∧
        err.kind = .typeMismatch ∧ { u with conversion := { u.conversion with store := {} } } =
          ({} : ElaborationState) :=
    ⟨_, _, rfl, rfl, rfl⟩
  have hget {d : Definition} (hd : d ∈ ds) :
      (⟨(withInstances ds).base, {}⟩ : Environment).get? d.name = some d :=
    (get?_withInstances hds).mpr (.inl ⟨hd, rfl⟩)
  let trial := Watched.tryInstance w (withInstances ds) {} pointedNat default
    (Watched.search w (withInstances ds) {} default 7)
  have htryNat (hd : natPointed ∈ ds) :
      trial natPointed.name [] {} = .ok (.ref natPointed.name ⟨.hole 0, .hole 1⟩) t := by
    refine (Watched.tryInstance_eq List.not_mem_nil (hget hd) hfresh rfl).trans
      ((bind_of_ok (Watched.heed_of_ok hnat)).trans ?_)
    rw [if_neg (by simp [hfits])]
    rfl
  have htryFun (hd : funPointed ∈ ds) : trial funPointed.name [] {} = .error (some err) u :=
    (Watched.tryInstance_eq List.not_mem_nil (hget hd) hfresh rfl).trans
      (bind_of_error (Watched.heed_of_error hfun (by simp [hkind])))
  have hfound : Watched.fits trial (ds.map fun d => (d.name, [])) {} =
      .ok [(natPointed.name, .ref natPointed.name ⟨.hole 0, .hole 1⟩, t.conversion.store)] {} := by
    obtain rfl | rfl | rfl := hds
    · exact Watched.fits_cons_of_ok (htryNat (by simp)) rfl
    · exact Watched.fits_cons_of_ok (htryNat (by simp))
        (Watched.fits_cons_of_error (htryFun (by simp)) (hu ▸ rfl))
    · refine Watched.fits_cons_of_error (htryFun (by simp)) ?_
      rw [hu]
      exact Watched.fits_cons_of_ok (htryNat (by simp)) rfl
  exact ⟨_, Watched.search_eq_ok (by simp) hseeks (instanceCandidates_withInstances hds) hfound⟩

theorem unlimited_withInstances (hds : Registered ds) :
    (withInstances ds).Unlimited {} default 8 pointedNat {} := by
  intro u hu
  obtain ⟨t, hrun⟩ := search_withInstances hds (w := {}) rfl rfl
  cases hrun.symm.trans hu

end Registered

/-- Two instances in either order. -/
theorem search_transactional_pointed :
    (withInstances [natPointed, funPointed]).Coherent (fun _ => True) (fun _ => 0) {} {} ∧
    pointedNat.Over (.ofArity (fun _ => 0) True) ⊤ ∧
    (withInstances [natPointed, funPointed]).Unlimited {} default 8 pointedNat {} ∧
    Environment.Rearranged ⟨(withInstances [natPointed, funPointed]).base, {}⟩
      ⟨(withInstances [funPointed, natPointed]).base, {}⟩ ∧
    (withInstances [funPointed, natPointed]).Unlimited {} default 8 pointedNat {} ∧
    (∃ t, (withInstances [natPointed, funPointed]).search {} default 8 pointedNat {} =
        .ok (.ref ⟨"other::natPointed"⟩ ⟨.hole 0, .hole 1⟩) t) ∧
    EndsAlike ((withInstances [natPointed, funPointed]).search {} default 8 pointedNat {})
      ((withInstances [funPointed, natPointed]).search {} default 8 pointedNat {}) := by
  have hds : Registered [natPointed, funPointed] := .inr (.inl rfl)
  have hcoherent := coherent_withInstances (G := fun _ => True) hds fun _ _ => trivial
  have hgoal : pointedNat.Over (.ofArity (fun _ => 0) True) ⊤ := by simp [pointedNat]
  have hunlimited' : (withInstances [funPointed, natPointed]).Unlimited
      {} default 8 pointedNat {} :=
    unlimited_withInstances (.inr (.inr rfl))
  have horder : Environment.Rearranged ⟨(withInstances [natPointed, funPointed]).base, {}⟩
      ⟨(withInstances [funPointed, natPointed]).base, {}⟩ :=
    Environment.rearranged_insertAll indexed_withPointed (.swap funPointed natPointed []) hds.nodup
      (fun _ => hds.get?_eq_none) (by simp [natPointed, funPointed, Definition.extends]) {}
  obtain ⟨t, hrun⟩ := search_withInstances hds (w := {}) rfl rfl
  have h := search_transactional hcoherent hgoal (unlimited_withInstances hds)
  exact ⟨hcoherent, hgoal, unlimited_withInstances hds, horder, hunlimited',
    ⟨t, (Watched.Follows.search 8).ok hrun⟩, h.2.2 _ {} horder hunlimited'⟩

end Example

end Elaborator

section Stray
open Reducer (idDefinition idOf stray withId)

namespace Converter
variable {c : Converter} {room binders : ℕ} {s : ConversionState}

theorem convertIn_eq {cmp : Comparison} {l r : Term} (hsame : l.same r = false) :
    c.convertIn (room + 1) binders cmp l r s =
    c.convertWith binders (fun k => c.convertIn room (binders + k)) cmp l r s := by
  rw [convertIn, if_neg (by simp [hsame])]

theorem convertIn_lam {cmp : Comparison} {x y : Binder} {a b f g : Term}
    (hsame : (Term.lam x a f).same (.lam y b g) = false) :
    c.convertIn (room + 1) binders cmp (.lam x a f) (.lam y b g) s = c.convertIn room
      (binders + 1) .eq f g s := by
  have hwhnf (x : Binder) (a f : Term) : c.whnf binders (.lam x a f) s = .ok (.lam x a f) s :=
    whnf_eq_ok rfl
  rw [convertIn_eq hsame, convertWith, bind_of_ok (hwhnf x a f), bind_of_ok (hwhnf y b g),
    if_neg (by simp [hsame])]
  rfl

/-- A record with different arguments is compared argument by argument. -/
theorem convertIn_record {n : GlobalName} {a b : Term} (hsame : a.same b = false) :
    c.convertIn (room + 1) binders .eq (.record n .zero [a]) (.record n .zero [b]) s =
      c.convertIn room binders .eq a b s := by
  have hne : (Term.record n .zero [a]).same (.record n .zero [b]) = false := by
    rw [← Bool.not_eq_true, Term.same_iff] at hsame ⊢
    simpa [Term.anonymize] using hsame
  have hwhnf (a : Term) : c.whnf binders (.record n .zero [a]) s = .ok (.record n .zero [a]) s :=
    whnf_of_isRigid .record
  have hlevels : c.addUniverse .eq .zero .zero s = .ok () s := rfl
  have hall : c.all (c.convertIn room binders .eq) [a] [b] = c.convertIn room binders .eq a b >>=
      fun _ => pure () := rfl
  rw [convertIn_eq hne, convertWith_of_isRigid (hwhnf a) (hwhnf b) .record .record,
    if_neg (by simp [hne]), rigid, if_pos rfl, bind_of_ok hlevels]
  exact congrFun (hall.trans bind_pure_unit) s

end Converter

namespace Elaborator
variable {e : Elaborator} {c : Context} {cmp : Comparison} {l r : Term} {span : Span}
  {s : ElaborationState} {t : ConversionState}

theorem convert_eq_ok (h : Converter.convert ⟨⟨e.base, s.own⟩, c.locals, e.limits, span⟩ cmp l r
    s.conversion = .ok () t) : e.convert c cmp l r span s = .ok () { s with conversion := t } := by
  have hconvert : e.convert c cmp l r span s =
      EStateM.tryCatch (converting
        (Converter.convert ⟨⟨e.base, s.own⟩, c.locals, e.limits, span⟩ cmp l r)) _ s := rfl
  rw [hconvert]
  simp only [EStateM.tryCatch, converting, h]

/-- A comparison that fails within elaboration fails with the same kind of error, in the state that
it has come to. -/
theorem convert_eq_error {err : Error}
    (h : Converter.convert ⟨⟨e.base, s.own⟩, c.locals, e.limits, span⟩ cmp l r
      s.conversion = .error err t) :
    ∃ err', e.convert c cmp l r span s = .error err' { s with conversion := t } ∧
      err'.kind = err.kind := by
  have hconvert : e.convert c cmp l r span s =
      EStateM.tryCatch (converting
        (Converter.convert ⟨⟨e.base, s.own⟩, c.locals, e.limits, span⟩ cmp l r)) _ s := rfl
  rw [hconvert]
  simp only [EStateM.tryCatch, converting, h]
  split <;> exact ⟨_, rfl, rfl⟩

/-- A context whose innermost variable is zero. Behind it are two instances of a class: at the stray
term, which is zero in this context, and at a function that returns the stray term. -/
def strayed : Context where
  entries := [⟨Binder.named "x", .nat, some .zero⟩,
    ⟨Binder.named "a" .inst, .record ⟨"index::C"⟩ .zero [idOf stray], none⟩,
    ⟨Binder.named "b" .inst, .record ⟨"index::C"⟩ .zero
      [.lam (Binder.named "y") .nat (idOf stray)], none⟩]

def strayElaborator : Elaborator := ⟨{}, {}, []⟩

/-- The state of the module of `id`, with what is remembered. -/
def strayState (memo : Memo) : ElaborationState :=
  { own := ({} : Registry).insert idDefinition, conversion := { memo } }

/-- The class at the function that returns zero. -/
def strayGoal : Term := .record ⟨"index::C"⟩ .zero [.lam (Binder.named "y") .nat .zero]

/-- Conversion in the context of the goals. -/
def strayConverter : Converter := ⟨withId.env, strayed.locals, {}, default⟩

def strayReducer : Reducer := ⟨withId.env, {}, strayed.locals⟩

/-- What is remembered of the stray term. -/
def strayMemo (v : Term) : Memo := Std.HashMap.insert {} (idOf stray) v

theorem whnfGas_strayReducer {depth gas : ℕ} {s : ReductionState} :
    strayReducer.whnfGas depth (gas + 2) (idOf stray) s = (do
    match ← Reducer.unfold (strayReducer.whnfGas depth (gas + 1)) ⟨"index::id"⟩ .zero
      (.var 0) [stray] with
    | some t => strayReducer.whnfGas depth (gas + 1) t
    | none => return idOf stray) s :=
  Reducer.whnfGas_apps_func (Reducer.get?_withId _) rfl rfl

/-- Outside of the binder the application reduces to the value of the variable there, which is then
remembered. -/
theorem whnf_stray_outside :
    strayConverter.whnf 0 (idOf stray) {} = .ok .zero ⟨{}, strayMemo .zero⟩ := by
  have hrun (gas fuel : ℕ) :
      strayReducer.whnfGas 0 (gas + 8) (idOf stray) ⟨fuel + 2, {}⟩ =
        .ok .zero ⟨fuel, strayMemo .zero⟩ := by
    have hunfold : Reducer.unfold (strayReducer.whnfGas 0 (gas + 7)) ⟨"index::id"⟩ .zero (.var 0)
        [stray] ⟨fuel + 2, {}⟩ = .ok (some .zero) ⟨fuel, strayMemo .zero⟩ :=
      (Reducer.unfold_of_unknown rfl fun _ => Std.HashMap.getElem?_empty).trans rfl
    exact whnfGas_strayReducer.trans ((bind_of_ok hunfold).trans rfl)
  exact Converter.whnf_eq_ok (hrun 999999999999999992 999998)

/-- Under the binder the same application reduces to another variable, which is then remembered. -/
theorem whnf_stray_inside :
    strayConverter.whnf 1 (idOf stray) {} = .ok (.var 0) ⟨{}, strayMemo (.var 0)⟩ := by
  have hrun (gas fuel : ℕ) :
      strayReducer.whnfGas 1 (gas + 8) (idOf stray) ⟨fuel + 2, {}⟩ =
        .ok (.var 0) ⟨fuel, strayMemo (.var 0)⟩ := by
    have hunfold : Reducer.unfold (strayReducer.whnfGas 1 (gas + 7)) ⟨"index::id"⟩ .zero (.var 0)
        [stray] ⟨fuel + 2, {}⟩ = .ok (some (.var 0)) ⟨fuel, strayMemo (.var 0)⟩ :=
      (Reducer.unfold_of_unknown rfl fun _ => Std.HashMap.getElem?_empty).trans rfl
    exact whnfGas_strayReducer.trans ((bind_of_ok hunfold).trans rfl)
  exact Converter.whnf_eq_ok (hrun 999999999999999992 999998)

theorem whnf_stray_remembered :
    strayConverter.whnf 1 (idOf stray) ⟨{}, strayMemo .zero⟩ = .ok .zero ⟨{}, strayMemo .zero⟩ := by
  have hrun (gas fuel : ℕ) :
      strayReducer.whnfGas 1 (gas + 8) (idOf stray) ⟨fuel, strayMemo .zero⟩ =
        .ok .zero ⟨fuel, strayMemo .zero⟩ :=
    whnfGas_strayReducer.trans
      ((bind_of_ok (Reducer.unfold_of_known rfl rfl Std.HashMap.getElem?_insert_self)).trans rfl)
  exact Converter.whnf_eq_ok (hrun 999999999999999992 1000000)

/-- With nothing remembered the comparison fails, and the application is remembered with its
outcome. -/
theorem unify_stray_first :
    ∃ err, strayElaborator.unify strayed (.record ⟨"index::C"⟩ .zero [idOf stray]) strayGoal default
    (strayState {}) = .error err (strayState (strayMemo .zero)) ∧ err.kind = .typeMismatch := by
  obtain ⟨err, hrun, hkind⟩ :
      ∃ err, strayConverter.convertIn 511 0 .eq (idOf stray)
        (.lam (Binder.named "y") .nat .zero) {} =
      .error err ⟨{}, strayMemo .zero⟩ ∧ err.kind = .typeMismatch :=
    ⟨_, (Converter.convertIn_eq rfl).trans ((bind_of_ok whnf_stray_outside).trans rfl), rfl⟩
  have hconvert : strayConverter.convert .eq (.record ⟨"index::C"⟩ .zero [idOf stray])
      strayGoal {} = _ :=
    (Converter.convertIn_record rfl).trans hrun
  obtain ⟨err', hunify, hkind'⟩ :=
    convert_eq_error (e := strayElaborator) (s := strayState {}) hconvert
  exact ⟨err', hunify, hkind'.trans hkind⟩

theorem convert_stray_second (memo : Memo) : strayConverter.convert .eq
      (.record ⟨"index::C"⟩ .zero [.lam (Binder.named "y") .nat (idOf stray)])
        strayGoal ⟨{}, memo⟩ =
    strayConverter.convertIn 510 1 .eq (idOf stray) .zero ⟨{}, memo⟩ :=
  (Converter.convertIn_record rfl).trans (Converter.convertIn_lam rfl)

/-- The other goal comes to the same application under a binder, and leaves another outcome behind.
-/
theorem unify_stray_second : ∃ err, strayElaborator.unify strayed
      (.record ⟨"index::C"⟩ .zero [.lam (Binder.named "y") .nat (idOf stray)]) strayGoal default
      (strayState {}) =
    .error err (strayState (strayMemo (.var 0))) ∧ err.kind = .typeMismatch := by
  obtain ⟨err, hrun, hkind⟩ : ∃ err, strayConverter.convertIn 510 1 .eq (idOf stray) .zero {} =
      .error err ⟨{}, strayMemo (.var 0)⟩ ∧ err.kind = .typeMismatch :=
    ⟨_, (Converter.convertIn_eq rfl).trans ((bind_of_ok whnf_stray_inside).trans rfl), rfl⟩
  obtain ⟨err', hunify, hkind'⟩ :=
    convert_eq_error (e := strayElaborator) (s :=
      strayState {}) ((convert_stray_second {}).trans hrun)
  exact ⟨err', hunify, hkind'.trans hkind⟩

theorem unify_stray_remembered : strayElaborator.unify strayed
      (.record ⟨"index::C"⟩ .zero [.lam (Binder.named "y") .nat (idOf stray)]) strayGoal default
      (strayState (strayMemo .zero)) =
    .ok () (strayState (strayMemo .zero)) := by
  have hrun : strayConverter.convertIn 510 1 .eq (idOf stray) .zero ⟨{}, strayMemo .zero⟩ =
      .ok () ⟨{}, strayMemo .zero⟩ :=
    (Converter.convertIn_eq rfl).trans ((bind_of_ok whnf_stray_remembered).trans rfl)
  exact convert_eq_ok (e := strayElaborator) (s := strayState (strayMemo .zero))
    ((convert_stray_second _).trans hrun)

/-- Where a branch has a variable that the constructor has no argument for, what a rejected
candidate leaves to be remembered makes another one fit. The search finds it, but none of the
candidates fits alone. -/
theorem not_transactional_stray :
    (⟨strayElaborator.base, (strayState {}).own⟩ : Environment).Closed (fun _ => 0) ∧
    strayElaborator.Unlimited strayed default 1 strayGoal (strayState {}) ∧
    (∃ t, strayElaborator.search strayed default 1 strayGoal (strayState {}) = .ok (.var 2) t) ∧
    ∀ x : Candidate, x.For strayElaborator strayed default strayGoal (strayState {}) →
      ∃ err u, x.watched strayElaborator strayed default 1 strayGoal (strayState {}) = .error
        (some err) u := by
  let first : Typed := ⟨.var 1, .record ⟨"index::C"⟩ .zero [idOf stray]⟩
  let second : Typed := ⟨.var 2,
    .record ⟨"index::C"⟩ .zero [.lam (Binder.named "y") .nat (idOf stray)]⟩
  obtain ⟨err, hfirst, hkind⟩ := unify_stray_first
  obtain ⟨err', hsecond, hkind'⟩ := unify_stray_second
  have hheed := Watched.heed_of_error hfirst (by simp [hkind])
  have hheed' := Watched.heed_of_error hsecond (by simp [hkind'])
  have hclass : strayElaborator.classType strayed strayGoal default (strayState {}) =
      .ok ⟨⟨"index::C"⟩, .zero, _⟩ (strayState {}) :=
    classType_record
  have hlocal : strayElaborator.localInstances strayed ⟨"index::C"⟩ default (strayState {}) =
      .ok [first, second] (strayState {}) := rfl
  have hattempt : Watched.attempt
      (Watched.heed (strayElaborator.unify strayed first.type strayGoal default)) (strayState {}) =
      .ok none (strayState (strayMemo .zero)) := by
    rw [Watched.attempt, hheed]
    rfl
  have hattempt' : Watched.attempt
      (Watched.heed (strayElaborator.unify strayed second.type strayGoal default))
      (strayState (strayMemo .zero)) = .ok (some ()) (strayState (strayMemo .zero)) := by
    rw [Watched.attempt, Watched.heed_of_ok unify_stray_remembered]
  have hfit : Watched.firstFit strayElaborator strayed strayGoal default [first, second]
      (strayState {}) = .ok (some (.var 2)) (strayState (strayMemo .zero)) :=
    (bind_of_ok hattempt).trans (bind_of_ok hattempt')
  have hrun : Watched.search {} strayElaborator strayed default 1 strayGoal (strayState {}) =
      .ok (.var 2) (strayState (strayMemo .zero)) :=
    (bind_of_ok (Watched.heed_of_ok hclass)).trans
      ((bind_of_ok (Watched.heed_of_ok hlocal)).trans (bind_of_ok hfit))
  refine ⟨Reducer.closed_withId, fun u hu => ?_,
    ⟨_, (Watched.Follows.search 1).ok hrun⟩, fun x hx => ?_⟩
  · cases hrun.symm.trans hu
  · cases hx with
    | given hcls hxs hx =>
      obtain ⟨rfl, rfl⟩ := EStateM.Result.ok.inj (hclass.symm.trans hcls)
      obtain ⟨rfl, -⟩ := EStateM.Result.ok.inj (hlocal.symm.trans hxs)
      obtain rfl | rfl : _ = first ∨ _ = second := by simpa using hx
      · exact ⟨err, _, bind_of_error hheed⟩
      · exact ⟨err', _, bind_of_error hheed'⟩
    | registered hcls hmem =>
      obtain ⟨rfl, rfl⟩ := EStateM.Result.ok.inj (hclass.symm.trans hcls)
      have hnone : (⟨strayElaborator.base, (strayState {}).own⟩ : Environment).instanceCandidates
          ⟨"index::C"⟩ = [] := by
        have hinstances : (⟨strayElaborator.base, (strayState {}).own⟩ : Environment).instancesOf
            ⟨"index::C"⟩ = [] := by
          simp [strayElaborator, strayState, idDefinition, Registry.insert, Registry.instancesOf,
            Environment.instancesOf, Environment.both]
        have hsubclasses : (⟨strayElaborator.base, (strayState {}).own⟩ : Environment).subclassesOf
            ⟨"index::C"⟩ = [] := by
          simp [strayElaborator, strayState, idDefinition, Registry.insert, Registry.subclassesOf,
            Environment.subclassesOf, Environment.both]
        rw [Environment.instanceCandidates, hinstances]
        exact Environment.inheritedInstances_of_subclassesOf hsubclasses
      rw [hnone] at hmem
      cases hmem

end Elaborator

end Stray

end LeveledTypes
