import LeveledTypes.Elaboration.Instance
import LeveledTypes.Proofs.Conversion.Blocked
import LeveledTypes.Proofs.Elaboration.State

/-!
# Instances of other modules

The candidates of instance search are the instances that the registry of the session has, whatever
modules the module at hand imports. So an instance of a module that is not imported decides whether
a search succeeds.
-/
namespace LeveledTypes

namespace Registry
variable {r : Registry} {d : Definition} {c n : GlobalName} {body : Term}

theorem instancesOf_insert (hbody : d.body = .inst c body) (hnone : r.instancesOf c = []) :
    (r.insert d).instancesOf c = [d.name] := by
  have hget : r.instances.getD c [] = [] := hnone
  simp [insert, hbody, instancesOf, enlist, hget]

theorem contains_insert (h : r.contains n = true) : (r.insert d).contains n = true := by
  have hmem : n ∈ r.definitions := h
  unfold insert contains
  split <;> simp [hmem]

end Registry

namespace Environment
variable {env : Environment} {d : Definition} {c : GlobalName} {body : Term}

theorem instancesOf_of_instanceCandidates (h : env.instanceCandidates c = []) :
    env.instancesOf c = [] := by
  unfold instanceCandidates at h
  split at h
  case h_1 hnone => exact hnone
  case h_2 => exact List.map_eq_nil_iff.mp h

/-- An instance of a class that had none is the only candidate. -/
theorem instanceCandidates_insert {base own : Registry} (hbody : d.body = .inst c body)
    (hnone : (⟨base, own⟩ : Environment).instanceCandidates c = []) :
    (⟨base.insert d, own⟩ : Environment).instanceCandidates c = [(d.name, [])] := by
  obtain ⟨hbase, hown⟩ := List.append_eq_nil_iff.mp (instancesOf_of_instanceCandidates hnone)
  have hinstances : (⟨base.insert d, own⟩ : Environment).instancesOf c = [d.name] := by
    refine congrArg₂ (· ++ ·) (Registry.instancesOf_insert hbody hbase)
      (List.filter_eq_nil_iff.mpr fun n hn => ?_)
    have hcontains : base.contains n = true := by simpa using List.filter_eq_nil_iff.mp hown n hn
    simp [Registry.contains_insert hcontains]
  simp [instanceCandidates, hinstances]

theorem inheritedInstances_of_subclassesOf (h : env.subclassesOf c = []) :
    env.inheritedInstances c = [] := by
  change (SubclassWalk.run env env.size ((env.subclassesOf c).foldl _ ⟨[], [c], []⟩)).found = []
  rw [h]
  cases env.size <;> rfl

end Environment

namespace Elaborator
variable {e : Elaborator} {c : Context} {span : Span} {s t : ElaborationState} {cls : GlobalName}
  {u v : Universe} {ps qs : List Term} {d : Definition}

theorem whnf_record : e.whnf c (.record cls u ps) span s = .ok (.record cls u ps) s :=
  whnf_eq_ok (Reducer.whnfGas_of_isRigid .record)

theorem classType_record : e.classType c (.record cls u ps) span s = .ok ⟨cls, u, ps⟩ s :=
  bind_of_ok whnf_record

theorem localInstances_eq_nil (hlocal : ∀ x ∈ c.entries, x.binder.info ≠ .inst) :
    e.localInstances c cls span s = .ok [] s := by
  have hparams : (c.entries.zipIdx.filter fun p => p.1.binder.info = .inst) = [] := by
    refine List.filter_eq_nil_iff.mpr fun p hp => ?_
    simpa using hlocal p.1 (List.fst_mem_of_mem_zipIdx hp)
  change (do return (← List.mapM _
    (c.entries.zipIdx.filter fun p => p.1.binder.info = .inst)).flatten : Elab _) s = _
  rw [hparams]
  rfl

/-- A definition of another declaration is mentioned at fresh levels. -/
theorem global_eq_ok (span : Span) (hcurrent : d.name ∉ e.current)
    (hget : (⟨e.base, s.own⟩ : Environment).get? d.name = some d)
    (hfresh : freshUniverse s = .ok u t) :
    e.global d.name span s = .ok (.ref d.name u, d.fullType u) t := by
  have hown : t.own = s.own := by
    obtain ⟨-, rfl⟩ := EStateM.Result.ok.inj hfresh
    rfl
  have henvironment : e.environment t = .ok ⟨e.base, s.own⟩ t := by
    rw [← hown]
    rfl
  unfold global
  rw [if_neg (by simpa using hcurrent)]
  refine (bind_of_ok hfresh).trans ((bind_of_ok henvironment).trans ?_)
  rw [hget]
  rfl

theorem applyToHoles_record {x : Term} :
    e.applyToHoles c span unboundedGas ⟨x, .record cls u ps⟩ [] s =
    .ok (⟨x, .record cls u ps⟩, []) s := bind_of_ok whnf_record

/-- An instance without parameters is tried by comparing its type, at fresh levels, with the
goal. -/
theorem tryInstance_eq {goal : Term} {search : Term → Elab Term} (hcurrent : d.name ∉ e.current)
    (hget : (⟨e.base, s.own⟩ : Environment).get? d.name = some d)
    (hfresh : freshUniverse s = .ok u t) (htype : d.fullType u = .record cls v qs) :
    e.tryInstance c goal span search d.name [] s =
      (e.unify c (.record cls v qs) goal span >>= fun _ => pure (Term.ref d.name u)) t := by
  have hglobal := global_eq_ok span hcurrent hget hfresh
  rw [htype] at hglobal
  exact (bind_of_ok hglobal).trans ((bind_of_ok applyToHoles_record).trans rfl)

theorem fits_singleton {trial : GlobalName → SuperclassPath → Elab Term} {n : GlobalName}
    {path : SuperclassPath} {x : Term} (h : trial n path s = .ok x t) : fits trial [(n, path)] s =
      .ok [(n, x, t.conversion.store)]
        { t with conversion := { t.conversion with store := s.conversion.store } } := by
  have hprobe : probe (trial n path) s = .ok (some (x, t.conversion.store))
      { t with conversion := { t.conversion with store := s.conversion.store } } := by
    unfold probe
    simp only [h]
  exact (bind_of_ok hprobe).trans rfl

theorem fits_singleton_of_error {trial : GlobalName → SuperclassPath → Elab Term} {n : GlobalName}
    {path : SuperclassPath} {err : Error} (h : trial n path s = .error err t) :
    fits trial [(n, path)] s =
      .ok [] { t with conversion := { t.conversion with store := s.conversion.store } } := by
  have hprobe : probe (trial n path) s = .ok none
      { t with conversion := { t.conversion with store := s.conversion.store } } := by
    unfold probe
    simp only [h]
  exact (bind_of_ok hprobe).trans rfl

/-- Without instance parameters, a search is decided by the global candidates that fit. -/
theorem search_of_fits {candidates : List (GlobalName × SuperclassPath)}
    (hlocal : ∀ x ∈ c.entries, x.binder.info ≠ .inst)
    (hcandidates : (⟨e.base, s.own⟩ : Environment).instanceCandidates cls = candidates) {room : ℕ}
    {found : List (GlobalName × Term × Store)}
    (hfits : fits (e.tryInstance c (.record cls v ps) span (e.search c span room)) candidates
      s = .ok found t) :
    (found = [] → e.search c span (room + 1) (.record cls v ps) s = .error
      (.located (.noInstance cls.short) span) t) ∧
    ∀ n x store, found = [(n, x, store)] → e.search c span (room + 1) (.record cls v ps) s =
      .ok x { t with conversion := { t.conversion with store } } := by
  have henvironment : e.environment s = .ok ⟨e.base, s.own⟩ s := rfl
  have hfirst : e.firstFit c (.record cls v ps) span [] s = .ok none s := rfl
  rw [search, bind_of_ok classType_record, bind_of_ok (localInstances_eq_nil hlocal),
    bind_of_ok hfirst]
  dsimp only
  rw [bind_of_ok henvironment, hcandidates, bind_of_ok hfits]
  constructor
  · rintro rfl
    rfl
  · rintro n x store rfl
    rfl

/-- A search finds the only candidate if this is an instance without parameters whose type is
unified with the goal. -/
theorem search_of_unify {w : Universe} {t' : ElaborationState}
    (hlocal : ∀ x ∈ c.entries, x.binder.info ≠ .inst)
    (hcandidates : (⟨e.base, s.own⟩ : Environment).instanceCandidates cls = [(d.name, [])])
    (hget : (⟨e.base, s.own⟩ : Environment).get? d.name = some d) (hcurrent : d.name ∉ e.current)
    (htele : d.tele = []) (htype : d.type = .record cls w qs) (hfresh : freshUniverse s = .ok u t)
    (hunify : e.unify c (d.fullType u) (.record cls v ps) span t = .ok () t') {room : ℕ} :
    e.search c span (room + 1) (.record cls v ps) s = .ok (.ref d.name u) t' := by
  obtain ⟨w', qs', hfull⟩ : ∃ w' qs', d.fullType u = .record cls w' qs' := by
    rw [Definition.fullType, htele, htype, Term.substLevels]
    split
    · exact ⟨w, qs, rfl⟩
    · exact ⟨_, _, rfl⟩
  rw [hfull] at hunify
  have htry : e.tryInstance c (.record cls v ps) span (e.search c span room) d.name [] s =
      .ok (.ref d.name u) t' :=
    (tryInstance_eq hcurrent hget hfresh hfull).trans (bind_of_ok hunify)
  exact (search_of_fits hlocal hcandidates (fits_singleton htry)).2 _ _ _ rfl

/-- Whether a search succeeds is a matter of the session, not of what the module imports. A search
that fails because no module of the session has an instance of the class succeeds with the first
instance that any of them has, if it takes no parameters and its type is unified with the goal. -/
theorem search_insert {body : Term} {w : Universe} {t' : ElaborationState}
    (hlocal : ∀ x ∈ c.entries, x.binder.info ≠ .inst)
    (hnone : (⟨e.base, s.own⟩ : Environment).instanceCandidates cls = [])
    (hnew : (⟨e.base, s.own⟩ : Environment).get? d.name = none) (hcurrent : d.name ∉ e.current)
    (hbody : d.body = .inst cls body) (htele : d.tele = []) (htype : d.type = .record cls w qs)
    (hfresh : freshUniverse s = .ok u t)
    (hunify : { e with base := e.base.insert d }.unify c (d.fullType u) (.record cls v ps) span t =
      .ok () t') (room : ℕ) :
    e.search c span (room + 1) (.record cls v ps) s = .error
      (.located (.noInstance cls.short) span) s ∧
      { e with base := e.base.insert d }.search c span (room + 1) (.record cls v ps) s =
        .ok (.ref d.name u) t' := by
  have hown : s.own.get? d.name = none := (Option.or_eq_none_iff.mp hnew).1
  have hget : (⟨e.base.insert d, s.own⟩ : Environment).get? d.name = some d := by
    rw [Environment.get?, hown, Registry.get?_insert, if_pos rfl]
    rfl
  have hcandidates : (⟨e.base.insert d, s.own⟩ : Environment).instanceCandidates cls =
      [(d.name, [])] :=
    Environment.instanceCandidates_insert hbody hnone
  exact ⟨(search_of_fits hlocal hnone rfl).1 rfl, search_of_unify (e :=
    { e with base := e.base.insert d }) hlocal hcandidates hget hcurrent htele htype hfresh hunify⟩

section Example

/-- A class `\class Pointed (A : \Type 0 0) { | point : A }`. -/
def pointed : Definition where
  span := default
  name := ⟨"base::Pointed"⟩
  tele := [{ Binder.named "A" with type := .univ .zero }]
  type := .univ .zero
  body := .cls [⟨⟨"base::point"⟩, .var 0, none, none⟩] []

/-- The goal `Pointed Nat`. -/
def pointedNat : Term := .record ⟨"base::Pointed"⟩ .zero [.nat]

/-- An instance of the class in another module. -/
def natPointed : Definition where
  span := default
  name := ⟨"other::natPointed"⟩
  tele := []
  type := pointedNat
  body := .inst ⟨"base::Pointed"⟩ (.new ⟨"base::Pointed"⟩ .zero [.nat] [.numeral 7])

/-- The elaborator of a third module, which imports the class only. -/
def withPointed : Elaborator := ⟨({} : Registry).insert pointed, {}, []⟩

/-- A class `Pointed` without instances, and the goal `Pointed Nat`: the search fails, and with an
instance `natPointed` registered it finds that one, whoever has registered it. -/
theorem search_insert_natPointed :
    (⟨withPointed.base, {}⟩ : Environment).instanceCandidates ⟨"base::Pointed"⟩ = [] ∧
    (⟨withPointed.base, {}⟩ : Environment).get? natPointed.name = none ∧
    natPointed.name ∉ withPointed.current ∧ ∃ t, freshUniverse {} = .ok ⟨.hole 0, .hole 1⟩ t ∧
      { withPointed with base := withPointed.base.insert natPointed }.unify {}
        (natPointed.fullType ⟨.hole 0, .hole 1⟩)
        pointedNat default t = .ok () t ∧
      withPointed.search {} default 8 pointedNat {} = .error
        (.located (.noInstance "Pointed") default) {} ∧
      { withPointed with base := withPointed.base.insert natPointed }.search
      {} default 8 pointedNat {} =
        .ok (.ref ⟨"other::natPointed"⟩ ⟨.hole 0, .hole 1⟩) t := by
  have hinstances : (⟨withPointed.base, {}⟩ : Environment).instancesOf ⟨"base::Pointed"⟩ = [] := by
    simp [withPointed, pointed, Registry.insert, Registry.instancesOf, Environment.instancesOf,
      Environment.both]
  have hsubclasses : (⟨withPointed.base, {}⟩ : Environment).subclassesOf ⟨"base::Pointed"⟩ =
      [] := by
    simp [withPointed, pointed, Registry.insert, Registry.subclassesOf, Environment.subclassesOf,
      Environment.both]
  have hnone : (⟨withPointed.base, {}⟩ : Environment).instanceCandidates ⟨"base::Pointed"⟩ =
      [] := by
    rw [Environment.instanceCandidates, hinstances]
    exact Environment.inheritedInstances_of_subclassesOf hsubclasses
  have hnew : (⟨withPointed.base, {}⟩ : Environment).get? natPointed.name = none := by
    rw [Environment.get?, withPointed, Registry.get?_insert]
    simp [pointed, natPointed, Registry.get?]
  have hcurrent : natPointed.name ∉ withPointed.current := List.not_mem_nil
  let t : ElaborationState :=
    { conversion := { store := { levelCount := 2, pLevels := [0], hLevels := [1] } } }
  have hfresh : freshUniverse {} = .ok ⟨.hole 0, .hole 1⟩ t := rfl
  have hunify : { withPointed with base := withPointed.base.insert natPointed }.unify {}
      (natPointed.fullType ⟨.hole 0, .hole 1⟩) pointedNat default t = .ok () t := rfl
  exact ⟨hnone, hnew, hcurrent, t, hfresh, hunify,
    search_insert (by simp) hnone hnew hcurrent rfl rfl rfl hfresh hunify 7⟩

end Example

end Elaborator

end LeveledTypes
