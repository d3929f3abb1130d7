import LeveledTypes.Proofs.ModuleOrder
import LeveledTypes.Proofs.Session.History
import LeveledTypes.Proofs.Session.Imports

/-!
# How failures spread

A call fails as a whole if some modules import each other in a circle. Otherwise each module has one
report: it is refused for what is wrong with its text and its imports, or unreachable because of the
first module that it imports and that has no outcome, or else it is elaborated or taken from the
cache. At each stage of the call a report says what it would say at the end, since all that a module
imports has been checked before it.
-/
namespace LeveledTypes

open ModuleGraph
open Relation (ReflTransGen TransGen)

namespace Work
variable {S : List Source} {s : Source} {r : ModuleReport} {w w' : Workspace}

/-- The imports of a module, if it can be read. -/
def importsOf (s : Source) : List Surface.Import :=
  match readSource s with
  | .ok m => m.imports
  | .error _ => []

/-- The module has been checked or taken from the cache, or its own declarations have errors. -/
inductive Elaborated (s : Source) (r : ModuleReport) : Prop
  | checked (hsource : r.source = s) (hstatus : r.status = .checked) (herrors : r.errors = [])
  | cached (hsource : r.source = s) (hstatus : r.status = .cached) (herrors : r.errors = [])
  | failed {m : Surface.Module} {base : Registry} {limits : Limits} {visible : List GlobalName}
    (hsource : r.source = s)
      (hstatus : r.status = .failed) (hread : readSource s = .ok m)
      (herrors : r.errors = (elaborateModule base limits s.text m visible).errors)
      (hne : r.errors ≠ [])

/-- The names of the modules with an outcome. -/
def outcomes (rs : List ModuleReport) : List String := (rs.filter (·.isOk)).map (·.name)

/-- What is reported of a module that is not refused: it has to do without the first import that has
no outcome. -/
def Proceeds (ok : List String) (s : Source) (r : ModuleReport) : Prop :=
  match (importsOf s).find? fun i => i.module ∉ Primitive.preludeName :: ok with
  | some i =>
    r =
      { source := s, status := .unreachable, errors :=
        [.located (.dependencyFailed s.name i.module) i.span] }
  | none => Elaborated s r

/-- What is reported of a module, given the modules with an outcome. -/
def Reported (S : List Source) (ok : List String) (s : Source) (r : ModuleReport) : Prop :=
  if faults S s = [] then Proceeds ok s r else r =
    { source := s, status := .failed, errors := faults S s }

theorem mem_outcomes {rs : List ModuleReport} {n : String} :
    n ∈ outcomes rs ↔ ∃ r ∈ rs, r.isOk = true ∧ r.name = n := by
  simp [outcomes, and_assoc]

/-- Only the imports of the module count. -/
theorem Proceeds.congr {ok ok' : List String} (h : Proceeds ok s r)
    (hok : ∀ i ∈ importsOf s, i.module ≠ Primitive.preludeName → (i.module ∈ ok ↔ i.module ∈ ok')) :
    Proceeds ok' s r := by
  have hfind : (importsOf s).find? (fun i => i.module ∉ Primitive.preludeName :: ok') =
      (importsOf s).find? fun i => i.module ∉ Primitive.preludeName :: ok := by
    refine List.find?_congr fun i hi => ?_
    by_cases hprelude : i.module = Primitive.preludeName
    · simp [hprelude]
    · simp [hprelude, hok i hi hprelude]
  unfold Proceeds
  rwa [hfind]

/-- A module with an outcome imports modules with outcomes only. -/
theorem Proceeds.imported {ok : List String} {m : Surface.Module} {n : String} (h : Proceeds ok s r)
    (hr : r.isOk = true) (hread : readSource s = .ok m) (hn : n ∈ m.imported) : n ∈ ok := by
  obtain ⟨hne, i, hi, rfl⟩ := Surface.Module.mem_imported.mp hn
  unfold Proceeds at h
  split at h
  case h_1 => simp [h, ModuleReport.isOk, ModuleStatus.isOk] at hr
  case h_2 hfind =>
    have hmem := List.find?_eq_none.mp hfind i (by rwa [importsOf, hread])
    simpa [hne] using hmem

/-- A module with an outcome has not been refused. -/
theorem Reported.proceeds {ok : List String} (h : Reported S ok s r) (hr : r.isOk = true) :
    Proceeds ok s r ∧ r.source = s := by
  unfold Reported at h
  split at h
  case isFalse => simp [h, ModuleReport.isOk, ModuleStatus.isOk] at hr
  case isTrue =>
    refine ⟨h, ?_⟩
    unfold Proceeds at h
    split at h
    case h_1 => rw [h]
    case h_2 => cases h <;> assumption

section Checks

/-- The dependency that is reported as missing is the first one that is not known. -/
theorem knownDeps_eq_error {modules : Std.HashMap String KnownModule} {ns : List String}
    {missing : String} (h : knownDeps modules ns = .error missing) :
    ns.find? (fun n => n ∉ modules) = some missing := by
  induction ns with
  | nil => simp [knownDeps] at h
  | cons n ns ih =>
    rw [knownDeps] at h
    cases hn : modules[n]? with
    | none =>
      obtain rfl : n = missing := by simpa [hn] using h
      have hnot : n ∉ modules := by simpa using hn
      simp [hnot]
    | some k =>
      have hmem : n ∈ modules := by
        rw [Std.HashMap.mem_iff_isSome_getElem?, hn]
        rfl
      cases hrest : knownDeps modules ns with
      | ok known => simp [hn, hrest, bind, Except.bind, pure, Except.pure] at h
      | error n' =>
        obtain rfl : n' = missing := by simpa [hn, hrest, bind, Except.bind] using h
        rw [List.find?_cons_of_neg (by simp [hmem]), ih hrest]

variable {u : Pending} {m : Surface.Module} {imports : List String}

theorem Checks.modules (h : Checks u m imports w r w') :
    w'.session.modules = w.session.modules := by
  cases h with
  | unreachable _ hnotes => rw [hnotes.session]
  | cached _ _ hsession => rw [hsession]; rfl
  | failed _ _ _ hnotes => rw [hnotes.session]
  | checked _ _ _ _ hsession => rw [hsession]; rfl

theorem Checks.settings (h : Checks u m imports w r w') :
    w'.session.settings = w.session.settings := by
  cases h with
  | unreachable _ hnotes => rw [hnotes.session]
  | cached _ _ hsession => rw [hsession]; rfl
  | failed _ _ _ hnotes => rw [hnotes.session]
  | checked _ _ _ _ hsession => rw [hsession]; rfl

theorem Checks.source (h : Checks u m imports w r w') : r.source = u.source := by
  cases h <;> rfl

theorem Checks.isSome_digest (h : Checks u m imports w r w') (hok : r.isOk = true) :
    r.digest.isSome := by
  cases h with
  | unreachable | failed => simp [ModuleReport.isOk, ModuleStatus.isOk] at hok
  | cached | checked => rfl

/-- What the check of a module reports follows from what is known when it begins. -/
theorem Checks.proceeds {ok : List String} (h : Checks u m m.imported w r w')
    (hread : readSource u.source = .ok m) (hknown : ∀ n, n ∈ w.session.modules ↔
      n = Primitive.preludeName ∨ n ∈ ok) : Proceeds ok u.source r := by
  have hq (n : String) : decide (n ∉ w.session.modules) = decide
      (n ∉ Primitive.preludeName :: ok) := by
    simp [hknown]
  have hfind := m.find?_imported (fun n => n ∉ Primitive.preludeName :: ok) (by simp)
  have hreach {known : List (String × KnownModule)}
      (h : knownDeps w.session.modules (Primitive.preludeName :: m.imported) = .ok known) :
      (importsOf u.source).find? (fun i => i.module ∉ Primitive.preludeName :: ok) = none := by
    obtain ⟨hnames, hmodules⟩ := knownDeps_eq_ok h
    rw [importsOf, hread]
    dsimp only
    rw [← Option.map_eq_none_iff, ← hfind, List.find?_eq_none]
    intro n hn
    have hmem : n ∈ known.map (·.1) := by
      rw [hnames]
      exact List.mem_cons_of_mem _ hn
    obtain ⟨p, hp, rfl⟩ := List.mem_map.mp hmem
    rw [← hq]
    simp [Std.HashMap.mem_iff_isSome_getElem?, hmodules p hp]
  unfold Proceeds
  cases h with
  | @unreachable missing _ hunknown hnotes =>
    have hmissing := knownDeps_eq_error hunknown
    rw [List.find?_cons_of_neg (by simp [hknown])] at hmissing
    simp only [hq] at hmissing
    obtain ⟨i, hi, rfl⟩ := Option.map_eq_some_iff.mp (hfind.symm.trans hmissing)
    rw [importsOf, hread]
    dsimp only
    -- The first import without an outcome is the first one of its name.
    have hfirst : m.imports.find? (fun j => j.module = i.module) = some i := by
      obtain ⟨hnot, before, after, himports, hbefore⟩ := List.find?_eq_some_iff_append.mp hi
      refine List.find?_eq_some_iff_append.mpr ⟨by simp, before, after, himports, fun j hj => ?_⟩
      have hj' := hbefore j hj
      by_contra hsame
      have hname : j.module = i.module := by simpa using hsame
      rw [hname, hnot] at hj'
      exact absurd hj' (by simp)
    rw [hi]
    dsimp only
    rw [hfirst]
    rfl
  | cached hdeps =>
    rw [hreach hdeps]
    exact .cached rfl rfl rfl
  | failed hdeps _ herrors =>
    rw [hreach hdeps]
    exact .failed rfl rfl hread rfl herrors
  | checked hdeps =>
    rw [hreach hdeps]
    exact .checked rfl rfl rfl

end Checks

section Stages
variable {w₁ : Workspace} {σ : Stage}

/-- A module becomes known if it has an outcome. -/
theorem mem_learn {t : Session} {n : String} (hdigest : r.isOk = true → r.digest.isSome) :
    n ∈ (t.learn r).modules ↔ n ∈ t.modules ∨ r.isOk = true ∧ r.name = n := by
  unfold Session.learn
  split
  case h_1 =>
    split
    case isTrue hok => simp [hok, or_comm]
    case isFalse hok => simp [hok]
  case h_2 hnone =>
    have hok : ¬ r.isOk = true := fun hok => by simpa [hnone] using hdigest hok
    simp [hok]

/-- The modules of a wave that have outcomes become known together. -/
theorem mem_publish {t : Session} {rs : List (ℕ × ModuleReport)} {n : String}
    (hdigest : ∀ p ∈ rs, p.2.isOk = true → p.2.digest.isSome) :
    n ∈ (t.publish rs).modules ↔ n ∈ t.modules ∨ n ∈ outcomes (rs.map (·.2)) := by
  rw [mem_outcomes]
  induction rs generalizing t with
  | nil => simp [Session.publish]
  | cons p rs ih =>
    obtain ⟨hp, hrs⟩ := List.forall_mem_cons.mp hdigest
    have hstep : t.publish (p :: rs) = (t.learn p.2).publish rs := rfl
    rw [hstep, ih hrs, mem_learn hp, List.map_cons, List.exists_mem_cons_iff, or_assoc]

/-- What is so at every stage of a call. -/
structure Tracks (S : List Source) (σ : Stage) : Prop where
  nodup : (σ.reports.map (·.1)).Nodup
  source : ∀ p ∈ σ.reports, S[p.1]? = some p.2.source ∧ faults S p.2.source = []
  digest : ∀ p ∈ σ.reports, p.2.isOk = true → p.2.digest.isSome
  known : ∀ n, n ∈ σ.workspace.session.modules ↔ n = Primitive.preludeName ∨
    n ∈ outcomes (σ.published.map (·.2))
  /-- What a module imports has been checked in an earlier wave, unless it is refused. -/
  before : ∀ p ∈ σ.reports, ∀ i ∈ importsOf p.2.source, ∀ t ∈ S, t.name = i.module →
    faults S t = [] → ∃ q ∈ σ.published, q.2.source = t
  reported : ∀ p ∈ σ.reports, Proceeds (outcomes (σ.published.map (·.2))) p.2.source p.2

namespace Tracks

theorem start (w₁ : Workspace) (hmodules : ∀ n, n ∈ w₁.session.modules ↔
    n = Primitive.preludeName) : Tracks S ⟨[], [], w₁⟩ where
  nodup := by simp [Stage.reports]
  source := by simp [Stage.reports]
  digest := by simp [Stage.reports]
  known := by simp [hmodules, outcomes]
  before := by simp [Stage.reports]
  reported := by simp [Stage.reports]

/-- The check of a module keeps what is so at every stage. -/
theorem check {i : ℕ} {u : Pending} {m : Surface.Module} (h : Tracks S σ)
    (hS : (S.map (·.name)).Nodup) (hu : (units S)[i]? = some u) (hm : u.module = some m)
    (herrors : u.errors = []) (hnew : i ∉ σ.reports.map (·.1))
    (hdeps : ∀ d ∈ u.deps, ∀ v, (units S)[d]? = some v → Pending.Sound v →
      d ∈ σ.published.map (·.1))
    (hchecks : Checks u m (importNames (units S) u) σ.workspace r w) :
    Tracks S ⟨σ.published, σ.current ++ [(i, r)], w⟩ := by
  have hsource := hchecks.source
  have husource := getElem?_units hu
  have hread := (unit_sound hu hm herrors).1
  have hfaults : faults S u.source = [] := (unit_faults hu).2.1.symm.trans herrors
  have hreports : (Stage.mk σ.published (σ.current ++ [(i, r)]) w).reports =
      σ.reports ++ [(i, r)] :=
    (List.append_assoc _ _ _).symm
  rw [importNames_eq hu hm herrors] at hchecks
  constructor
  case nodup =>
    rw [hreports, List.map_append, List.map_singleton, List.nodup_append_comm]
    exact List.nodup_cons.mpr ⟨hnew, h.nodup⟩
  case source =>
    rw [hreports, List.forall_mem_append, List.forall_mem_singleton, hsource]
    exact ⟨h.source, husource, hfaults⟩
  case digest =>
    rw [hreports, List.forall_mem_append, List.forall_mem_singleton]
    exact ⟨h.digest, hchecks.isSome_digest⟩
  case known =>
    dsimp only
    rw [hchecks.modules]
    exact h.known
  case before =>
    rw [hreports, List.forall_mem_append, List.forall_mem_singleton, hsource]
    refine ⟨h.before, fun j hj t ht hname htfaults => ?_⟩
    rw [importsOf, hread] at hj
    obtain ⟨_, hreadt⟩ := exists_read_of_faults htfaults
    have hmem : j.module ∈ m.imported :=
      Surface.Module.mem_imported.mpr ⟨hname ▸ (readSource_eq_ok hreadt).1, j, hj, rfl⟩
    obtain ⟨d, hd⟩ := List.getElem?_of_mem ht
    have hdepends : Depends ((units S).map (·.deps)) i d :=
      (depends_units husource).mpr ⟨hfaults, m, hread, _, hmem,
        (indexOf?_eq_some_iff hS).mpr ⟨t, hd, hname⟩⟩
    have hd' : d ∈ u.deps := by simpa [Depends, List.getD_eq_getElem?_getD, hu] using hdepends
    obtain ⟨v, hv, rfl⟩ := getElem?_units_of_source hd
    obtain ⟨q, hq, rfl⟩ := List.mem_map.mp (hdeps d hd' v hv ((sound_iff hv).mpr htfaults))
    have hqsource := (h.source q (List.mem_append_left _ hq)).1
    exact ⟨q, hq, Option.some.inj (hqsource.symm.trans hd)⟩
  case reported =>
    rw [hreports, List.forall_mem_append, List.forall_mem_singleton, hsource]
    exact ⟨h.reported, hchecks.proceeds hread h.known⟩

/-- The modules that become known at the end of a wave are none that another module of the wave
imports. -/
theorem mem_outcomes_iff (h : Tracks S σ) (hS : (S.map (·.name)).Nodup) {p : ℕ × ModuleReport}
    (hp : p ∈ σ.reports) {i : Surface.Import} (hi : i ∈ importsOf p.2.source) :
    i.module ∈ outcomes (σ.published.map (·.2)) ↔ i.module ∈ outcomes (σ.reports.map (·.2)) := by
  rw [Stage.reports, List.map_append, outcomes, outcomes, List.filter_append, List.map_append,
    List.mem_append, or_iff_left_of_imp]
  intro hmem
  obtain ⟨_, hmap, -, hname⟩ := mem_outcomes.mp hmem
  obtain ⟨q, hq, rfl⟩ := List.mem_map.mp hmap
  obtain ⟨hqsource, hqfaults⟩ := h.source q (List.mem_append_right _ hq)
  obtain ⟨q', hq', hsame⟩ := h.before p hp i hi _ (List.mem_of_getElem? hqsource) hname hqfaults
  have hqsource' := (h.source q' (List.mem_append_left _ hq')).1
  have hindex : q'.1 = q.1 := index_eq_of_name_eq hS hqsource' hqsource (congrArg Source.name hsame)
  have hnodup := h.nodup
  rw [Stage.reports, List.map_append] at hnodup
  exact absurd hindex fun heq => List.disjoint_of_nodup_append hnodup
    (List.mem_map.mpr ⟨q', hq', rfl⟩) (List.mem_map.mpr ⟨q, hq, heq.symm⟩)

/-- So does the end of a wave. -/
theorem publish (h : Tracks S σ) (hS : (S.map (·.name)).Nodup) :
    Tracks S ⟨σ.reports, [], { σ.workspace with session := σ.workspace.session.publish σ.current }⟩
      := by
  have hreports : (Stage.mk σ.reports []
      { σ.workspace with session := σ.workspace.session.publish σ.current }).reports = σ.reports :=
        List.append_nil _
  constructor
  case nodup =>
    rw [hreports]
    exact h.nodup
  case source =>
    rw [hreports]
    exact h.source
  case digest =>
    rw [hreports]
    exact h.digest
  case known =>
    intro n
    rw [mem_publish fun p hp => h.digest p (List.mem_append_right _ hp), h.known, or_assoc]
    simp [Stage.reports, outcomes]
  case before =>
    rw [hreports]
    intro p hp i hi t ht hname hfaults
    obtain ⟨q, hq, hsame⟩ := h.before p hp i hi t ht hname hfaults
    exact ⟨q, List.mem_append_left _ hq, hsame⟩
  case reported =>
    rw [hreports]
    exact fun p hp => (h.reported p hp).congr fun i hi _ => h.mem_outcomes_iff hS hp hi

theorem of_steps (hS : (S.map (·.name)).Nodup) (hmodules : ∀ n, n ∈ w.session.modules ↔
    n = Primitive.preludeName)
    (hsteps : ReflTransGen (Stage.Step (units S)) ⟨[], [], w⟩ σ) : Tracks S σ := by
  induction hsteps with
  | refl => exact start w hmodules
  | tail _ hstep ih =>
    cases hstep with
    | check hu hm herrors hnew hdeps hchecks => exact ih.check hS hu hm herrors hnew hdeps hchecks
    | publish => exact ih.publish hS

end Tracks

end Stages

section Calls
variable {rs : List (ℕ × ModuleReport)}

end Calls

end Work

end LeveledTypes
