import LeveledTypes.Proofs.Session.Propagation
import LeveledTypes.Proofs.Session.Replay

/-!
# What a report depends on

Two sessions without a cache check different sources that agree in a module and in all that is below
it. What they report of the module differs in nothing but the registry that it is elaborated over,
unless a module below it has no outcome. The registry has the definitions of whatever was checked
before, so that this is where modules come in that the module does not import.
-/
namespace LeveledTypes

open Relation (ReflTransGen)

namespace Work
variable {S S' : List Source} {n : String} {s : Source} {m : Surface.Module} {r r' : ModuleReport}
  {known known' : List (String × KnownModule)} {w v : Workspace} {limits : Limits} {σ : Stage}

section Known

/-- The names that the prelude brings, or a module of the sources. -/
inductive NamesOf (S : List Source) : String → List GlobalName → Prop
  | prelude {P : List Definition} (h : Prelude.Gives P) :
    NamesOf S Primitive.preludeName (P.map (·.name))
  | module {s : Source} {m : Surface.Module} (hs : s ∈ S) (hread : readSource s = .ok m) :
    NamesOf S s.name (m.decls.flatMap (·.names))

/-- What is known of a module follows from the sources. -/
structure Told (S : List Source) (n : String) (k : KnownModule) : Prop where
  digested : Digested S n k.digest
  names : NamesOf S n k.names

/-- The known modules are the prelude and what a module imports. -/
structure Sees (S : List Source) (m : Surface.Module) (known : List (String × KnownModule)) :
    Prop where
  names : known.map (·.1) = Primitive.preludeName :: m.imported
  told : ∀ p ∈ known, Told S p.1 p.2

theorem names_of_gives {P P' : List Definition} (h : Prelude.Gives P) (h' : Prelude.Gives P') :
    P.map (·.name) = P'.map (·.name) := by
  obtain ⟨m, limits, hread, herrors, rfl⟩ := h
  obtain ⟨m', limits', hread', herrors', rfl⟩ := h'
  obtain rfl := Except.ok.inj (hread.symm.trans hread')
  rw [List.map_append, List.map_append, (names_of_elaborateModule herrors).1,
    (names_of_elaborateModule herrors').1]

theorem NamesOf.eq_of_agreeBelow {ns ns' : List GlobalName} (hS' : (S'.map (·.name)).Nodup)
    (h : NamesOf S n ns) (h' : NamesOf S' n ns')
    (hbelow : n ≠ Primitive.preludeName → AgreeBelow S S' n) : ns = ns' := by
  cases h with
  | prelude hgives =>
    generalize hn : Primitive.preludeName = n at h'
    cases h' with
    | prelude hgives' => exact names_of_gives hgives hgives'
    | module _ hread => exact absurd hn.symm (readSource_eq_ok hread).1
  | @module s m hs hread =>
    have hne := (readSource_eq_ok hread).1
    generalize hn : s.name = n at h'
    cases h' with
    | prelude => exact absurd hn hne
    | module hs' hread' =>
      have htext := (hbelow hne).text_eq hS' hs hs' hn
      obtain rfl := Except.ok.inj (hread.symm.trans ((readSource_congr hn htext).trans hread'))
      rfl

theorem Told.eq_of_agreeBelow {k k' : KnownModule} (hS' : (S'.map (·.name)).Nodup)
    (h : Told S n k) (h' : Told S' n k')
    (hbelow : n ≠ Primitive.preludeName → AgreeBelow S S' n) : k = k' := by
  obtain ⟨digest, names⟩ := k
  obtain ⟨digest', names'⟩ := k'
  obtain rfl : digest = digest' := h.digested.eq_of_agreeBelow hS' h'.digested hbelow
  obtain rfl : names = names' := h.names.eq_of_agreeBelow hS' h'.names hbelow
  rfl

/-- A module sees the same in both, if all that is below it is the same. -/
theorem Sees.eq_of_agreeBelow (hS' : (S'.map (·.name)).Nodup) (hs : s ∈ S)
    (hread : readSource s = .ok m) (h : Sees S m known) (h' : Sees S' m known')
    (hbelow : AgreeBelow S S' s.name) : known = known' := by
  refine eq_of_map_fst_eq (h.names.trans h'.names.symm) fun p hp q hq hpq => ?_
  refine (h.told p hp).eq_of_agreeBelow hS' (hpq ▸ h'.told q hq) fun hne => ?_
  have hmem : p.1 ∈ Primitive.preludeName :: m.imported := h.names ▸ List.mem_map.mpr ⟨p, hp, rfl⟩
  exact hbelow.imports ⟨s, hs, rfl, m, hread, (List.mem_cons.mp hmem).resolve_left hne⟩

/-- What becomes known of a module by its report follows from the sources. -/
theorem told_of_reportOver {base : Registry} (hs : s ∈ S) (hread : readSource s = .ok m)
    (hsees : Sees S m known) (hok : (reportOver base limits s m known).isOk = true) :
    ∃ d, (reportOver base limits s m known).digest = some d ∧
      Told S s.name ⟨d, (reportOver base limits s m known).names⟩ := by
  unfold reportOver at hok ⊢
  dsimp only at hok ⊢
  split at hok
  case isTrue herrors =>
    rw [if_pos herrors]
    have hkey := hasKey_of_digested hs hread hsees.names fun p hp => (hsees.told p hp).digested
    refine ⟨_, rfl, hkey.to_digested, ?_⟩
    dsimp only
    rw [(names_of_elaborateModule herrors).1]
    exact .module hs hread
  case isFalse => simp [ModuleReport.isOk, ModuleStatus.isOk] at hok

end Known

section Stages

/-- The module is one of the sources and not refused. It is unreachable or has been elaborated over
a registry, seeing what follows from the sources. -/
structure Explained (S : List Source) (limits : Limits) (r : ModuleReport) : Prop where
  mem : r.source ∈ S
  sound : faults S r.source = []
  elaborated : r.status = .unreachable ∨ ∃ base m known, readSource r.source = .ok m ∧
    Sees S m known ∧ r = reportOver base limits r.source m known

theorem Explained.told (h : Explained S limits r) (hok : r.isOk = true) :
    ∃ d, r.digest = some d ∧ Told S r.name ⟨d, r.names⟩ := by
  obtain hstatus | ⟨base, m, known, hread, hsees, hr⟩ := h.elaborated
  · simp [ModuleReport.isOk, ModuleStatus.isOk, hstatus] at hok
  · rw [hr] at hok
    have htold := told_of_reportOver h.mem hread hsees hok
    rwa [← hr] at htold

/-- What is so at every stage of a call without a cache. -/
structure Explains (S : List Source) (limits : Limits) (σ : Stage) : Prop where
  uncached : σ.workspace.session.settings.cacheDir = none
  limited : σ.workspace.session.settings.limits = limits
  known : ∀ n k, σ.workspace.session.modules[n]? = some k → Told S n k
  reported : ∀ p ∈ σ.reports, Explained S limits p.2

namespace Explains

/-- The check of a module keeps what is so at every stage. -/
theorem check {i : ℕ} {u : Pending} (h : Explains S limits σ) (hu : (units S)[i]? = some u)
    (hm : u.module = some m) (herrors : u.errors = [])
    (hchecks : Checks u m (importNames (units S) u) σ.workspace r w) :
    Explains S limits ⟨σ.published, σ.current ++ [(i, r)], w⟩ := by
  have hread := (unit_sound hu hm herrors).1
  have hsource := hchecks.source
  have hreports : (Stage.mk σ.published (σ.current ++ [(i, r)]) w).reports =
      σ.reports ++ [(i, r)] :=
    (List.append_assoc _ _ _).symm
  constructor
  case uncached => exact hchecks.settings ▸ h.uncached
  case limited => exact hchecks.settings ▸ h.limited
  case known => exact hchecks.modules ▸ h.known
  case reported =>
    rw [hreports, List.forall_mem_append, List.forall_mem_singleton]
    refine ⟨h.reported, hsource ▸ List.mem_of_getElem? (getElem?_units hu), ?_, ?_⟩
    · rw [hsource, ← (unit_faults hu).2.1, herrors]
    rw [importNames_eq hu hm herrors] at hchecks
    cases hknown : knownDeps σ.workspace.session.modules (Primitive.preludeName :: m.imported) with
    | error missing =>
      cases hchecks with
      | unreachable => exact .inl rfl
      | cached hknown' | failed hknown' | checked hknown' => simp [hknown] at hknown'
    | ok known =>
      obtain ⟨hnames, htold⟩ := knownDeps_eq_ok hknown
      have hsees : Sees S m known := ⟨hnames, fun p hp => h.known _ _ (htold p hp)⟩
      have hreport := (hchecks.reportOver hknown h.uncached).1
      rw [h.limited, ← hsource] at hreport
      exact .inr ⟨_, m, known, hsource ▸ hread, hsees, hreport⟩

/-- So does the end of a wave. -/
theorem publish (h : Explains S limits σ) :
    Explains S limits ⟨σ.reports, [],
      { σ.workspace with session := σ.workspace.session.publish σ.current }⟩ := by
  constructor
  case uncached => exact (congrArg Settings.cacheDir (settings_publish _ _)).trans h.uncached
  case limited => exact (congrArg Settings.limits (settings_publish _ _)).trans h.limited
  case known =>
    intro n k hk
    obtain hk | ⟨p, hp, hok, rfl, hdigest, hnames⟩ := getElem?_publish hk
    · exact h.known n k hk
    · obtain ⟨d, hd, htold⟩ := (h.reported p (List.mem_append_right _ hp)).told hok
      obtain rfl := Option.some.inj (hd.symm.trans hdigest)
      rwa [hnames] at htold
  case reported =>
    intro p hp
    exact h.reported p (by simpa [Stage.reports] using hp)

theorem of_steps {w₁ : Workspace} (hstart : Explains S limits ⟨[], [], w₁⟩)
    (hsteps : ReflTransGen (Stage.Step (units S)) ⟨[], [], w₁⟩ σ) : Explains S limits σ := by
  induction hsteps with
  | refl => exact hstart
  | tail _ hstep ih =>
    cases hstep with
    | check hu hm herrors _ _ hchecks => exact ih.check hu hm herrors hchecks
    | publish => exact ih.publish

end Explains

end Stages

section Calls
variable {settings : Settings} {d d' : Disk} {rs rs' : List ModuleReport}

theorem explains_start {v₀ v₁ : Workspace} (hcache : settings.cacheDir = none)
    (henters : Prelude.Enters (.opened settings d) none v₀) (hbegins : Begins v₀ v₁) :
    Explains S settings.limits ⟨[], [], v₁⟩ := by
  have hnew : (Workspace.opened settings d).session.modules.contains Primitive.preludeName =
      false := by simp [Workspace.opened]
  obtain ⟨e, -, hmakes, hadopts⟩ | ⟨err, herr, -⟩ := enters_uncached henters hnew hcache
  · have hsettings : v₁.session.settings = settings := by
      rw [hbegins.session]
      exact hadopts.settings
    refine ⟨hsettings ▸ hcache, by rw [hsettings], fun n k hk => ?_, by simp [Stage.reports]⟩
    rw [hbegins.session, getElem?_forgotten, hadopts.modules] at hk
    split at hk
    case isTrue hn =>
      subst hn
      obtain rfl : (⟨Prelude.digest, e.definitions.map (·.name)⟩ : KnownModule) = k := by
        simpa using hk
      exact ⟨.prelude, .prelude (hmakes.gives rfl)⟩
    case isFalse => simp at hk
  · simp at herr

/-- A module that is refused is reported with its faults, and any other one is explained. -/
theorem explained_of_checkSources (hcache : settings.cacheDir = none)
    (hrs : (checkSources S (.opened settings d)).1 = .ok rs) :
    ∀ r ∈ rs, Explained S settings.limits r ∨ r.source ∈ S ∧ faults S r.source ≠ [] ∧
        r = { source := r.source, status := .failed, errors := faults S r.source } := by
  have hcall : Finishes S (.opened settings d) (checkSources S (.opened settings d)).1
    (checkSources S (.opened settings d)).2 := yields_checkSources S _
  rw [hrs] at hcall
  generalize (checkSources S (.opened settings d)).2 = w' at hcall
  cases hcall with
  | @done w₀ w₁ _ ws rs₀ hprelude hbegins _ hsteps hcover =>
    have henters : Prelude.Enters (.opened settings d) none w₀ := by
      have hyields : Prelude.Enters (.opened settings d) (Prelude.ensure (.opened settings d)).1
        (Prelude.ensure (.opened settings d)).2 := Prelude.yields_ensure _
      rwa [hprelude] at hyields
    have hexplains := (explains_start hcache henters hbegins).of_steps hsteps
    intro r hr
    obtain ⟨⟨u, i⟩, hu, rfl⟩ := List.mem_map.mp hr
    replace hu := List.mk_mem_zipIdx_iff_getElem?.mp hu
    dsimp only
    cases hlookup : rs₀.lookup i with
    | some r =>
      obtain ⟨before, after, rfl, -⟩ := List.lookup_eq_some_iff.mp hlookup
      exact .inl (hexplains.reported (i, r) (by simp [Stage.reports]))
    | none =>
      have herrors := (unit_faults hu).2.1
      refine .inr ⟨List.mem_of_getElem? (getElem?_units hu), fun hfaults => ?_, ?_⟩
      · obtain ⟨p, hp, rfl⟩ := List.mem_map.mp (hcover i u hu ((sound_iff hu).mpr hfaults))
        have hne := List.lookup_eq_none_iff.mp hlookup p hp
        simp at hne
      · rw [Option.getD_none, herrors]

/-- A module that agrees in all that is below it has the same faults. -/
theorem faults_eq_of_agreeBelow {s' : Source} (hS' : (S'.map (·.name)).Nodup) (hs : s ∈ S)
    (hs' : s' ∈ S') (hname : s.name = s'.name) (hbelow : AgreeBelow S S' s.name) :
    faults S s = faults S' s' := by
  have hsame := readSource_congr hname (hbelow.text_eq hS' hs hs' hname)
  unfold faults
  rw [← hsame]
  cases hread : readSource s with
  | error err => rfl
  | ok m =>
    refine congrArg _ (List.filter_congr fun i hi => ?_)
    by_cases hprelude : i.module = Primitive.preludeName
    · simp [hprelude]
    · have himports : Imports S s.name i.module :=
        ⟨s, hs, rfl, m, hread, Surface.Module.mem_imported.mpr ⟨hprelude, i, hi, rfl⟩⟩
      simp only [List.mem_cons, hprelude, false_or, hbelow.mem_names (.single himports)]

/-- Two sessions with the same settings and without a cache check sources that agree in a module and
in all that is below it. Then both refuse the module for the same faults, or in one of them it is
unreachable, since a module below it has no outcome there, or else both elaborate it, seeing the
same. Then the reports differ only as the registries do, which have what the other modules of the
session have brought. -/
theorem reports_of_agreeBelow (hcache : settings.cacheDir = none) (hS' : (S'.map (·.name)).Nodup)
    (hrs : (checkSources S (.opened settings d)).1 = .ok rs)
    (hrs' : (checkSources S' (.opened settings d')).1 = .ok rs') (hr : r ∈ rs) (hr' : r' ∈ rs')
    (hname : r.name = r'.name) (hbelow : AgreeBelow S S' r.name) :
    r.source.text = r'.source.text ∧
      ((faults S r.source ≠ [] ∧
          r = { source := r.source, status := .failed, errors := faults S r.source } ∧
          r' = { source := r'.source, status := .failed, errors := faults S r.source }) ∨
        r.status = .unreachable ∨ r'.status = .unreachable ∨
        ∃ base base' m known, r = reportOver base settings.limits r.source m known ∧
          r' = reportOver base' settings.limits r'.source m known) := by
  have hexplained := explained_of_checkSources hcache hrs r hr
  have hexplained' := explained_of_checkSources hcache hrs' r' hr'
  have hs : r.source ∈ S := hexplained.elim (·.mem) And.left
  have hs' : r'.source ∈ S' := hexplained'.elim (·.mem) And.left
  have htext := hbelow.text_eq hS' hs hs' hname
  have hfaults := faults_eq_of_agreeBelow hS' hs hs' hname hbelow
  refine ⟨htext, ?_⟩
  obtain h | ⟨-, hne, hfailed⟩ := hexplained
  · obtain h' | ⟨-, hne', -⟩ := hexplained'
    · obtain hstatus | ⟨base, m, known, hread, hsees, hreport⟩ := h.elaborated
      · exact .inr (.inl hstatus)
      · obtain hstatus' | ⟨base', m', known', hread', hsees', hreport'⟩ := h'.elaborated
        · exact .inr (.inr (.inl hstatus'))
        · obtain rfl : m = m' := Except.ok.inj
            (hread.symm.trans ((readSource_congr hname htext).trans hread'))
          obtain rfl := hsees.eq_of_agreeBelow hS' hs hread hsees' hbelow
          exact .inr (.inr (.inr ⟨base, base', m, known, hreport, hreport'⟩))
    · exact absurd (hfaults.symm.trans h.sound) hne'
  · obtain h' | ⟨-, -, hfailed'⟩ := hexplained'
    · exact absurd (hfaults.trans h'.sound) hne
    · exact .inl ⟨hne, hfailed, hfaults ▸ hfailed'⟩

/-- If the module has an outcome in both sessions, it has the same digest in both, and brings the
same names. -/
theorem digest_eq_of_agreeBelow (hcache : settings.cacheDir = none)
    (hS' : (S'.map (·.name)).Nodup) (hrs : (checkSources S (.opened settings d)).1 = .ok rs)
    (hrs' : (checkSources S' (.opened settings d')).1 = .ok rs') (hr : r ∈ rs) (hr' : r' ∈ rs')
    (hname : r.name = r'.name) (hbelow : AgreeBelow S S' r.name) (hok : r.isOk = true)
    (hok' : r'.isOk = true) : r.digest = r'.digest ∧ r.names = r'.names := by
  have hexplains {S : List Source} {rs : List ModuleReport} {r : ModuleReport} {d : Disk}
      (hrs : (checkSources S (.opened settings d)).1 = .ok rs) (hr : r ∈ rs) (hok : r.isOk = true) :
      Explained S settings.limits r := by
    refine (explained_of_checkSources hcache hrs r hr).resolve_right ?_
    rintro ⟨-, -, hfailed⟩
    have hstatus : r.status = .failed := congrArg ModuleReport.status hfailed
    simp [ModuleReport.isOk, ModuleStatus.isOk, hstatus] at hok
  obtain ⟨digest, hdigest, htold⟩ := (hexplains hrs hr hok).told hok
  obtain ⟨digest', hdigest', htold'⟩ := (hexplains hrs' hr' hok').told hok'
  have hknown := htold.eq_of_agreeBelow hS' (hname ▸ htold') fun _ => hbelow
  rw [hdigest, hdigest']
  exact ⟨congrArg (some ∘ KnownModule.digest) hknown, congrArg KnownModule.names hknown⟩

/-- The module `m` imports `base` only, and `other` has an instance of the class of `base`. -/
def baseAndOther : List Source :=
  [.ofText "base" "\\class Pointed (A : \\Type) \x7b | point : A \x7d\n",
    .ofText "other" "\\import base\n\\instance natPointed : Pointed Nat \x7b | point => 7 \x7d\n",
    .ofText "m" "\\import base\n\\func seven : Nat => point\n"]

/-- With `other` or without it, `m` is elaborated seeing the same, unless it is unreachable. -/
theorem reports_of_agreeBelow_baseAndOther (d d' : Disk) {rs rs' : List ModuleReport}
    {r r' : ModuleReport} (hrs : (checkSources baseAndOther (.opened {} d)).1 = .ok rs)
    (hrs' : (checkSources (baseAndOther.filter (·.name ≠ "other")) (.opened {} d')).1 = .ok rs')
    (hr : r ∈ rs) (hr' : r' ∈ rs') (hname : r.name = "m") (hname' : r'.name = "m") :
    r.status = .unreachable ∨ r'.status = .unreachable ∨ ∃ base base' m known,
      r = reportOver base {} r.source m known ∧ r' = reportOver base' {} r'.source m known := by
  have himports {n n' : String} (hn : n ≠ "other") (h : Imports baseAndOther n n') :
      n' = "base" := by
    have hall : ∀ s ∈ baseAndOther, s.name ≠ "other" →
        ∀ n' ∈ (((readSource s).toOption.map (·.imported)).getD []), n' = "base" := by
      decide +kernel
    obtain ⟨s, hs, rfl, m, hread, hn'⟩ := h
    exact hall s hs hn n' (by simpa [hread, Except.toOption] using hn')
  have hbelow : AgreeBelow baseAndOther (baseAndOther.filter (·.name ≠ "other")) r.name := by
    intro n' hreach text
    have hother : n' ≠ "other" := by
      induction hreach with
      | refl => simp [hname]
      | tail _ h ih => simp [himports ih h]
    simp only [List.mem_filter, decide_eq_true_eq]
    refine exists_congr fun s => ?_
    grind
  have hsound : ∀ s ∈ baseAndOther, faults baseAndOther s = [] := by decide +kernel
  have hmem : r.source ∈ baseAndOther :=
    (explained_of_checkSources rfl hrs r hr).elim (·.mem) And.left
  obtain ⟨-, ⟨hrefused, -⟩ | h⟩ :=
    reports_of_agreeBelow rfl (by decide) hrs hrs' hr hr' (hname.trans hname'.symm) hbelow
  · exact absurd (hsound _ hmem) hrefused
  · exact h

end Calls

end Work

end LeveledTypes
