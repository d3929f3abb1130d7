import LeveledTypes.Proofs.Session.Call
import LeveledTypes.Proofs.Session.Prelude

/-!
# Histories of sessions

Sessions follow one another, and each makes calls. If all of them have one directory for the cache,
which has no entries at first, then every entry in it has been stored by a call of the history: that
of the prelude by a session that elaborated it, and that of another module by a call that reported
the module as checked.
-/
namespace LeveledTypes

open Relation (ReflTransGen)

/-- A session that has done nothing yet. -/
def Workspace.opened (settings : Settings) (disk : Disk) : Workspace :=
  { session := { settings }, disk }

/-- A new session with the settings of the session, on the disk as it is. -/
def Workspace.reopened (w : Workspace) : Workspace := .opened w.session.settings w.disk

namespace Work

/-- A call that has ended. -/
structure Finished where
  sources : List Source
  outcome : Except Error (List ModuleReport)
  workspace : Workspace

/-- The call on the sources, once it has ended. -/
def finished (S : List Source) (w : Workspace) : Finished :=
  ⟨S, (checkSources S w).1, (checkSources S w).2⟩

/-- The call has ended with reports, and this is one of them. -/
def Finished.Reports (f : Finished) (r : ModuleReport) : Prop := ∃ rs, f.outcome = .ok rs ∧ r ∈ rs

/-- The calls so far, the latest first, and where they have led to from a disk. No session has
another directory for the cache than the given one. -/
inductive History (dir : FilePath) (disk : Disk) : List Finished → Workspace → Prop
  | start {settings : Settings} (hdir : settings.CachesIn dir) :
      History dir disk [] (.opened settings disk)
  | restart {h : List Finished} {w : Workspace} {settings : Settings} (hdir : settings.CachesIn dir)
      (hist : History dir disk h w) : History dir disk h (.opened settings w.disk)
  | call {h : List Finished} {w : Workspace} (S : List Source) (hist : History dir disk h w) :
      History dir disk (finished S w :: h) (finished S w).workspace

/-- The names of the modules in some sets of sources, and that of the prelude. -/
def Named (sets : List (List Source)) : Set String :=
  {n | n = Primitive.preludeName ∨ ∃ S ∈ sets, ∃ s ∈ S, s.name = n}

/-- What is assumed of the sets of sources that are checked with a cache, and of the disk before:
the modules of a set have different names, there are no entries, those of different modules have
different places, and keys have different digests. -/
structure Cacheable (dir : FilePath) (disk : Disk) (sets : List (List Source)) : Prop where
  distinct : ∀ S ∈ sets, (S.map (·.name)).Nodup
  empty : ∀ n ∈ Named sets, disk.fileAt (disk.placeOf (entryPath dir n)) = none
  places : PlacesDiffer disk dir (Named sets)
  keys : KeysDiffer sets

variable {dir : FilePath} {disk : Disk} {N : Set String} {S : List Source}
  {sets : List (List Source)} {h h' : List Finished} {w w' : Workspace}

section Reports
variable {us : List Pending} {rs : List (ℕ × ModuleReport)} {i : ℕ} {r : ModuleReport}

theorem lookup_eq_some (hrs : (rs.map (·.1)).Nodup) : rs.lookup i = some r ↔ (i, r) ∈ rs := by
  induction rs with
  | nil => simp
  | cons p rs ih =>
    obtain ⟨hp, hrs⟩ := List.nodup_cons.mp hrs
    rw [List.lookup_cons, List.mem_cons]
    by_cases hi : i = p.1
    · subst hi
      have hnot : (p.1, r) ∉ rs := fun hmem => hp (List.mem_map.mpr ⟨_, hmem, rfl⟩)
      simp [Prod.ext_iff, hnot, eq_comm]
    · have hbeq : (i == p.1) = false := by simpa using hi
      simp [hbeq, hi, Prod.ext_iff, ih hrs]

/-- The reports with an outcome are those of the modules that were checked. -/
theorem mem_ordered (hrs : (rs.map (·.1)).Nodup) (hmem : ∀ p ∈ rs, p.1 < us.length)
    (hok : r.isOk = true) : r ∈ ordered us rs ↔ r ∈ rs.map (·.2) := by
  rw [ordered, List.mem_map, List.mem_map]
  constructor
  · rintro ⟨⟨u, i⟩, -, rfl⟩
    dsimp only at hok ⊢
    cases hlookup : rs.lookup i with
    | none => simp [hlookup, ModuleReport.isOk, ModuleStatus.isOk] at hok
    | some r => exact ⟨(i, r), (lookup_eq_some hrs).mp hlookup, rfl⟩
  · rintro ⟨⟨i, r⟩, hp, rfl⟩
    refine ⟨(us.get ⟨i, hmem _ hp⟩, i), List.mk_mem_zipIdx_iff_getElem?.mpr
      (List.getElem?_eq_getElem _), ?_⟩
    dsimp only
    rw [(lookup_eq_some hrs).mpr hp]
    rfl

theorem Valid.nodup_fst {w₁ : Workspace} (h : Valid dir N S w₁ ⟨rs, [], w'⟩) :
    (rs.map (·.1)).Nodup := by
  simpa [Stage.reports] using h.nodup

theorem Valid.mem_ordered {w₁ : Workspace} (h : Valid dir N S w₁ ⟨rs, [], w'⟩)
    (hok : r.isOk = true) : r ∈ ordered (units S) rs ↔ r ∈ rs.map (·.2) := by
  refine Work.mem_ordered h.nodup_fst (fun p hp => ?_) hok
  obtain ⟨u, hu, -⟩ := h.source p (List.mem_append_left _ hp)
  exact (List.getElem?_eq_some_iff.mp hu).1

end Reports

section Entries

/-- The call has stored the entry for a module that it reported as checked. -/
def Finished.Stored (f : Finished) (n : String) (e : CacheEntry) : Prop :=
  ∃ r, f.Reports r ∧ r.status = .checked ∧ r.name = n ∧ r.digest = some e.digest ∧
    EntryOf f.sources r.source e

/-- The entry is one that was stored for the module. -/
inductive Recorded (h : List Finished) (n : String) (e : CacheEntry) : Prop
  | prelude (hn : n = Primitive.preludeName) (hmodule : e.module = n)
    (hdigest : e.digest = Prelude.digest)
      (hdeps : e.deps = []) (hgives : Prelude.Gives e.definitions)
  | module {f : Finished} (hf : f ∈ h) (hstored : f.Stored n e)

/-- All entries on the disk are recorded, and fit the format. -/
def OnlyRecorded (dir : FilePath) (N : Set String) (h : List Finished) (d : Disk) : Prop :=
  ∀ n ∈ N, ∀ c, d.fileAt (d.placeOf (entryPath dir n)) = some c →
    ∃ e : CacheEntry, c = ⟨e.encode.toArray⟩ ∧ e.Fits ∧ Recorded h n e

theorem Recorded.mono {h' : List Finished} {n : String} {e : CacheEntry}
    (hrecorded : Recorded h n e) (hsub : h ⊆ h') :
    Recorded h' n e := by
  cases hrecorded with
  | prelude hn hmodule hdigest hdeps hgives => exact .prelude hn hmodule hdigest hdeps hgives
  | module hf hstored => exact .module (hsub hf) hstored

/-- Entries of the history stay entries of a longer history; new files are entries of the history,
too. -/
theorem OnlyRecorded.later {h' : List Finished} {d d' : Disk}
    (hrecorded : OnlyRecorded dir N h d) (hsub : h ⊆ h') (hkeeps : d.Keeps d')
    (hfiles : ∀ n ∈ N, SameEntry dir d d' n ∨ ∃ e : CacheEntry, e.Fits ∧
      d'.fileAt (d.placeOf (entryPath dir n)) = some ⟨e.encode.toArray⟩ ∧ Recorded h' n e) :
        OnlyRecorded dir N h' d' := by
  intro n hn c hc
  rw [hkeeps.placeOf_eq] at hc
  obtain hsame | ⟨e, he, hfile, hrecorded'⟩ := hfiles n hn
  · obtain ⟨e, rfl, he, hrecorded'⟩ := hrecorded n hn c (hsame.symm.trans hc)
    exact ⟨e, rfl, he, hrecorded'.mono hsub⟩
  · exact ⟨e, Option.some.inj (hc.symm.trans hfile), he, hrecorded'⟩

/-- The place of an entry has what it had before the call, or the entry of a module that was
checked. -/
theorem Accounted.sameEntry_or {d : Disk} {r : ModuleReport} (h : Accounted dir S d w r)
    (hkeeps : d.Keeps w.disk) :
    SameEntry dir d w.disk r.name ∨ ∃ e : CacheEntry, r.status = .checked ∧
    r.digest = some e.digest ∧
      EntryOf S r.source e ∧ e.Fits ∧
      w.disk.fileAt (d.placeOf (entryPath dir r.name)) = some ⟨e.encode.toArray⟩ := by
  cases h with
  | failed hok hdigest hsame => exact .inl hsame
  | cached hstatus hkey hdigest hfile hread =>
    have hfile' := Disk.fileAt_of_read hread
    rw [hkeeps.placeOf_eq] at hfile'
    exact .inl (hfile'.trans hfile.symm)
  | checked hstatus hentry hdigest hnames hfile =>
    exact hfile.imp_right fun hfile => ⟨_, hstatus, hdigest, hentry, hfile⟩

/-- The entries that are there after a call were there before, or the call has stored them, which
puts it into the history. -/
theorem Valid.onlyRecorded {w₁ : Workspace} {rs : List (ℕ × ModuleReport)} {f : Finished}
    (hvalid : Valid dir N S w₁ ⟨rs, [], w'⟩) (hsources : f.sources = S)
    (houtcome : f.outcome = .ok (ordered (units S) rs)) (hrecorded : OnlyRecorded dir N h w₁.disk) :
    OnlyRecorded dir N (f :: h) w'.disk := by
  refine hrecorded.later (List.subset_cons_self f h) hvalid.continues.keeps fun n hn => ?_
  by_cases hreport : ∃ p ∈ rs, p.2.name = n
  · obtain ⟨p, hp, rfl⟩ := hreport
    refine ((hvalid.accounted p (List.mem_append_left _ hp)).sameEntry_or
      hvalid.continues.keeps).imp_right ?_
    rintro ⟨e, hstatus, hdigest, hentry, he, hfile⟩
    have hok : p.2.isOk = true := by simp [ModuleReport.isOk, ModuleStatus.isOk, hstatus]
    have hreports : f.Reports p.2 :=
      ⟨_, houtcome, (hvalid.mem_ordered hok).mpr (List.mem_map.mpr ⟨p, hp, rfl⟩)⟩
    exact ⟨e, he, hfile, .module List.mem_cons_self ⟨p.2, hreports, hstatus, rfl, hdigest,
      hsources ▸ hentry⟩⟩
  · refine .inl (hvalid.others n hn fun p hp hname => hreport ⟨p, ?_, hname⟩)
    simpa [Stage.reports] using hp

end Entries

section Sessions

/-- The text of the prelude has no errors within the limits. -/
def PreludePasses (limits : Limits) : Prop :=
  ∃ m, Surface.Module.read Prelude.source.name Prelude.text = .ok m ∧
    (elaborateModule Prelude.primitives limits Prelude.text m
      (Primitive.definitions.map (·.name))).errors = []

/-- The session has the prelude and could get it again, or it has nothing, except for the primitives
perhaps. -/
structure Primed (w : Workspace) : Prop where
  fresh : w.session.modules.contains Primitive.preludeName = false →
    (∀ n : String, w.session.modules[n]? = none) ∧
    (w.session.registry = {} ∨ w.session.registry = Prelude.primitives)
  digest : ∀ k, w.session.modules[Primitive.preludeName]? = some k → k.digest = Prelude.digest
  again : w.session.modules.contains Primitive.preludeName = true →
    w.session.settings.usePreludeCache = true ∧
    (∃ e, Finds w Primitive.preludeName Prelude.digest [] e) ∨
      PreludePasses w.session.settings.limits

/-- An entry that is found is found later, if its place has the same file. -/
theorem Finds.later {n : String} {d : Digest} {deps : List Dependency} {e : CacheEntry}
    (h : Finds w n d deps e) (hdir : w.session.settings.CachesIn dir) (hlater : Continues w w')
    (hsame : SameEntry dir w.disk w'.disk n) : Finds w' n d deps e := by
  obtain ⟨p, c, hp, hread, hrest⟩ := h
  obtain rfl := hdir p hp
  have hread' := hlater.keeps.read_eq_ok hread (Eq.trans hsame (Disk.fileAt_of_read hread))
  exact ⟨p, c, by rwa [hlater.settings], hread', hrest⟩

theorem primed_opened (settings : Settings) (d : Disk) : Primed (.opened settings d) where
  fresh _ := by simp [Workspace.opened]
  digest k hk := by simp [Workspace.opened] at hk
  again h := by simp [Workspace.opened] at h

/-- With the primitives registered, the registry has nothing else. -/
theorem Primed.insertAll_primitives (h : Primed w)
    (hnew : w.session.modules.contains Primitive.preludeName = false) :
    w.session.registry.insertAll Primitive.definitions = Prelude.primitives := by
  obtain hempty | hprimitives := (h.fresh hnew).2
  · rw [hempty]
    rfl
  · rw [hprimitives]
    exact Prelude.insertAll_primitives

/-- What the text of the prelude gives in a session, it gives over the primitives. -/
theorem Primed.gives (h : Primed w)
    (hnew : w.session.modules.contains Primitive.preludeName = false) {e : CacheEntry}
    {m : Surface.Module} (hread : Surface.Module.read Prelude.source.name Prelude.text = .ok m)
    (herrors : (Prelude.elaborated w m).errors = [])
    (he : e = ⟨Primitive.preludeName, Prelude.digest, [],
      Primitive.definitions ++ (Prelude.elaborated w m).definitions⟩) :
        Prelude.Gives e.definitions := by
  rw [Prelude.elaborated, h.insertAll_primitives hnew] at herrors
  exact ⟨m, _, hread, herrors, by rw [he, Prelude.elaborated, h.insertAll_primitives hnew]⟩

/-- Bringing the prelude into a session changes no entry but that of the prelude. -/
theorem enters_effect {o : Option Error} (hw : Primed w) (h : Prelude.Enters w o w')
    (hdir : w.session.settings.CachesIn dir) (hplaces : PlacesDiffer w.disk dir N)
    (hprelude : Primitive.preludeName ∈ N) : Continues w w' ∧
    ∀ n ∈ N, SameEntry dir w.disk w'.disk n ∨
      ∃ e : CacheEntry, e.Fits ∧
        w'.disk.fileAt (w.disk.placeOf (entryPath dir n)) = some ⟨e.encode.toArray⟩ ∧
        Recorded [] n e := by
  have hsame (hdisk : w'.disk = w.disk) (n : String) : SameEntry dir w.disk w'.disk n := by
    rw [SameEntry, hdisk]
  have hkeeps (hdisk : w'.disk = w.disk) : w.disk.Keeps w'.disk := hdisk ▸ .refl _
  cases h with
  | known => exact ⟨.refl w, fun n _ => .inl rfl⟩
  | cached hnew huse hfinds hadopts hdisk hlog =>
    exact ⟨⟨hadopts.settings, hkeeps hdisk, hlog⟩, fun n _ => .inl (hsame hdisk n)⟩
  | failed hnew hnone hfails hsettings hregistry hmodules hdisk hlog =>
    exact ⟨⟨hsettings, hkeeps hdisk, hlog⟩, fun n _ => .inl (hsame hdisk n)⟩
  | @checked e m _ hnew hnone hread herrors he hadopts hstores =>
    have hname : e.module = Primitive.preludeName := by rw [he]
    obtain ⟨hkeeps, hothers, hfile⟩ := diskWith_entry (e := e) hdir hplaces (hname ▸ hprelude)
    have hdisk : w'.disk = diskWith w e := hstores.disk
    rw [← hdisk] at hkeeps hothers hfile
    refine ⟨⟨hadopts.settings, hkeeps, hstores.log⟩, fun n hn => ?_⟩
    by_cases hne : n = e.module
    · subst hne
      have hgives := hw.gives hnew hread herrors he
      exact hfile.imp_right fun hstored =>
        ⟨e, hstored.1, hstored.2, .prelude hname rfl (by rw [he]) (by rw [he]) hgives⟩
    · exact .inl (hothers n hn hne)

/-- Taking the prelude writes at most the entry of the prelude. -/
theorem sameEntry_of_enters {o : Option Error} {n : String} (hw : Primed w)
    (h : Prelude.Enters w o w') (hdir : w.session.settings.CachesIn dir)
    (hplaces : PlacesDiffer w.disk dir N) (hprelude : Primitive.preludeName ∈ N) (hn : n ∈ N)
    (hne : n ≠ Primitive.preludeName) :
    SameEntry dir w.disk w'.disk n := by
  obtain hsame | ⟨e, -, -, hrecorded⟩ := (enters_effect hw h hdir hplaces hprelude).2 n hn
  · exact hsame
  · cases hrecorded with
    | prelude hname => exact absurd hname hne
    | module hf => simp at hf

theorem contains_of_enters (h : Prelude.Enters w none w') :
    w'.session.modules.contains Primitive.preludeName = true := by
  cases h with
  | known hknown => exact hknown
  | cached _ _ _ hadopts => simp [hadopts.modules]
  | checked _ _ _ _ _ hadopts => simp [hadopts.modules]

/-- A prelude that has been loaded is one that an entry was found for, or one that the session
elaborated. -/
theorem Primed.enters {o : Option Error} (hw : Primed w) (h : Prelude.Enters w o w')
    (hdir : w.session.settings.CachesIn dir) : Primed w' := by
  cases h with
  | known => exact hw
  | @cached e _ hnew huse hfinds hadopts hdisk hlog =>
    have hcontains : w'.session.modules.contains Primitive.preludeName = true := by
      simp [hadopts.modules]
    refine ⟨fun hnew' => by simp [hcontains] at hnew', fun k hk => ?_,
      fun _ => .inl ⟨by rwa [hadopts.settings], e, ?_⟩⟩
    · obtain rfl : (⟨Prelude.digest, e.definitions.map (·.name)⟩ : KnownModule) = k := by
        simpa [hadopts.modules] using hk
      rfl
    · exact hfinds.later hdir ⟨hadopts.settings, hdisk ▸ .refl _, hlog⟩ (by rw [SameEntry, hdisk])
  | @checked e m _ hnew hnone hread herrors he hadopts hstores =>
    have hcontains : w'.session.modules.contains Primitive.preludeName = true := by
      simp [hadopts.modules]
    refine ⟨fun hnew' => by simp [hcontains] at hnew', fun k hk => ?_, fun _ => .inr ⟨m, hread, ?_⟩⟩
    · obtain rfl : (⟨Prelude.digest, e.definitions.map (·.name)⟩ : KnownModule) = k := by
        simpa [hadopts.modules] using hk
      rfl
    · rwa [Prelude.elaborated, hw.insertAll_primitives hnew, ← hadopts.settings] at herrors
  | failed hnew hnone hfails hsettings hregistry hmodules hdisk hlog =>
    refine ⟨fun _ => ⟨by rw [hmodules]; exact (hw.fresh hnew).1, .inr ?_⟩,
      by rw [hmodules]; exact hw.digest, fun hnew' => ?_⟩
    · rw [hregistry, hw.insertAll_primitives hnew]
    · rw [hmodules, hnew] at hnew'
      simp at hnew'

/-- The prelude does not fail if its entry is valid or its text has no errors. -/
theorem Primed.not_refused {e : Error} (hw : Primed w)
    (h : w.session.settings.usePreludeCache = true ∧
      (∃ e, Finds w Primitive.preludeName Prelude.digest [] e) ∨
      PreludePasses w.session.settings.limits) : ¬ Prelude.Enters w (some e) w' := by
  intro henters
  cases henters with
  | failed hnew hnone hfails =>
    obtain ⟨huse, e, he⟩ | ⟨m, hread, herrors⟩ := h
    · exact hnone huse e he
    · rw [← hw.insertAll_primitives hnew] at herrors
      exact hfails.errors_ne_nil hread herrors

/-- How things stand after the calls of a history. -/
structure Stands (dir : FilePath) (disk : Disk) (N : Set String) (h : List Finished)
    (w : Workspace) : Prop where
  cachesIn : w.session.settings.CachesIn dir
  keeps : disk.Keeps w.disk
  recorded : OnlyRecorded dir N h w.disk
  primed : Primed w

theorem Stands.opened {settings : Settings} (hw : Stands dir disk N h w)
    (hdir : settings.CachesIn dir) : Stands dir disk N h (.opened settings w.disk) :=
  ⟨hdir, hw.keeps, hw.recorded, primed_opened _ _⟩

/-- A session that stands still stands after the prelude has been taken, whether that has succeeded
or not. -/
theorem Stands.enters {o : Option Error} (hw : Stands dir disk N h w)
    (hplaces : PlacesDiffer disk dir N) (hprelude : Primitive.preludeName ∈ N)
    (henters : Prelude.Enters w o w') : Stands dir disk N h w' ∧ Continues w w' := by
  obtain ⟨hcontinues, hfiles⟩ :=
    enters_effect hw.primed henters hw.cachesIn (hplaces.of_keeps hw.keeps) hprelude
  refine ⟨⟨hcontinues.cachesIn hw.cachesIn, hw.keeps.trans hcontinues.keeps, ?_,
    hw.primed.enters henters hw.cachesIn⟩, hcontinues⟩
  · refine hw.recorded.later (List.Subset.refl h) hcontinues.keeps fun n hn =>
      (hfiles n hn).imp_right ?_
    exact fun ⟨e, he, hfile, hrecorded⟩ => ⟨e, he, hfile, hrecorded.mono (List.nil_subset h)⟩

theorem getElem?_forgotten {t : Session} {n : String} :
    t.forgotten.modules[n]? = if n = Primitive.preludeName then t.modules[n]? else none := by
  simp only [Session.forgotten, Std.HashMap.getElem?_filter']
  split
  case isTrue h =>
    subst h
    cases t.modules[Primitive.preludeName]? <;> simp
  case isFalse h => simp [h]

theorem getElem?_prelude_forgotten {t : Session} :
    t.forgotten.modules[Primitive.preludeName]? = t.modules[Primitive.preludeName]? := by
  rw [getElem?_forgotten, if_pos rfl]

/-- Forgetting the other modules changes nothing on the disk and leaves the prelude. -/
theorem Begins.effect (dir : FilePath) (h : Begins w w') :
    Continues w w' ∧ ∀ n, SameEntry dir w.disk w'.disk n :=
  ⟨⟨by rw [h.session]; rfl, h.disk ▸ .refl _, h.log⟩, fun n => by rw [SameEntry, h.disk]⟩

theorem Primed.later (hw : Primed w) (hdir : w.session.settings.CachesIn dir)
    (hcontains : w.session.modules.contains Primitive.preludeName = true) (hlater : Continues w w')
    (hsame : SameEntry dir w.disk w'.disk Primitive.preludeName)
    (hmodules : w'.session.modules[Primitive.preludeName]? =
      w.session.modules[Primitive.preludeName]?) : Primed w' := by
  have hcontains' : w'.session.modules.contains Primitive.preludeName = true := by
    rw [Std.HashMap.contains_eq_isSome_getElem?] at hcontains ⊢
    rwa [hmodules]
  refine ⟨fun hnew => by simp [hcontains'] at hnew, by rw [hmodules]; exact hw.digest, fun _ => ?_⟩
  rw [hlater.settings]
  exact (hw.again hcontains).imp_left fun ⟨huse, e, he⟩ => ⟨huse, e, he.later hdir hlater hsame⟩

theorem Stands.later (hw : Stands dir disk N h w) (hrecorded : OnlyRecorded dir N h' w'.disk)
    (hcontains : w.session.modules.contains Primitive.preludeName = true) (hlater : Continues w w')
    (hsame : SameEntry dir w.disk w'.disk Primitive.preludeName)
    (hmodules : w'.session.modules[Primitive.preludeName]? =
      w.session.modules[Primitive.preludeName]?) :
    Stands dir disk N h' w' where
  cachesIn := hlater.cachesIn hw.cachesIn
  keeps := hw.keeps.trans hlater.keeps
  recorded := hrecorded
  primed := hw.primed.later hw.cachesIn hcontains hlater hsame hmodules

/-- What is so when the modules of a call begin to be checked. -/
structure Ready (dir : FilePath) (disk : Disk) (N : Set String) (h : List Finished)
    (w : Workspace) : Prop extends Stands dir disk N h w where
  contains : w.session.modules.contains Primitive.preludeName = true
  modules : ∀ n k, w.session.modules[n]? = some k → n = Primitive.preludeName ∧
    k.digest = Prelude.digest

/-- Forgetting the modules of the call before leaves the prelude, and nothing else. -/
theorem Stands.begins (hw : Stands dir disk N h w)
    (hcontains : w.session.modules.contains Primitive.preludeName = true) (hbegins : Begins w w') :
    Ready dir disk N h w' := by
  obtain ⟨hcontinues, hsame⟩ := hbegins.effect dir
  have hprelude : w'.session.modules[Primitive.preludeName]? =
      w.session.modules[Primitive.preludeName]? := by
    rw [hbegins.session, getElem?_prelude_forgotten]
  have hstands : Stands dir disk N h w' :=
    hw.later (hw.recorded.later (List.Subset.refl h) hcontinues.keeps fun n _ => .inl (hsame n))
      hcontains hcontinues (hsame _) hprelude
  refine ⟨hstands, ?_, fun n k hk => ?_⟩
  · rw [Std.HashMap.contains_eq_isSome_getElem?] at hcontains ⊢
    rwa [hprelude]
  · have hk' := hk
    rw [hbegins.session, getElem?_forgotten] at hk'
    split at hk'
    case isTrue hn => exact ⟨hn, hstands.primed.digest k (hn ▸ hk)⟩
    case isFalse => simp at hk'

/-- A call has come to checking its modules, and has checked them. -/
structure Checked (dir : FilePath) (disk : Disk) (N : Set String) (h : List Finished)
    (S : List Source) (rs : List (ℕ × ModuleReport)) (w w' : Workspace) : Prop where
  ready : Ready dir disk N h w
  valid : Valid dir N S w ⟨rs, [], w'⟩
  steps : ReflTransGen (Stage.Step (units S)) ⟨[], [], w⟩ ⟨rs, [], w'⟩
  cover : ∀ i u, (units S)[i]? = some u → Pending.Sound u → i ∈ rs.map (·.1)

theorem Checked.contains {rs : List (ℕ × ModuleReport)} {w₁ : Workspace}
    (hc : Checked dir disk N h S rs w₁ w') :
    w'.session.modules.contains Primitive.preludeName = true := by
  have hready := hc.ready.contains
  rw [Std.HashMap.contains_eq_isSome_getElem?] at hready ⊢
  rwa [hc.valid.prelude_known]

theorem Checked.stands {rs : List (ℕ × ModuleReport)} {w₁ : Workspace} {f : Finished}
    (hc : Checked dir disk N h S rs w₁ w') (hprelude : Primitive.preludeName ∈ N)
    (hsources : f.sources = S) (houtcome : f.outcome = .ok (ordered (units S) rs)) :
    Stands dir disk N (f :: h) w' := by
  have hvalid := hc.valid
  exact hc.ready.toStands.later (hvalid.onlyRecorded hsources houtcome hc.ready.recorded)
    hc.ready.contains
    hvalid.continues (hvalid.others _ hprelude fun p hp => hvalid.name_ne_prelude hp)
      hvalid.prelude_known

/-- The ways in which a call ends that is made as things stand. -/
inductive Ends (dir : FilePath) (disk : Disk) (N : Set String) (h : List Finished) (S : List Source)
    (w : Workspace) : Except Error (List ModuleReport) → Workspace → Prop
  | refused {e : Error} {w' : Workspace} (henters : Prelude.Enters w (some e) w')
    (hstands : Stands dir disk N h w')
      (hcontinues : Continues w w') : Ends dir disk N h S w (.error e) w'
  | cyclic {e : Error} {w₀ w' : Workspace} (henters : Prelude.Enters w none w₀)
    (hbegins : Begins w₀ w')
      (hwaves : ModuleGraph.waves ((units S).map (·.deps))
        ((units S).map (·.source.name)) = .error e)
      (hready : Ready dir disk N h w') (hcontinues : Continues w w') :
        Ends dir disk N h S w (.error e) w'
  | done {w₀ w₁ w' : Workspace} {ws : List (List ℕ)} {rs : List (ℕ × ModuleReport)}
    (henters : Prelude.Enters w none w₀)
      (hbegins : Begins w₀ w₁)
      (hwaves : ModuleGraph.waves ((units S).map (·.deps)) ((units S).map (·.source.name)) = .ok ws)
      (hchecked : Checked dir disk N h S rs w₁ w') (hcontinues : Continues w w₁) :
      Ends dir disk N h S w (.ok (ordered (units S) rs)) w'

/-- A call takes the prelude first and forgets what the call before it has registered, so that it
starts from the prelude. Then it goes step by step. -/
theorem Stands.call (hw : Stands dir disk N h w) (hplaces : PlacesDiffer disk dir N)
    (hprelude : Primitive.preludeName ∈ N) (hS : (S.map (·.name)).Nodup)
    (hN : ∀ t ∈ S, t.name ∈ N) :
    Ends dir disk N h S w (finished S w).outcome (finished S w).workspace := by
  have hready {w₀ w₁ : Workspace} (henters : Prelude.Enters w none w₀) (hbegins : Begins w₀ w₁) :
      Ready dir disk N h w₁ ∧ Continues w w₁ := by
    obtain ⟨hstands, hcontinues⟩ := hw.enters hplaces hprelude henters
    exact ⟨hstands.begins (contains_of_enters henters) hbegins,
      hcontinues.trans (hbegins.effect dir).1⟩
  have henters {o : Option Error} {w₀ : Workspace} (h : Prelude.ensure w = (o, w₀)) :
      Prelude.Enters w o w₀ := by
    have hyields : Prelude.Enters w (Prelude.ensure w).1 (Prelude.ensure w).2 :=
      Prelude.yields_ensure w
    rwa [h] at hyields
  obtain hcall : Finishes S w (checkSources S w).1 (checkSources S w).2 := yields_checkSources S w
  rw [finished]
  generalize (checkSources S w).1 = outcome, (checkSources S w).2 = w' at hcall
  cases hcall with
  | refused h =>
    obtain ⟨hstands, hcontinues⟩ := hw.enters hplaces hprelude (henters h)
    exact .refused (henters h) hstands hcontinues
  | cyclic h hbegins hwaves =>
    obtain ⟨hready, hcontinues⟩ := hready (henters h) hbegins
    exact .cyclic (henters h) hbegins hwaves hready hcontinues
  | done h hbegins hwaves hsteps hcover =>
    obtain ⟨hready, hcontinues⟩ := hready (henters h) hbegins
    have hvalid := Valid.of_steps hS hN hready.cachesIn
      (hplaces.of_keeps hready.keeps) hready.modules hsteps
    exact .done (henters h) hbegins hwaves ⟨hready, hvalid, hsteps, hcover⟩ hcontinues

theorem Ends.continues {o : Except Error (List ModuleReport)} (h' : Ends dir disk N h S w o w') :
    Continues w w' := by
  cases h' with
  | refused _ _ hcontinues => exact hcontinues
  | cyclic _ _ _ _ hcontinues => exact hcontinues
  | done _ _ _ hchecked hcontinues => exact hcontinues.trans hchecked.valid.continues

/-- When a call has ended, the next one can follow, with this one in the history. -/
theorem Ends.stands {f : Finished} (hends : Ends dir disk N h S w f.outcome w')
    (hprelude : Primitive.preludeName ∈ N) (hsources : f.sources = S) :
    Stands dir disk N (f :: h) w' := by
  have hmore {w : Workspace} (hw : Stands dir disk N h w) : Stands dir disk N (f :: h) w :=
    { hw with
      recorded := hw.recorded.later (List.subset_cons_self f h) (.refl _) fun _ _ => .inl rfl }
  generalize houtcome : f.outcome = outcome at hends
  cases hends with
  | refused _ hstands => exact hmore hstands
  | cyclic _ _ _ hready => exact hmore hready.toStands
  | done _ _ _ hchecked => exact hchecked.stands hprelude hsources houtcome

end Sessions

section Histories

theorem mem_named (hS : S ∈ sets) : ∀ s ∈ S, s.name ∈ Named sets :=
  fun s hs => .inr ⟨S, hS, s, hs, rfl⟩

/-- Whatever has been called, every entry on the disk has been stored for its module. -/
theorem History.stands (hist : History dir disk h w) (hc : Cacheable dir disk sets)
    (hsets : ∀ f ∈ h, f.sources ∈ sets) : Stands dir disk (Named sets) h w := by
  induction hist with
  | @start settings hdir =>
    refine ⟨hdir, .refl _, fun n hn c hfile => ?_, primed_opened _ _⟩
    have hnone : disk.fileAt (disk.placeOf (entryPath dir n)) = some c := hfile
    rw [hc.empty n hn] at hnone
    simp at hnone
  | restart hdir hist ih => exact (ih hsets).opened hdir
  | @call h w S hist ih =>
    obtain ⟨hS, hsets⟩ := List.forall_mem_cons.mp hsets
    have hends := (ih hsets).call hc.places (.inl rfl) (hc.distinct S hS) (mem_named hS)
    exact hends.stands (.inl rfl) rfl

theorem sources_mem : ∀ f ∈ h, f.sources ∈ S :: h.map (·.sources) := fun f hf =>
  List.mem_cons_of_mem S (List.mem_map.mpr ⟨f, hf, rfl⟩)

theorem History.ends (hist : History dir disk h w)
    (hc : Cacheable dir disk (S :: h.map (·.sources))) :
    Ends dir disk (Named (S :: h.map (·.sources))) h S w (finished S w).outcome
      (finished S w).workspace :=
  (hist.stands hc sources_mem).call hc.places (.inl rfl) (hc.distinct S List.mem_cons_self)
    (mem_named List.mem_cons_self)

end Histories

section TwoModules

/-- A module that defines a function, and one that imports it and calls the function. -/
def constantAndUser : List Source :=
  [.ofText "base" "\\func one : Nat => suc zero\n",
    .ofText "top" "\\import base\n\\func two : Nat => plus one one\n"]

/-- The entries of the prelude and of the two modules have different places, where nothing is at
first. There is one set of sources, and one key for each module of it. -/
theorem cacheable_constantAndUser (hsets : ∀ S ∈ sets, S = constantAndUser) :
    Cacheable ⟨"cache"⟩ {} sets := by
  have hnamed : ∀ n ∈ Named sets, n ∈ [Primitive.preludeName, "base", "top"] := by
    rintro n (rfl | ⟨S, hS, s, hs, rfl⟩)
    · simp
    · obtain rfl := hsets S hS
      have hnames : ∀ s ∈ constantAndUser, s.name ∈ [Primitive.preludeName, "base", "top"] := by
        decide
      exact hnames s hs
  have hplaces : ∀ n ∈ [Primitive.preludeName, "base", "top"],
      ∀ n' ∈ [Primitive.preludeName, "base", "top"],
      ({} : Disk).placeOf (entryPath ⟨"cache"⟩ n) =
      ({} : Disk).placeOf (entryPath ⟨"cache"⟩ n') → n = n' := by
    decide +kernel
  have hnodup : (constantAndUser.map (·.name)).Nodup := by decide
  refine ⟨fun S hS => by rwa [hsets S hS], fun n hn => ?_, fun n hn n' hn' => ?_,
    fun S hS S' hS' n k k' hk hk' _ => ?_⟩
  · have hempty : ∀ n ∈ [Primitive.preludeName, "base", "top"],
        ({} : Disk).fileAt (({} : Disk).placeOf (entryPath ⟨"cache"⟩ n)) = none := by decide +kernel
    exact hempty n (hnamed n hn)
  · exact hplaces n (hnamed n hn) n' (hnamed n' hn')
  · obtain rfl := hsets S hS
    obtain rfl := hsets S' hS'
    exact hk.eq hnodup hk'

end TwoModules

end Work

end LeveledTypes
