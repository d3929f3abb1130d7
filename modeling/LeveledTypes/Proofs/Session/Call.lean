import LeveledTypes.Proofs.Session.Contents

/-!
# What a call does to a cache

Throughout a call every module that has an outcome has the digest that follows from the sources, and
the file of an entry is as it was before the call unless the module of the entry has been checked:
then it may be the new entry, and it is that if nothing was reported to have failed.
-/
namespace LeveledTypes

open Relation (ReflTransGen)

/-- If there is a cache, it is in the directory. -/
def Settings.CachesIn (s : Settings) (dir : FilePath) : Prop := ∀ p, s.cacheDir = some p → p = dir

namespace Work
variable {dir : FilePath} {N : Set String} {S : List Source} {w w' : Workspace} {e : CacheEntry}

/-- The modules have their entries in different places. -/
def PlacesDiffer (d : Disk) (dir : FilePath) (N : Set String) : Prop :=
  Set.InjOn (fun n => d.placeOf (entryPath dir n)) N

/-- The file in the place of the entry of a module is the same on both disks. -/
def SameEntry (dir : FilePath) (d d' : Disk) (n : String) : Prop :=
  d'.fileAt (d.placeOf (entryPath dir n)) = d.fileAt (d.placeOf (entryPath dir n))

theorem SameEntry.trans {d d' d'' : Disk} {n : String} (hkeeps : d.Keeps d')
    (h : SameEntry dir d d' n) (h' : SameEntry dir d' d'' n) : SameEntry dir d d'' n := by
  rw [SameEntry, hkeeps.placeOf_eq] at h'
  exact h'.trans h

/-- Storing an entry leaves the entries of other modules as they are. -/
theorem diskWith_entry (hdir : w.session.settings.CachesIn dir)
    (hplaces : PlacesDiffer w.disk dir N) (he : e.module ∈ N) :
    w.disk.Keeps (diskWith w e) ∧ (∀ n ∈ N, n ≠ e.module → SameEntry dir w.disk (diskWith w e) n) ∧
      (SameEntry dir w.disk (diskWith w e) e.module ∨
        e.Fits ∧ (diskWith w e).fileAt (w.disk.placeOf (entryPath dir e.module)) =
          some ⟨e.encode.toArray⟩) := by
  unfold diskWith
  split
  case h_1 => exact ⟨.refl _, fun _ _ _ => rfl, .inl rfl⟩
  case h_2 p hp =>
    obtain rfl := hdir p hp
    obtain ⟨hkeeps, hfiles⟩ := places_placeEntry w.disk p e
    refine ⟨hkeeps, fun n hn hne => (hfiles n).resolve_right fun h => hne (hplaces hn he h.2.1), ?_⟩
    exact (hfiles e.module).imp_right fun h => ⟨h.1, h.2.2⟩

/-- An entry is one that a module of the sources gave. -/
structure EntryOf (S : List Source) (s : Source) (e : CacheEntry) : Prop where
  module : e.module = s.name
  key : HasKey S s.name ⟨s.text, e.deps⟩
  digest : e.digest = Key.digest ⟨s.text, e.deps⟩
  gives : s.Gives e.definitions

/-- What a report says, and what stands in the place of the entry of its module; `d` is the disk
before the call. -/
inductive Accounted (dir : FilePath) (S : List Source) (d : Disk) (w : Workspace)
    (r : ModuleReport) : Prop
  | failed (hok : r.isOk = false) (hdigest : r.digest = none)
    (hsame : SameEntry dir d w.disk r.name)
  | cached {k : Key} {c : ByteArray} {e : CacheEntry} (hstatus : r.status = .cached)
    (hkey : HasKey S r.name k)
      (hdigest : r.digest = some k.digest)
      (hfile : d.fileAt (d.placeOf (entryPath dir r.name)) = some c)
      (hread : w.disk.read (entryPath dir r.name) = .ok c)
      (hdecode : CacheEntry.decode c.toList = .ok e)
      (hmodule : e.module = r.name) (hvalid : e.digest = k.digest ∧ e.deps = k.deps)
      (hnames : r.names = e.definitions.map (·.name))
  | checked {e : CacheEntry} (hstatus : r.status = .checked) (hentry : EntryOf S r.source e)
      (hdigest : r.digest = some e.digest) (hnames : r.names = e.definitions.map (·.name))
      (hfile : SameEntry dir d w.disk r.name ∨
        e.Fits ∧ w.disk.fileAt (d.placeOf (entryPath dir r.name)) = some ⟨e.encode.toArray⟩)
      (hstored : w.session.settings.cacheDir = some dir → (∀ p, .entryNotStored r.name p ∉ w.log) →
        e.Fits ∧ w.disk.read (entryPath dir r.name) = .ok ⟨e.encode.toArray⟩)

/-- The second workspace has the same settings and all directories and events of the first. -/
structure Continues (w w' : Workspace) : Prop where
  settings : w'.session.settings = w.session.settings
  keeps : w.disk.Keeps w'.disk
  log : w.log <:+ w'.log

theorem Continues.refl (w : Workspace) : Continues w w := ⟨rfl, .refl _, List.suffix_rfl⟩

theorem Continues.trans {w'' : Workspace} (h : Continues w w') (h' : Continues w' w'') :
    Continues w w'' :=
  ⟨h'.settings.trans h.settings, h.keeps.trans h'.keeps, h.log.trans h'.log⟩

theorem Continues.cachesIn (h : Continues w w') (hdir : w.session.settings.CachesIn dir) :
    w'.session.settings.CachesIn dir := h.settings ▸ hdir

/-- A report stays accounted for when the call goes on and the entry of its module is left alone. -/
theorem Accounted.later {d : Disk} {r : ModuleReport} (h : Accounted dir S d w r)
    (hkeeps : d.Keeps w.disk) (hlater : Continues w w')
    (hsame : SameEntry dir w.disk w'.disk r.name) : Accounted dir S d w' r := by
  cases h with
  | failed hok hdigest hfile => exact .failed hok hdigest (hfile.trans hkeeps hsame)
  | cached hstatus hkey hdigest hfile hread hdecode hmodule hvalid hnames =>
    have hread' := hlater.keeps.read_eq_ok hread (Eq.trans hsame (Disk.fileAt_of_read hread))
    exact .cached hstatus hkey hdigest hfile hread' hdecode hmodule hvalid hnames
  | @checked e hstatus hentry hdigest hnames hfile hstored =>
    refine .checked hstatus hentry hdigest hnames
      (hfile.imp (fun h => h.trans hkeeps hsame) fun h => ⟨h.1, ?_⟩) fun hdir hlog => ?_
    · rw [SameEntry, hkeeps.placeOf_eq] at hsame
      exact hsame.trans h.2
    · rw [hlater.settings] at hdir
      obtain ⟨he, hread⟩ := hstored hdir fun p hp => hlog p (hlater.log.subset hp)
      exact ⟨he, hlater.keeps.read_eq_ok hread (Eq.trans hsame (Disk.fileAt_of_read hread))⟩

/-- The disk from before the report may be replaced by an earlier one, on which the entry of the
module was the same. -/
theorem Accounted.since {d₀ d : Disk} {r : ModuleReport} (h : Accounted dir S d w r)
    (hkeeps : d₀.Keeps d) (hsame : SameEntry dir d₀ d r.name) : Accounted dir S d₀ w r := by
  have hplace := hkeeps.placeOf_eq (entryPath dir r.name)
  have htrans {d' : Disk} (h : SameEntry dir d d' r.name) : SameEntry dir d₀ d' r.name :=
    hsame.trans hkeeps h
  cases h with
  | failed hok hdigest hfile => exact .failed hok hdigest (htrans hfile)
  | cached hstatus hkey hdigest hfile hread hdecode hmodule hvalid hnames =>
    rw [hplace] at hfile
    exact .cached hstatus hkey hdigest (Eq.trans (Eq.symm hsame) hfile) hread hdecode
      hmodule hvalid hnames
  | checked hstatus hentry hdigest hnames hfile hstored =>
    rw [hplace] at hfile
    exact .checked hstatus hentry hdigest hnames (hfile.imp_left htrans) hstored

section Checks
variable {u : Pending} {m : Surface.Module} {imports : List String} {r : ModuleReport}

/-- The check of a module leaves the entries of other modules and the modules that are known as they
are. -/
theorem Checks.effect (h : Checks u m imports w r w') (hdir : w.session.settings.CachesIn dir)
    (hplaces : PlacesDiffer w.disk dir N) (hu : u.source.name ∈ N) :
    Continues w w' ∧ w'.session.modules = w.session.modules ∧ r.source = u.source ∧
      ∀ n ∈ N, n ≠ u.source.name → SameEntry dir w.disk w'.disk n := by
  have hsame {w' : Workspace} (hdisk : w'.disk = w.disk) (n : String) :
      SameEntry dir w.disk w'.disk n := by
    rw [SameEntry, hdisk]
  have hkeeps {w' : Workspace} (hdisk : w'.disk = w.disk) : w.disk.Keeps w'.disk := hdisk ▸ .refl _
  cases h with
  | unreachable hknown hnotes =>
    exact ⟨⟨by rw [hnotes.session], hkeeps hnotes.disk, hnotes.log⟩, by rw [hnotes.session], rfl,
      fun n _ _ => hsame hnotes.disk n⟩
  | cached hknown hfinds hsession hdisk hlog =>
    exact ⟨⟨by rw [hsession]; rfl, hkeeps hdisk, hlog⟩,
      by rw [hsession]; rfl, rfl, fun n _ _ => hsame hdisk n⟩
  | failed hknown hnone herrors hnotes =>
    exact ⟨⟨by rw [hnotes.session], hkeeps hnotes.disk, hnotes.log⟩, by rw [hnotes.session], rfl,
      fun n _ _ => hsame hnotes.disk n⟩
  | @checked known e _ hknown hnone herrors he hsession hstores =>
    have hname : e.module = u.source.name := by rw [he]
    obtain ⟨hkeeps, hothers, -⟩ := diskWith_entry (e := e) hdir hplaces (hname ▸ hu)
    have hdisk : w'.disk = diskWith w e := hstores.disk
    refine ⟨⟨by rw [hsession]; rfl, hdisk ▸ hkeeps, hstores.log⟩,
      by rw [hsession]; rfl, rfl, fun n hn hne => ?_⟩
    rw [hdisk]
    exact hothers n hn (hname ▸ hne)

/-- A module has an outcome only if all that it sees is known. -/
theorem Checks.exists_known (h : Checks u m imports w r w') (hok : r.isOk = true) :
    ∃ known, knownDeps w.session.modules (Primitive.preludeName :: imports) = .ok known := by
  cases h with
  | unreachable => simp [ModuleReport.isOk, ModuleStatus.isOk] at hok
  | cached hknown => exact ⟨_, hknown⟩
  | failed => simp [ModuleReport.isOk, ModuleStatus.isOk] at hok
  | checked hknown => exact ⟨_, hknown⟩

/-- The dependencies that are looked up are the known modules of the given names, in order. -/
theorem knownDeps_eq_ok {modules : Std.HashMap String KnownModule} {ns : List String}
    {known : List (String × KnownModule)} (h : knownDeps modules ns = .ok known) :
    known.map (·.1) = ns ∧ ∀ p ∈ known, modules[p.1]? = some p.2 := by
  induction ns generalizing known with
  | nil =>
    obtain rfl : [] = known := by simpa [knownDeps] using h
    simp
  | cons n ns ih =>
    rw [knownDeps] at h
    cases hn : modules[n]? with
    | none => simp [hn] at h
    | some k =>
      cases hrest : knownDeps modules ns with
      | error e => simp [hn, hrest, bind, Except.bind] at h
      | ok rest =>
        obtain rfl : (n, k) :: rest = known := by
          simpa [hn, hrest, bind, Except.bind, pure, Except.pure] using h
        obtain ⟨hnames, hrest⟩ := ih hrest
        exact ⟨by rw [List.map_cons, hnames], List.forall_mem_cons.mpr ⟨hn, hrest⟩⟩

theorem map_fst_dependencies (known : List (String × KnownModule)) :
    (dependencies known).map (·.1) = (known.map (·.1)).mergeSort fun a b => decide (a ≤ b) := by
  rw [dependencies, List.map_mergeSort (s := fun a b => decide (a ≤ b))
    (fun _ _ _ _ => rfl), List.map_map]
  rfl

/-- A module that sees modules with their digests has a key. -/
theorem hasKey_of_digested {s : Source} {m : Surface.Module} {known : List (String × KnownModule)}
    (hs : s ∈ S) (hread : readSource s = .ok m)
    (hnames : known.map (·.1) = Primitive.preludeName :: m.imported)
    (hdigested : ∀ p ∈ known, Digested S p.1 p.2.digest) :
    HasKey S s.name ⟨s.text, dependencies known⟩ := by
  refine ⟨⟨s, hs, rfl, rfl, m, hread, ?_⟩, fun p hp => ?_⟩
  · rw [map_fst_dependencies, hnames, Surface.Module.dependencyNames]
  · obtain ⟨q, hq, rfl⟩ := List.mem_map.mp (List.mem_mergeSort.mp hp)
    exact hdigested q hq

/-- A module all of whose imports are known with their digests has a key. -/
theorem hasKey_of_known {i : ℕ} {known : List (String × KnownModule)} (hu : (units S)[i]? = some u)
    (hm : u.module = some m) (herrors : u.errors = [])
    (hmodules : ∀ n k, w.session.modules[n]? = some k → Digested S n k.digest)
    (hknown : knownDeps w.session.modules
      (Primitive.preludeName :: importNames (units S) u) = .ok known) :
    HasKey S u.source.name (u.key known) := by
  obtain ⟨hnames, hknown⟩ := knownDeps_eq_ok hknown
  rw [importNames_eq hu hm herrors] at hnames
  exact hasKey_of_digested (List.mem_of_getElem? (getElem?_units hu)) (unit_sound hu hm herrors).1
    hnames fun p hp => hmodules _ _ (hknown p hp)

/-- The report of a check accounts for the entry of its module. -/
theorem Checks.accounted {i : ℕ} (h : Checks u m (importNames (units S) u) w r w')
    (hu : (units S)[i]? = some u) (hm : u.module = some m) (herrors : u.errors = [])
    (hmodules : ∀ n k, w.session.modules[n]? = some k → Digested S n k.digest)
    (hdir : w.session.settings.CachesIn dir) (hplaces : PlacesDiffer w.disk dir N)
    (hmem : u.source.name ∈ N) : Accounted dir S w.disk w' r := by
  cases h with
  | unreachable hknown hnotes => exact .failed rfl rfl (by rw [SameEntry, hnotes.disk])
  | @cached known e _ hknown hfinds hsession hdisk hlog =>
    obtain ⟨p, c, hp, hread, hdecode, hmodule, hvalid⟩ := hfinds
    obtain rfl := hdir p hp
    exact .cached rfl (hasKey_of_known hu hm herrors hmodules hknown) rfl
      (Disk.fileAt_of_read hread) (hdisk ▸ hread) hdecode hmodule hvalid rfl
  | failed hknown hnone herrors hnotes => exact .failed rfl rfl (by rw [SameEntry, hnotes.disk])
  | @checked known e _ hknown hnone herrors' he hsession hstores =>
    obtain ⟨hread, -⟩ := unit_sound hu hm herrors
    have hentry : EntryOf S u.source e := by
      subst he
      exact ⟨rfl, hasKey_of_known hu hm herrors hmodules hknown, rfl, m, _, _, _,
        hread, herrors', rfl⟩
    have hdisk : w'.disk = diskWith w e := hstores.disk
    have hname : e.module = u.source.name := hentry.module
    obtain ⟨-, -, hfile⟩ := diskWith_entry (e := e) hdir hplaces (hname ▸ hmem)
    rw [← hdisk, hname] at hfile
    refine .checked rfl hentry rfl rfl hfile fun hcache hlog => ?_
    have hsettings : w'.session.settings = w.session.settings := by rw [hsession]; rfl
    rw [hsettings] at hcache
    have hstored := (hstores.stored dir hcache).resolve_right fun ⟨p, hp⟩ => by
      rw [hname] at hp
      exact hlog p hp
    have hread' := read_placeEntry hstored
    have hplaced : (placeEntry w.disk dir e).2 = w'.disk := by rw [hdisk, diskWith, hcache]
    rwa [hplaced, hname] at hread'

end Checks

section Publishing
variable {t : Session} {r : ModuleReport} {rs : List (ℕ × ModuleReport)} {n : String}
  {k : KnownModule}

/-- A known module was known before, or has become known by its report. -/
theorem getElem?_learn (h : (t.learn r).modules[n]? = some k) : t.modules[n]? = some k ∨
    r.isOk = true ∧ r.name = n ∧ r.digest = some k.digest ∧ r.names = k.names := by
  unfold Session.learn at h
  split at h
  case h_1 digest hdigest =>
    split at h
    case isTrue hok =>
      rw [Std.HashMap.getElem?_insert] at h
      split at h
      case isTrue hname =>
        obtain rfl := Option.some.inj h
        exact .inr ⟨hok, by simpa using hname, hdigest, rfl⟩
      case isFalse => exact .inl h
    case isFalse => exact .inl h
  case h_2 => exact .inl h

theorem getElem?_publish (h : (t.publish rs).modules[n]? = some k) : t.modules[n]? = some k ∨
    ∃ p ∈ rs, p.2.isOk = true ∧ p.2.name = n ∧ p.2.digest = some k.digest ∧
      p.2.names = k.names := by
  induction rs generalizing t with
  | nil => exact .inl h
  | cons p rs ih =>
    obtain h | ⟨q, hq, hrest⟩ := ih h
    · exact (getElem?_learn h).imp_right fun h => ⟨p, by simp, h⟩
    · exact .inr ⟨q, List.mem_cons_of_mem p hq, hrest⟩

theorem getElem?_learn_of_ne (t : Session) (h : r.name ≠ n) :
    (t.learn r).modules[n]? = t.modules[n]? := by
  unfold Session.learn
  split
  · split
    · simp [Std.HashMap.getElem?_insert, h]
    · rfl
  · rfl

theorem getElem?_publish_of_ne (t : Session) (h : ∀ p ∈ rs, p.2.name ≠ n) :
    (t.publish rs).modules[n]? = t.modules[n]? := by
  induction rs generalizing t with
  | nil => rfl
  | cons p rs ih =>
    obtain ⟨hp, hrs⟩ := List.forall_mem_cons.mp h
    exact (ih (t.learn p.2) hrs).trans (getElem?_learn_of_ne t hp)

/-- A module with an outcome becomes known, if no other one has its name. -/
theorem getElem?_publish_of_mem {p : ℕ × ModuleReport} {d : Digest} (t : Session)
    (hrs : (rs.map (·.2.name)).Nodup) (hp : p ∈ rs) (hok : p.2.isOk = true)
    (hdigest : p.2.digest = some d) : (t.publish rs).modules[p.2.name]? = some ⟨d, p.2.names⟩ := by
  induction rs generalizing t with
  | nil => simp at hp
  | cons q rs ih =>
    obtain ⟨hq, hrs⟩ := List.nodup_cons.mp hrs
    obtain rfl | hp := List.mem_cons.mp hp
    · have hne : ∀ q ∈ rs, q.2.name ≠ p.2.name :=
        fun q hq' hname => hq (List.mem_map.mpr ⟨q, hq', hname⟩)
      refine (getElem?_publish_of_ne (t.learn p.2) hne).trans ?_
      simp [Session.learn, hok, hdigest]
    · exact ih (t.learn q.2) hrs hp

theorem settings_publish (t : Session) (rs : List (ℕ × ModuleReport)) :
    (t.publish rs).settings = t.settings := by
  induction rs generalizing t with
  | nil => rfl
  | cons p rs ih =>
    refine (ih (t.learn p.2)).trans ?_
    unfold Session.learn
    split
    · split <;> rfl
    · rfl

theorem registry_publish (t : Session) (rs : List (ℕ × ModuleReport)) :
    (t.publish rs).registry = t.registry := by
  induction rs generalizing t with
  | nil => rfl
  | cons p rs ih =>
    refine (ih (t.learn p.2)).trans ?_
    unfold Session.learn
    split
    · split <;> rfl
    · rfl

end Publishing

section Stages
variable {w₁ : Workspace} {s s' : Stage}

/-- A module with an outcome has a digest that follows from the sources. -/
theorem Accounted.exists_digest {d : Disk} {r : ModuleReport} (h : Accounted dir S d w r)
    (hok : r.isOk = true) : ∃ k, HasKey S r.name k ∧ r.digest = some k.digest := by
  cases h with
  | failed hfailed => simp [hok] at hfailed
  | @cached k c e hstatus hkey hdigest => exact ⟨k, hkey, hdigest⟩
  | @checked e hstatus hentry hdigest =>
    exact ⟨⟨r.source.text, e.deps⟩, hentry.key, hentry.digest ▸ hdigest⟩

theorem index_eq_of_name_eq (hS : (S.map (·.name)).Nodup) {i j : ℕ} {t t' : Source}
    (hi : S[i]? = some t) (hj : S[j]? = some t') (hname : t.name = t'.name) : i = j := by
  have hlt : i < (S.map (·.name)).length := by
    rw [List.length_map]
    exact (List.getElem?_eq_some_iff.mp hi).1
  refine (List.getElem?_inj hlt hS).mp ?_
  rw [List.getElem?_map, List.getElem?_map, hi, hj, Option.map_some, Option.map_some, hname]

theorem PlacesDiffer.of_keeps {d d' : Disk} (h : PlacesDiffer d dir N) (hkeeps : d.Keeps d') :
    PlacesDiffer d' dir N := by
  intro n hn n' hn' heq
  simp only [hkeeps.placeOf_eq] at heq
  exact h hn hn' heq

/-- What is so at every stage of a call that begins in a given workspace. -/
structure Valid (dir : FilePath) (N : Set String) (S : List Source) (w₁ : Workspace) (s : Stage) :
    Prop where
  continues : Continues w₁ s.workspace
  nodup : (s.reports.map (·.1)).Nodup
  source : ∀ p ∈ s.reports, ∃ u, (units S)[p.1]? = some u ∧ u.Sound ∧ p.2.source = u.source
  /-- What a module with an outcome imports has outcomes. -/
  imports : ∀ p ∈ s.reports, p.2.isOk = true → ∀ u, (units S)[p.1]? = some u →
    ∀ n ∈ importNames (units S) u, ∃ q ∈ s.published, q.2.isOk = true ∧ q.2.name = n
  prelude_known : s.workspace.session.modules[Primitive.preludeName]? =
    w₁.session.modules[Primitive.preludeName]?
  learned : ∀ p ∈ s.published, p.2.isOk = true →
    ∃ k, s.workspace.session.modules[p.2.name]? = some k ∧ k.names = p.2.names
  reported : ∀ n k, s.workspace.session.modules[n]? = some k → n = Primitive.preludeName ∧
    k.digest = Prelude.digest ∨
    ∃ p ∈ s.published, p.2.isOk = true ∧ p.2.name = n ∧ p.2.digest = some k.digest ∧
      p.2.names = k.names
  accounted : ∀ p ∈ s.reports, Accounted dir S w₁.disk s.workspace p.2
  others : ∀ n ∈ N, (∀ p ∈ s.reports, p.2.name ≠ n) → SameEntry dir w₁.disk s.workspace.disk n

namespace Valid

theorem getElem?_source (h : Valid dir N S w₁ s) {p : ℕ × ModuleReport} (hp : p ∈ s.reports) :
    S[p.1]? = some p.2.source := by
  obtain ⟨u, hu, -, hsource⟩ := h.source p hp
  rw [hsource, getElem?_units hu]

theorem name_ne_prelude (h : Valid dir N S w₁ s) {p : ℕ × ModuleReport} (hp : p ∈ s.reports) :
    p.2.name ≠ Primitive.preludeName := by
  obtain ⟨u, hu, ⟨hm, herrors⟩, hsource⟩ := h.source p hp
  obtain ⟨m, hm⟩ := Option.isSome_iff_exists.mp hm
  rw [ModuleReport.name, hsource]
  exact (readSource_eq_ok (unit_sound hu hm herrors).1).1

theorem index_eq (h : Valid dir N S w₁ s) (hS : (S.map (·.name)).Nodup) {p q : ℕ × ModuleReport}
    (hp : p ∈ s.reports) (hq : q ∈ s.reports) (hname : p.2.name = q.2.name) : p.1 = q.1 :=
  index_eq_of_name_eq hS (h.getElem?_source hp) (h.getElem?_source hq) hname

/-- No two reports are about modules of one name. -/
theorem nodup_names (h : Valid dir N S w₁ s) (hS : (S.map (·.name)).Nodup) :
    (s.reports.map (·.2.name)).Nodup :=
  List.Nodup.map_on (fun _ hp _ hq hname => List.inj_on_of_nodup_map h.nodup hp hq
    (h.index_eq hS hp hq hname)) (List.Nodup.of_map _ h.nodup)

/-- What is known at a stage has the digest that follows from the sources. -/
theorem digested (h : Valid dir N S w₁ s) {n : String} {k : KnownModule}
    (hk : s.workspace.session.modules[n]? = some k) : Digested S n k.digest := by
  obtain ⟨rfl, hdigest⟩ | ⟨p, hp, hok, rfl, hdigest, -⟩ := h.reported n k hk
  · exact hdigest ▸ .prelude
  · obtain ⟨key, hkey, hdigest'⟩ := (h.accounted p (List.mem_append_left _ hp)).exists_digest hok
    rw [Option.some.inj (hdigest.symm.trans hdigest')]
    exact hkey.to_digested

theorem knows (h : Valid dir N S w₁ s) (hcurrent : s.current = []) :
    Knows (s.reports.map (·.2)) s.workspace.session := by
  rw [Stage.reports, hcurrent, List.append_nil]
  refine ⟨fun r hr hok => ?_, fun n k hk => (h.reported n k hk).imp And.left ?_⟩
  · obtain ⟨p, hp, rfl⟩ := List.mem_map.mp hr
    exact h.learned p hp hok
  · rintro ⟨p, hp, hok, hname, -, hnames⟩
    exact ⟨p.2, List.mem_map.mpr ⟨p, hp, rfl⟩, hok, hname, hnames⟩

/-- What a module imports has outcomes if the module has one. -/
theorem exists_outcome (h : Valid dir N S w₁ s) {i : ℕ} {u : Pending} {m : Surface.Module}
    {r : ModuleReport} (hu : (units S)[i]? = some u) (hm : u.module = some m)
    (herrors : u.errors = []) (hchecks : Checks u m (importNames (units S) u) s.workspace r w')
    (hok : r.isOk = true) :
    ∀ n ∈ importNames (units S) u, ∃ q ∈ s.published, q.2.isOk = true ∧ q.2.name = n := by
  intro n hn
  obtain ⟨known, hknown⟩ := hchecks.exists_known hok
  obtain ⟨hnames, hknown⟩ := knownDeps_eq_ok hknown
  have hmem : n ∈ known.map (·.1) := by
    rw [hnames]
    exact List.mem_cons_of_mem _ hn
  obtain ⟨q, hq, rfl⟩ := List.mem_map.mp hmem
  have hne : q.1 ≠ Primitive.preludeName := by
    intro hname
    rw [importNames_eq hu hm herrors] at hn
    exact m.imported_nodup.2 (hname ▸ hn)
  obtain ⟨hname, -⟩ | ⟨p, hp, hok, hname, -⟩ := h.reported _ _ (hknown q hq)
  · exact absurd hname hne
  · exact ⟨p, hp, hok, hname⟩

/-- A module that has not been checked has another name than those that have. -/
theorem name_ne_of_new (h : Valid dir N S w₁ s) (hS : (S.map (·.name)).Nodup) {i : ℕ} {t : Source}
    (ht : S[i]? = some t) (hnew : i ∉ s.reports.map (·.1)) : ∀ p ∈ s.reports, p.2.name ≠ t.name :=
      fun p hp hname =>
  hnew (List.mem_map.mpr ⟨p, hp, index_eq_of_name_eq hS (h.getElem?_source hp) ht hname⟩)

/-- At the start of a call nothing has been checked, and nothing but the prelude is known. -/
theorem start (w₁ : Workspace)
    (hmodules : ∀ n k, w₁.session.modules[n]? = some k → n = Primitive.preludeName ∧
      k.digest = Prelude.digest) :
    Valid dir N S w₁ ⟨[], [], w₁⟩ where
  continues := .refl w₁
  nodup := by simp [Stage.reports]
  source := by simp [Stage.reports]
  imports := by simp [Stage.reports]
  prelude_known := rfl
  learned := by simp
  reported n k hk := .inl (hmodules n k hk)
  accounted := by simp [Stage.reports]
  others _ _ _ := rfl

variable (hS : (S.map (·.name)).Nodup) (hN : ∀ t ∈ S, t.name ∈ N)
  (hdir : w₁.session.settings.CachesIn dir) (hplaces : PlacesDiffer w₁.disk dir N)
include hS hN hdir hplaces

/-- The check of a module keeps what is so at every stage. -/
theorem check {i : ℕ} {u : Pending} {m : Surface.Module} {r : ModuleReport} (h : Valid dir N S w₁ s)
    (hu : (units S)[i]? = some u) (hm : u.module = some m) (herrors : u.errors = [])
    (hnew : i ∉ s.reports.map (·.1))
    (hchecks : Checks u m (importNames (units S) u) s.workspace r w') :
    Valid dir N S w₁ ⟨s.published, s.current ++ [(i, r)], w'⟩ := by
  have hdir' := h.continues.cachesIn hdir
  have hplaces' := hplaces.of_keeps h.continues.keeps
  have husource := getElem?_units hu
  have humem : u.source.name ∈ N := hN _ (List.mem_of_getElem? husource)
  obtain ⟨hcontinues, hmodules, hrsource, hothers⟩ := hchecks.effect hdir' hplaces' humem
  have hrname : r.name = u.source.name := congrArg Source.name hrsource
  have hdistinct := h.name_ne_of_new hS husource hnew
  have hbefore : SameEntry dir w₁.disk s.workspace.disk r.name :=
    h.others _ (hrname ▸ humem) (hrname ▸ hdistinct)
  have hreports : (Stage.mk s.published (s.current ++ [(i, r)]) w').reports =
      s.reports ++ [(i, r)] :=
    (List.append_assoc _ _ _).symm
  have hmem {p : ℕ × ModuleReport}
      (hp : p ∈ (Stage.mk s.published (s.current ++ [(i, r)]) w').reports) :
      p ∈ s.reports ∨ p = (i, r) := by
    rw [hreports] at hp
    exact (List.mem_append.mp hp).imp_right List.mem_singleton.mp
  refine ⟨h.continues.trans hcontinues, ?_, fun p hp => ?_, fun p hp hok v hv n hn => ?_, ?_, ?_,
    ?_, fun p hp => ?_, fun n hn hne => ?_⟩
  · rw [hreports, List.map_append, List.map_singleton, List.nodup_append_comm]
    exact List.nodup_cons.mpr ⟨hnew, h.nodup⟩
  · obtain hp | rfl := hmem hp
    · exact h.source p hp
    · exact ⟨u, hu, ⟨by simp [hm], herrors⟩, hrsource⟩
  · obtain hp | rfl := hmem hp
    · exact h.imports p hp hok v hv n hn
    · obtain rfl : u = v := Option.some.inj (hu.symm.trans hv)
      exact h.exists_outcome hu hm herrors hchecks hok n hn
  · rw [hmodules]
    exact h.prelude_known
  · rw [hmodules]
    exact h.learned
  · rw [hmodules]
    exact h.reported
  · obtain hp | rfl := hmem hp
    · have hpmem : p.2.name ∈ N := hN _ (List.mem_of_getElem? (h.getElem?_source hp))
      exact (h.accounted p hp).later h.continues.keeps hcontinues (hothers _ hpmem (hdistinct p hp))
    · exact (hchecks.accounted hu hm herrors (fun n k => h.digested) hdir' hplaces' humem).since
        h.continues.keeps hbefore
  · rw [hreports] at hne
    have hold : SameEntry dir w₁.disk s.workspace.disk n :=
      h.others n hn fun p hp => hne p (List.mem_append_left _ hp)
    have hnname : n ≠ u.source.name := fun hname => hne (i, r) (by simp) (hrname.trans hname.symm)
    exact hold.trans h.continues.keeps (hothers n hn hnname)

omit hN hdir hplaces in
/-- So does the end of a wave. -/
theorem publish (h : Valid dir N S w₁ s) :
    Valid dir N S w₁ ⟨s.reports, [],
      { s.workspace with session := s.workspace.session.publish s.current }⟩ := by
  have hcontinues : Continues s.workspace
      { s.workspace with session := s.workspace.session.publish s.current } :=
    ⟨settings_publish _ _, .refl _, List.suffix_rfl⟩
  have hcurrent : s.current ⊆ s.reports := List.subset_append_right _ _
  have hnodup := h.nodup_names hS
  have hreports : (Stage.mk s.reports []
      { s.workspace with session := s.workspace.session.publish s.current }).reports =
      s.reports := List.append_nil _
  refine ⟨h.continues.trans
    hcontinues, by rw [hreports]; exact h.nodup, by rw [hreports]; exact h.source, ?_, ?_,
    fun p hp hok => ?_, fun n k hk => ?_, ?_, by rw [hreports]; exact h.others⟩
  · rw [hreports]
    intro p hp hok u hu n hn
    obtain ⟨q, hq, hrest⟩ := h.imports p hp hok u hu n hn
    exact ⟨q, List.mem_append_left _ hq, hrest⟩
  · exact (getElem?_publish_of_ne _ fun p hp => h.name_ne_prelude
      (hcurrent hp)).trans h.prelude_known
  · obtain hp | hp := List.mem_append.mp hp
    · have hne : ∀ q ∈ s.current, q.2.name ≠ p.2.name := by
        intro q hq hname
        rw [Stage.reports, List.map_append] at hnodup
        exact List.disjoint_of_nodup_append hnodup (List.mem_map.mpr ⟨p, hp, rfl⟩)
          (List.mem_map.mpr ⟨q, hq, hname⟩)
      obtain ⟨k, hk, hnames⟩ := h.learned p hp hok
      exact ⟨k, (getElem?_publish_of_ne _ hne).trans hk, hnames⟩
    · obtain ⟨key, -, hdigest⟩ := (h.accounted p (hcurrent hp)).exists_digest hok
      rw [Stage.reports, List.map_append] at hnodup
      exact ⟨_, getElem?_publish_of_mem _ hnodup.of_append_right hp hok hdigest, rfl⟩
  · obtain hk | ⟨p, hp, hrest⟩ := getElem?_publish hk
    · refine (h.reported n k hk).imp_right ?_
      rintro ⟨p, hp, hrest⟩
      exact ⟨p, List.mem_append_left _ hp, hrest⟩
    · exact .inr ⟨p, hcurrent hp, hrest⟩
  · rw [hreports]
    exact fun p hp => (h.accounted p hp).later h.continues.keeps hcontinues rfl

/-- What is so when a call begins is so at all its stages. -/
theorem of_steps
    (hmodules : ∀ n k, w₁.session.modules[n]? = some k → n = Primitive.preludeName ∧
      k.digest = Prelude.digest)
    (hsteps : ReflTransGen (Stage.Step (units S)) ⟨[], [], w₁⟩ s) : Valid dir N S w₁ s := by
  induction hsteps with
  | refl => exact start w₁ hmodules
  | tail _ hstep ih =>
    cases hstep with
    | check hu hm herrors hnew _ hchecks =>
      exact ih.check hS hN hdir hplaces hu hm herrors hnew hchecks
    | publish => exact ih.publish hS

end Valid

end Stages

end Work

end LeveledTypes
