import LeveledTypes.Proofs.Returns
import LeveledTypes.Proofs.Session.Store
import LeveledTypes.Session.Check

/-!
# Checking one module

The check of a module ends in one of four ways: something that it imports has no outcome, a valid
entry is found, its elaboration has errors, or its definitions are stored and registered. Apart from
that only events are added to the log.
-/
namespace LeveledTypes

/-- What the digest of a module covers: its text, and what it sees with the digests of that. -/
structure Key where
  text : String
  deps : List Dependency

/-- The digest of a module from its text and the digests of what it sees. -/
def Key.digest (k : Key) : Digest := .withDeps k.text.toUTF8 (k.deps.map (·.2))

/-- Registers definitions, and changes nothing else. -/
def Session.register (s : Session) (ds : List Definition) : Session :=
  { s with registry := s.registry.insertAll ds }

namespace Work
variable {w w' w'' : Workspace}

/-- Nothing but events has been added. -/
structure OnlyNotes (w w' : Workspace) : Prop where
  session : w'.session = w.session
  disk : w'.disk = w.disk
  log : w.log <:+ w'.log

theorem OnlyNotes.refl (w : Workspace) : OnlyNotes w w := ⟨rfl, rfl, List.suffix_rfl⟩

theorem OnlyNotes.trans (h : OnlyNotes w w') (h' : OnlyNotes w' w'') : OnlyNotes w w'' :=
  ⟨h'.session.trans h.session, h'.disk.trans h.disk, h.log.trans h'.log⟩

theorem OnlyNotes.append (es : List Event) (w : Workspace) :
    OnlyNotes w { w with log := es ++ w.log } :=
  ⟨rfl, rfl, List.suffix_append _ _⟩

theorem OnlyNotes.cons (e : Event) (w : Workspace) :
    OnlyNotes w { w with log := e :: w.log } := .append [e] w

/-- The cache has a valid entry of a module. -/
def Finds (w : Workspace) (module : String) (digest : Digest) (deps : List Dependency)
    (e : CacheEntry) : Prop :=
  ∃ dir c, w.session.settings.cacheDir = some dir ∧ w.disk.read (entryPath dir module) = .ok c ∧
    CacheEntry.decode c.toList = .ok e ∧ e.module = module ∧ e.digest = digest ∧ e.deps = deps

theorem not_finds {module : String} {digest : Digest} {deps : List Dependency} {e : CacheEntry}
    (hcache : w.session.settings.cacheDir = none) : ¬ Finds w module digest deps e := by
  rintro ⟨dir, c, hdir, -⟩
  simp [hcache] at hdir

/-- An entry is returned if its file can be read and decoded and names the module. Any other file is
reported and passed over. -/
theorem yields_loadEntry (dir : FilePath) (module : String) (w : Workspace) :
    Yields (loadEntry dir module) w fun r w' => OnlyNotes w w' ∧
      ∀ e, r = some e ↔ ∃ c, w.disk.read (entryPath dir module) = .ok c ∧
        CacheEntry.decode c.toList = .ok e ∧ e.module = module := by
  unfold loadEntry
  refine .get ?_
  split
  case h_1 h => exact .pure ⟨.refl w, by simp [h]⟩
  case h_2 f _ h => exact .modify (.pure ⟨.cons _ w, by simp [h]⟩)
  case h_3 c h =>
    split
    case h_1 corruption hc => exact .modify (.pure ⟨.cons _ w, by simp [h, hc]⟩)
    case h_2 e he =>
      have hread (e' : CacheEntry) : (∃ c, w.disk.read (entryPath dir module) = .ok c ∧
          CacheEntry.decode c.toList = .ok e' ∧ e'.module = module) ↔ e = e' ∧
          e'.module = module := by
        simp [h, he]
      split
      case isTrue hmodule =>
        refine .pure ⟨.refl w, fun e' => ?_⟩
        rw [hread, Option.some.injEq]
        exact ⟨fun h => ⟨h, h ▸ hmodule⟩, And.left⟩
      case isFalse hmodule =>
        refine .modify (.pure ⟨.cons _ w, fun e' => ?_⟩)
        rw [hread]
        exact ⟨by simp, fun h => absurd (h.1 ▸ h.2) hmodule⟩

/-- An entry is returned if it is found and was stored for the digest and the dependencies that the
module has now. -/
theorem yields_validEntry (module : String) (digest : Digest) (deps : List Dependency)
    (w : Workspace) : Yields (validEntry module digest deps) w fun r w' => OnlyNotes w w' ∧
      ∀ e, r = some e ↔ Finds w module digest deps e := by
  unfold validEntry
  refine .get ?_
  split
  case h_1 h => exact .pure ⟨.refl w, by simp [Finds, h]⟩
  case h_2 dir h =>
    have hfinds (e : CacheEntry) : Finds w module digest deps e ↔
        (∃ c, w.disk.read (entryPath dir module) = .ok c ∧
        CacheEntry.decode c.toList = .ok e ∧ e.module = module) ∧ e.digest = digest ∧
        e.deps = deps := by
      simp only [Finds, h, Option.some.injEq]
      grind
    refine .bind (yields_loadEntry dir module w) fun r w' hload => ?_
    obtain ⟨hnotes, hload⟩ := hload
    split
    case h_1 =>
      refine .pure ⟨hnotes, fun e => ?_⟩
      rw [hfinds, ← hload]
      simp
    case h_2 e =>
      have hvalid : e.isValid digest deps = true ↔ e.digest = digest ∧ e.deps = deps := by
        simp [CacheEntry.isValid]
      have hfound (e' : CacheEntry) : Finds w module digest deps e' ↔ e = e' ∧ e.digest = digest ∧
          e.deps = deps := by
        rw [hfinds, ← hload, Option.some.injEq]
        exact and_congr_right fun h => by rw [h]
      split
      case isTrue h =>
        refine .pure ⟨hnotes, fun e' => ?_⟩
        rw [hfound, Option.some.injEq]
        exact ⟨fun he => ⟨he, hvalid.mp h⟩, And.left⟩
      case isFalse h =>
        refine .modify (.pure ⟨hnotes.trans (.cons _ w'), fun e' => ?_⟩)
        rw [hfound]
        exact ⟨by simp, fun he => absurd (hvalid.mpr he.2) h⟩

/-- The disk after an entry has been stored, if there is a cache. -/
def diskWith (w : Workspace) (e : CacheEntry) : Disk :=
  match w.session.settings.cacheDir with
  | none => w.disk
  | some dir => (placeEntry w.disk dir e).2

/-- An entry has been stored, or the log says that it could not be. -/
structure Stores (w : Workspace) (e : CacheEntry) (w' : Workspace) : Prop where
  session : w'.session = w.session
  disk : w'.disk = diskWith w e
  log : w.log <:+ w'.log
  stored : ∀ dir, w.session.settings.cacheDir = some dir → (placeEntry w.disk dir e).1 = .ok () ∨
    ∃ p, .entryNotStored e.module p ∈ w'.log

/-- The entry is on the disk then, unless a fault is reported. -/
theorem yields_storeEntry (e : CacheEntry) (w : Workspace) :
    Yields (storeEntry e) w fun _ w' => Stores w e w' := by
  unfold storeEntry
  refine .get ?_
  split
  case h_1 h => exact .pure ⟨rfl, by rw [diskWith, h], List.suffix_rfl, by simp [h]⟩
  case h_2 dir h =>
    refine .get ?_
    dsimp only
    refine .modify ?_
    have hdisk : (placeEntry w.disk dir e).2 = diskWith w e := by rw [diskWith, h]
    split
    case h_1 hok =>
      refine ⟨rfl, hdisk, List.suffix_cons _ _, fun dir' hdir' => .inl ?_⟩
      obtain rfl : dir' = dir := Option.some.inj (hdir'.symm.trans h)
      exact hok
    case h_2 => exact ⟨rfl, hdisk, List.suffix_cons _ _, fun _ _ => .inr ⟨_, List.mem_cons_self⟩⟩

/-- What a module that sees the known modules depends on. -/
def dependencies (known : List (String × KnownModule)) : List Dependency :=
  (known.map fun (n, k) => (n, k.digest)).mergeSort fun a b => decide (a.1 ≤ b.1)

/-- The key of a module that sees the known modules. -/
def Pending.key (u : Pending) (known : List (String × KnownModule)) : Key :=
  ⟨u.source.text, dependencies known⟩

/-- What the elaboration of a module that sees the known modules comes to. -/
def elaborated (w : Workspace) (u : Pending) (m : Surface.Module)
    (known : List (String × KnownModule)) : ModuleOutcome :=
  elaborateModule w.session.registry w.session.settings.limits u.source.text m
    (known.flatMap (·.2.names))

/-- What is reported of a module that is elaborated over a registry and sees the known modules. -/
def reportOver (base : Registry) (limits : Limits) (s : Source) (m : Surface.Module)
    (known : List (String × KnownModule)) : ModuleReport :=
  let out := elaborateModule base limits s.text m (known.flatMap (·.2.names))
  if out.errors = [] then
    { source := s
      status := .checked
      digest := some (Key.digest ⟨s.text, dependencies known⟩)
      names := out.definitions.map (·.name)
      warnings := out.warnings }
  else { source := s, status := .failed, warnings := out.warnings, errors := out.errors }

/-- The ways in which the check of a module ends. -/
inductive Checks (u : Pending) (m : Surface.Module) (imports : List String) (w : Workspace) :
    ModuleReport → Workspace → Prop
  | unreachable {missing : String} {w' : Workspace}
      (hknown : knownDeps w.session.modules (Primitive.preludeName :: imports) = .error missing)
      (hnotes : OnlyNotes w w') : Checks u m imports w
        { source := u.source
          status := .unreachable
          errors := [.located (.dependencyFailed u.source.name missing)
            (((m.imports.find? fun i => i.module = missing).map (·.span)).getD default)] } w'
  | cached {known : List (String × KnownModule)} {e : CacheEntry} {w' : Workspace}
      (hknown : knownDeps w.session.modules (Primitive.preludeName :: imports) = .ok known)
      (hfinds : Finds w u.source.name (u.key known).digest (u.key known).deps e)
      (hsession : w'.session = w.session.register e.definitions) (hdisk : w'.disk = w.disk)
      (hlog : w.log <:+ w'.log) : Checks u m imports w
        { source := u.source, status := .cached, digest := some (u.key known).digest, names :=
          e.definitions.map (·.name) }
        w'
  | failed {known : List (String × KnownModule)} {w' : Workspace}
      (hknown : knownDeps w.session.modules (Primitive.preludeName :: imports) = .ok known)
      (hnone : ∀ e, ¬ Finds w u.source.name (u.key known).digest (u.key known).deps e)
      (herrors : (elaborated w u m known).errors ≠ []) (hnotes : OnlyNotes w w') :
      Checks u m imports w
        { source := u.source
          status := .failed
          warnings := (elaborated w u m known).warnings
          errors := (elaborated w u m known).errors } w'
  | checked {known : List (String × KnownModule)} {e : CacheEntry} {w' : Workspace}
      (hknown : knownDeps w.session.modules (Primitive.preludeName :: imports) = .ok known)
      (hnone : ∀ e, ¬ Finds w u.source.name (u.key known).digest (u.key known).deps e)
      (herrors : (elaborated w u m known).errors = [])
      (he : e = ⟨u.source.name, (u.key known).digest, (u.key known).deps,
        (elaborated w u m known).definitions⟩)
      (hsession : w'.session = w.session.register e.definitions)
      (hstores : Stores w e { w' with session := w.session }) :
      Checks u m imports w
        { source := u.source
          status := .checked
          digest := some e.digest
          names := e.definitions.map (·.name)
          warnings := (elaborated w u m known).warnings } w'

/-- Without a cache a module that sees the known modules is elaborated. -/
theorem Checks.reportOver {u : Pending} {m : Surface.Module} {imports : List String}
    {r : ModuleReport} {known : List (String × KnownModule)} (h : Checks u m imports w r w')
    (hknown : knownDeps w.session.modules (Primitive.preludeName :: imports) = .ok known)
    (hcache : w.session.settings.cacheDir = none) :
    r = Work.reportOver w.session.registry w.session.settings.limits u.source m known ∧
      ((elaborated w u m known).errors ≠ [] ∧ w'.session = w.session ∨
        (elaborated w u m known).errors = [] ∧
          w'.session = w.session.register (elaborated w u m known).definitions) := by
  have hsame {known' : List (String × KnownModule)} (hknown' :
      knownDeps w.session.modules (Primitive.preludeName :: imports) = .ok known') :
      known = known' := Except.ok.inj (hknown.symm.trans hknown')
  cases h with
  | unreachable hmissing => simp [hknown] at hmissing
  | cached _ hfinds => exact absurd hfinds (not_finds hcache)
  | failed hknown' _ herrors hnotes =>
    obtain rfl := hsame hknown'
    exact ⟨(if_neg herrors).symm, .inl ⟨herrors, hnotes.session⟩⟩
  | checked hknown' _ herrors he hsession =>
    obtain rfl := hsame hknown'
    subst he
    exact ⟨(if_pos herrors).symm, .inr ⟨herrors, hsession⟩⟩

theorem Stores.of_notes {e : CacheEntry} (h : OnlyNotes w w') (h' : Stores w' e w'') :
    Stores w e w'' where
  session := h'.session.trans h.session
  disk := by rw [h'.disk, diskWith, diskWith, h.session, h.disk]
  log := h.log.trans h'.log
  stored := by
    rw [← h.session, ← h.disk]
    exact h'.stored

theorem Stores.notes {e : CacheEntry} (h : Stores w e w') (h' : OnlyNotes w' w'') :
    Stores w e w'' where
  session := h'.session.trans h.session
  disk := h'.disk.trans h.disk
  log := h.log.trans h'.log
  stored dir hdir := (h.stored dir hdir).imp_right fun ⟨p, hp⟩ => ⟨p, h'.log.subset hp⟩

/-- The proof goes through the check in its order, and each of the four places where it ends gives a
case. -/
theorem yields_checkModule (u : Pending) (m : Surface.Module) (imports : List String)
    (w : Workspace) : Yields (checkModule u m imports) w (Checks u m imports w) := by
  unfold checkModule
  refine .get ?_
  dsimp only
  split
  case h_1 missing hknown => exact .modify (.pure (.unreachable hknown (.cons _ w)))
  case h_2 known hknown =>
    refine .bind (yields_validEntry _ _ _ w) fun r w₁ hvalid => ?_
    obtain ⟨hnotes, hvalid⟩ := hvalid
    split
    case h_1 e =>
      have hfinds : Finds w u.source.name (u.key known).digest (u.key known).deps e :=
        (hvalid e).mp rfl
      refine .modify (.modify (.pure
        (.cached hknown hfinds ?_ hnotes.disk (hnotes.log.trans (List.suffix_cons _ _)))))
      rw [Session.register, ← hnotes.session]
    case h_2 =>
      have hnone : ∀ e, ¬ Finds w u.source.name (u.key known).digest (u.key known).deps e :=
        fun e he => by
        simpa using (hvalid e).mpr he
      refine .modify (.get ?_)
      dsimp only
      have helaborated : elaborateModule w₁.session.registry
          w₁.session.settings.limits u.source.text m
          (known.flatMap (·.2.names)) = elaborated w u m known := by
        rw [elaborated, hnotes.session]
      rw [helaborated]
      refine .modify ?_
      have hnotes' : OnlyNotes w { w₁ with
          log := (elaborated w u m known).events.reverse ++
            .moduleElaborating u.source.name :: w₁.log } :=
        hnotes.trans ((OnlyNotes.cons _ w₁).trans (.append _ _))
      split
      case isTrue herrors =>
        exact .modify (.pure (.failed hknown hnone (by simpa using herrors)
          (hnotes'.trans (.cons _ _))))
      case isFalse herrors =>
        refine .bind (yields_storeEntry _ _) fun _ w₂ hstores => ?_
        have hstores' := (Stores.of_notes hnotes' hstores).notes
          (.cons (.moduleChecked u.source.name) w₂)
        have hsession : w₂.session.register (elaborated w u m known).definitions =
            w.session.register (elaborated w u m known).definitions := by rw [hstores'.session]
        have hchecked : Checks u m imports w _ { w₂ with
            session := w₂.session.register (elaborated w u m known).definitions
            log := .moduleChecked u.source.name :: w₂.log } :=
          .checked hknown hnone (by simpa using herrors) rfl hsession ⟨rfl, hstores'.disk,
            hstores'.log, hstores'.stored⟩
        exact .modify (.modify (.pure hchecked))

end Work

end LeveledTypes
