import LeveledTypes.Proofs.Registry
import LeveledTypes.Proofs.Session.Module

/-!
# The prelude of a session

Before a session checks anything it takes the prelude from the cache or elaborates it, over the
primitives and nothing else. If that fails, it fails in the same way whenever it is tried again.
-/
namespace LeveledTypes.Prelude

open Work

/-- What the elaboration of the text of the prelude comes to. -/
def elaborated (w : Workspace) (m : Surface.Module) : ModuleOutcome :=
  elaborateModule (w.session.registry.insertAll Primitive.definitions)
    w.session.settings.limits text m (Primitive.definitions.map (·.name))

/-- The text of the prelude cannot be read, or its elaboration has errors; this is the first one. -/
inductive Fails (w : Workspace) (err : Error) : Prop
  | read (hread : Surface.Module.read source.name text = .error err)
  | elaborated {m : Surface.Module} (hread : Surface.Module.read source.name text = .ok m)
    (herr : (elaborated w m).errors.head? = some err)

theorem Fails.errors_ne_nil {w : Workspace} {err : Error} {m : Surface.Module} (h : Fails w err)
    (hread : Surface.Module.read source.name text = .ok m) :
    (Prelude.elaborated w m).errors ≠ [] := by
  cases h with
  | read hread' => exact absurd (hread.symm.trans hread') (by simp)
  | elaborated hread' herr =>
    obtain rfl := Except.ok.inj (hread.symm.trans hread')
    exact List.ne_nil_of_mem (List.mem_of_head? herr)

/-- The first error is always the same. -/
theorem Fails.eq {w : Workspace} {err err' : Error} (h : Fails w err) (h' : Fails w err') :
    err = err' := by
  cases h with
  | read hread =>
    cases h' with
    | read hread' => exact Except.error.inj (hread.symm.trans hread')
    | elaborated hread' => exact absurd (hread.symm.trans hread') (by simp)
  | elaborated hread herr =>
    cases h' with
    | read hread' => exact absurd (hread.symm.trans hread') (by simp)
    | elaborated hread' herr' =>
      obtain rfl := Except.ok.inj (hread.symm.trans hread')
      exact Option.some.inj (herr.symm.trans herr')

/-- The prelude has been brought into a session with the given definitions. -/
structure Adopts (w : Workspace) (r : Registry) (ds : List Definition) (w' : Workspace) : Prop where
  settings : w'.session.settings = w.session.settings
  registry : w'.session.registry = r.insertAll ds
  modules : w'.session.modules = w.session.modules.insert Primitive.preludeName ⟨digest,
    ds.map (·.name)⟩

/-- The ways in which the prelude comes into a session, or fails to. -/
inductive Enters (w : Workspace) : Option Error → Workspace → Prop
  | known (hknown : w.session.modules.contains Primitive.preludeName = true) : Enters w none w
  | cached {e : CacheEntry} {w' : Workspace}
    (hnew : w.session.modules.contains Primitive.preludeName = false)
      (huse : w.session.settings.usePreludeCache = true)
      (hfinds : Finds w Primitive.preludeName digest [] e)
      (hadopts : Adopts w w.session.registry e.definitions w') (hdisk : w'.disk = w.disk)
      (hlog : w.log <:+ w'.log) : Enters w none w'
  | checked {e : CacheEntry} {m : Surface.Module} {w' : Workspace}
      (hnew : w.session.modules.contains Primitive.preludeName = false)
      (hnone : w.session.settings.usePreludeCache = true →
        ∀ e, ¬ Finds w Primitive.preludeName digest [] e)
      (hread : Surface.Module.read source.name text = .ok m)
      (herrors : (elaborated w m).errors = [])
      (he : e = ⟨Primitive.preludeName, digest, [], Primitive.definitions ++
        (elaborated w m).definitions⟩)
      (hadopts : Adopts w (w.session.registry.insertAll Primitive.definitions) e.definitions w')
      (hstores : Stores w e { w' with session := w.session }) : Enters w none w'
  | failed {err : Error} {w' : Workspace}
    (hnew : w.session.modules.contains Primitive.preludeName = false)
      (hnone : w.session.settings.usePreludeCache = true →
        ∀ e, ¬ Finds w Primitive.preludeName digest [] e)
      (hfails : Fails w err)
      (hsettings : w'.session.settings = w.session.settings)
      (hregistry : w'.session.registry = w.session.registry.insertAll Primitive.definitions)
      (hmodules : w'.session.modules = w.session.modules) (hdisk : w'.disk = w.disk)
      (hlog : w.log <:+ w'.log) : Enters w (some err) w'

theorem yields_adopt (ds : List Definition) (status : ModuleStatus) (w : Workspace) :
    Yields (adopt source digest ds status) w fun r w' => r.errors = [] ∧ w' = { w with
      session := { w.session with
        registry := w.session.registry.insertAll ds
        modules := w.session.modules.insert source.name ⟨digest, ds.map (·.name)⟩ } } :=
  ⟨rfl, rfl⟩

/-- The prelude has been loaded, and no note has been taken of it yet. -/
def Loads (w : Workspace) (r : ModuleReport) (w' : Workspace) : Prop :=
  ∀ ws es, Enters w r.errors.head? { w' with
    session := { w'.session with preludeWarnings := ws }, log := es ++ w'.log }

/-- Reading and elaborating the prelude gives its definitions, or the same failure each time. The
entry is stored only if there were no errors and the settings ask for it. -/
theorem yields_elaborate {w w₁ : Workspace}
    (hnew : w.session.modules.contains Primitive.preludeName = false)
    (hnone : w.session.settings.usePreludeCache = true →
      ∀ e, ¬ Finds w Primitive.preludeName digest [] e)
    (hnotes : OnlyNotes w w₁) : Yields elaborate w₁ (Loads w) := by
  unfold elaborate
  refine .modify ?_
  split
  case h_1 err hread =>
    refine .pure fun ws es => ?_
    have hlog : w.log <:+ es ++ w₁.log := hnotes.log.trans (List.suffix_append _ _)
    rw [List.head?_cons]
    exact .failed hnew hnone (.read hread) (by rw [hnotes.session]) (by rw [hnotes.session])
      (by rw [hnotes.session]) hnotes.disk hlog
  case h_2 m hread =>
    refine .get ?_
    have helaborated : elaborateModule (w₁.session.registry.insertAll Primitive.definitions)
        w₁.session.settings.limits text m
        (Primitive.definitions.map (·.name)) = elaborated w m := by
      rw [elaborated, hnotes.session]
    dsimp only
    rw [helaborated]
    refine .modify ?_
    split
    case isTrue herrors =>
      have hne : (elaborated w m).errors ≠ [] := by simpa using herrors
      refine .modify (.pure fun ws es => ?_)
      have hlog : w.log <:+ es ++ .preludeErrors source.name (elaborated w m).errors.length ::
          ((elaborated w m).events.reverse ++ w₁.log) :=
        hnotes.log.trans ((List.suffix_append _ _).trans
          ((List.suffix_cons _ _).trans (List.suffix_append _ _)))
      obtain ⟨err, errs, herr⟩ := List.exists_cons_of_ne_nil hne
      have hfails : Fails w err := .elaborated hread (by rw [herr, List.head?_cons])
      dsimp only
      rw [herr, List.head?_cons]
      rw [herr] at hlog
      exact .failed hnew hnone hfails (by rw [hnotes.session]) (by rw [hnotes.session])
        (by rw [hnotes.session]) hnotes.disk hlog
    case isFalse herrors =>
      have hnil : (elaborated w m).errors = [] := by simpa using herrors
      refine .bind (yields_storeEntry _ _) fun _ w₂ hstores => ?_
      have hsettings : w₁.session.settings = w.session.settings := by rw [hnotes.session]
      have hlog : w.log <:+ w₂.log := hnotes.log.trans ((List.suffix_append _ _).trans hstores.log)
      have hdisk := hstores.disk
      have hstored := hstores.stored
      simp only [diskWith, hsettings, hnotes.disk] at hdisk hstored
      refine .modify (.bind (yields_adopt _ _ _) fun r w₃ hr => .pure fun ws es => ?_)
      obtain ⟨herrors, rfl⟩ := hr
      dsimp only
      rw [herrors, List.head?_nil]
      have hregistry := congrArg Session.registry hstores.session
      have hmodules := congrArg Session.modules hstores.session
      dsimp only at hregistry hmodules
      rw [hnotes.session] at hregistry hmodules
      refine .checked hnew hnone hread hnil rfl ⟨?_, ?_, ?_⟩ ⟨rfl, hdisk, ?_, fun dir hdir => ?_⟩
      · rw [hstores.session]
        exact hsettings
      · rw [hregistry]
      · rw [hmodules]
        rfl
      · exact hlog.trans ((List.suffix_cons _ _).trans (List.suffix_append _ _))
      · refine (hstored dir hdir).imp_right ?_
        rintro ⟨p, hp⟩
        exact ⟨p, List.mem_append_right _ (List.mem_cons_of_mem _ hp)⟩

/-- A valid entry of the prelude is taken, else it is elaborated. -/
theorem yields_load {w : Workspace}
    (hnew : w.session.modules.contains Primitive.preludeName = false) :
    Yields load w (Loads w) := by
  unfold load
  refine .get ?_
  split
  case isTrue huse =>
    refine .bind (yields_validEntry _ _ _ w) fun entry w₁ hvalid => ?_
    obtain ⟨hnotes, hvalid⟩ := hvalid
    dsimp only
    split
    case h_1 e =>
      refine .modify (Yields.mono (yields_adopt _ _ _) fun r w₂ hr => ?_)
      obtain ⟨herrors, rfl⟩ := hr
      intro ws es
      have hlog := hnotes.log.trans
        ((List.suffix_cons (.moduleCached source.name) _).trans (List.suffix_append es _))
      rw [herrors, List.head?_nil]
      refine .cached hnew huse ((hvalid e).mp rfl) ⟨?_, ?_, ?_⟩ hnotes.disk hlog
      · rw [hnotes.session]
      · rw [hnotes.session]
      · rw [hnotes.session]
        rfl
    case h_2 => exact yields_elaborate hnew (fun _ e he => by simpa using (hvalid e).mpr he) hnotes
  case isFalse huse =>
    have hnone : w.session.settings.usePreludeCache = true →
        ∀ e, ¬ Finds w Primitive.preludeName digest [] e :=
      fun h => absurd h huse
    refine .bind (P := fun entry w₁ => entry = none ∧ w₁ = w) ⟨rfl, rfl⟩ fun entry w₁ h => ?_
    obtain ⟨rfl, rfl⟩ := h
    exact yields_elaborate hnew hnone (.refl w₁)

/-- The prelude comes into a session in one of these ways, or it is there. -/
theorem yields_ensure (w : Workspace) : Yields ensure w (Enters w) := by
  unfold ensure
  refine .get ?_
  split
  case isTrue hknown => exact .pure (.known hknown)
  case isFalse hnew =>
    have hnew' : w.session.modules.contains Primitive.preludeName = false :=
      Bool.eq_false_iff.mpr hnew
    refine .bind (yields_load hnew') fun r w₁ hloads => .modify (.modify (.pure ?_))
    exact hloads _ _

end LeveledTypes.Prelude
