import LeveledTypes.Proofs.Session.Transparency

/-!
# Calls that are made again

Sessions check the same sources one after the other, with one cache, and nothing else is checked in
between. Then each of them reports what a session without a cache reports, and has the same
definitions in the end: the modules are checked in the same order, so that a module is taken from
the cache only where the session has all that the module saw when its entry was made, and no more.
-/
namespace LeveledTypes

namespace Work

open Stage (checkPending checkWave_eq)

variable {dir : FilePath} {S : List Source} {w w' v v' : Workspace} {u : Pending}

section Entries
variable {d : Disk} {n : String} {e e' : CacheEntry}

/-- There is an entry of the module in its place, valid or not. -/
def EntryAt (dir : FilePath) (d : Disk) (n : String) (e : CacheEntry) : Prop :=
  ∃ c : ByteArray, d.fileAt (d.placeOf (entryPath dir n)) = some c ∧
    CacheEntry.decode c.toList = .ok e ∧ e.module = n

theorem Finds.entryAt {digest : Digest} {deps : List Dependency} (h : Finds w n digest deps e)
    (hdir : w.session.settings.CachesIn dir) : EntryAt dir w.disk n e := by
  obtain ⟨p, c, hp, hread, hdecode, hmodule, -⟩ := h
  obtain rfl := hdir p hp
  exact ⟨c, Disk.fileAt_of_read hread, hdecode, hmodule⟩

theorem nameOnly_eq (h : ∀ d ∈ e.definitions, d.nameOnly = d) : e.nameOnly = e := by
  rw [CacheEntry.nameOnly, List.map_congr_left h, List.map_id']

/-- After an entry has been stored, any entry is that one or was there before. -/
theorem Stores.entryAt (h : Stores w e w') (hdir : w.session.settings.CachesIn dir)
    (honly : ∀ d ∈ e.definitions, d.nameOnly = d) (hentry : EntryAt dir w'.disk n e') :
    EntryAt dir w.disk n e' ∨ n = e.module ∧ e' = e := by
  rw [h.disk, diskWith] at hentry
  split at hentry
  case h_1 => exact .inl hentry
  case h_2 p hp =>
    obtain rfl := hdir p hp
    obtain ⟨hkeeps, hfiles⟩ := places_placeEntry w.disk p e
    obtain ⟨c, hc, hdecode, hmodule⟩ := hentry
    rw [hkeeps.placeOf_eq] at hc
    obtain hsame | ⟨hfits, -, hfile⟩ := hfiles n
    · exact .inl ⟨c, hsame.symm.trans hc, hdecode, hmodule⟩
    · obtain rfl := Option.some.inj (hc.symm.trans hfile)
      obtain rfl := (eq_nameOnly_of_decode hfits hdecode).trans (nameOnly_eq honly)
      exact .inr ⟨hmodule.symm, rfl⟩

end Entries

section Sessions
variable {s t : Session}

/-- The second session goes without a cache, and otherwise knows and has what the first one does. -/
structure Mirrors (dir : FilePath) (s t : Session) : Prop where
  registry : s.registry = t.registry
  modules : s.modules = t.modules
  limits : s.settings.limits = t.settings.limits
  cachesIn : s.settings.CachesIn dir
  uncached : t.settings.cacheDir = none

/-- The same is reported, except that a module is taken from the cache, without warnings, where it
is checked. -/
def Alike (r r' : ModuleReport) : Prop :=
  r = r' ∨ r'.status = .checked ∧ r = { r' with status := .cached, warnings := [] }

/-- Reports at the same places are alike. -/
def AlikeAt (p q : ℕ × ModuleReport) : Prop := p.1 = q.1 ∧ Alike p.2 q.2

namespace Alike
variable {r r' : ModuleReport}

theorem isOk (h : Alike r r') : r.isOk = r'.isOk := by
  obtain rfl | ⟨hstatus, rfl⟩ := h
  · rfl
  · rw [ModuleReport.isOk, ModuleReport.isOk, hstatus]
    rfl

theorem same (h : Alike r r') : r.source = r'.source ∧ r.digest = r'.digest ∧
    r.names = r'.names ∧ r.errors = r'.errors := by
  obtain rfl | ⟨-, rfl⟩ := h <;> exact ⟨rfl, rfl, rfl, rfl⟩

end Alike

namespace Mirrors

theorem register (h : Mirrors dir s t) (ds : List Definition) :
    Mirrors dir (s.register ds) (t.register ds) where
  registry := congrArg (·.insertAll ds) h.registry
  modules := h.modules
  limits := h.limits
  cachesIn := h.cachesIn
  uncached := h.uncached

theorem forgotten (h : Mirrors dir s t) : Mirrors dir s.forgotten t.forgotten where
  registry := by rw [Session.forgotten, Session.forgotten, h.registry, h.modules]
  modules := congrArg (·.filter fun n _ => n = Primitive.preludeName) h.modules
  limits := h.limits
  cachesIn := h.cachesIn
  uncached := h.uncached

/-- Reports that are alike make the same modules known. -/
theorem publish (h : Mirrors dir s t) {rs rs' : List (ℕ × ModuleReport)}
    (hrs : List.Forall₂ AlikeAt rs rs') : Mirrors dir (s.publish rs) (t.publish rs') := by
  induction hrs generalizing s t with
  | nil => exact h
  | @cons p q rs rs' hp _ ih =>
    refine ih (?_ : Mirrors dir (s.learn p.2) (t.learn q.2))
    obtain ⟨hsource, hdigest, hnames, -⟩ := hp.2.same
    have hname : p.2.name = q.2.name := congrArg Source.name hsource
    unfold Session.learn
    rw [hdigest, hp.2.isOk, hname, hnames]
    split
    case h_1 digest _ =>
      split
      case isTrue =>
        have hmodules := congrArg (·.insert q.2.name ⟨digest, q.2.names⟩) h.modules
        exact ⟨h.registry, hmodules, h.limits, h.cachesIn, h.uncached⟩
      case isFalse => exact h
    case h_2 => exact h

theorem elaborated_eq (h : Mirrors dir w.session v.session) (u : Pending) (m : Surface.Module)
    (known : List (String × KnownModule)) : elaborated w u m known = elaborated v u m known := by
  rw [elaborated, elaborated, h.registry, h.limits]

end Mirrors

end Sessions

section Modules

/-- The check of a module comes to the entry if nothing is taken from a cache. -/
def Makes (us : List Pending) (v : Workspace) (u : Pending) (e : CacheEntry) : Prop :=
  ∃ m known, u.module = some m ∧
    knownDeps v.session.modules (Primitive.preludeName :: importNames us u) = .ok known ∧
    (elaborated v u m known).errors = [] ∧ e = ⟨u.source.name, (u.key known).digest,
      (u.key known).deps, (elaborated v u m known).definitions⟩

/-- If the entry of a module, where there is one, is what its check comes to, then the module is
reported alike, and any new entry is again what the check comes to. -/
theorem Checks.alike {us : List Pending} {m : Surface.Module} {r r' : ModuleReport}
    (h : Checks u m (importNames us u) w r w') (h' : Checks u m (importNames us u) v r' v')
    (hm : u.module = some m) (hread : readSource u.source = .ok m)
    (hmirrors : Mirrors dir w.session v.session)
    (hmakes : ∀ e, EntryAt dir w.disk u.source.name e → Makes us v u e) :
    Alike r r' ∧ Mirrors dir w'.session v'.session ∧ ∀ n e, EntryAt dir w'.disk n e →
      EntryAt dir w.disk n e ∨ n = u.source.name ∧ Makes us v u e := by
  have hold (hdisk : w'.disk = w.disk) : ∀ n e, EntryAt dir w'.disk n e →
      EntryAt dir w.disk n e ∨ n = u.source.name ∧ Makes us v u e :=
    fun n e hentry => .inl (hdisk ▸ hentry)
  cases h with
  | unreachable hmissing hnotes =>
    rw [hmirrors.modules] at hmissing
    cases h' with
    | unreachable hmissing' hnotes' =>
      obtain rfl := Except.error.inj (hmissing.symm.trans hmissing')
      exact ⟨.inl rfl, by rwa [hnotes.session, hnotes'.session], hold hnotes.disk⟩
    | cached hknown => simp [hmissing] at hknown
    | failed hknown => simp [hmissing] at hknown
    | checked hknown => simp [hmissing] at hknown
  | @cached known e _ hknown hfinds hsession hdisk hlog =>
    rw [hmirrors.modules] at hknown
    obtain ⟨m', known', hm', hknown', herrors, rfl⟩ := hmakes e (hfinds.entryAt hmirrors.cachesIn)
    obtain rfl := Option.some.inj (hm.symm.trans hm')
    obtain rfl := Except.ok.inj (hknown.symm.trans hknown')
    obtain ⟨hr', ⟨hfails, -⟩ | ⟨-, hsession'⟩⟩ := h'.reportOver hknown hmirrors.uncached
    · exact absurd herrors hfails
    · obtain rfl := hr'.trans (if_pos herrors)
      rw [hsession, hsession']
      exact ⟨.inr ⟨rfl, rfl⟩, hmirrors.register _, hold hdisk⟩
  | @failed known _ hknown _ herrors hnotes =>
    rw [hmirrors.modules] at hknown
    rw [hmirrors.elaborated_eq] at herrors ⊢
    obtain ⟨hr', ⟨-, hsession'⟩ | ⟨hpasses, -⟩⟩ := h'.reportOver hknown hmirrors.uncached
    · obtain rfl := hr'.trans (if_neg herrors)
      exact ⟨.inl rfl, by rwa [hnotes.session, hsession'], hold hnotes.disk⟩
    · exact absurd hpasses herrors
  | @checked known e _ hknown _ herrors he hsession hstores =>
    rw [hmirrors.modules] at hknown
    rw [hmirrors.elaborated_eq] at herrors he ⊢
    have honly := (names_of_read (readSource_eq_ok hread).2 herrors).2.2
    subst he
    obtain ⟨hr', ⟨hfails, -⟩ | ⟨-, hsession'⟩⟩ := h'.reportOver hknown hmirrors.uncached
    · exact absurd herrors hfails
    · obtain rfl := hr'.trans (if_pos herrors)
      rw [hsession, hsession']
      refine ⟨.inl rfl, hmirrors.register _, fun n e hentry => ?_⟩
      refine (hstores.entryAt hmirrors.cachesIn honly hentry).imp_right ?_
      rintro ⟨rfl, rfl⟩
      exact ⟨rfl, m, known, hm, hknown, herrors, rfl⟩

end Modules

section Waves
variable {α β : Type}

/-- What is said of an element and of the workspace in which the run over a list comes to it. -/
def Along (f : α → Work β) (P : α → Workspace → Prop) : List α → Workspace → Prop
  | [], _ => True
  | a :: as, v => P a v ∧ Along f P as (f a v).2

theorem Along.imp {f : α → Work β} {P Q : α → Workspace → Prop} {as : List α}
    (h : Along f P as v) (hPQ : ∀ a ∈ as, ∀ v, P a v → Q a v) : Along f Q as v := by
  induction as generalizing v with
  | nil => trivial
  | cons a as ih =>
    obtain ⟨ha, has⟩ := List.forall_mem_cons.mp hPQ
    exact ⟨ha v h.1, ih h.2 has⟩

theorem Along.of_forall {f : α → Work β} {P : α → Workspace → Prop} {as : List α}
    (h : ∀ a ∈ as, ∀ v, P a v) : Along f P as v := by
  induction as generalizing v with
  | nil => trivial
  | cons a as ih =>
    obtain ⟨ha, has⟩ := List.forall_mem_cons.mp h
    exact ⟨ha v, ih has⟩

/-- The module at a place can be checked, and has the name. -/
def SoundAt (S : List Source) (i : ℕ) (n : String) : Prop :=
  ∃ u, (units S)[i]? = some u ∧ u.Sound ∧ u.source.name = n

/-- Modules at different places have different names. -/
theorem SoundAt.eq {i j : ℕ} {n : String} (hS : (S.map (·.name)).Nodup) (h : SoundAt S i n)
    (h' : SoundAt S j n) : i = j := by
  obtain ⟨u, hu, -, hname⟩ := h
  obtain ⟨t, ht, -, hname'⟩ := h'
  exact index_eq_of_name_eq hS (getElem?_units hu) (getElem?_units ht) (hname.trans hname'.symm)

theorem SoundAt.ne_prelude {i : ℕ} {n : String} (h : SoundAt S i n) :
    n ≠ Primitive.preludeName := by
  obtain ⟨u, hu, ⟨hm, herrors⟩, rfl⟩ := h
  obtain ⟨m, hm⟩ := Option.isSome_iff_exists.mp hm
  exact (readSource_eq_ok (unit_sound hu hm herrors).1).1

/-- An entry of the module at a place, if it can be checked, is what its check comes to. -/
def MadeAt (S : List Source) (E : String → CacheEntry → Prop) (i : ℕ) (v : Workspace) : Prop :=
  ∀ u, (units S)[i]? = some u → u.Sound → ∀ e, E u.source.name e → Makes (units S) v u e

/-- The entries of the modules of a wave are what their checks come to. -/
def MadeIn (S : List Source) (E : String → CacheEntry → Prop) (wave : List ℕ) (v : Workspace) :
    Prop :=
  Along (checkPending (units S)) (MadeAt S E) wave v

variable {E E' : String → CacheEntry → Prop} {i : ℕ} {wave : List ℕ} {ws : List (List ℕ)}

theorem MadeAt.mono (h : MadeAt S E i v) (hE : ∀ n e, SoundAt S i n → E' n e → E n e) :
    MadeAt S E' i v :=
  fun u hu hsound e he => h u hu hsound e (hE _ _ ⟨u, hu, hsound, rfl⟩ he)

theorem MadeIn.mono (h : MadeIn S E wave v)
    (hE : ∀ i ∈ wave, ∀ n e, SoundAt S i n → E' n e → E n e) : MadeIn S E' wave v :=
  Along.imp h fun i hi _ hmade => hmade.mono (hE i hi)

/-- A module that can be checked is checked, and any other is left out. -/
theorem checkPending_eq (us : List Pending) (i : ℕ) :
    (checkPending us i = pure none ∧ ∀ u, us[i]? = some u → ¬ u.Sound) ∨
      ∃ u m, us[i]? = some u ∧ u.module = some m ∧ u.errors = [] ∧
        checkPending us i = do return some (i, ← checkModule u m (importNames us u)) := by
  unfold checkPending
  cases hu : us[i]? with
  | none => exact .inl ⟨rfl, by simp⟩
  | some u =>
    cases hm : u.module with
    | none => exact .inl ⟨by simp [hm], by simp [Pending.Sound, hm]⟩
    | some m =>
      cases herrors : u.errors with
      | nil => exact .inr ⟨u, m, rfl, hm, herrors, by simp [hm, herrors]; rfl⟩
      | cons e es => exact .inl ⟨by simp [hm, herrors], by simp [Pending.Sound, herrors]⟩

/-- The session without a cache has come along, the entries of the modules at some places are what
their checks come to, and there are no new entries of other modules. -/
structure Replayed (dir : FilePath) (S : List Source) (is : List ℕ)
    (made : (String → CacheEntry → Prop) → Prop) (w w' v' : Workspace) : Prop where
  mirrors : Mirrors dir w'.session v'.session
  made : made (EntryAt dir w'.disk)
  others : ∀ n e, EntryAt dir w'.disk n e → (∃ i ∈ is, SoundAt S i n) ∨ EntryAt dir w.disk n e

namespace Replayed
variable {w'' v'' : Workspace} {is js : List ℕ} {made made' : (String → CacheEntry → Prop) → Prop}

/-- The entries of modules at other places are as before. -/
theorem entryAt (h : Replayed dir S is made w w' v') (hS : (S.map (·.name)).Nodup)
    (hdisjoint : is.Disjoint js) : ∀ j ∈ js, ∀ n e, SoundAt S j n → EntryAt dir w'.disk n e →
      EntryAt dir w.disk n e := by
  intro j hj n e hsound hentry
  refine (h.others n e hentry).resolve_left ?_
  rintro ⟨i, hi, hsound'⟩
  exact hdisjoint hi (hsound'.eq hS hsound ▸ hj)

theorem trans (h : Replayed dir S is made w w' v') (h' : Replayed dir S js made' w' w'' v'')
    (hS : (S.map (·.name)).Nodup) (hdisjoint : is.Disjoint js)
    (hmono : ∀ E E' : String → CacheEntry → Prop,
      (∀ i ∈ is, ∀ n e, SoundAt S i n → E' n e → E n e) → made E → made E') :
    Replayed dir S (is ++ js) (fun E => made E ∧ made' E) w w'' v'' where
  mirrors := h'.mirrors
  made := ⟨hmono _ _ (h'.entryAt hS hdisjoint.symm) h.made, h'.made⟩
  others n e hentry := by
    obtain ⟨j, hj, hsound⟩ | hentry := h'.others n e hentry
    · exact .inl ⟨j, List.mem_append_right _ hj, hsound⟩
    · refine (h.others n e hentry).imp_left ?_
      rintro ⟨i, hi, hsound⟩
      exact ⟨i, List.mem_append_left _ hi, hsound⟩

end Replayed

theorem replayed_checkPending (hmirrors : Mirrors dir w.session v.session)
    (hmade : MadeAt S (EntryAt dir w.disk) i v) :
    YieldBoth (checkPending (units S) i) (checkPending (units S) i) w v fun o w' o' v' =>
      v' = (checkPending (units S) i v).2 ∧ Option.Rel AlikeAt o o' ∧
        Replayed dir S [i] (MadeAt S · i v) w w' v' := by
  obtain ⟨hnone, hunsound⟩ | ⟨u, m, hu, hm, herrors, hcheck⟩ := checkPending_eq (units S) i
  · rw [hnone]
    exact .pure ⟨rfl, .none, hmirrors, hmade, fun _ _ => .inr⟩
  · rw [hcheck]
    have hsound : u.Sound := ⟨by simp [hm], herrors⟩
    refine .bind (P := fun r w' r' v' => v' = (checkModule u m (importNames (units S) u) v).2 ∧
      Checks u m (importNames (units S) u) w r w' ∧ Checks u m (importNames (units S) u) v r' v')
      (.of_yields (yields_checkModule u m _ w) (yields_checkModule u m _ v)
        fun r w' h h' => ⟨rfl, h, h'⟩) fun r w' r' v' ⟨hv, h, h'⟩ => .pure ?_
    have hread := (unit_sound hu hm herrors).1
    obtain ⟨halike, hmirrors', hentries⟩ :=
      h.alike h' hm hread hmirrors (hmade u hu hsound)
    refine ⟨hv, .some ⟨rfl, halike⟩, hmirrors', fun u' hu' _ e he => ?_, fun n e he => ?_⟩
    · obtain rfl : u = u' := Option.some.inj (hu.symm.trans hu')
      exact (hentries _ e he).elim (hmade u hu hsound e) And.right
    · obtain he | ⟨rfl, -⟩ := hentries n e he
      · exact .inr he
      · exact .inl ⟨i, List.mem_singleton_self i, u, hu, hsound, rfl⟩

/-- The induction is on the wave. What the check of one module stores is no entry of another. -/
theorem replayed_wave (hS : (S.map (·.name)).Nodup) (hnodup : wave.Nodup)
    (hmirrors : Mirrors dir w.session v.session) (hmade : MadeIn S (EntryAt dir w.disk) wave v) :
    YieldBoth (wave.filterMapM (checkPending (units S))) (wave.filterMapM (checkPending (units S)))
      w v fun rs w' rs' v' =>
        List.Forall₂ AlikeAt rs rs' ∧ Replayed dir S wave (MadeIn S · wave v) w w' v' := by
  induction wave generalizing w v with
  | nil => exact .pure ⟨.nil, hmirrors, trivial, fun _ _ => .inr⟩
  | cons i wave ih =>
    obtain ⟨hi, hnodup⟩ := List.nodup_cons.mp hnodup
    have hdisjoint : [i].Disjoint wave := by simpa using hi
    rw [List.filterMapM_cons]
    refine .bind (replayed_checkPending hmirrors hmade.1) fun o w₁ o' v₁ ⟨hv, halike, hfirst⟩ => ?_
    subst hv
    have hrest : MadeIn S (EntryAt dir w₁.disk) wave (checkPending (units S) i v).2 :=
      MadeIn.mono hmade.2 (hfirst.entryAt hS hdisjoint)
    have htrans {w₂ v₂ : Workspace}
        (h : Replayed dir S wave (MadeIn S · wave (checkPending (units S) i v).2) w₁ w₂ v₂) :
        Replayed dir S (i :: wave) (MadeIn S · (i :: wave) v) w w₂ v₂ :=
      hfirst.trans h hS hdisjoint fun E E' hE hmade => hmade.mono (hE i (by simp))
    cases halike with
    | none =>
      obtain ⟨hrs, h⟩ := ih hnodup hfirst.mirrors hrest
      exact ⟨hrs, htrans h⟩
    | some halike =>
      refine .bind (ih hnodup hfirst.mirrors hrest) fun rs w₂ rs' v₂ ⟨hrs, h⟩ => .pure ?_
      exact ⟨.cons halike hrs, htrans h⟩

theorem replayed_checkWave (hS : (S.map (·.name)).Nodup) (hnodup : wave.Nodup)
    (hmirrors : Mirrors dir w.session v.session) (hmade : MadeIn S (EntryAt dir w.disk) wave v) :
    YieldBoth (checkWave (units S) wave) (checkWave (units S) wave) w v fun rs w' rs' v' =>
      v' = (checkWave (units S) wave v).2 ∧ List.Forall₂ AlikeAt rs rs' ∧
        Replayed dir S wave (MadeIn S · wave v) w w' v' := by
  obtain ⟨hrs, h⟩ := replayed_wave hS hnodup hmirrors hmade
  refine ⟨rfl, ?_⟩
  rw [checkWave_eq, checkWave_eq]
  exact ⟨hrs, h.mirrors.publish hrs, h.made, h.others⟩

/-- The entries of all modules are what their checks come to. -/
def MadeInAll (S : List Source) (E : String → CacheEntry → Prop) (ws : List (List ℕ))
    (v : Workspace) : Prop :=
  Along (checkWave (units S)) (MadeIn S E) ws v

theorem MadeInAll.mono (h : MadeInAll S E ws v)
    (hE : ∀ i ∈ ws.flatten, ∀ n e, SoundAt S i n → E' n e → E n e) : MadeInAll S E' ws v :=
  Along.imp h fun wave hwave _ hmade =>
    hmade.mono fun i hi => hE i (List.mem_flatten.mpr ⟨wave, hwave, hi⟩)

/-- The induction is on the waves. -/
theorem replayed_waves (hS : (S.map (·.name)).Nodup) (hnodup : ws.flatten.Nodup)
    (hmirrors : Mirrors dir w.session v.session) (hmade : MadeInAll S (EntryAt dir w.disk) ws v) :
    YieldBoth (ws.mapM (checkWave (units S))) (ws.mapM (checkWave (units S))) w v
      fun rss w' rss' v' => List.Forall₂ AlikeAt rss.flatten rss'.flatten ∧
        Replayed dir S ws.flatten (MadeInAll S · ws v) w w' v' := by
  induction ws generalizing w v with
  | nil => exact .pure ⟨.nil, hmirrors, trivial, fun _ _ => .inr⟩
  | cons wave ws ih =>
    obtain ⟨hwave, hnodup, hdisjoint⟩ := List.nodup_append'.mp hnodup
    rw [List.mapM_cons]
    refine .bind (replayed_checkWave hS hwave hmirrors hmade.1)
      fun rs w₁ rs' v₁ ⟨hv, hrs, hfirst⟩ => ?_
    subst hv
    have hrest : MadeInAll S (EntryAt dir w₁.disk) ws (checkWave (units S) wave v).2 :=
      MadeInAll.mono hmade.2 (hfirst.entryAt hS hdisjoint)
    refine .bind (ih hnodup hfirst.mirrors hrest) fun rss w₂ rss' v₂ ⟨hrss, h⟩ => .pure ?_
    exact ⟨List.rel_append hrs hrss, hfirst.trans h hS hdisjoint fun E E' hE hmade => hmade.mono hE⟩

end Waves

section Calls

/-- The elaboration of the prelude comes to the entry. -/
def MakesPrelude (v : Workspace) (e : CacheEntry) : Prop :=
  ∃ m, Surface.Module.read Prelude.source.name Prelude.text = .ok m ∧
    (Prelude.elaborated v m).errors = [] ∧ e = ⟨Primitive.preludeName, Prelude.digest, [],
      Primitive.definitions ++ (Prelude.elaborated v m).definitions⟩

theorem Mirrors.elaborated_prelude_eq (h : Mirrors dir w.session v.session) (m : Surface.Module) :
    Prelude.elaborated w m = Prelude.elaborated v m := by
  rw [Prelude.elaborated, Prelude.elaborated, h.registry, h.limits]

theorem Mirrors.adopts (h : Mirrors dir w.session v.session) {r r' : Registry}
    {ds : List Definition} (hw : Prelude.Adopts w r ds w') (hv : Prelude.Adopts v r' ds v')
    (hregistry : r.insertAll ds = r'.insertAll ds) : Mirrors dir w'.session v'.session where
  registry := by rw [hw.registry, hv.registry, hregistry]
  modules := by rw [hw.modules, hv.modules, h.modules]
  limits := by rw [hw.settings, hv.settings, h.limits]
  cachesIn := by rw [hw.settings]; exact h.cachesIn
  uncached := by rw [hv.settings, h.uncached]

/-- Without a cache the prelude is elaborated unless it is there. -/
theorem enters_uncached {o : Option Error} (h : Prelude.Enters v o v')
    (hnew : v.session.modules.contains Primitive.preludeName = false)
    (hcache : v.session.settings.cacheDir = none) :
    (∃ e, o = none ∧ MakesPrelude v e ∧
        Prelude.Adopts v (v.session.registry.insertAll Primitive.definitions) e.definitions v') ∨
      ∃ err, o = some err ∧ Prelude.Fails v err ∧ v'.session.settings = v.session.settings ∧
        v'.session.registry = v.session.registry.insertAll Primitive.definitions ∧
        v'.session.modules = v.session.modules := by
  cases h with
  | known hknown => simp [hnew] at hknown
  | cached _ _ hfinds => exact absurd hfinds (not_finds hcache)
  | checked _ _ hread herrors he hadopts =>
    exact .inl ⟨_, rfl, ⟨_, hread, herrors, he⟩, hadopts⟩
  | failed _ _ hfails hsettings hregistry hmodules =>
    exact .inr ⟨_, rfl, hfails, hsettings, hregistry, hmodules⟩

theorem MakesPrelude.eq {e e' : CacheEntry} (h : MakesPrelude v e) (h' : MakesPrelude v e') :
    e = e' := by
  obtain ⟨m, hread, -, rfl⟩ := h
  obtain ⟨m', hread', -, rfl⟩ := h'
  obtain rfl := Except.ok.inj (hread.symm.trans hread')
  rfl

theorem MakesPrelude.not_fails {e : CacheEntry} {err : Error} (h : MakesPrelude v e) :
    ¬ Prelude.Fails v err := by
  obtain ⟨m, hread, herrors, -⟩ := h
  exact fun hfails => hfails.errors_ne_nil hread herrors

theorem MakesPrelude.gives {e : CacheEntry} (h : MakesPrelude v e)
    (hempty : v.session.registry = {}) : Prelude.Gives e.definitions := by
  obtain ⟨m, hread, herrors, rfl⟩ := h
  rw [Prelude.elaborated, hempty] at herrors
  rw [Prelude.elaborated, hempty]
  exact ⟨m, _, hread, herrors, rfl⟩

/-- If the entry of the prelude, where there is one, is what its elaboration comes to, then a new
session has the same from it as from the elaboration. -/
theorem enters_alike {o o' : Option Error} (h : Prelude.Enters w o w') (h' : Prelude.Enters v o' v')
    (hmirrors : Mirrors dir w.session v.session) (hempty : v.session.registry = {})
    (hmakes : ∀ e, EntryAt dir w.disk Primitive.preludeName e → MakesPrelude v e) :
    o = o' ∧ Mirrors dir w'.session v'.session ∧ ∀ n e, EntryAt dir w'.disk n e →
      EntryAt dir w.disk n e ∨ n = Primitive.preludeName ∧ MakesPrelude v e := by
  have hold (hdisk : w'.disk = w.disk) : ∀ n e, EntryAt dir w'.disk n e →
      EntryAt dir w.disk n e ∨ n = Primitive.preludeName ∧ MakesPrelude v e :=
    fun n e hentry => .inl (hdisk ▸ hentry)
  cases h with
  | known hknown =>
    rw [hmirrors.modules] at hknown
    cases h' with
    | known => exact ⟨rfl, hmirrors, hold rfl⟩
    | cached hnew => simp [hknown] at hnew
    | checked hnew => simp [hknown] at hnew
    | failed hnew => simp [hknown] at hnew
  | @cached e _ hnew huse hfinds hadopts hdisk hlog =>
    rw [hmirrors.modules] at hnew
    have he := hmakes e (hfinds.entryAt hmirrors.cachesIn)
    obtain ⟨e', rfl, he', hadopts'⟩ | ⟨err, -, hfails, -⟩ :=
      enters_uncached h' hnew hmirrors.uncached
    · obtain rfl := he.eq he'
      refine ⟨rfl, hmirrors.adopts hadopts hadopts' ?_, hold hdisk⟩
      rw [hmirrors.registry, hempty]
      exact (Prelude.registry_of_gives (he.gives hempty)).symm
    · exact absurd hfails he.not_fails
  | @checked e m _ hnew hnotFound hread herrors he hadopts hstores =>
    rw [hmirrors.modules] at hnew
    rw [hmirrors.elaborated_prelude_eq] at herrors he
    have he' : MakesPrelude v e := ⟨m, hread, herrors, he⟩
    obtain ⟨e', rfl, he'', hadopts'⟩ | ⟨err, -, hfails, -⟩ :=
      enters_uncached h' hnew hmirrors.uncached
    · obtain rfl := he'.eq he''
      refine ⟨rfl, hmirrors.adopts hadopts hadopts' (by rw [hmirrors.registry]), ?_⟩
      intro n e' hentry
      have honly := Prelude.nameOnly_eq_of_gives (he'.gives hempty)
      refine (hstores.entryAt hmirrors.cachesIn honly hentry).imp_right ?_
      rintro ⟨rfl, rfl⟩
      exact ⟨congrArg CacheEntry.module he, he'⟩
    · exact absurd hfails he'.not_fails
  | @failed err _ hnew _ hfails hsettings hregistry hmodules hdisk =>
    rw [hmirrors.modules] at hnew
    have hfails' : Prelude.Fails v err := by
      cases hfails with
      | read hread => exact .read hread
      | elaborated hread herr => exact .elaborated hread (hmirrors.elaborated_prelude_eq _ ▸ herr)
    obtain ⟨e', -, he', -⟩ | ⟨err', rfl, hfails'', hsettings', hregistry', hmodules'⟩ :=
      enters_uncached h' hnew hmirrors.uncached
    · exact absurd hfails' he'.not_fails
    · refine ⟨congrArg some (hfails'.eq hfails''), ⟨?_, ?_, ?_, ?_, ?_⟩, hold hdisk⟩
      · rw [hregistry, hregistry', hmirrors.registry]
      · rw [hmodules, hmodules', hmirrors.modules]
      · rw [hsettings, hsettings', hmirrors.limits]
      · rw [hsettings]
        exact hmirrors.cachesIn
      · rw [hsettings', hmirrors.uncached]

/-- The call fails with the same error, or has the same reports but for what is taken from the
cache. -/
inductive AlikeOutcome :
    Except Error (List ModuleReport) → Except Error (List ModuleReport) → Prop
  | error (err : Error) : AlikeOutcome (.error err) (.error err)
  | ok {rs rs' : List ModuleReport} (h : List.Forall₂ Alike rs rs') :
    AlikeOutcome (.ok rs) (.ok rs')

theorem lookup_alike {rs rs' : List (ℕ × ModuleReport)} (h : List.Forall₂ AlikeAt rs rs') (i : ℕ) :
    Option.Rel Alike (rs.lookup i) (rs'.lookup i) := by
  induction h with
  | nil => exact .none
  | @cons p q rs rs' hp _ ih =>
    rw [List.lookup_cons, List.lookup_cons, hp.1]
    split
    · exact .some hp.2
    · exact ih

/-- Where there is no report of a check, both lists have the same one. -/
theorem ordered_alike {us : List Pending} {rs rs' : List (ℕ × ModuleReport)}
    (h : List.Forall₂ AlikeAt rs rs') : List.Forall₂ Alike (ordered us rs) (ordered us rs') := by
  rw [ordered, ordered, List.forall₂_map_left_iff, List.forall₂_map_right_iff, List.forall₂_same]
  rintro ⟨u, i⟩ -
  dsimp only
  generalize rs.lookup i = o, rs'.lookup i = o', lookup_alike h i = hlookup
  cases hlookup with
  | none => exact .inl rfl
  | some hr => exact hr

/-- The entries of the modules are what their checks come to, unless there is a cycle. -/
def MadeInUnits (S : List Source) (E : String → CacheEntry → Prop) (v : Workspace) : Prop :=
  ∀ ws, ModuleGraph.waves ((units S).map (·.deps)) ((units S).map (·.source.name)) = .ok ws →
    MadeInAll S E ws (setOut (units S) v).2

/-- The entries in a cache are what a call without the cache comes to. -/
structure Faithful (dir : FilePath) (S : List Source) (v : Workspace) (d : Disk) : Prop where
  prelude : ∀ e, EntryAt dir d Primitive.preludeName e → MakesPrelude v e
  modules : (Prelude.ensure v).1 = none → MadeInUnits S (EntryAt dir d) (Prelude.ensure v).2

/-- Once the prelude is there, a call with a cache goes on like one without, and stores no entry but
of modules of the sources. -/
theorem replayed_checkUnits (hS : (S.map (·.name)).Nodup)
    (hmirrors : Mirrors dir w.session v.session) (hmade : MadeInUnits S (EntryAt dir w.disk) v) :
    YieldBoth (checkUnits (units S) none) (checkUnits (units S) none) w v fun o w' o' v' =>
      AlikeOutcome o o' ∧ Mirrors dir w'.session v'.session ∧
        MadeInUnits S (EntryAt dir w'.disk) v ∧
        ∀ e, EntryAt dir w'.disk Primitive.preludeName e →
          EntryAt dir w.disk Primitive.preludeName e := by
  refine .bind (P := fun _ w₁ _ v₁ =>
    v₁ = (setOut (units S) v).2 ∧ Begins w w₁ ∧ Begins v v₁)
    (.of_yields (yields_setOut _ w) (yields_setOut _ v) fun _ w₁ h h' => ⟨rfl, h, h'⟩)
    fun _ w₁ _ v₁ ⟨hv, hbegins, hbegins'⟩ => ?_
  have hmirrors₁ : Mirrors dir w₁.session v₁.session := by
    rw [hbegins.session, hbegins'.session]
    exact hmirrors.forgotten
  rw [← hbegins.disk] at hmade ⊢
  cases hwaves : ModuleGraph.waves ((units S).map (·.deps)) ((units S).map (·.source.name)) with
  | error err => exact .pure ⟨.error err, hmirrors₁, hmade, fun _ => id⟩
  | ok ws =>
    have hnodup : ws.flatten.Nodup := by
      simpa using (ModuleGraph.follows_of_waves hwaves).1.nodup List.nodup_nil
    refine .bind (replayed_waves hS hnodup hmirrors₁ (hv ▸ hmade ws hwaves))
      fun rss w₂ rss' v₂ ⟨hrss, h⟩ => .pure ?_
    refine ⟨.ok (ordered_alike hrss), h.mirrors, fun ws' hwaves' => ?_, fun e he => ?_⟩
    · obtain rfl := Except.ok.inj (hwaves.symm.trans hwaves')
      exact hv ▸ h.made
    · refine (h.others _ e he).resolve_left ?_
      rintro ⟨i, -, hsound⟩
      exact hsound.ne_prelude rfl

/-- With a cache that holds what a call without it comes to, a new session ends like one without,
and the cache holds no more than that again. -/
theorem replayed_checkSources (hS : (S.map (·.name)).Nodup)
    (hmirrors : Mirrors dir w.session v.session) (hempty : v.session.registry = {})
    (hfaithful : Faithful dir S v w.disk) :
    YieldBoth (checkSources S) (checkSources S) w v fun o w' o' v' =>
      AlikeOutcome o o' ∧ Mirrors dir w'.session v'.session ∧ Faithful dir S v w'.disk := by
  rw [checkSources_eq]
  refine .bind (P := fun o w₀ o' v₀ => (o', v₀) = Prelude.ensure v ∧ o = o' ∧
    Mirrors dir w₀.session v₀.session ∧ ∀ n e, EntryAt dir w₀.disk n e →
      EntryAt dir w.disk n e ∨ n = Primitive.preludeName ∧ MakesPrelude v e)
    (.of_yields (Prelude.yields_ensure w) (Prelude.yields_ensure v) fun o w₀ h h' =>
      ⟨rfl, enters_alike h h' hmirrors hempty hfaithful.prelude⟩)
    fun o w₀ o' v₀ ⟨hv, ho, hmirrors₀, hentries⟩ => ?_
  subst ho
  have hprelude : ∀ e, EntryAt dir w₀.disk Primitive.preludeName e → MakesPrelude v e :=
    fun e he => (hentries _ e he).elim (hfaithful.prelude e) And.right
  cases o with
  | some err =>
    refine .pure ⟨.error err, hmirrors₀, hprelude, fun hnone => ?_⟩
    simp [← hv] at hnone
  | none =>
    have hmade : MadeInUnits S (EntryAt dir w₀.disk) v₀ := by
      have hmodules := hfaithful.modules (by rw [← hv])
      rw [← hv] at hmodules
      refine fun ws hwaves => (hmodules ws hwaves).mono fun i _ n e hsound he => ?_
      exact (hentries n e he).resolve_right fun h => hsound.ne_prelude h.1
    obtain ⟨houtcome, hmirrors', hmade', hback⟩ := replayed_checkUnits hS hmirrors₀ hmade
    refine ⟨houtcome, hmirrors', fun e he => hprelude e (hback e he), fun _ => ?_⟩
    rwa [← hv]

/-- The disk after a new session has made the call. -/
def diskAfter (settings : Settings) (S : List Source) (d : Disk) : Disk :=
  (finished S (.opened settings d)).workspace.disk

/-- Whatever number of sessions have made the same call before, with the same settings, a session
that makes it again reports what a session without a cache reports, except that modules are taken
from the cache, and has the same definitions. The cache has to be empty at first, as the instances
of other sources would be seen in entries that were made with them. -/
theorem finished_alike_uncached {settings : Settings} {disk : Disk}
    (hS : (S.map (·.name)).Nodup) (hdir : settings.CachesIn dir)
    (hempty : ∀ n ∈ Named [S], disk.fileAt (disk.placeOf (entryPath dir n)) = none) (k : ℕ) :
    let f := finished S (.opened settings ((diskAfter settings S)^[k] disk))
    let g := finished S (.opened { settings with cacheDir := none } disk)
    AlikeOutcome f.outcome g.outcome ∧
      f.workspace.session.registry = g.workspace.session.registry := by
  have hmirrors (d : Disk) : Mirrors dir (Workspace.opened settings d).session
      (Workspace.opened { settings with cacheDir := none } disk).session :=
    ⟨rfl, rfl, rfl, hdir, rfl⟩
  have hno : ∀ n ∈ Named [S], ∀ e, ¬ EntryAt dir disk n e := by
    rintro n hn e ⟨c, hc, -⟩
    simp [hempty n hn] at hc
  have hstart : Faithful dir S (.opened { settings with cacheDir := none } disk) disk := by
    refine ⟨fun e he => absurd he (hno _ (.inl rfl) e), fun _ ws _ => ?_⟩
    refine Along.of_forall fun wave _ _ => Along.of_forall fun i _ _ u hu _ e he => ?_
    exact absurd he (hno _ (mem_named (by simp) _ (List.mem_of_getElem? (getElem?_units hu))) e)
  have hfaithful : Faithful dir S (.opened { settings with cacheDir := none } disk)
      ((diskAfter settings S)^[k] disk) := by
    induction k with
    | zero => exact hstart
    | succ k ih =>
      rw [Function.iterate_succ_apply']
      exact (replayed_checkSources hS (hmirrors _) rfl ih).2.2
  obtain ⟨houtcome, hmirrors', -⟩ := replayed_checkSources hS (hmirrors _) rfl hfaithful
  exact ⟨houtcome, hmirrors'.registry⟩

/-- A module that calls a function of another one is checked with it in one session after the
other. -/
theorem finished_alike_uncached_constantAndUser (k : ℕ) :
    let settings : Settings := { cacheDir := some ⟨"cache"⟩ }
    let f := finished constantAndUser
      (.opened settings ((diskAfter settings constantAndUser)^[k] {}))
    let g := finished constantAndUser (.opened {} {})
    AlikeOutcome f.outcome g.outcome ∧
      f.workspace.session.registry = g.workspace.session.registry := by
  have hc : Cacheable ⟨"cache"⟩ {} [constantAndUser] := cacheable_constantAndUser (by simp)
  exact finished_alike_uncached (hc.distinct _ List.mem_cons_self)
    (fun p hp => (Option.some.inj hp).symm) hc.empty k

end Calls

end Work

end LeveledTypes
