import LeveledTypes.Proofs.Session.Freshness

/-!
# Calling again

When a call has ended and all entries could be stored, the entry of each module with an outcome is
there and valid. So a new session that makes the same call takes all these modules from the cache,
each with the digest and the names it had.
-/
namespace LeveledTypes

open Relation (ReflTransGen)

namespace Work

variable {dir : FilePath} {disk : Disk} {N : Set String} {S : List Source}
  {sets : List (List Source)} {h : List Finished} {w w' w₁ : Workspace} {n : String}

theorem Finds.eq {d : Digest} {deps : List Dependency} {e e' : CacheEntry} (h : Finds w n d deps e)
    (h' : Finds w n d deps e') : e = e' := by
  obtain ⟨p, c, hp, hread, hdecode, -⟩ := h
  obtain ⟨p', c', hp', hread', hdecode', -⟩ := h'
  obtain rfl := Option.some.inj (hp.symm.trans hp')
  obtain rfl := Except.ok.inj (hread.symm.trans hread')
  exact Except.ok.inj (hdecode.symm.trans hdecode')

/-- The cache has a valid entry for the module of the report, with the names that the report has. -/
def Kept (S : List Source) (w : Workspace) (r : ModuleReport) : Prop :=
  ∃ k e, HasKey S r.name k ∧ r.digest = some k.digest ∧ Finds w r.name k.digest k.deps e ∧
    r.names = e.definitions.map (·.name)

/-- If nothing failed to be stored, the entry of a module with an outcome is there. -/
theorem Accounted.kept {d : Disk} {r : ModuleReport} (h : Accounted dir S d w r)
    (hok : r.isOk = true) (hcache : w.session.settings.cacheDir = some dir)
    (hlog : ∀ n p, .entryNotStored n p ∉ w.log) : Kept S w r := by
  cases h with
  | failed hfailed => simp [hok] at hfailed
  | @cached k c e hstatus hkey hdigest hfile hread hdecode hmodule hvalid hnames =>
    exact ⟨k, e, hkey, hdigest, ⟨dir, c, hcache, hread, hdecode, hmodule, hvalid⟩, hnames⟩
  | @checked e hstatus hentry hdigest hnames hfile hstored =>
    obtain ⟨hfits, hread⟩ := hstored hcache fun p => hlog _ p
    have hdecode : CacheEntry.decode (⟨e.encode.toArray⟩ : ByteArray).toList = .ok e.nameOnly := by
      rw [toList_toArray]
      exact CacheEntry.decode_encode hfits
    refine ⟨⟨r.source.text, e.deps⟩, e.nameOnly, hentry.key, hentry.digest ▸ hdigest, ?_, ?_⟩
    · exact ⟨dir, _, hcache, hread, hdecode, hentry.module, hentry.digest, rfl⟩
    · rw [hnames]
      simp only [CacheEntry.nameOnly, List.map_map]
      rfl

theorem Kept.later {r : ModuleReport} (h : Kept S w r) (hdir : w.session.settings.CachesIn dir)
    (hlater : Continues w w') (hsame : SameEntry dir w.disk w'.disk r.name) : Kept S w' r := by
  obtain ⟨k, e, hkey, hdigest, hfinds, hnames⟩ := h
  exact ⟨k, e, hkey, hdigest, hfinds.later hdir hlater hsame, hnames⟩

/-- A module is reported as it was before, from the cache if it had an outcome. -/
structure Repeats (r r' : ModuleReport) : Prop where
  source : r'.source = r.source
  cached : r.isOk = true → r'.status = .cached ∧ r'.digest = r.digest ∧ r'.names = r.names

theorem Repeats.name {r r' : ModuleReport} (h : Repeats r r') : r'.name = r.name :=
  congrArg Source.name h.source

theorem exists_known {modules : Std.HashMap String KnownModule} {ns : List String}
    (h : ∀ n ∈ ns, ∃ k, modules[n]? = some k) : ∃ known, knownDeps modules ns = .ok known := by
  induction ns with
  | nil => exact ⟨[], rfl⟩
  | cons n ns ih =>
    obtain ⟨⟨k, hk⟩, hns⟩ := List.forall_mem_cons.mp h
    obtain ⟨known, hknown⟩ := ih hns
    exact ⟨(n, k) :: known, by simp [knownDeps, hk, hknown, bind, Except.bind, pure, Except.pure]⟩

section Simulation
variable {s₁ s : Stage}

/-- What the module at a place imports is known when it is checked again. -/
theorem exists_known_again (hS : (S.map (·.name)).Nodup) {v₁ : Workspace}
    (hvalid : Valid dir N S w₁ s₁) (hagain : Valid dir N S v₁ s)
    (hcontains : v₁.session.modules.contains Primitive.preludeName = true)
    (hrepeats : ∀ p ∈ s.reports, ∀ r, (p.1, r) ∈ s₁.reports → Repeats r p.2) {i : ℕ}
    {r : ModuleReport} (hr : (i, r) ∈ s₁.reports) (hok : r.isOk = true) {u : Pending}
    (hu : (units S)[i]? = some u) (hdeps : ∀ d ∈ u.deps, ∀ v, (units S)[d]? = some v → v.Sound →
      d ∈ s.published.map (·.1)) :
    ∃ known, knownDeps s.workspace.session.modules
      (Primitive.preludeName :: importNames (units S) u) = .ok known := by
  refine exists_known (List.forall_mem_cons.mpr ⟨?_, fun n hn => ?_⟩)
  · rw [hagain.prelude_known]
    rwa [Std.HashMap.contains_eq_isSome_getElem?, Option.isSome_iff_exists] at hcontains
  · obtain ⟨q, hq, hqok, rfl⟩ := hvalid.imports _ hr hok u hu n hn
    have hq' : q ∈ s₁.reports := List.mem_append_left _ hq
    obtain ⟨v, hv, hsound, hsource⟩ := hvalid.source q hq'
    obtain ⟨d, hd, hname⟩ := List.mem_filterMap.mp hn
    obtain ⟨v', hv', hname⟩ := Option.map_eq_some_iff.mp hname
    obtain rfl : d = q.1 :=
      index_eq_of_name_eq hS (getElem?_units hv') (getElem?_units hv)
        (hname.trans (congrArg Source.name hsource))
    obtain ⟨p, hp, hpq⟩ := List.mem_map.mp (hdeps q.1 hd v hv hsound)
    have hp' : p ∈ s.reports := List.mem_append_left _ hp
    have hrepeat := hrepeats p hp' q.2 (hpq ▸ hq')
    have hpok : p.2.isOk = true := by
      simp [ModuleReport.isOk, ModuleStatus.isOk, (hrepeat.cached hqok).1]
    obtain ⟨k, hk, -⟩ := hagain.learned p hp hpok
    exact ⟨k, hrepeat.name ▸ hk⟩

/-- A module with an outcome whose entry has been kept is taken from the cache. -/
theorem Checks.repeats (hS : (S.map (·.name)).Nodup) {i : ℕ} {u : Pending} {m : Surface.Module}
    {r r' : ModuleReport} {known : List (String × KnownModule)} (hu : (units S)[i]? = some u)
    (hm : u.module = some m) (herrors : u.errors = []) (hsource : r.source = u.source)
    (hdigested : ∀ n k, w.session.modules[n]? = some k → Digested S n k.digest)
    (hknown : knownDeps w.session.modules
      (Primitive.preludeName :: importNames (units S) u) = .ok known)
    (hkept : Kept S w r) (h : Checks u m (importNames (units S) u) w r' w') :
    r'.source = r.source ∧ r'.status = .cached ∧ r'.digest = r.digest ∧ r'.names = r.names := by
  obtain ⟨k, e, hkey, hdigest, hfinds, hnames⟩ := hkept
  have hname : r.name = u.source.name := congrArg Source.name hsource
  rw [hname] at hkey hfinds
  obtain rfl : k = u.key known := hkey.eq hS (hasKey_of_known hu hm herrors hdigested hknown)
  have hsame {known' : List (String × KnownModule)}
      (hknown' : knownDeps w.session.modules
        (Primitive.preludeName :: importNames (units S) u) = .ok known') :
      known = known' := Except.ok.inj (hknown.symm.trans hknown')
  cases h with
  | unreachable hknown' => simp [hknown] at hknown'
  | cached hknown' hfinds' =>
    obtain rfl := hsame hknown'
    rw [hfinds'.eq hfinds, hdigest, hnames]
    exact ⟨hsource.symm, rfl, rfl, rfl⟩
  | failed hknown' hnone =>
    obtain rfl := hsame hknown'
    exact absurd hfinds (hnone e)
  | checked hknown' hnone =>
    obtain rfl := hsame hknown'
    exact absurd hfinds (hnone e)

/-- The modules of a call that is made again are reported as they were. -/
theorem Checked.repeats {h' : List Finished} {rs rs' : List (ℕ × ModuleReport)}
    {v₁ v' : Workspace} {disk' : Disk} (hS : (S.map (·.name)).Nodup) (hN : ∀ t ∈ S, t.name ∈ N)
    (hplaces : PlacesDiffer disk' dir N) (hchecked : Checked dir disk N h S rs w₁ w')
    (hagain : Checked dir disk' N h' S rs' v₁ v') (hkept : ∀ p ∈ rs, p.2.isOk = true →
      Kept S v₁ p.2) {s : Stage}
    (hsteps : ReflTransGen (Stage.Step (units S)) ⟨[], [], v₁⟩ s) :
    ∀ p ∈ s.reports, ∀ r, (p.1, r) ∈ rs → Repeats r p.2 := by
  have hfirst := hchecked.valid
  have hmem {p : ℕ × ModuleReport} (hp : p ∈ rs) : p ∈ (Stage.mk rs [] w').reports :=
    List.mem_append_left _ hp
  have hplaces' := hplaces.of_keeps hagain.ready.keeps
  induction hsteps with
  | refl => simp [Stage.reports]
  | @tail t _ hrest hstep ih =>
    have hvalid := Valid.of_steps hS hN hagain.ready.cachesIn hplaces' hagain.ready.modules hrest
    cases hstep with
    | publish =>
      intro p hp
      exact ih p (by simpa [Stage.reports] using hp)
    | @check i u m r' v hu hm herrors hnew hdeps hchecks =>
      have humem : u.source.name ∈ N := hN _ (List.mem_of_getElem? (getElem?_units hu))
      have hdir' := hvalid.continues.cachesIn hagain.ready.cachesIn
      obtain ⟨-, -, hsource', -⟩ :=
        hchecks.effect hdir' (hplaces'.of_keeps hvalid.continues.keeps) humem
      intro p hp r hr
      have hp' : p ∈ t.reports ∨ p = (i, r') := by simpa [Stage.reports, or_assoc] using hp
      obtain hp | rfl := hp'
      · exact ih p hp r hr
      · obtain ⟨u', hu', -, hsource⟩ := hfirst.source _ (hmem hr)
        obtain rfl : u = u' := Option.some.inj (hu.symm.trans hu')
        refine ⟨hsource'.trans hsource.symm, fun hok => ?_⟩
        obtain ⟨known, hknown⟩ := exists_known_again hS hfirst hvalid hagain.ready.contains
          (fun p hp r hr => ih p hp r (by simpa [Stage.reports] using hr)) (hmem hr) hok hu hdeps
        have hname : r.name = u.source.name := congrArg Source.name hsource
        have hothers : SameEntry dir v₁.disk t.workspace.disk r.name := by
          rw [hname]
          exact hvalid.others _ humem (hvalid.name_ne_of_new hS (getElem?_units hu) hnew)
        have hkept' := (hkept _ hr hok).later hagain.ready.cachesIn hvalid.continues hothers
        exact (hchecks.repeats hS hu hm herrors hsource
          (fun n k => hvalid.digested) hknown hkept').2

end Simulation

/-- The second call reports all modules as the first one did, those with an outcome from the
cache. -/
def Finished.RepeatedBy (f g : Finished) : Prop :=
  ∀ rs, f.outcome = .ok rs → ∃ rs', g.outcome = .ok rs' ∧ List.Forall₂ Repeats rs rs'

/-- Both lists have the sources in the order of the call, so that reports that belong to each other
stand at the same places. -/
theorem forall₂_ordered {rs rs' : List (ℕ × ModuleReport)} (hrs : (rs.map (·.1)).Nodup)
    (hrs' : (rs'.map (·.1)).Nodup) (hsources : ∀ p ∈ rs', ∃ u, (units S)[p.1]? = some u ∧
      p.2.source = u.source)
    (hcover : ∀ p ∈ rs, p.1 ∈ rs'.map (·.1)) (hrepeats : ∀ p ∈ rs', ∀ r, (p.1, r) ∈ rs →
      Repeats r p.2) :
    List.Forall₂ Repeats (ordered (units S) rs) (ordered (units S) rs') := by
  rw [ordered, ordered, List.forall₂_map_left_iff, List.forall₂_map_right_iff, List.forall₂_same]
  rintro ⟨u, i⟩ hu
  have hu' := List.mk_mem_zipIdx_iff_getElem?.mp hu
  dsimp only
  cases hlookup : rs.lookup i with
  | some r =>
    have hr := (lookup_eq_some hrs).mp hlookup
    obtain ⟨⟨j, r'⟩, hp, rfl⟩ := List.mem_map.mp (hcover _ hr)
    rw [(lookup_eq_some hrs').mpr hp]
    exact hrepeats _ hp r hr
  | none =>
    refine ⟨?_, by simp [ModuleReport.isOk, ModuleStatus.isOk]⟩
    cases hlookup' : rs'.lookup i with
    | none => rfl
    | some r' =>
      obtain ⟨v, hv, hsource⟩ := hsources _ ((lookup_eq_some hrs').mp hlookup')
      obtain rfl : u = v := Option.some.inj (hu'.symm.trans hv)
      exact hsource

/-- When a call has been made again up to the check of its modules, the entries are there still. -/
theorem Checked.kept_again {h' : List Finished} {rs : List (ℕ × ModuleReport)} {v₀ v₁ : Workspace}
    (hchecked : Checked dir disk N h S rs w₁ w') (hstands : Stands dir disk N h' w')
    (henters : Prelude.Enters w'.reopened none v₀) (hbegins : Begins v₀ v₁)
    (hcontinues : Continues w'.reopened v₁) (hplaces : PlacesDiffer disk dir N)
    (hprelude : Primitive.preludeName ∈ N) (hN : ∀ t ∈ S, t.name ∈ N)
    (hcache : w'.session.settings.cacheDir = some dir)
    (hlog : ∀ n p, .entryNotStored n p ∉ w'.log) : ∀ p ∈ rs, p.2.isOk = true → Kept S v₁ p.2 := by
  intro p hp hok
  have hmem : p ∈ (Stage.mk rs [] w').reports := List.mem_append_left _ hp
  have hsource := List.mem_of_getElem? (hchecked.valid.getElem?_source hmem)
  have hkept : Kept S w'.reopened p.2 := (hchecked.valid.accounted p hmem).kept hok hcache hlog
  have hsame : SameEntry dir w'.disk v₀.disk p.2.name :=
    sameEntry_of_enters (w := w'.reopened) (primed_opened _ _) henters
    hstands.cachesIn (hplaces.of_keeps hstands.keeps) hprelude (hN _ hsource)
      (hchecked.valid.name_ne_prelude hmem)
  have hsame' : SameEntry dir w'.disk v₁.disk p.2.name := by
    rw [SameEntry, hbegins.disk]
    exact hsame
  exact hkept.later hstands.cachesIn hcontinues hsame'

/-- The modules of a call that is made again have the reports that say so. -/
theorem Checked.forall₂_again {h' : List Finished} {rs rs' : List (ℕ × ModuleReport)}
    {v₁ v' : Workspace} (hchecked : Checked dir disk N h S rs w₁ w')
    (hagain : Checked dir disk N h' S rs' v₁ v') (hS : (S.map (·.name)).Nodup)
    (hN : ∀ t ∈ S, t.name ∈ N) (hplaces : PlacesDiffer disk dir N)
    (hkept : ∀ p ∈ rs, p.2.isOk = true → Kept S v₁ p.2) :
    List.Forall₂ Repeats (ordered (units S) rs) (ordered (units S) rs') := by
  have hrepeats := hchecked.repeats hS hN hplaces hagain hkept hagain.steps
  refine forall₂_ordered hchecked.valid.nodup_fst hagain.valid.nodup_fst (fun p hp => ?_)
    (fun p hp => ?_) fun p hp => hrepeats p (List.mem_append_left _ hp)
  · obtain ⟨u, hu, -, hsource⟩ := hagain.valid.source p (List.mem_append_left _ hp)
    exact ⟨u, hu, hsource⟩
  · obtain ⟨u, hu, hsound, -⟩ := hchecked.valid.source p (List.mem_append_left _ hp)
    exact hagain.cover _ u hu hsound

/-- After a call in which every entry could be stored, the entry of each module with an outcome is
valid for it, and the new session finds it. -/
theorem repeatedBy (hist : History dir disk h w) (hc : Cacheable dir disk (S :: h.map (·.sources)))
    (hcache : w.session.settings.cacheDir = some dir)
    (hlog : ∀ n p, .entryNotStored n p ∉ (finished S w).workspace.log) :
    (finished S w).RepeatedBy (finished S (finished S w).workspace.reopened) := by
  have hS : S ∈ S :: h.map (·.sources) := List.mem_cons_self
  have hends := hist.ends hc
  have hstands := hends.stands (.inl rfl) rfl
  have hagain : Ends dir disk (Named (S :: h.map (·.sources))) (finished S w :: h) S
      (finished S w).workspace.reopened
      (finished S (finished S w).workspace.reopened).outcome
      (finished S (finished S w).workspace.reopened).workspace :=
    (hstands.opened hstands.cachesIn).call hc.places (.inl rfl) (hc.distinct S hS) (mem_named hS)
  have hcontinues := hends.continues
  intro reports houtcome
  rw [houtcome] at hends
  generalize (finished S w).workspace = w' at hends hstands hagain hlog hcontinues
  cases hends with
  | done henters hbegins hwaves hchecked =>
    generalize (finished S w'.reopened).outcome = outcome,
      (finished S w'.reopened).workspace = v' at hagain ⊢
    cases hagain with
    | refused henters' =>
      exact absurd henters' ((primed_opened _ _).not_refused
        (hstands.primed.again hchecked.contains))
    | cyclic _ _ hwaves' => simp [hwaves] at hwaves'
    | done henters' hbegins' hwaves' hchecked' hcontinues' =>
      have hkept := hchecked.kept_again hstands henters' hbegins' hcontinues' hc.places
        (.inl rfl) (mem_named hS) (by rwa [hcontinues.settings]) hlog
      exact ⟨_, rfl, hchecked.forall₂_again hchecked' (hc.distinct S hS)
        (mem_named hS) hc.places hkept⟩

/-- What a call takes from the cache has the same texts below it as when it was checked. If the call
is made again in a new session, all modules with an outcome are taken from the cache, unless the log
of the call says that an entry could not be stored. -/
theorem takesFresh_and_repeatedBy (hist : History dir disk h w)
    (hc : Cacheable dir disk (S :: h.map (·.sources)))
    (hcache : w.session.settings.cacheDir = some dir) : (finished S w).TakesFresh dir h ∧
    ((∃ n p, .entryNotStored n p ∈ (finished S w).workspace.log) ∨
      (finished S w).RepeatedBy (finished S (finished S w).workspace.reopened)) := by
  refine ⟨takesFresh hist hc, ?_⟩
  by_cases hlog : ∃ n p, .entryNotStored n p ∈ (finished S w).workspace.log
  · exact .inl hlog
  · exact .inr (repeatedBy hist hc hcache fun n p hp => hlog ⟨n, p, hp⟩)

/-- A module that calls a function of another one is checked with it, and then once more in another
session. -/
theorem takesFresh_and_repeatedBy_constantAndUser :
    let settings : Settings := { cacheDir := some ⟨"cache"⟩ }
    let f := finished constantAndUser (.opened settings {})
    let g := finished constantAndUser (.opened settings f.workspace.disk)
    Cacheable ⟨"cache"⟩ {} [constantAndUser, constantAndUser] ∧ g.TakesFresh ⟨"cache"⟩ [f] ∧
      ((∃ n p, .entryNotStored n p ∈ g.workspace.log) ∨
        g.RepeatedBy (finished constantAndUser g.workspace.reopened)) := by
  intro settings f g
  have hdir : settings.CachesIn ⟨"cache"⟩ := by
    intro p hp
    exact (Option.some.inj hp).symm
  have hist : History ⟨"cache"⟩ {} [f] (.opened settings f.workspace.disk) :=
    .restart hdir (.call constantAndUser (.start hdir))
  have hc : Cacheable ⟨"cache"⟩ {} [constantAndUser, constantAndUser] :=
    cacheable_constantAndUser (by simp)
  exact ⟨hc, takesFresh_and_repeatedBy hist hc rfl⟩

end Work

end LeveledTypes
