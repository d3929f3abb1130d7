import LeveledTypes.Proofs.Session.Freshness

/-!
# What is registered after a call

An entry that is valid for a module gives back the definitions that were stored, and these are what
the text of the module gave. So whatever a session has called before, after a call that has reports
the registry has the definitions of the prelude and those that the reported modules gave, and
nothing else.
-/
namespace LeveledTypes

open Relation (ReflTransGen)

namespace Work

variable {dir : FilePath} {disk : Disk} {N : Set String} {S : List Source}
  {sets : List (List Source)} {h : List Finished} {w w' w₁ : Workspace} {P : List Definition}
  {rs : List ModuleReport}

/-- Definitions without names of binders that say more than the text are read back as they were. -/
theorem definitions_nameOnly {e : CacheEntry} (honly : ∀ d ∈ e.definitions, d.nameOnly = d) :
    e.nameOnly.definitions = e.definitions :=
  (List.map_congr_left honly).trans (List.map_id _)

section Modules
variable {s : Stage} {u : Pending} {m : Surface.Module}

/-- The check of a module registers what its text gave, if it has an outcome, and nothing
otherwise. -/
theorem Checks.registers {imports : List String} {r : ModuleReport} (h : Checks u m imports w r w')
    (hread : readSource u.source = .ok m) (hentry : ∀ known e,
      knownDeps w.session.modules (Primitive.preludeName :: imports) = .ok known →
      Finds w u.source.name (u.key known).digest (u.key known).deps e →
      u.source.Gives e.definitions) :
    r.isOk = false ∧ w'.session.registry = w.session.registry ∨ r.isOk = true ∧
    ∃ ds, u.source.Gives ds ∧
      r.names = ds.map (·.name) ∧ w'.session.registry = w.session.registry.insertAll ds := by
  cases h with
  | unreachable hknown hnotes => exact .inl ⟨rfl, by rw [hnotes.session]⟩
  | @cached known e _ hknown hfinds hsession hdisk hlog =>
    exact .inr ⟨rfl, e.definitions, hentry known e hknown hfinds, rfl, by rw [hsession]; rfl⟩
  | failed hknown hnone herrors hnotes => exact .inl ⟨rfl, by rw [hnotes.session]⟩
  | @checked known e _ hknown hnone herrors he hsession hstores =>
    refine .inr ⟨rfl, e.definitions, ⟨m, _, _, _, hread, herrors, ?_⟩, rfl, by rw [hsession]; rfl⟩
    rw [he, elaborated]

/-- What is taken from a valid entry is what the text of the module gave. -/
theorem gives_of_finds {k : Key} {e : CacheEntry} {t : Source} {d : Disk}
    (hc : Cacheable dir disk sets) (hsets : ∀ f ∈ h, f.sources ∈ sets) (hS : S ∈ sets)
    (hrecorded : OnlyRecorded dir (Named sets) h d) (hkeeps : d.Keeps w.disk)
    (hsame : SameEntry dir d w.disk t.name) (hdir : w.session.settings.CachesIn dir)
    (ht : t ∈ S) (hkey : HasKey S t.name k) (htext : k.text = t.text)
    (hfinds : Finds w t.name k.digest k.deps e) :
    t.Gives e.definitions := by
  obtain ⟨p, c, hp, hread, hdecode, -, hvalid⟩ := hfinds
  obtain rfl := hdir p hp
  have hfile := Disk.fileAt_of_read hread
  rw [hkeeps.placeOf_eq] at hfile
  obtain ⟨f, hf, e', hstored, rfl, rfl, hdigest, hdeps⟩ :=
    hrecorded.stored (mem_named hS t ht) hkey (hsame.symm.trans hfile) hdecode hvalid
  obtain ⟨hmodule, t', ht', hname', hgives, hkey', hdigest'⟩ := hstored.hasKey
  have hkeys : (⟨t'.text, e'.deps⟩ : Key) = k :=
    hc.keys _ (hsets f hf) S hS t.name _ _ hkey' hkey (hdigest'.symm.trans hdigest)
  rw [definitions_nameOnly hgives.nameOnly_eq]
  exact hgives.congr hname' ((congrArg Key.text hkeys).trans htext)

/-- At each stage of a call the registry has what was reported so far. -/
theorem Ready.holds (hc : Cacheable dir disk sets) (hsets : ∀ f ∈ h, f.sources ∈ sets)
    (hS : S ∈ sets) (hready : Ready dir disk (Named sets) h w₁)
    (hholds : Holds P [] w₁.session.registry)
    (hsteps : ReflTransGen (Stage.Step (units S)) ⟨[], [], w₁⟩ s) :
    Holds P (s.reports.map (·.2)) s.workspace.session.registry := by
  have hnodup := hc.distinct S hS
  have hplaces := hc.places.of_keeps hready.keeps
  induction hsteps with
  | refl => exact hholds
  | @tail t _ hrest hstep ih =>
    have hvalid := Valid.of_steps hnodup (mem_named hS) hready.cachesIn hplaces hready.modules hrest
    cases hstep with
    | publish =>
      rw [registry_publish]
      simpa [Stage.reports] using ih
    | @check i u m r v hu hm herrors hnew hdeps hchecks =>
      have husource := getElem?_units hu
      have hmem := List.mem_of_getElem? husource
      have hdir := hvalid.continues.cachesIn hready.cachesIn
      obtain ⟨-, -, hsource, -⟩ :=
        hchecks.effect hdir (hplaces.of_keeps hvalid.continues.keeps) (mem_named hS _ hmem)
      have hothers := hvalid.name_ne_of_new hnodup husource hnew
      have hentry : ∀ known e, knownDeps t.workspace.session.modules
          (Primitive.preludeName :: importNames (units S) u) =
          .ok known → Finds t.workspace u.source.name (u.key known).digest (u.key known).deps e →
          u.source.Gives e.definitions := by
        intro known e hknown hfinds
        have hkey := hasKey_of_known hu hm herrors (fun n k => hvalid.digested) hknown
        exact gives_of_finds hc hsets hS hready.recorded hvalid.continues.keeps
          (hvalid.others _ (mem_named hS _ hmem) hothers) hdir hmem hkey rfl hfinds
      rw [Stage.reports, ← List.append_assoc, List.map_append, List.map_singleton]
      obtain ⟨hok, hregistry⟩ | ⟨hok, ds, hgives, hnames, hregistry⟩ :=
        hchecks.registers (unit_sound hu hm herrors).1 hentry
      · rw [hregistry]
        exact ih.append_failed hok
      · rw [hregistry]
        refine ih.insert (hsource ▸ hgives) hnames hok fun p hp hname => ?_
        obtain ⟨q, hq, rfl⟩ := List.mem_map.mp hp
        exact hothers q hq (hname.trans (congrArg Source.name hsource))

end Modules

section Sessions

/-- The session has the prelude and what came of the modules with these reports, and nothing
else. -/
structure Settled (rs : List ModuleReport) (P : List Definition) (t : Session) : Prop where
  gives : Prelude.Gives P
  holds : Holds P rs t.registry
  knows : Knows rs t
  name_ne : ∀ r ∈ rs, r.name ≠ Primitive.preludeName

/-- Loading the prelude registers its definitions over the primitives or over nothing, and the
registry is exactly these. -/
theorem settled_of_adopts (hP : Prelude.Gives P) (hw : Primed w)
    (hnew : w.session.modules.contains Primitive.preludeName = false) {R : Registry}
    (hR : R = {} ∨ R = Prelude.primitives) (hadopts : Prelude.Adopts w R P w') :
    Settled [] P w'.session := by
  have hregistry : w'.session.registry = Prelude.registry P := by
    rw [hadopts.registry]
    obtain rfl | rfl := hR
    · rfl
    · exact Prelude.registry_of_gives hP
  refine ⟨hP, hregistry ▸ holds_nil hP, ⟨by simp, fun n k hk => ?_⟩, by simp⟩
  rw [hadopts.modules, Std.HashMap.getElem?_insert] at hk
  split at hk
  case isTrue hn => exact .inl (beq_iff_eq.mp hn).symm
  case isFalse => simp [(hw.fresh hnew).1 n] at hk

/-- Bringing the prelude into a session settles it. -/
theorem Stands.settled_of_enters (hstands : Stands dir disk N h w)
    (hprelude : Primitive.preludeName ∈ N)
    (hsettled : w.session.modules.contains Primitive.preludeName = true →
      ∃ rs P, Settled rs P w.session)
    (henters : Prelude.Enters w none w') : ∃ rs P, Settled rs P w'.session := by
  have hw := hstands.primed
  cases henters with
  | known hknown => exact hsettled hknown
  | @cached e _ hnew huse hfinds hadopts hdisk hlog =>
    obtain ⟨p, c, hp, hread, hdecode, -⟩ := hfinds
    obtain rfl := hstands.cachesIn p hp
    obtain ⟨e', rfl, hfits, hrecorded⟩ := hstands.recorded _ hprelude c (Disk.fileAt_of_read hread)
    obtain rfl := eq_nameOnly_of_decode hfits hdecode
    cases hrecorded with
    | module hf hstored =>
      obtain ⟨-, s, -, -, -, hkey, -⟩ := hstored.hasKey
      exact absurd rfl hkey.ne_prelude
    | prelude _ hmodule hdigest hdeps hgives =>
      rw [definitions_nameOnly (Prelude.nameOnly_eq_of_gives hgives)] at hadopts
      exact ⟨[], _, settled_of_adopts hgives hw hnew (hw.fresh hnew).2 hadopts⟩
  | @checked e m _ hnew hnone hread herrors he hadopts hstores =>
    rw [hw.insertAll_primitives hnew] at hadopts
    exact ⟨[], _, settled_of_adopts (hw.gives hnew hread herrors he) hw hnew (.inr rfl) hadopts⟩

theorem Settled.begins {rs : List ModuleReport} (hw : Settled rs P w.session)
    (hbegins : Begins w w') : Settled [] P w'.session := by
  refine ⟨hw.gives, ?_, ⟨by simp, fun n k hk => ?_⟩, by simp⟩
  · rw [hbegins.session]
    exact hw.holds.forgotten hw.knows hw.name_ne
  · rw [hbegins.session, getElem?_forgotten] at hk
    split at hk
    case isTrue hn => exact .inl hn
    case isFalse => simp at hk

/-- Each report registers what it says, so after the steps of a call the registry has the prelude
and the reported modules. -/
theorem Checked.settled {rs : List (ℕ × ModuleReport)} (hc : Cacheable dir disk sets)
    (hsets : ∀ f ∈ h, f.sources ∈ sets) (hS : S ∈ sets)
    (hchecked : Checked dir disk (Named sets) h S rs w₁ w') (hsettled : Settled [] P w₁.session) :
    Settled (rs.map (·.2)) P w'.session := by
  have hvalid := hchecked.valid
  have hreports : (Stage.mk rs [] w').reports = rs := List.append_nil rs
  have hholds := hchecked.ready.holds hc hsets hS hsettled.holds hchecked.steps
  have hknows := hvalid.knows rfl
  rw [hreports] at hholds hknows
  refine ⟨hsettled.gives, hholds, hknows, fun r hr => ?_⟩
  obtain ⟨p, hp, rfl⟩ := List.mem_map.mp hr
  exact hvalid.name_ne_prelude (List.mem_append_left _ hp)

/-- What a call with reports leaves in the registry. -/
def Finished.Registers (f : Finished) : Prop :=
  ∀ rs, f.outcome = .ok rs → ∃ P, Prelude.Gives P ∧ Holds P rs f.workspace.session.registry

/-- What a call registers is what its reports say. The session is settled in between, so the next
call starts from the prelude again. -/
theorem Ends.settled {f : Finished} (hc : Cacheable dir disk sets)
    (hsets : ∀ f ∈ h, f.sources ∈ sets) (hS : S ∈ sets) (hstands : Stands dir disk (Named sets) h w)
    (hsettled : w.session.modules.contains Primitive.preludeName = true →
      ∃ rs P, Settled rs P w.session)
    (hends : Ends dir disk (Named sets) h S w f.outcome f.workspace) :
    f.Registers ∧
      (f.workspace.session.modules.contains Primitive.preludeName = true →
        ∃ rs P, Settled rs P f.workspace.session) := by
  obtain ⟨sources, outcome, v⟩ := f
  have hbegin {w₀ w₁ : Workspace} (henters : Prelude.Enters w none w₀) (hbegins : Begins w₀ w₁) :
      ∃ P, Settled [] P w₁.session := by
    obtain ⟨rs, P, hsettled⟩ := hstands.settled_of_enters (.inl rfl) hsettled henters
    exact ⟨P, hsettled.begins hbegins⟩
  cases hends with
  | refused henters hstands' hcontinues =>
    refine ⟨fun rs hrs => ?_, fun hcontains => ?_⟩
    · simp at hrs
    · cases henters with
      | failed hnew _ _ _ _ hmodules =>
        rw [hmodules, hnew] at hcontains
        simp at hcontains
  | cyclic henters hbegins hwaves hready hcontinues =>
    refine ⟨fun rs hrs => ?_, fun _ => ⟨[], hbegin henters hbegins⟩⟩
    simp at hrs
  | @done w₀ w₁ _ ws rs henters hbegins hwaves hchecked hcontinues =>
    obtain ⟨P, hP⟩ := hbegin henters hbegins
    have hsettled' := hchecked.settled hc hsets hS hP
    refine ⟨fun rs' hrs' => ⟨P, hsettled'.gives, ?_⟩, fun _ => ⟨_, _, hsettled'⟩⟩
    obtain rfl := Except.ok.inj hrs'
    exact hsettled'.holds.congr fun r hok => (hchecked.valid.mem_ordered hok).symm

/-- Whatever has been called, a session that has the prelude is settled. -/
theorem History.settled (hist : History dir disk h w) (hc : Cacheable dir disk sets)
    (hsets : ∀ f ∈ h, f.sources ∈ sets) :
    w.session.modules.contains Primitive.preludeName = true → ∃ rs P, Settled rs P w.session := by
  induction hist with
  | start => simp [Workspace.opened]
  | restart => simp [Workspace.opened]
  | @call h w S hist ih =>
    obtain ⟨hS, hsets⟩ := List.forall_mem_cons.mp hsets
    have hstands := hist.stands hc hsets
    have hends := hstands.call hc.places (.inl rfl) (hc.distinct S hS) (mem_named hS)
    exact (hends.settled hc hsets hS hstands (ih hsets)).2

/-- After a call that has reports, whatever was called before, the registry has exactly what was
reported. -/
theorem finished_registers (hist : History dir disk h w)
    (hc : Cacheable dir disk (S :: h.map (·.sources))) : (finished S w).Registers :=
  ((hist.ends hc).settled hc sources_mem List.mem_cons_self (hist.stands hc sources_mem)
    (hist.settled hc sources_mem)).1

/-- A module that calls a function of another one is checked with it by a session, and twice by a
second session, which finds the entries of the first. -/
theorem finished_registers_constantAndUser :
    let settings : Settings := { cacheDir := some ⟨"cache"⟩ }
    let f := finished constantAndUser (.opened settings {})
    let g := finished constantAndUser (.opened settings f.workspace.disk)
    Cacheable ⟨"cache"⟩ {} [constantAndUser, constantAndUser, constantAndUser] ∧
      (finished constantAndUser g.workspace).Registers := by
  intro settings f g
  have hdir : settings.CachesIn ⟨"cache"⟩ := by
    intro p hp
    exact (Option.some.inj hp).symm
  have hist : History ⟨"cache"⟩ {} [g, f] g.workspace :=
    .call constantAndUser (.restart hdir (.call constantAndUser (.start hdir)))
  have hc : Cacheable ⟨"cache"⟩ {} [constantAndUser, constantAndUser, constantAndUser] :=
    cacheable_constantAndUser (by simp)
  exact ⟨hc, finished_registers hist hc⟩

end Sessions

end Work

end LeveledTypes
