import LeveledTypes.Proofs.Session.Registered

/-!
# Sessions with and without the cache

A session that uses the cache gets to reports whenever one without it does. Both refuse the same
modules with the same errors, and a module that has an outcome in both has the same digest and
brings the same names. Whether a module has an outcome may still depend on the cache, as an entry
can have been made where other instances were registered.
-/
namespace LeveledTypes

/-- A new session with the same settings, on the disk as it is, that does not use the cache. -/
def Workspace.uncached (w : Workspace) : Workspace :=
  .opened { w.session.settings with cacheDir := none } w.disk

namespace Work

variable {dir : FilePath} {disk : Disk} {N : Set String} {S : List Source} {h : List Finished}
  {w w' w₁ : Workspace}

section Ordered
variable {rs : List (ℕ × ModuleReport)} {i : ℕ} {r : ModuleReport}

theorem getElem?_ordered (us : List Pending) (rs : List (ℕ × ModuleReport)) (i : ℕ) :
    (ordered us rs)[i]? = (us[i]?).map fun u =>
    (rs.lookup i).getD { source := u.source, status := .failed, errors := u.errors } := by
  simp only [ordered, List.getElem?_map, List.getElem?_zipIdx, Option.map_map, Nat.zero_add]
  rfl

/-- A report with an outcome is that of the check of its module. -/
theorem Valid.mem_of_getElem?_ordered (h : Valid dir N S w₁ ⟨rs, [], w'⟩)
    (hr : (ordered (units S) rs)[i]? = some r) (hok : r.isOk = true) : (i, r) ∈ rs := by
  rw [getElem?_ordered] at hr
  obtain ⟨u, -, rfl⟩ := Option.map_eq_some_iff.mp hr
  cases hlookup : rs.lookup i with
  | none => simp [hlookup, ModuleReport.isOk, ModuleStatus.isOk] at hok
  | some r => exact (lookup_eq_some h.nodup_fst).mp hlookup

/-- A module that was refused has no other report than that. -/
theorem Valid.getElem?_ordered_of_not_sound (h : Valid dir N S w₁ ⟨rs, [], w'⟩) {u : Pending}
    (hu : (units S)[i]? = some u) (hunsound : ¬ u.Sound) :
    (ordered (units S) rs)[i]? =
      some { source := u.source, status := .failed, errors := u.errors } := by
  rw [getElem?_ordered, hu, Option.map_some]
  cases hlookup : rs.lookup i with
  | none => rfl
  | some r =>
    obtain ⟨v, hv, hsound, -⟩ :=
      h.source _ (List.mem_append_left _ ((lookup_eq_some h.nodup_fst).mp hlookup))
    obtain rfl : u = v := Option.some.inj (hu.symm.trans hv)
    exact absurd hsound hunsound

/-- There is a report for each source, in their order. -/
theorem Valid.map_source_ordered (h : Valid dir N S w₁ ⟨rs, [], w'⟩) :
    (ordered (units S) rs).map (·.source) = S := by
  refine List.ext_getElem? fun i => ?_
  rw [List.getElem?_map, getElem?_ordered, ← map_source_units S, List.getElem?_map,
    map_source_units, Option.map_map]
  cases hu : (units S)[i]? with
  | none => rfl
  | some u =>
    simp only [Option.map_some, Function.comp_apply, Option.some.injEq]
    cases hlookup : rs.lookup i with
    | none => rfl
    | some r =>
      obtain ⟨v, hv, -, hsource⟩ :=
        h.source _ (List.mem_append_left _ ((lookup_eq_some h.nodup_fst).mp hlookup))
      obtain rfl : u = v := Option.some.inj (hu.symm.trans hv)
      exact hsource

end Ordered

/-- What the reports of two calls on the same sources have in common. -/
structure Agree (S : List Source) (rs rs' : List ModuleReport) : Prop where
  sources : rs.map (·.source) = S ∧ rs'.map (·.source) = S
  /-- A module that cannot be read, or imports one that is not there, has the same report in
  both. -/
  refused : ∀ (i : ℕ) (u : Pending), (units S)[i]? = some u → ¬ u.Sound → rs[i]? = rs'[i]?
  outcome : ∀ (i : ℕ) (r r' : ModuleReport), rs[i]? = some r → rs'[i]? = some r' → r.isOk = true →
    r'.isOk = true → r.digest = r'.digest ∧ r.names = r'.names

/-- Reports at the same place are about the same source. Digests follow from the sources, and names
from the text. -/
theorem Checked.agree {disk' : Disk} {h' : List Finished} {rs rs' : List (ℕ × ModuleReport)}
    {v₁ v' : Workspace} {P P' : List Definition} {R R' : Registry} (hS : (S.map (·.name)).Nodup)
    (hc : Checked dir disk N h S rs w₁ w') (hc' : Checked dir disk' N h' S rs' v₁ v')
    (hholds : Holds P (ordered (units S) rs) R) (hholds' : Holds P' (ordered (units S) rs') R') :
    Agree S (ordered (units S) rs) (ordered (units S) rs') := by
  refine ⟨⟨hc.valid.map_source_ordered, hc'.valid.map_source_ordered⟩, fun i u hu hunsound => ?_,
    fun i r r' hr hr' hok hok' => ?_⟩
  · rw [hc.valid.getElem?_ordered_of_not_sound hu hunsound,
      hc'.valid.getElem?_ordered_of_not_sound hu hunsound]
  · have hmem := List.mem_append_left [] (hc.valid.mem_of_getElem?_ordered hr hok)
    have hmem' := List.mem_append_left [] (hc'.valid.mem_of_getElem?_ordered hr' hok')
    have hsource : r.source = r'.source :=
      Option.some.inj ((hc.valid.getElem?_source hmem).symm.trans (hc'.valid.getElem?_source hmem'))
    have hname : r.name = r'.name := congrArg Source.name hsource
    obtain ⟨k, hkey, hdigest⟩ := (hc.valid.accounted _ hmem).exists_digest hok
    obtain ⟨k', hkey', hdigest'⟩ := (hc'.valid.accounted _ hmem').exists_digest hok'
    obtain ⟨ds, hgives, hnames, -⟩ := hholds.ofModule r (List.mem_of_getElem? hr) hok
    obtain ⟨ds', hgives', hnames', -⟩ := hholds'.ofModule r' (List.mem_of_getElem? hr') hok'
    obtain rfl : k = k' := hkey.eq hS (hname ▸ hkey')
    refine ⟨hdigest.trans hdigest'.symm, ?_⟩
    rw [hnames, hnames']
    exact hgives.map_name_eq hgives' hname (congrArg Source.text hsource)

/-- Without the cache the prelude comes into a session only if its text has no errors. -/
theorem passes_of_enters_uncached (henters : Prelude.Enters w.uncached none w') :
    PreludePasses w.session.settings.limits := by
  cases henters with
  | known hknown => simp [Workspace.uncached, Workspace.opened] at hknown
  | cached _ _ hfinds =>
    obtain ⟨p, c, hp, -⟩ := hfinds
    simp [Workspace.uncached, Workspace.opened] at hp
  | @checked _ m _ _ _ hread herrors => exact ⟨m, hread, herrors⟩

/-- What a call comes to without the cache, it comes to with the cache, whatever is in it. -/
def Finished.AgreesWith (f g : Finished) : Prop :=
  ∀ rs', g.outcome = .ok rs' → ∃ rs, f.outcome = .ok rs ∧ Agree f.sources rs rs'

/-- The session without the cache makes the same call from the same workspace. It has reports
whenever the session with the cache has, for the same sources, and they agree one by one. -/
theorem finished_agreesWith_uncached (hist : History dir disk h w)
    (hc : Cacheable dir disk (S :: h.map (·.sources))) :
    (finished S w).AgreesWith (finished S w.uncached) := by
  have hist' : History dir disk h w.uncached := .restart (fun p hp => by simp at hp) hist
  have hends := hist.ends hc
  have hends' := hist'.ends hc
  have hregisters := finished_registers hist hc
  have hregisters' := finished_registers hist' hc
  have hprimed := (hist.stands hc sources_mem).primed
  intro rs' houtcome'
  obtain ⟨P', -, hholds'⟩ := hregisters' rs' houtcome'
  rw [houtcome'] at hends'
  unfold Finished.Registers at hregisters
  generalize (finished S w.uncached).workspace = v' at hends' hholds'
  generalize hf : (finished S w).outcome = outcome, (finished S w).workspace =
    w' at hends hregisters ⊢
  cases hends' with
  | done henters' _ hwaves' hchecked' =>
    cases hends with
    | refused henters =>
      exact absurd henters (hprimed.not_refused (.inr (passes_of_enters_uncached henters')))
    | cyclic _ _ hwaves => simp [hwaves'] at hwaves
    | done _ _ _ hchecked =>
      obtain ⟨P, -, hholds⟩ := hregisters _ rfl
      exact ⟨_, rfl, hchecked.agree (hc.distinct S List.mem_cons_self) hchecked' hholds hholds'⟩

/-- The second call finds what the first one stored. -/
theorem finished_agreesWith_uncached_constantAndUser :
    let settings : Settings := { cacheDir := some ⟨"cache"⟩ }
    let f := finished constantAndUser (.opened settings {})
    let w : Workspace := .opened settings f.workspace.disk
    Cacheable ⟨"cache"⟩ {} [constantAndUser, constantAndUser] ∧
      (finished constantAndUser w).AgreesWith (finished constantAndUser w.uncached) := by
  intro settings f w
  have hdir : settings.CachesIn ⟨"cache"⟩ := by
    intro p hp
    exact (Option.some.inj hp).symm
  have hist : History ⟨"cache"⟩ {} [f] w := .restart hdir (.call constantAndUser (.start hdir))
  have hc : Cacheable ⟨"cache"⟩ {} [constantAndUser, constantAndUser] :=
    cacheable_constantAndUser (by simp)
  exact ⟨hc, finished_agreesWith_uncached hist hc⟩

end Work

end LeveledTypes
