import LeveledTypes.Proofs.Elaboration.Naming
import LeveledTypes.Proofs.Registry
import LeveledTypes.Proofs.Session.Key
import LeveledTypes.Proofs.Session.Waves
import LeveledTypes.Proofs.Surface.Names

/-!
# The contents of a session

Between calls the registry of a session has the definitions of the prelude and those of the modules
that had an outcome last, as their texts gave them, and nothing else. Definitions of different
modules have different names, so registering the definitions of one module and forgetting those of
others do not get into each other's way.
-/
namespace LeveledTypes

/-- The text of a module has given these definitions, over some definitions of other modules. -/
def Source.Gives (s : Source) (ds : List Definition) : Prop :=
  ∃ m base limits visible, Work.readSource s = .ok m ∧
    (elaborateModule base limits s.text m visible).errors = [] ∧
    ds = (elaborateModule base limits s.text m visible).definitions

section Gives
variable {s s' : Source} {ds ds' : List Definition}

/-- A module that has no errors brings definitions of exactly the names that its declarations
declare. -/
theorem names_of_read {module text : String} {m : Surface.Module} {base : Registry}
    {limits : Limits} {visible : List GlobalName} (hread : Surface.Module.read module text = .ok m)
    (herrors : (elaborateModule base limits text m visible).errors = []) :
    ((elaborateModule base limits text m visible).definitions.map (·.name)).Nodup ∧
      (∀ d ∈ (elaborateModule base limits text m visible).definitions, d.name.IsOwn module) ∧
      ∀ d ∈ (elaborateModule base limits text m visible).definitions, d.nameOnly = d := by
  obtain ⟨hnames, hnodup, honly⟩ := names_of_elaborateModule herrors
  have hown := (Surface.isOwn_of_read hread).2
  refine ⟨hnames ▸ hnodup, fun d hd => ?_, honly⟩
  have hmem : d.name ∈ m.decls.flatMap (·.names) := hnames ▸ List.mem_map.mpr ⟨d, hd, rfl⟩
  obtain ⟨e, he, hn⟩ := List.mem_flatMap.mp hmem
  exact hown e he _ hn

theorem Source.Gives.nodup (h : s.Gives ds) : (ds.map (·.name)).Nodup := by
  obtain ⟨m, base, limits, visible, hread, herrors, rfl⟩ := h
  exact (names_of_read (Work.readSource_eq_ok hread).2 herrors).1

theorem Source.Gives.isOwn (h : s.Gives ds) : ∀ d ∈ ds, d.name.IsOwn s.name := by
  obtain ⟨m, base, limits, visible, hread, herrors, rfl⟩ := h
  exact (names_of_read (Work.readSource_eq_ok hread).2 herrors).2.1

theorem Source.Gives.nameOnly_eq (h : s.Gives ds) : ∀ d ∈ ds, d.nameOnly = d := by
  obtain ⟨m, base, limits, visible, hread, herrors, rfl⟩ := h
  exact (names_of_read (Work.readSource_eq_ok hread).2 herrors).2.2

theorem Source.Gives.name_ne (h : s.Gives ds) : s.name ≠ Primitive.preludeName := by
  obtain ⟨m, base, limits, visible, hread, herrors, rfl⟩ := h
  exact (Work.readSource_eq_ok hread).1

/-- The names of the definitions that a text gives follow from the text. -/
theorem Source.Gives.map_name_eq (h : s.Gives ds) (h' : s'.Gives ds') (hname : s.name = s'.name)
    (htext : s.text = s'.text) : ds.map (·.name) = ds'.map (·.name) := by
  obtain ⟨m, base, limits, visible, hread, herrors, rfl⟩ := h
  obtain ⟨m', base', limits', visible', hread', herrors', rfl⟩ := h'
  have hm : Work.readSource s = Work.readSource s' := Work.readSource_congr hname htext
  obtain rfl : m = m' := Except.ok.inj (hread.symm.trans (hm.trans hread'))
  rw [(names_of_elaborateModule herrors).1, (names_of_elaborateModule herrors').1]

theorem Source.Gives.congr (h : s.Gives ds) (hname : s.name = s'.name) (htext : s.text = s'.text) :
    s'.Gives ds := by
  obtain ⟨m, base, limits, visible, hread, herrors, hds⟩ := h
  refine ⟨m, base, limits, visible, ?_, htext ▸ herrors, htext ▸ hds⟩
  rw [← hread, Work.readSource_congr hname htext]

end Gives

namespace Prelude
variable {P : List Definition}

/-- The primitives alone, as they are registered before the prelude is elaborated. -/
def primitives : Registry := ({} : Registry).insertAll Primitive.definitions

/-- The text of the prelude has given these definitions over the primitives, and with them. -/
def Gives (ds : List Definition) : Prop :=
  ∃ m limits, Surface.Module.read source.name text = .ok m ∧
    (elaborateModule primitives limits text m (Primitive.definitions.map (·.name))).errors = [] ∧
    ds = Primitive.definitions ++
      (elaborateModule primitives limits text m (Primitive.definitions.map (·.name))).definitions

/-- The registry of a session that has nothing but the prelude. -/
def registry (P : List Definition) : Registry := ({} : Registry).insertAll P

theorem isOwn_definitions : ∀ d ∈ Primitive.definitions, d.name.IsOwn Primitive.preludeName := by
  have hnames : Primitive.definitions.map (·.name) =
      ["Nat", "zero", "suc", "Nat.rec", "I", "left", "right", "Path", "path", "at"].map
        Primitive.globalName := rfl
  intro d hd
  have hmem : d.name ∈ Primitive.definitions.map (·.name) := List.mem_map.mpr ⟨d, hd, rfl⟩
  rw [hnames] at hmem
  obtain ⟨short, hshort, hname⟩ := List.mem_map.mp hmem
  have hcolon : ∀ short ∈ ["Nat", "zero", "suc", "Nat.rec", "I", "left", "right",
      "Path", "path", "at"], ':' ∉ short.toList := by decide
  exact ⟨short, hname.symm, hcolon short hshort⟩

theorem nodup_definitions : (Primitive.definitions.map (·.name)).Nodup := by
  decide

theorem unlisted_definitions :
    ∀ d ∈ Primitive.definitions, d.instantiates = [] ∧ d.extends = [] := by
  decide

theorem get?_primitives {n : GlobalName} {d : Definition} :
    primitives.get? n = some d ↔ d ∈ Primitive.definitions ∧ d.name = n := by
  rw [primitives, Registry.get?_insertAll nodup_definitions]
  simp [Registry.get?_empty]

theorem indexed_primitives : primitives.Indexed :=
  Registry.indexed_empty.insertAll nodup_definitions fun d _ d' hd' => by
    simp [Registry.get?_empty] at hd'

theorem insertAll_primitives : primitives.insertAll Primitive.definitions = primitives :=
  indexed_primitives.insertAll_eq_self fun _ hd => get?_primitives.mpr ⟨hd, rfl⟩

/-- A session that has tried to elaborate the prelude, or has not, gets the same registry from the
prelude. -/
theorem registry_of_gives (h : Gives P) : primitives.insertAll P = registry P := by
  obtain ⟨m, limits, hread, herrors, rfl⟩ := h
  rw [registry, Registry.insertAll_append, insertAll_primitives, Registry.insertAll_append,
    primitives]

theorem indexed_registry (h : Gives P) : (registry P).Indexed := by
  obtain ⟨m, limits, hread, herrors, rfl⟩ := h
  rw [registry, Registry.insertAll_append, ← primitives]
  refine indexed_primitives.insertAll (names_of_read hread herrors).1 fun d _ d' hd' => ?_
  exact unlisted_definitions d' (get?_primitives.mp hd').1

theorem isOwn_of_gives (h : Gives P) : ∀ d ∈ P, d.name.IsOwn Primitive.preludeName := by
  obtain ⟨m, limits, hread, herrors, rfl⟩ := h
  intro d hd
  obtain hd | hd := List.mem_append.mp hd
  · exact isOwn_definitions d hd
  · exact (names_of_read hread herrors).2.1 d hd

/-- In the definitions of the prelude binders have names and nothing else, so that storing them
loses nothing. -/
theorem nameOnly_eq_of_gives (h : Gives P) : ∀ d ∈ P, d.nameOnly = d := by
  have hprimitives : Primitive.definitions.map Definition.nameOnly =
      Primitive.definitions.map id := by
    rw [List.map_id]
    rfl
  obtain ⟨m, limits, hread, herrors, rfl⟩ := h
  intro d hd
  obtain hd | hd := List.mem_append.mp hd
  · exact List.map_inj_left.mp hprimitives d hd
  · exact (names_of_read hread herrors).2.2 d hd

theorem get?_registry (h : Gives P) {n : GlobalName} {d : Definition} :
    (registry P).get? n = some d → d ∈ P ∧ d.name = n := by
  obtain ⟨m, limits, hread, herrors, rfl⟩ := h
  rw [registry, Registry.insertAll_append, ← primitives,
    Registry.get?_insertAll (names_of_read hread herrors).1, get?_primitives, List.mem_append]
  rintro (⟨hd, hname⟩ | ⟨-, hd, hname⟩)
  · exact ⟨.inr hd, hname⟩
  · exact ⟨.inl hd, hname⟩

theorem isOwn_of_get?_registry (h : Gives P) {n : GlobalName} {d : Definition}
    (hd : (registry P).get? n = some d) :
    n.IsOwn Primitive.preludeName := by
  obtain ⟨hmem, rfl⟩ := get?_registry h hd
  exact isOwn_of_gives h d hmem

end Prelude

namespace Work
variable {P : List Definition} {R : Registry} {rs : List ModuleReport} {r : ModuleReport}

/-- A registry has the definitions of the prelude and those that the modules with an outcome gave
under the names of their reports, and nothing else. -/
structure Holds (P : List Definition) (rs : List ModuleReport) (R : Registry) : Prop where
  indexed : R.Indexed
  ofPrelude : ∀ n, n.IsOwn Primitive.preludeName → R.get? n = (Prelude.registry P).get? n
  ofModule : ∀ r ∈ rs, r.isOk = true →
    ∃ ds, r.source.Gives ds ∧ r.names = ds.map (·.name) ∧ ∀ d ∈ ds, R.get? d.name = some d
  nothingElse : ∀ n d, R.get? n = some d → n.IsOwn Primitive.preludeName ∨
    ∃ r ∈ rs, r.isOk = true ∧ n ∈ r.names

theorem holds_nil (h : Prelude.Gives P) : Holds P [] (Prelude.registry P) where
  indexed := Prelude.indexed_registry h
  ofPrelude _ _ := rfl
  ofModule := by simp
  nothingElse _ _ hd := .inl (Prelude.isOwn_of_get?_registry h hd)

/-- Only the reports of modules with an outcome count. -/
theorem Holds.congr {rs' : List ModuleReport} (h : Holds P rs R) (hrs : ∀ r, r.isOk = true →
    (r ∈ rs ↔ r ∈ rs')) : Holds P rs' R where
  indexed := h.indexed
  ofPrelude := h.ofPrelude
  ofModule r hr hok := h.ofModule r ((hrs r hok).mpr hr) hok
  nothingElse n d hd := (h.nothingElse n d hd).imp_right fun ⟨r, hr, hok, hn⟩ =>
    ⟨r, (hrs r hok).mp hr, hok, hn⟩

/-- The names of a report are names of its module. -/
theorem Holds.isOwn (h : Holds P rs R) (hr : r ∈ rs) (hok : r.isOk = true) {n : GlobalName}
    (hn : n ∈ r.names) :
    n.IsOwn r.name := by
  obtain ⟨ds, hgives, hnames, -⟩ := h.ofModule r hr hok
  rw [hnames] at hn
  obtain ⟨d, hd, rfl⟩ := List.mem_map.mp hn
  exact hgives.isOwn d hd

/-- A module that has had no outcome has no names in the registry. -/
theorem Holds.get?_eq_none (h : Holds P rs R) {module : String} {n : GlobalName}
    (hn : n.IsOwn module) (hprelude : module ≠ Primitive.preludeName)
    (hnew : ∀ r ∈ rs, r.name ≠ module) : R.get? n = none := by
  rw [Option.eq_none_iff_forall_ne_some]
  intro d hd
  obtain hown | ⟨r, hr, hok, hmem⟩ := h.nothingElse n d hd
  · exact hprelude (hn.module_eq.symm.trans hown.module_eq)
  · exact hnew r hr ((h.isOwn hr hok hmem).module_eq.symm.trans hn.module_eq)

/-- What a module gives is registered. -/
theorem Holds.insert {ds : List Definition} (h : Holds P rs R) (hgives : r.source.Gives ds)
    (hnames : r.names = ds.map (·.name)) (hok : r.isOk = true) (hnew : ∀ p ∈ rs, p.name ≠ r.name) :
    Holds P (rs ++ [r]) (R.insertAll ds) := by
  have hnone : ∀ d ∈ ds, R.get? d.name = none :=
    fun d hd => h.get?_eq_none (hgives.isOwn d hd) hgives.name_ne hnew
  have hget := Registry.get?_insertAll hgives.nodup R
  have hother {n : GlobalName} {module : String} (hn : n.IsOwn module) (hne : module ≠ r.name) :
      n ∉ ds.map (·.name) := by
    intro hmem
    obtain ⟨d, hd, rfl⟩ := List.mem_map.mp hmem
    exact hne (hn.module_eq.symm.trans (hgives.isOwn d hd).module_eq)
  refine ⟨h.indexed.insertAll hgives.nodup fun d hd d' hd' => ?_, fun n hn => ?_,
    fun p hp hpok => ?_, fun n d hd => ?_⟩
  · simp [hnone d hd] at hd'
  · rw [← h.ofPrelude n hn]
    refine Option.ext fun d => ?_
    have hn' := hother hn (Ne.symm hgives.name_ne)
    have hmem : ¬ (d ∈ ds ∧ d.name = n) := fun hd => hn' (List.mem_map.mpr ⟨d, hd⟩)
    rw [hget]
    tauto
  · obtain hp | rfl := List.mem_append.mp hp |>.imp_right List.mem_singleton.mp
    · obtain ⟨ds', hgives', hnames', hregistered⟩ := h.ofModule p hp hpok
      refine ⟨ds', hgives', hnames', fun d hd => ?_⟩
      exact (hget d.name d).mpr (.inr ⟨hother (hgives'.isOwn d hd) (hnew p hp), hregistered d hd⟩)
    · exact ⟨ds, hgives, hnames, fun d hd => (hget d.name d).mpr (.inl ⟨hd, rfl⟩)⟩
  · obtain ⟨hmem, rfl⟩ | ⟨-, hd⟩ := (hget n d).mp hd
    · exact .inr ⟨r, by simp, hok, hnames ▸ List.mem_map.mpr ⟨d, hmem, rfl⟩⟩
    · exact (h.nothingElse n d hd).imp_right fun ⟨p, hp, hpok, hn⟩ =>
        ⟨p, List.mem_append_left _ hp, hpok, hn⟩

/-- A module without an outcome brings nothing. -/
theorem Holds.append_failed (h : Holds P rs R) (hok : r.isOk = false) : Holds P (rs ++ [r]) R := by
  refine h.congr fun p hp => ?_
  have hne : p ≠ r := by
    rintro rfl
    simp [hok] at hp
  simp [hne]

section Forgetting
variable {t : Session}

/-- What a session knows of modules is what the reports say. -/
structure Knows (rs : List ModuleReport) (t : Session) : Prop where
  learned : ∀ r ∈ rs, r.isOk = true → ∃ k, t.modules[r.name]? = some k ∧ k.names = r.names
  reported : ∀ n k, t.modules[n]? = some k → n = Primitive.preludeName ∨ ∃ r ∈ rs, r.isOk = true ∧
    r.name = n ∧ r.names = k.names

/-- Forgetting modules takes away their names and leaves all else. -/
theorem get?_foldl_eraseAll (ks : List (String × KnownModule)) (R : Registry) (n : GlobalName) :
    (ks.foldl (fun r (_, k) => r.eraseAll k.names) R).get? n = if ∃ p ∈ ks,
      n ∈ p.2.names then none else R.get? n := by
  induction ks generalizing R with
  | nil => simp
  | cons p ks ih =>
    have hcons : (∃ q ∈ p :: ks, n ∈ q.2.names) ↔ n ∈ p.2.names ∨ ∃ q ∈ ks, n ∈ q.2.names :=
      List.exists_mem_cons_iff _ _ _
    rw [List.foldl_cons, ih, Registry.get?_eraseAll, if_congr hcons rfl rfl]
    by_cases hp : n ∈ p.2.names
    · rw [if_pos hp, ite_self, if_pos (Or.inl hp)]
    · rw [if_neg hp, if_congr (or_iff_right hp) rfl rfl]

theorem indexed_foldl_eraseAll (ks : List (String × KnownModule)) (h : R.Indexed) :
    (ks.foldl (fun r (_, k) => r.eraseAll k.names) R).Indexed := by
  induction ks generalizing R with
  | nil => exact h
  | cons p ks ih => exact ih (h.eraseAll p.2.names)

/-- Of modules other than the prelude nothing is left. -/
theorem Holds.forgotten (h : Holds P rs t.registry) (hknows : Knows rs t)
    (hprelude : ∀ r ∈ rs, r.name ≠ Primitive.preludeName) : Holds P [] t.forgotten.registry := by
  have hget (n : GlobalName) : t.forgotten.registry.get? n =
      if ∃ r ∈ rs, r.isOk = true ∧ n ∈ r.names then none else t.registry.get? n := by
    have hiff : (∃ p ∈ t.modules.toList.filter fun p => p.1 ≠ Primitive.preludeName,
        n ∈ p.2.names) ↔ ∃ r ∈ rs, r.isOk = true ∧ n ∈ r.names := by
      constructor
      · rintro ⟨⟨module, k⟩, hp, hn⟩
        obtain ⟨hp, hne⟩ := List.mem_filter.mp hp
        obtain hnil | ⟨r, hr, hok, -, hnames⟩ :=
          hknows.reported module k (Std.HashMap.mem_toList_iff_getElem?_eq_some.mp hp)
        · simp [hnil] at hne
        · exact ⟨r, hr, hok, hnames ▸ hn⟩
      · rintro ⟨r, hr, hok, hn⟩
        obtain ⟨k, hk, hnames⟩ := hknows.learned r hr hok
        refine ⟨(r.name, k), List.mem_filter.mpr
          ⟨Std.HashMap.mem_toList_iff_getElem?_eq_some.mpr hk, ?_⟩, hnames ▸ hn⟩
        simpa using hprelude r hr
    rw [← if_congr hiff rfl rfl]
    exact get?_foldl_eraseAll _ _ _
  refine ⟨indexed_foldl_eraseAll _ h.indexed, fun n hn => ?_, by simp, fun n d hd => .inl ?_⟩
  · rw [hget, if_neg, h.ofPrelude n hn]
    rintro ⟨r, hr, hok, hmem⟩
    exact hprelude r hr ((h.isOwn hr hok hmem).module_eq.symm.trans hn.module_eq)
  · rw [hget] at hd
    split at hd
    case isTrue => simp at hd
    case isFalse hnone => exact (h.nothingElse n d hd).resolve_right hnone

end Forgetting

end Work

end LeveledTypes
