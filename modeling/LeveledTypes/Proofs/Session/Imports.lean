import LeveledTypes.Proofs.Session.Key
import LeveledTypes.Proofs.Session.Waves

/-!
# What a module imports

Before anything is elaborated a module is refused if it cannot be read or imports what does not
exist. The other modules are the ones whose imports make up the graph, so that its cycles are cycles
of imports among modules that can be checked.
-/
namespace LeveledTypes

open ModuleGraph
open Relation (TransGen)

namespace ModuleGraph
variable {names : List String} {n : String}

/-- The imports that lead nowhere. -/
def unknownImports (names : List String) (is : List Surface.Import) : List Surface.Import :=
  is.filter fun i => i.module ∉ Primitive.preludeName :: names

theorem exists_indexOf? (h : n ∈ names) : ∃ k, indexOf? names n = some k := by
  cases hindex : names.reverse.idxOf? n with
  | some k => exact ⟨_, by rw [indexOf?, hindex, Option.map_some]⟩
  | none => exact absurd (List.mem_reverse.mpr h) (List.idxOf?_eq_none_iff.mp hindex)

theorem mem_of_indexOf? {k : ℕ} (h : indexOf? names n = some k) : n ∈ names :=
  List.mem_of_getElem? (getElem?_of_indexOf? h)

/-- Each import of a module that does not exist gives one error, in order. -/
theorem errors_resolveImports (names : List String) (is : List Surface.Import) :
    (resolveImports names is).2 = (unknownImports names is).map fun i => .located
    (.unknownModule i.module) i.span := by
  induction is using List.reverseRecOn with
  | nil => rfl
  | append_singleton is i ih =>
    rw [resolveImports] at ih ⊢
    rw [List.foldl_append, List.foldl_cons, List.foldl_nil]
    generalize List.foldl _ _ is = found at ih ⊢
    obtain ⟨found, errors⟩ := found
    dsimp only at ih ⊢
    subst ih
    by_cases hprelude : i.module = Primitive.preludeName
    · rw [if_pos hprelude]
      simp [unknownImports, hprelude]
    · rw [if_neg hprelude]
      by_cases hmem : i.module ∈ names
      · obtain ⟨k, hk⟩ := exists_indexOf? hmem
        rw [hk]
        simp [unknownImports, hmem]
      · have hnone : indexOf? names i.module = none := by
          rw [Option.eq_none_iff_forall_ne_some]
          exact fun k hk => hmem (mem_of_indexOf? hk)
        rw [hnone]
        simp [unknownImports, hprelude, hmem]

end ModuleGraph

namespace Surface

/-- A test that the prelude fails finds the same whether names are added once or each time. -/
theorem Import.find?_addTo (q : String → Bool) (hq : q Primitive.preludeName = false)
    (ns : List String) (i : Import) :
    (i.addTo ns).find? q = (ns.find? q).or (if q i.module then some i.module else none) := by
  unfold addTo
  split
  case isFalse => simp [List.find?_append, List.find?_singleton]
  case isTrue h =>
    split
    case isFalse => simp
    case isTrue hi =>
      obtain h | h := h
      · simp [h, hq] at hi
      · obtain ⟨a, ha⟩ := Option.isSome_iff_exists.mp (List.find?_isSome.mpr ⟨_, h, hi⟩)
        simp [ha]

/-- The first import of a kind leads to the first imported module of the kind. -/
theorem Module.find?_imported (m : Module) (q : String → Bool)
    (hq : q Primitive.preludeName = false) :
    m.imported.find? q = (m.imports.find? fun i => q i.module).map (·.module) := by
  suffices hgeneral : ∀ ns : List String, (m.imports.foldl Import.addTo ns).find? q =
      (ns.find? q).or ((m.imports.find? fun i => q i.module).map (·.module)) from hgeneral []
  induction m.imports with
  | nil => simp
  | cons i is ih =>
    intro ns
    rw [List.foldl_cons, ih, Import.find?_addTo q hq, Option.or_assoc]
    by_cases hi : q i.module <;> simp [hi]

/-- The list of imported names has them all but the prelude. -/
theorem Module.mem_imported {m : Module} {n : String} :
    n ∈ m.imported ↔ n ≠ Primitive.preludeName ∧ ∃ i ∈ m.imports, i.module = n := by
  have hfind := m.find?_imported (fun k => k = n ∧ k ≠ Primitive.preludeName) (by simp)
  have hsome := congrArg Option.isSome hfind
  rw [Option.isSome_map, Bool.eq_iff_iff, List.find?_isSome, List.find?_isSome] at hsome
  simp only [decide_eq_true_eq] at hsome
  constructor
  · intro hn
    have hne : n ≠ Primitive.preludeName := fun h => m.imported_nodup.2 (h ▸ hn)
    obtain ⟨i, hi, himodule, -⟩ := hsome.mp ⟨n, hn, rfl, hne⟩
    exact ⟨hne, i, hi, himodule⟩
  · rintro ⟨hne, i, hi, rfl⟩
    obtain ⟨k, hk, rfl, -⟩ := hsome.mpr ⟨i, hi, rfl, hne⟩
    exact hk

end Surface

namespace Work
variable {S : List Source} {s t : Source} {u : Pending} {i j : ℕ}

/-- What is wrong with a module before anything is elaborated. -/
def faults (S : List Source) (s : Source) : List Error :=
  match readSource s with
  | .error e => [e]
  | .ok m => (unknownImports (S.map (·.name)) m.imports).map fun i =>
    .located (.unknownModule i.module) i.span

/-- A source on its way says what is wrong, and imports nothing if something is wrong. -/
theorem unit_faults (h : (units S)[i]? = some u) :
    u.module = (readSource u.source).toOption ∧ u.errors = faults S u.source ∧
    (faults S u.source ≠ [] → u.deps = []) := by
  simp only [units, edges, List.map_map, List.zip_map', Function.comp_def, List.getElem?_map] at h
  obtain ⟨s, -, rfl⟩ := Option.map_eq_some_iff.mp h
  have herrors := errors_resolveImports (S.map (·.name))
  cases hread : readSource s with
  | error e => simp [hread, faults, resolveImports, Except.toOption]
  | ok m =>
    rcases hresolve : resolveImports (S.map (·.name)) m.imports with ⟨found, errors⟩
    have hfaults : faults S s = errors := by
      rw [faults, hread]
      dsimp only
      rw [← herrors, hresolve]
    cases errors with
    | nil => simp [hread, hresolve, hfaults, Except.toOption]
    | cons e es => simp [hread, hresolve, hfaults, Except.toOption]

theorem exists_read_of_faults (h : faults S s = []) : ∃ m, readSource s = .ok m := by
  unfold faults at h
  cases hread : readSource s with
  | ok m => exact ⟨m, rfl⟩
  | error e => simp [hread] at h

/-- A module that is not refused can be checked. -/
theorem sound_iff (h : (units S)[i]? = some u) : u.Sound ↔ faults S u.source = [] := by
  obtain ⟨hmodule, herrors, -⟩ := unit_faults h
  rw [Pending.Sound, hmodule, herrors, and_iff_right_iff_imp]
  intro hfaults
  obtain ⟨m, hread⟩ := exists_read_of_faults hfaults
  simp [hread, Except.toOption]

theorem getElem?_units_of_source (h : S[i]? = some s) :
    ∃ u, (units S)[i]? = some u ∧ u.source = s := by
  rw [← map_source_units S, List.getElem?_map] at h
  exact Option.map_eq_some_iff.mp h

/-- The graph of places is the graph of imports. -/
theorem depends_units (hs : S[i]? = some s) :
    Depends ((units S).map (·.deps)) i j ↔
      faults S s = [] ∧ ∃ m, readSource s = .ok m ∧
      ∃ n ∈ m.imported, indexOf? (S.map (·.name)) n = some j := by
  obtain ⟨u, hu, rfl⟩ := getElem?_units_of_source hs
  obtain ⟨hmodule, herrors, hdeps⟩ := unit_faults hu
  have hdepends : Depends ((units S).map (·.deps)) i j ↔ j ∈ u.deps := by
    simp [Depends, List.getD_eq_getElem?_getD, hu]
  rw [hdepends]
  by_cases hfaults : faults S u.source = []
  · obtain ⟨m, hread⟩ := exists_read_of_faults hfaults
    have hm : u.module = some m := by simp [hmodule, hread, Except.toOption]
    have hfinds := finds_of_resolveImports (unit_sound hu hm (herrors.trans hfaults)).2
    rw [and_iff_right hfaults]
    constructor
    · intro hj
      obtain ⟨k, hk, rfl⟩ := List.mem_iff_getElem.mp hj
      have hk' : k < m.imported.length := hfinds.length_eq ▸ hk
      exact ⟨m, hread, m.imported[k], List.getElem_mem hk', hfinds.get hk hk'⟩
    · rintro ⟨m', hread', n, hn, hindex⟩
      obtain rfl : m = m' := Except.ok.inj (hread.symm.trans hread')
      exact (hfinds.mem_iff hindex).mpr hn
  · rw [hdeps hfaults]
    simp [hfaults]

theorem indexOf?_eq_some_iff (hS : (S.map (·.name)).Nodup) {n : String} :
    indexOf? (S.map (·.name)) n = some j ↔ ∃ t, S[j]? = some t ∧ t.name = n := by
  rw [← Option.map_eq_some_iff, ← List.getElem?_map]
  refine ⟨getElem?_of_indexOf?, fun h => ?_⟩
  obtain ⟨k, hk⟩ := exists_indexOf? (List.mem_of_getElem? h)
  obtain ⟨hlt, hget⟩ := List.getElem?_eq_some_iff.mp (getElem?_of_indexOf? hk)
  obtain ⟨hlt', hget'⟩ := List.getElem?_eq_some_iff.mp h
  rw [hk, (hS.getElem_inj_iff).mp (hget.trans hget'.symm)]

end Work

end LeveledTypes
