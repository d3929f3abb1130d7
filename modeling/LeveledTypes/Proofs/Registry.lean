import LeveledTypes.Registry
import Mathlib.Tactic

/-!
# What registries hold

A registry is well indexed if the lists of a class have, each once, exactly the names of the
registered instances of the class and of the registered classes that directly extend it. Registering
definitions of new names and removing definitions keeps a registry well indexed, and registering a
definition again changes nothing.
-/
namespace LeveledTypes

/-- The class that a definition is an instance of, if it is one. -/
def Definition.instantiates (d : Definition) : List GlobalName :=
  match d.body with
  | .inst c _ => [c]
  | _ => []

/-- The classes that a definition directly extends, if it is a class. -/
def Definition.extends (d : Definition) : List GlobalName :=
  match d.body with
  | .cls _ supers => supers
  | _ => []

namespace Registry

section Maps
open Std.DHashMap.Internal

theorem uset_uset_self {α : Type} (as : Array α) (i : USize) (a : α) (h : i.toNat < as.size) :
    (as.uset i a h).uset i as[i] (by simpa using h) = as := by
  ext j hj hj'
  · simp
  · simp

variable {α β : Type} [BEq α] [LawfulBEq α] {a : α} {b : β}

/-- Putting in place of an entry what is there already changes nothing. -/
theorem replace_eq_self {l : AssocList α fun _ => β} (h : l.get? a = some b) :
    l.replace a b = l := by
  induction l with
  | nil => rfl
  | cons k v l ih =>
    rw [AssocList.get?] at h
    rw [AssocList.replace]
    by_cases hk : k = a
    · subst hk
      simp only [beq_self_eq_true, cond_true, Option.some.injEq] at h ⊢
      rw [h]
    · have hbeq : (k == a) = false := by simpa using hk
      rw [hbeq, cond_false] at h
      rw [hbeq, cond_false, ih h]

theorem contains_of_get? {l : AssocList α fun _ => β} (h : l.get? a = some b) :
    l.contains a = true := by
  induction l with
  | nil => simp [AssocList.get?] at h
  | cons k v l ih =>
    rw [AssocList.get?] at h
    rw [AssocList.contains]
    by_cases hk : k = a
    · simp [hk]
    · have hbeq : (k == a) = false := by simpa using hk
      rw [hbeq, cond_false] at h
      rw [hbeq, Bool.false_or, ih h]

/-- A map does not change, down to the order of its entries, if a key gets the value that it has. -/
theorem insert_eq_self [Hashable α] {m : Std.HashMap α β} (h : m[a]? = some b) :
    m.insert a b = m := by
  obtain ⟨⟨⟨size, buckets⟩, hwf⟩⟩ := m
  have hpos : 0 < buckets.size := hwf.size_buckets_pos
  have hget : Raw₀.Const.get? ⟨⟨size, buckets⟩, hpos⟩ a = some b := h
  have hraw : Raw₀.insert ⟨⟨size, buckets⟩, hpos⟩ a b = ⟨⟨size, buckets⟩, hpos⟩ := by
    unfold Raw₀.insert
    unfold Raw₀.Const.get? at hget
    simp only at hget ⊢
    rw [if_pos (contains_of_get? hget)]
    simp only [replace_eq_self hget, uset_uset_self]
  have hinner : (⟨⟨size, buckets⟩, hwf⟩ : Std.DHashMap α fun _ => β).insert a b =
      ⟨⟨size, buckets⟩, hwf⟩ := by
    unfold Std.DHashMap.insert
    simp only [hraw]
  exact congrArg Std.HashMap.mk hinner

end Maps

section Lists
variable {m : Std.HashMap GlobalName (List GlobalName)} {c n n' : GlobalName} {cs : List GlobalName}

/-- The list of one class gets one more name, and the others stay. -/
theorem mem_enlist (m : Std.HashMap GlobalName (List GlobalName)) (c c' n n' : GlobalName) :
    n' ∈ (enlist m c n).getD c' [] ↔ n' ∈ m.getD c' [] ∨ n' = n ∧ c' = c := by
  unfold enlist
  by_cases hn : n ∈ m.getD c []
  · have hcontains : (m.getD c []).contains n = true := by simpa using hn
    rw [if_pos hcontains]
    refine ⟨.inl, fun h => h.elim id ?_⟩
    rintro ⟨rfl, rfl⟩
    exact hn
  · have hcontains : ¬ (m.getD c []).contains n = true := by simpa using hn
    rw [if_neg hcontains, Std.HashMap.getD_insert]
    by_cases hc : c = c'
    · subst hc
      simp
    · simp [hc, Ne.symm hc]

/-- A name is put into a list once. -/
theorem nodup_enlist (h : ∀ c, (m.getD c []).Nodup) (c n c' : GlobalName) :
    ((enlist m c n).getD c' []).Nodup := by
  unfold enlist
  by_cases hn : n ∈ m.getD c []
  · have hcontains : (m.getD c []).contains n = true := by simpa using hn
    rw [if_pos hcontains]
    exact h c'
  · have hcontains : ¬ (m.getD c []).contains n = true := by simpa using hn
    rw [if_neg hcontains, Std.HashMap.getD_insert]
    by_cases hc : c = c'
    · rw [if_pos (by simpa using hc), List.nodup_append_comm]
      exact List.nodup_cons.mpr ⟨hn, h c⟩
    · simpa [hc] using h c'

theorem enlist_eq_self (h : n ∈ m.getD c []) : enlist m c n = m := by
  have hcontains : (m.getD c []).contains n = true := by simpa using h
  unfold enlist
  rw [if_pos hcontains]

/-- The list of one class loses one name, and the others stay. -/
theorem mem_delist (m : Std.HashMap GlobalName (List GlobalName)) (c c' n n' : GlobalName) :
    n' ∈ (delist m c n).getD c' [] ↔ n' ∈ m.getD c' [] ∧ ¬ (n' = n ∧ c' = c) := by
  unfold delist
  cases hget : m[c]? with
  | none =>
    have hnil : m.getD c [] = [] := by simp [Std.HashMap.getD_eq_getD_getElem?, hget]
    refine ⟨fun h => ⟨h, ?_⟩, And.left⟩
    rintro ⟨rfl, rfl⟩
    simp [hnil] at h
  | some ns =>
    have hns : m.getD c [] = ns := by simp [Std.HashMap.getD_eq_getD_getElem?, hget]
    rw [Std.HashMap.getD_insert]
    by_cases hc : c = c'
    · subst hc
      simp [hns]
    · simp [hc, Ne.symm hc]

theorem nodup_delist (h : ∀ c, (m.getD c []).Nodup) (c n c' : GlobalName) :
    ((delist m c n).getD c' []).Nodup := by
  unfold delist
  cases hget : m[c]? with
  | none => exact h c'
  | some ns =>
    have hns : m.getD c [] = ns := by simp [Std.HashMap.getD_eq_getD_getElem?, hget]
    rw [Std.HashMap.getD_insert]
    by_cases hc : c = c'
    · simpa [hc] using (hns ▸ h c).filter _
    · simpa [hc] using h c'

/-- Puts a name at the ends of the lists of some classes. -/
def enlistAll (m : Std.HashMap GlobalName (List GlobalName)) (cs : List GlobalName)
    (n : GlobalName) :
    Std.HashMap GlobalName (List GlobalName) := cs.foldl (fun m c => enlist m c n) m

/-- Takes a name out of the lists of some classes. -/
def delistAll (m : Std.HashMap GlobalName (List GlobalName)) (cs : List GlobalName)
    (n : GlobalName) :
    Std.HashMap GlobalName (List GlobalName) := cs.foldl (fun m c => delist m c n) m

theorem mem_enlistAll (m : Std.HashMap GlobalName (List GlobalName)) (cs : List GlobalName)
    (n c n' : GlobalName) :
    n' ∈ (enlistAll m cs n).getD c [] ↔ n' ∈ m.getD c [] ∨ n' = n ∧ c ∈ cs := by
  induction cs generalizing m with
  | nil => simp [enlistAll]
  | cons c' cs ih =>
    rw [enlistAll, List.foldl_cons, ← enlistAll, ih, mem_enlist, List.mem_cons]
    tauto

theorem nodup_enlistAll (h : ∀ c, (m.getD c []).Nodup) (cs : List GlobalName) (n c : GlobalName) :
    ((enlistAll m cs n).getD c []).Nodup := by
  induction cs generalizing m with
  | nil => exact h c
  | cons c' cs ih => exact ih fun c => nodup_enlist h c' n c

theorem enlistAll_eq_self (h : ∀ c ∈ cs, n ∈ m.getD c []) : enlistAll m cs n = m := by
  induction cs with
  | nil => rfl
  | cons c cs ih =>
    obtain ⟨hc, hcs⟩ := List.forall_mem_cons.mp h
    rw [enlistAll, List.foldl_cons, enlist_eq_self hc]
    exact ih hcs

theorem mem_delistAll (m : Std.HashMap GlobalName (List GlobalName)) (cs : List GlobalName)
    (n c n' : GlobalName) :
    n' ∈ (delistAll m cs n).getD c [] ↔ n' ∈ m.getD c [] ∧ ¬ (n' = n ∧ c ∈ cs) := by
  induction cs generalizing m with
  | nil => simp [delistAll]
  | cons c' cs ih =>
    rw [delistAll, List.foldl_cons, ← delistAll, ih, mem_delist, List.mem_cons]
    tauto

theorem nodup_delistAll (h : ∀ c, (m.getD c []).Nodup) (cs : List GlobalName) (n c : GlobalName) :
    ((delistAll m cs n).getD c []).Nodup := by
  induction cs generalizing m with
  | nil => exact h c
  | cons c' cs ih => exact ih fun c => nodup_delist h c' n c

end Lists

section Fields
variable {r : Registry} {d : Definition}

theorem instances_insert (r : Registry) (d : Definition) :
    (r.insert d).instances = enlistAll r.instances d.instantiates d.name := by
  unfold insert Definition.instantiates
  cases d.body <;> rfl

theorem subclasses_insert (r : Registry) (d : Definition) :
    (r.insert d).subclasses = enlistAll r.subclasses d.extends d.name := by
  unfold insert Definition.extends
  cases d.body <;> rfl

theorem definitions_insert (r : Registry) (d : Definition) :
    (r.insert d).definitions = r.definitions.insert d.name d := by
  unfold insert
  cases d.body <;> rfl

theorem erase_of_none {n : GlobalName} (h : r.get? n = none) : r.erase n = r := by
  unfold erase
  rw [h]

variable {n : GlobalName}

theorem instances_erase (h : r.get? n = some d) :
    (r.erase n).instances = delistAll r.instances d.instantiates n := by
  unfold erase Definition.instantiates
  simp only [h]
  cases d.body <;> rfl

theorem subclasses_erase (h : r.get? n = some d) :
    (r.erase n).subclasses = delistAll r.subclasses d.extends n := by
  unfold erase Definition.extends
  simp only [h]
  cases d.body <;> rfl

/-- Erasing a name takes away what is defined under it, and nothing else. -/
theorem get?_erase (r : Registry) (n n' : GlobalName) :
    (r.erase n).get? n' = if n = n' then none else r.get? n' := by
  cases hn : r.get? n with
  | none =>
    rw [erase_of_none hn]
    by_cases h : n = n'
    · rw [if_pos h, ← h, hn]
    · rw [if_neg h]
  | some d =>
    have hdefinitions : (r.erase n).definitions = r.definitions.erase n := by
      unfold erase
      simp only [hn]
      cases d.body <;> rfl
    rw [get?, hdefinitions, Std.HashMap.getElem?_erase]
    simp [get?]

end Fields

/-- The lists of a map have, each once, the registered names that belong to a class. -/
structure IsIndex (r : Registry) (classes : Definition → List GlobalName)
    (m : Std.HashMap GlobalName (List GlobalName)) : Prop where
  nodup : ∀ c, (m.getD c []).Nodup
  mem_iff : ∀ c n, n ∈ m.getD c [] ↔ ∃ d, r.get? n = some d ∧ c ∈ classes d

/-- The definitions of a registry stand under their names, and its lists are right. -/
structure Indexed (r : Registry) : Prop where
  name_eq : ∀ n d, r.get? n = some d → d.name = n
  instances : r.IsIndex Definition.instantiates r.instances
  subclasses : r.IsIndex Definition.extends r.subclasses

section Changes
variable {r : Registry} {d : Definition} {classes : Definition → List GlobalName}
  {m : Std.HashMap GlobalName (List GlobalName)}

theorem get?_empty (n : GlobalName) : ({} : Registry).get? n = none := by simp [get?]

theorem indexed_empty : ({} : Registry).Indexed where
  name_eq n d h := by simp [get?_empty] at h
  instances := ⟨by simp, by simp [get?_empty]⟩
  subclasses := ⟨by simp, by simp [get?_empty]⟩

/-- A definition of a new name, or one that is registered already, keeps the lists exact. -/
theorem IsIndex.insert (h : r.IsIndex classes m) (hd : ∀ d', r.get? d.name = some d' → d' = d ∨
    classes d' = []) : (r.insert d).IsIndex classes (enlistAll m (classes d) d.name) where
  nodup := nodup_enlistAll h.nodup _ _
  mem_iff c n := by
    rw [mem_enlistAll, h.mem_iff]
    simp only [get?_insert]
    by_cases hn : d.name = n
    · subst hn
      simp only [if_pos, true_and, Option.some.injEq, exists_eq_left']
      refine ⟨fun hc => hc.elim ?_ id, .inr⟩
      rintro ⟨d', hd', hc⟩
      obtain heq | hnil := hd d' hd'
      · exact heq ▸ hc
      · simp [hnil] at hc
    · simp [hn, Ne.symm hn]

/-- A definition may take the place of one that stands in no list. -/
theorem Indexed.insert (h : r.Indexed)
    (hd : ∀ d', r.get? d.name = some d' → d' = d ∨ d'.instantiates = [] ∧ d'.extends = []) :
    (r.insert d).Indexed where
  name_eq n d' hn := by
    rw [get?_insert] at hn
    split at hn
    case isTrue hname =>
      obtain rfl := Option.some.inj hn
      exact hname
    case isFalse => exact h.name_eq n d' hn
  instances := instances_insert r d ▸ h.instances.insert fun d' hd' =>
    (hd d' hd').imp_right And.left
  subclasses := subclasses_insert r d ▸ h.subclasses.insert fun d' hd' =>
    (hd d' hd').imp_right And.right

/-- Erasing a definition takes its name out of the lists of its classes. -/
theorem IsIndex.erase {n : GlobalName} (h : r.IsIndex classes m) (hn : r.get? n = some d) :
    (r.erase n).IsIndex classes (delistAll m (classes d) n) where
  nodup := nodup_delistAll h.nodup _ _
  mem_iff c n' := by
    rw [mem_delistAll, h.mem_iff]
    simp only [get?_erase]
    by_cases heq : n = n'
    · subst heq
      simp [hn]
    · simp [heq, Ne.symm heq]

/-- Both kinds of lists stay exact when a definition is erased. -/
theorem Indexed.erase (h : r.Indexed) (n : GlobalName) : (r.erase n).Indexed := by
  cases hn : r.get? n with
  | none => rwa [erase_of_none hn]
  | some d =>
    refine ⟨fun n' d' hd' => ?_, instances_erase hn ▸ h.instances.erase hn,
      subclasses_erase hn ▸ h.subclasses.erase hn⟩
    rw [get?_erase] at hd'
    split at hd'
    · simp at hd'
    · exact h.name_eq n' d' hd'

theorem Indexed.eraseAll (h : r.Indexed) (ns : List GlobalName) : (r.eraseAll ns).Indexed := by
  induction ns generalizing r with
  | nil => exact h
  | cons n ns ih => exact ih (h.erase n)

theorem get?_eraseAll (r : Registry) (ns : List GlobalName) (n : GlobalName) :
    (r.eraseAll ns).get? n = if n ∈ ns then none else r.get? n := by
  induction ns generalizing r with
  | nil => rfl
  | cons n' ns ih =>
    rw [eraseAll, List.foldl_cons, ← eraseAll, ih, get?_erase]
    by_cases hn : n' = n
    · simp [hn]
    · simp [hn, Ne.symm hn]

/-- A definition that is registered is not registered twice. -/
theorem Indexed.insert_eq_self (h : r.Indexed) (hd : r.get? d.name = some d) : r.insert d = r := by
  have hdefinitions : (r.insert d).definitions = r.definitions := by
    rw [definitions_insert]
    exact Registry.insert_eq_self hd
  have hinstances : (r.insert d).instances = r.instances := by
    rw [instances_insert]
    exact enlistAll_eq_self fun c hc => (h.instances.mem_iff c _).mpr ⟨d, hd, hc⟩
  have hsubclasses : (r.insert d).subclasses = r.subclasses := by
    rw [subclasses_insert]
    exact enlistAll_eq_self fun c hc => (h.subclasses.mem_iff c _).mpr ⟨d, hd, hc⟩
  cases hr : r.insert d
  cases r
  simp_all

theorem Indexed.insertAll_eq_self {ds : List Definition} (h : r.Indexed)
    (hds : ∀ d ∈ ds, r.get? d.name = some d) : r.insertAll ds = r := by
  induction ds with
  | nil => rfl
  | cons d ds ih =>
    obtain ⟨hd, hds⟩ := List.forall_mem_cons.mp hds
    rw [insertAll, List.foldl_cons, h.insert_eq_self hd]
    exact ih hds

/-- Definitions of different names are all registered, and those of other names stay. -/
theorem get?_insertAll {ds : List Definition} (hds : (ds.map (·.name)).Nodup) (r : Registry)
    (n : GlobalName) (d : Definition) : (r.insertAll ds).get? n = some d ↔
      d ∈ ds ∧ d.name = n ∨ n ∉ ds.map (·.name) ∧ r.get? n = some d := by
  induction ds generalizing r with
  | nil => simp [insertAll]
  | cons e ds ih =>
    obtain ⟨he, hds⟩ := List.nodup_cons.mp hds
    rw [insertAll, List.foldl_cons, ← insertAll, ih hds, get?_insert]
    by_cases hn : e.name = n
    · subst hn
      have hother : d ∈ ds → d.name ≠ e.name := fun hd h => he (List.mem_map.mpr ⟨d, hd, h⟩)
      by_cases hd : d = e
      · simp [hd, he]
      · simp [hd, he, Ne.symm hd]
    · have hd : d.name = n → d ≠ e := by
        rintro h rfl
        exact hn h
      simp only [if_neg hn, List.mem_cons, List.map_cons, not_or]
      tauto

/-- Registering definitions, each once, keeps a registry well indexed if they take the place of none
in a list. -/
theorem Indexed.insertAll {ds : List Definition} (h : r.Indexed) (hds : (ds.map (·.name)).Nodup)
    (hnew : ∀ d ∈ ds, ∀ d', r.get? d.name = some d' → d'.instantiates = [] ∧ d'.extends = []) :
    (r.insertAll ds).Indexed := by
  induction ds generalizing r with
  | nil => exact h
  | cons e ds ih =>
    obtain ⟨he, hds⟩ := List.nodup_cons.mp hds
    obtain ⟨hnewe, hnew⟩ := List.forall_mem_cons.mp hnew
    refine ih (h.insert fun d' hd' => .inr (hnewe d' hd')) hds fun d hd d' hd' => hnew d hd d' ?_
    have hne : e.name ≠ d.name := fun heq => he (List.mem_map.mpr ⟨d, hd, heq.symm⟩)
    rwa [get?_insert, if_neg hne] at hd'

theorem insertAll_append (r : Registry) (ds ds' : List Definition) :
    r.insertAll (ds ++ ds') = (r.insertAll ds).insertAll ds' := List.foldl_append

end Changes

end Registry

end LeveledTypes
