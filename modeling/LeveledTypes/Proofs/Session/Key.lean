import LeveledTypes.Proofs.ModuleGraph
import LeveledTypes.Proofs.Session.Module

/-!
# Digests of modules

Among given sources the digest of a module follows from its text and the digests of what it imports,
down to the prelude. If digests of different keys differ, modules of one digest have, in whatever
sources they occur, the same text, and so have all modules below them.
-/
namespace LeveledTypes

open Relation (ReflTransGen)

/-- The modules on which a module depends, in the order of their names. -/
def Surface.Module.dependencyNames (m : Surface.Module) : List String :=
  (Primitive.preludeName :: m.imported).mergeSort fun a b => decide (a ≤ b)

namespace Work
variable {S S' : List Source} {n : String} {d d' : Digest} {k : Key}

theorem readSource_eq_ok {s : Source} {m : Surface.Module} (h : readSource s = .ok m) :
    s.name ≠ Primitive.preludeName ∧ Surface.Module.read s.name s.text = .ok m := by
  unfold readSource at h
  split at h
  case isTrue => simp at h
  case isFalse hname => exact ⟨hname, h⟩

/-- A module of some sources has a digest, if all that it imports has. -/
inductive Digested (S : List Source) : String → Digest → Prop
  | prelude : Digested S Primitive.preludeName Prelude.digest
  | module {n : String} {s : Source} {m : Surface.Module} {deps : List Dependency} (hs : s ∈ S)
    (hname : s.name = n)
      (hread : readSource s = .ok m) (hnames : deps.map (·.1) = m.dependencyNames)
      (hdeps : ∀ p ∈ deps, Digested S p.1 p.2) : Digested S n (Key.digest ⟨s.text, deps⟩)

/-- A module of some sources has a key. -/
structure HasKey (S : List Source) (n : String) (k : Key) : Prop where
  source : ∃ s ∈ S, s.name = n ∧ s.text = k.text ∧ ∃ m, readSource s = .ok m ∧
    k.deps.map (·.1) = m.dependencyNames
  digested : ∀ p ∈ k.deps, Digested S p.1 p.2

theorem HasKey.to_digested (h : HasKey S n k) : Digested S n k.digest := by
  obtain ⟨⟨s, hs, hname, htext, m, hread, hnames⟩, hdeps⟩ := h
  have hmodule : Digested S n (Key.digest ⟨s.text, k.deps⟩) := .module hs hname hread hnames hdeps
  rwa [htext] at hmodule

theorem Digested.cases_eq (h : Digested S n d) :
    n = Primitive.preludeName ∧ d = Prelude.digest ∨ ∃ k, HasKey S n k ∧ d = k.digest := by
  cases h with
  | prelude => exact .inl ⟨rfl, rfl⟩
  | module hs hname hread hnames hdeps =>
    exact .inr ⟨_, ⟨⟨_, hs, hname, rfl, _, hread, hnames⟩, hdeps⟩, rfl⟩

theorem HasKey.ne_prelude (h : HasKey S n k) : n ≠ Primitive.preludeName := by
  obtain ⟨⟨s, -, rfl, -, m, hread, -⟩, -⟩ := h
  exact (readSource_eq_ok hread).1

theorem Digested.exists_key (h : Digested S n d) (hn : n ≠ Primitive.preludeName) :
    ∃ k, HasKey S n k ∧ d = k.digest :=
  h.cases_eq.resolve_left fun hp => hn hp.1

section Determined

theorem eq_of_name_eq {s s' : Source} (hS : (S.map (·.name)).Nodup) (hs : s ∈ S) (hs' : s' ∈ S)
    (h : s.name = s'.name) : s = s' := List.inj_on_of_nodup_map hS hs hs' h

/-- Lists with the same names are the same if no name has two entries. -/
theorem eq_of_map_fst_eq {α : Type} {ps qs : List (String × α)}
    (hnames : ps.map (·.1) = qs.map (·.1)) (h : ∀ p ∈ ps, ∀ q ∈ qs, p.1 = q.1 → p.2 = q.2) :
    ps = qs := by
  induction ps generalizing qs with
  | nil => simpa using hnames
  | cons p ps ih =>
    cases qs with
    | nil => simp at hnames
    | cons q qs =>
      obtain ⟨hname, hnames⟩ := List.cons.inj hnames
      have hentry : p.2 = q.2 := h p (by simp) q (by simp) hname
      rw [ih hnames fun p hp q hq => h p (by simp [hp]) q (by simp [hq]), Prod.ext hname hentry]

/-- Among sources of different names a module has one digest. -/
theorem Digested.eq (hS : (S.map (·.name)).Nodup) (h : Digested S n d) (h' : Digested S n d') :
    d = d' := by
  induction h generalizing d' with
  | prelude =>
    obtain ⟨-, rfl⟩ | ⟨k, hk, -⟩ := h'.cases_eq
    · rfl
    · exact absurd rfl hk.ne_prelude
  | @module n s m deps hs hname hread hnames hdeps ih =>
    have hne : n ≠ Primitive.preludeName := hname ▸ (readSource_eq_ok hread).1
    obtain ⟨k, ⟨⟨s', hs', hname', htext, m', hread', hnames'⟩, hdigested⟩, rfl⟩ := h'.exists_key hne
    obtain rfl : s = s' := eq_of_name_eq hS hs hs' (hname.trans hname'.symm)
    obtain rfl : m = m' := Except.ok.inj (hread.symm.trans hread')
    have hdeps' : deps = k.deps :=
      eq_of_map_fst_eq (hnames.trans hnames'.symm) fun p hp q hq hpq => ih p hp
        (hpq ▸ hdigested q hq)
    rw [htext, hdeps']

/-- Sources of different names give each module one key. -/
theorem HasKey.eq {k' : Key} (hS : (S.map (·.name)).Nodup) (h : HasKey S n k) (h' : HasKey S n k') :
    k = k' := by
  obtain ⟨⟨s, hs, hname, htext, m, hread, hnames⟩, hdeps⟩ := h
  obtain ⟨⟨s', hs', hname', htext', m', hread', hnames'⟩, hdeps'⟩ := h'
  obtain rfl : s = s' := eq_of_name_eq hS hs hs' (hname.trans hname'.symm)
  obtain rfl : m = m' := Except.ok.inj (hread.symm.trans hread')
  cases k
  cases k'
  simp only [Key.mk.injEq]
  exact ⟨htext.symm.trans htext', eq_of_map_fst_eq (hnames.trans hnames'.symm) fun p hp q hq hpq =>
    (hdeps p hp).eq hS (hpq ▸ hdeps' q hq)⟩

end Determined

section Agreement

/-- A module directly imports another one. -/
def Imports (S : List Source) (n n' : String) : Prop :=
  ∃ s ∈ S, s.name = n ∧ ∃ m, readSource s = .ok m ∧ n' ∈ m.imported

/-- The module has the same text in both. -/
def SameText (S S' : List Source) (n : String) : Prop :=
  ∃ s ∈ S, ∃ s' ∈ S', s.name = n ∧ s'.name = n ∧ s.text = s'.text

/-- The module and all that it imports, directly or not, in the first or in the second, have the
same texts in both. -/
def SameBelow (S S' : List Source) (n : String) : Prop :=
  ∀ n', ReflTransGen (Imports S) n n' ∨ ReflTransGen (Imports S') n n' → SameText S S' n'

/-- Two keys that a module has in the given sets of sources have different digests. -/
def KeysDiffer (sets : List (List Source)) : Prop :=
  ∀ S ∈ sets, ∀ S' ∈ sets, ∀ n k k', HasKey S n k → HasKey S' n k' → k.digest = k'.digest → k = k'

theorem mem_dependencyNames {m : Surface.Module} :
    n ∈ m.dependencyNames ↔ n = Primitive.preludeName ∨ n ∈ m.imported := by
  simp [Surface.Module.dependencyNames]

variable {sets : List (List Source)}

/-- The induction is on the digest of the module in one of the sets: equal digests have equal keys,
and these have the text and the digests of the modules below. -/
theorem sameText_of_reaches (hkeys : KeysDiffer sets) (hS : S ∈ sets) (hS' : S' ∈ sets)
    (hnodup : (S.map (·.name)).Nodup) (h : Digested S n d) (h' : Digested S' n d)
    (hn : n ≠ Primitive.preludeName) {n' : String} (hreach : ReflTransGen (Imports S) n n') :
    SameText S S' n' := by
  induction h with
  | prelude => exact absurd rfl hn
  | @module n s m deps hs hname hread hnames hdeps ih =>
    obtain ⟨k, hk, hdigest⟩ := h'.exists_key hn
    have hkey : HasKey S n ⟨s.text, deps⟩ := ⟨⟨s, hs, hname, rfl, m, hread, hnames⟩, hdeps⟩
    obtain rfl : (⟨s.text, deps⟩ : Key) = k := hkeys S hS S' hS' n _ _ hkey hk hdigest
    obtain ⟨⟨s', hs', hname', htext, -⟩, hdeps'⟩ := hk
    obtain rfl | ⟨n₁, ⟨t, ht, htname, m₁, hread₁, himported⟩, hrest⟩ := hreach.cases_head
    · exact ⟨s, hs, s', hs', hname, hname', htext.symm⟩
    · obtain rfl : s = t := eq_of_name_eq hnodup hs ht (hname.trans htname.symm)
      obtain rfl : m = m₁ := Except.ok.inj (hread.symm.trans hread₁)
      have hmem : n₁ ∈ deps.map (·.1) := by
        rw [hnames]
        exact mem_dependencyNames.mpr (.inr himported)
      obtain ⟨p, hp, rfl⟩ := List.mem_map.mp hmem
      exact ih p hp (hdeps' p hp) (fun hp => m.imported_nodup.2 (hp ▸ himported)) hrest

/-- Modules of one digest agree in all that is below them. -/
theorem sameBelow_of_digested (hkeys : KeysDiffer sets) (hS : S ∈ sets) (hS' : S' ∈ sets)
    (hnodup : (S.map (·.name)).Nodup) (hnodup' : (S'.map (·.name)).Nodup) (h : Digested S n d)
    (h' : Digested S' n d) (hn : n ≠ Primitive.preludeName) : SameBelow S S' n := by
  intro n' hreach
  obtain hreach | hreach := hreach
  · exact sameText_of_reaches hkeys hS hS' hnodup h h' hn hreach
  · obtain ⟨s', hs', s, hs, hname', hname, htext⟩ :=
      sameText_of_reaches hkeys hS' hS hnodup' h' h hn hreach
    exact ⟨s, hs, s', hs', hname, hname', htext.symm⟩

/-- The module has the same text in both, or is missing in both, and so have all that it imports in
the first, directly or not. -/
def AgreeBelow (S S' : List Source) (n : String) : Prop :=
  ∀ n', ReflTransGen (Imports S) n n' → ∀ text,
    (∃ s ∈ S, s.name = n' ∧ s.text = text) ↔ ∃ s ∈ S', s.name = n' ∧ s.text = text

theorem AgreeBelow.imports {n' : String} (h : AgreeBelow S S' n) (himports : Imports S n n') :
    AgreeBelow S S' n' := fun n'' hreach => h n'' (hreach.head himports)

theorem AgreeBelow.mem_names {n' : String} (h : AgreeBelow S S' n)
    (hreach : ReflTransGen (Imports S) n n') :
    n' ∈ S.map (·.name) ↔ n' ∈ S'.map (·.name) := by
  have htexts (T : List Source) :
      n' ∈ T.map (·.name) ↔ ∃ text, ∃ s ∈ T, s.name = n' ∧ s.text = text := by
    simp only [List.mem_map]
    grind
  rw [htexts, htexts]
  exact exists_congr (h n' hreach)

theorem AgreeBelow.text_eq {s s' : Source} (h : AgreeBelow S S' s.name)
    (hS' : (S'.map (·.name)).Nodup) (hs : s ∈ S) (hs' : s' ∈ S') (hname : s.name = s'.name) :
    s.text = s'.text := by
  obtain ⟨t, ht, htname, htext⟩ := (h _ .refl s.text).mp ⟨s, hs, rfl, rfl⟩
  obtain rfl : t = s' := eq_of_name_eq hS' ht hs' (htname.trans hname)
  exact htext.symm

/-- Only the name and the text of a source are read. -/
theorem readSource_congr {s s' : Source} (hname : s.name = s'.name) (htext : s.text = s'.text) :
    readSource s = readSource s' := by
  simp only [readSource, hname, htext]

/-- Modules that agree in all that is below them have one digest. -/
theorem Digested.eq_of_agreeBelow (hS' : (S'.map (·.name)).Nodup) (h : Digested S n d)
    (h' : Digested S' n d') (hbelow : n ≠ Primitive.preludeName → AgreeBelow S S' n) : d = d' := by
  induction h generalizing d' with
  | prelude =>
    obtain ⟨-, rfl⟩ | ⟨k, hk, -⟩ := h'.cases_eq
    · rfl
    · exact absurd rfl hk.ne_prelude
  | @module n s m deps hs hname hread hnames hdeps ih =>
    have hne : n ≠ Primitive.preludeName := hname ▸ (readSource_eq_ok hread).1
    obtain ⟨k, ⟨⟨s', hs', hname', htext', m', hread', hnames'⟩, hdigested⟩, rfl⟩ :=
      h'.exists_key hne
    have hbelow := hbelow hne
    subst hname
    have htext : s.text = s'.text := hbelow.text_eq hS' hs hs' hname'.symm
    obtain rfl : m = m' :=
      Except.ok.inj (hread.symm.trans ((readSource_congr hname'.symm htext).trans hread'))
    have hdeps' : deps = k.deps := by
      refine eq_of_map_fst_eq (hnames.trans hnames'.symm) fun p hp q hq hpq => ?_
      refine ih p hp (hpq ▸ hdigested q hq) fun hne => ?_
      have hmem : p.1 ∈ m.dependencyNames := hnames ▸ List.mem_map.mpr ⟨p, hp, rfl⟩
      exact hbelow.imports
        ⟨s, hs, rfl, m, hread, (mem_dependencyNames.mp hmem).resolve_left hne⟩
    rw [htext, htext', hdeps']

end Agreement

end Work

end LeveledTypes
