import LeveledTypes.Elaboration.Instance
import Mathlib.Data.Finset.Card
import Mathlib.Data.List.Perm.Basic

/-!
# The candidates of a search

The walk through the classes that extend a class ends within as many steps as there are definitions,
so that its bound is no matter. Environments with the same classes and the same instances, in any
order and but for further instances, have the same candidates, in some order and but for these
instances, as long as no class that was without instances has one.
-/
namespace LeveledTypes.Environment

section Walk
variable {env : Environment} {w : SubclassWalk}

/-- The names of all definitions. -/
def names (env : Environment) : Finset GlobalName :=
  (env.base.definitions.keys ++ env.own.definitions.keys).toFinset

theorem card_names_le (env : Environment) : env.names.card ≤ env.size := by
  refine (List.toFinset_card_le _).trans ?_
  rw [List.length_append, Std.HashMap.length_keys, Std.HashMap.length_keys]
  exact le_rfl

theorem mem_names_of_classFields {n : GlobalName} {f : ClassField} (h : f ∈ env.classFields n) :
    n ∈ env.names := by
  have hdefined : env.get? n ≠ none := by
    intro hnone
    simp [classFields, hnone] at h
  rw [names, List.mem_toFinset, List.mem_append, Std.HashMap.mem_keys, Std.HashMap.mem_keys]
  by_contra hn
  rw [not_or] at hn
  refine hdefined (Option.or_eq_none_iff.mpr ⟨?_, ?_⟩)
  · exact Std.HashMap.getElem?_eq_none hn.2
  · exact Std.HashMap.getElem?_eq_none hn.1

namespace SubclassWalk

/-- A bound for the steps that a walk still takes: the classes to visit, and the definitions not
seen yet. -/
def potential (env : Environment) (w : SubclassWalk) : ℕ :=
  w.pending.length + (env.names \ w.seen.toFinset).card

/-- A class that is visited is seen from then on, which makes up for its place in the queue. -/
theorem potential_visit_le (c : GlobalName) (path : SuperclassPath) (w : SubclassWalk)
    (sub : GlobalName) : (w.visit env c path sub).potential env ≤ w.potential env := by
  unfold visit
  split
  case isTrue => exact le_rfl
  case isFalse hseen =>
    split
    case h_1 =>
      refine Nat.add_le_add_left
        (Finset.card_le_card (Finset.sdiff_subset_sdiff (Finset.Subset.refl _) ?_)) _
      exact fun n hn => by simpa using Or.inr (List.mem_toFinset.mp hn)
    case h_2 i hi =>
      -- A class that is seen for the first time is one of the definitions.
      obtain ⟨f, hf⟩ : ∃ f, f ∈ env.classFields sub := by
        obtain ⟨hlt, -⟩ := List.findIdx?_eq_some_iff_getElem.mp hi
        exact ⟨_, List.getElem_mem hlt⟩
      have hmem : sub ∈ env.names \ w.seen.toFinset :=
        Finset.mem_sdiff.mpr ⟨mem_names_of_classFields hf, by simpa using hseen⟩
      have herase : env.names \ (sub :: w.seen).toFinset =
          (env.names \ w.seen.toFinset).erase sub := by
        ext n
        simp only [List.toFinset_cons, Finset.mem_sdiff, Finset.mem_insert, Finset.mem_erase]
        tauto
      have hcard := Finset.card_erase_add_one hmem
      simp only [potential, List.length_cons, herase]
      omega

theorem potential_foldl_visit_le (c : GlobalName) (path : SuperclassPath) (subs : List GlobalName)
    (w : SubclassWalk) : (subs.foldl (visit env c path) w).potential env ≤ w.potential env := by
  induction subs generalizing w with
  | nil => exact le_rfl
  | cons sub subs ih => exact (ih _).trans (potential_visit_le c path w sub)

theorem run_of_pending_eq_nil (h : w.pending = []) (n : ℕ) : w.run env n = w := by
  cases n with
  | zero => rfl
  | succ n => rw [run, h]

/-- A walk that may take as many steps as it needs is not changed by more. -/
theorem run_add {n : ℕ} (h : w.potential env ≤ n) (k : ℕ) : w.run env (n + k) = w.run env n := by
  induction n generalizing w with
  | zero =>
    have hpending : w.pending = [] := by
      rw [← List.length_eq_zero_iff]
      unfold potential at h
      omega
    rw [run_of_pending_eq_nil hpending, run_of_pending_eq_nil hpending]
  | succ n ih =>
    rw [Nat.add_right_comm]
    cases hpending : w.pending with
    | nil => rw [run_of_pending_eq_nil hpending, run_of_pending_eq_nil hpending]
    | cons p pending =>
      have hstep : (⟨pending, w.seen, w.found⟩ : SubclassWalk).potential env ≤ n := by
        unfold potential at h ⊢
        rw [hpending, List.length_cons] at h
        dsimp only
        omega
      rw [run, run, hpending]
      exact ih ((potential_foldl_visit_le _ _ _ _).trans hstep)

end SubclassWalk

theorem potential_start_le (env : Environment) (c : GlobalName) :
    (⟨[(c, [])], [c], []⟩ : SubclassWalk).potential env ≤ env.size + 1 := by
  have hcard := (Finset.card_le_card
    (Finset.sdiff_subset (s := env.names) (t := [c].toFinset))).trans env.card_names_le
  change 1 + (env.names \ [c].toFinset).card ≤ _
  omega

/-- The walk for a class may be given any bound that is large enough. -/
theorem inheritedInstances_eq {n : ℕ} (hn : env.size ≤ n) (c : GlobalName) :
    (SubclassWalk.run env (n + 1) ⟨[(c, [])], [c], []⟩).found = env.inheritedInstances c := by
  obtain ⟨k, rfl⟩ := Nat.exists_eq_add_of_le hn
  rw [Nat.add_right_comm, SubclassWalk.run_add (env.potential_start_le c)]
  rfl

end Walk

/-- The second environment has the same classes as the first, and the same instances of them in some
order, but for further ones that are as said. -/
structure Enlarges (P : GlobalName → Prop) (env env' : Environment) : Prop where
  classFields : ∀ n, env'.classFields n = env.classFields n
  subclassesOf : ∀ c, env'.subclassesOf c = env.subclassesOf c
  instancesOf : ∀ c, ∃ ns, (env'.instancesOf c).Perm (env.instancesOf c ++ ns) ∧ ∀ n ∈ ns, P n

namespace Enlarges
variable {P : GlobalName → Prop} {env env' : Environment}

theorem refl (P : GlobalName → Prop) (env : Environment) : env.Enlarges P env :=
  ⟨fun _ => rfl, fun _ => rfl, fun _ => ⟨[], by simp, by simp⟩⟩

/-- Candidates are the same in some order, but for further ones that are as said. -/
def More (P : GlobalName → Prop) (ps qs : List (GlobalName × SuperclassPath)) : Prop :=
  ∃ zs, qs.Perm (ps ++ zs) ∧ ∀ z ∈ zs, P z.1

theorem More.append {ps qs ps' qs' : List (GlobalName × SuperclassPath)} (h : More P ps qs)
    (h' : More P ps' qs') : More P (ps ++ ps') (qs ++ qs') := by
  obtain ⟨zs, hperm, hzs⟩ := h
  obtain ⟨zs', hperm', hzs'⟩ := h'
  refine ⟨zs ++ zs', (hperm.append hperm').trans ?_, List.forall_mem_append.mpr ⟨hzs, hzs'⟩⟩
  rw [List.append_assoc, List.append_assoc]
  exact List.Perm.append_left ps (List.perm_append_comm_assoc _ _ _)

/-- Two walks that have seen the same classes. -/
structure Alongside (P : GlobalName → Prop) (w w' : SubclassWalk) : Prop where
  pending : w'.pending = w.pending
  seen : w'.seen = w.seen
  found : More P w.found w'.found

variable (h : Enlarges P env env')

include h

theorem more_instancesOf (c : GlobalName) (path : SuperclassPath) :
    More P ((env.instancesOf c).map fun n => (n, path))
      ((env'.instancesOf c).map fun n => (n, path)) := by
  obtain ⟨ns, hperm, hns⟩ := h.instancesOf c
  refine ⟨ns.map fun n => (n, path), ?_, List.forall_mem_map.mpr hns⟩
  rw [← List.map_append]
  exact hperm.map _

/-- A class that one walk visits is visited by the other, since both have seen the same. -/
theorem alongside_visit {w w' : SubclassWalk} (hw : Alongside P w w') (c : GlobalName)
    (path : SuperclassPath) (sub : GlobalName) :
    Alongside P (w.visit env c path sub) (w'.visit env' c path sub) := by
  unfold SubclassWalk.visit
  rw [hw.seen, h.classFields]
  split
  · exact hw
  · split
    · exact ⟨hw.pending, rfl, hw.found⟩
    · exact ⟨by rw [← hw.pending], rfl, hw.found.append (h.more_instancesOf sub _)⟩

theorem alongside_foldl_visit {w w' : SubclassWalk} (hw : Alongside P w w') (c : GlobalName)
    (path : SuperclassPath) (subs : List GlobalName) :
    Alongside P (subs.foldl (SubclassWalk.visit env c path) w)
      (subs.foldl (SubclassWalk.visit env' c path) w') := by
  induction subs generalizing w w' with
  | nil => exact hw
  | cons sub subs ih => exact ih (h.alongside_visit hw c path sub)

/-- The walks visit the same classes, and find more instances in one of the environments at most.
The induction is on the steps. -/
theorem alongside_run (n : ℕ) {w w' : SubclassWalk} (hw : Alongside P w w') :
    Alongside P (w.run env n) (w'.run env' n) := by
  induction n generalizing w w' with
  | zero => exact hw
  | succ n ih =>
    unfold SubclassWalk.run
    rw [hw.pending]
    split
    case h_1 => exact hw
    case h_2 c path pending hpending =>
      have hrest : Alongside P ⟨pending, w.seen, w.found⟩ ⟨pending, w'.seen, w'.found⟩ :=
        ⟨rfl, hw.seen, hw.found⟩
      rw [h.subclassesOf]
      exact ih (h.alongside_foldl_visit hrest c path _)

theorem more_inheritedInstances (c : GlobalName) :
    More P (env.inheritedInstances c) (env'.inheritedInstances c) := by
  rw [← inheritedInstances_eq (le_max_left env.size env'.size),
    ← inheritedInstances_eq (le_max_right env.size env'.size)]
  exact (h.alongside_run _ ⟨rfl, rfl, [], .refl _, by simp⟩).found

/-- The candidates for a class are the same, unless it has got its first instances, which hide those
of the classes that extend it. -/
theorem more_instanceCandidates {c : GlobalName}
    (hc : env.instancesOf c = [] → env'.instancesOf c = [] ∨ env.inheritedInstances c = []) :
    More P (env.instanceCandidates c) (env'.instanceCandidates c) := by
  have hdirect := h.more_instancesOf c []
  unfold instanceCandidates
  cases hns : env.instancesOf c with
  | nil =>
    obtain hns' | hinherited := hc hns
    · rw [hns']
      exact h.more_inheritedInstances c
    · cases hns' : env'.instancesOf c with
      | nil => exact h.more_inheritedInstances c
      | cons n' ns' =>
        rw [hns, hns'] at hdirect
        dsimp only
        rwa [hinherited]
  | cons n ns =>
    rw [hns] at hdirect
    cases hns' : env'.instancesOf c with
    | nil =>
      obtain ⟨zs, hperm, -⟩ := hdirect
      rw [hns'] at hperm
      simpa using hperm.length_eq
    | cons n' ns' => rwa [hns'] at hdirect

end Enlarges

end LeveledTypes.Environment
