import LeveledTypes.ModuleGraph
import Mathlib.Tactic

/-!
# Imports and waves

The imports of a module lead to the modules of those names. The counters of pending dependencies
find the modules that are ready, so the waves go through the graph in rounds: each has all modules
whose dependencies are done. Thus the waves have each module once, after all modules that it
imports; if there is no cycle, they have all modules.
-/
namespace LeveledTypes

open ModuleGraph
open Relation (TransGen transGen_swap)

/-- Adds an imported module to those found, unless it is among them or is the prelude. -/
def Surface.Import.addTo (ns : List String) (i : Surface.Import) : List String :=
  if i.module = Primitive.preludeName ∨ i.module ∈ ns then ns else ns ++ [i.module]

/-- The names of the modules that a module imports, each once; the prelude is not among them. -/
def Surface.Module.imported (m : Surface.Module) : List String :=
  m.imports.foldl Surface.Import.addTo []

theorem Surface.Import.addTo_of_nodup {ns : List String} (hns : ns.Nodup)
    (hprelude : Primitive.preludeName ∉ ns) (i : Surface.Import) :
    (i.addTo ns).Nodup ∧ Primitive.preludeName ∉ i.addTo ns := by
  unfold addTo
  split
  case isTrue => exact ⟨hns, hprelude⟩
  case isFalse h =>
    obtain ⟨hname, hnew⟩ := not_or.mp h
    refine ⟨?_, by simpa [hprelude] using Ne.symm hname⟩
    rw [List.nodup_append_comm]
    exact List.nodup_cons.mpr ⟨hnew, hns⟩

/-- No module is imported twice, and the prelude not at all. -/
theorem Surface.Module.imported_nodup (m : Surface.Module) :
    m.imported.Nodup ∧ Primitive.preludeName ∉ m.imported := by
  have hgeneral (is : List Surface.Import) {ns : List String} (hns : ns.Nodup ∧
      Primitive.preludeName ∉ ns) :
      (is.foldl Surface.Import.addTo ns).Nodup ∧
      Primitive.preludeName ∉ is.foldl Surface.Import.addTo ns := by
    induction is generalizing ns with
    | nil => exact hns
    | cons i is ih => exact ih (i.addTo_of_nodup hns.1 hns.2)
  exact hgeneral m.imports ⟨List.nodup_nil, List.not_mem_nil⟩

namespace ModuleGraph

section Imports
variable {names : List String} {n : String} {k : ℕ}

theorem getElem?_of_indexOf? (h : indexOf? names n = some k) : names[k]? = some n := by
  obtain ⟨i, hi, rfl⟩ := Option.map_eq_some_iff.mp h
  obtain ⟨hlt, hget, -⟩ := List.idxOf?_eq_some_iff.mp hi
  have hreverse : names.reverse[i]? = some n := by rw [List.getElem?_eq_getElem hlt, hget]
  rwa [List.getElem?_reverse (by simpa using hlt)] at hreverse

/-- The places that have been found are those of the imported modules. -/
def Finds (names : List String) (found : List ℕ) (ns : List String) : Prop :=
  List.Forall₂ (fun k n => indexOf? names n = some k) found ns

/-- No two of the names stand at the same place, so places may be compared in place of names. -/
theorem Finds.mem_iff {found : List ℕ} {ns : List String} (h : Finds names found ns)
    (hk : indexOf? names n = some k) : k ∈ found ↔ n ∈ ns := by
  have hinj {k k' : ℕ} {n n' : String} (hn : indexOf? names n = some k)
      (hn' : indexOf? names n' = some k') : k = k' ↔ n = n' := by
    refine ⟨?_, ?_⟩
    · rintro rfl
      exact Option.some.inj ((getElem?_of_indexOf? hn).symm.trans (getElem?_of_indexOf? hn'))
    · rintro rfl
      exact Option.some.inj (hn.symm.trans hn')
  induction h with
  | nil => simp
  | cons hhead _ ih =>
    rw [List.mem_cons, List.mem_cons]
    exact or_congr (hinj hk hhead) ih

/-- The imports are gone through in order: the fold that resolves them finds the places of the names
that the plain list of imports has, until one of them is unknown. -/
theorem finds_of_foldl {is : List Surface.Import} {found found₀ : List ℕ} {errors : List Error}
    {ns : List String} (hns : Finds names found₀ ns)
    (h : is.foldl (fun (found, errors) i =>
      if i.module = Primitive.preludeName then (found, errors)
      else
        match indexOf? names i.module with
        | some k => (if found.contains k then found else found ++ [k], errors)
        | none => (found, errors ++ [.located (.unknownModule i.module) i.span]))
          (found₀, errors) = (found, [])) :
    errors = [] ∧ Finds names found (is.foldl Surface.Import.addTo ns) := by
  induction is generalizing found₀ errors ns with
  | nil =>
    obtain ⟨rfl, rfl⟩ : found₀ = found ∧ errors = [] := by simpa using h
    exact ⟨rfl, hns⟩
  | cons i is ih =>
    rw [List.foldl_cons, Surface.Import.addTo]
    rw [List.foldl_cons] at h
    dsimp only at h
    by_cases hprelude : i.module = Primitive.preludeName
    · rw [if_pos hprelude] at h
      rw [if_pos (.inl hprelude)]
      exact ih hns h
    · rw [if_neg hprelude] at h
      cases hindex : indexOf? names i.module with
      | none =>
        rw [hindex] at h
        exact absurd (ih hns h).1 (by simp)
      | some k =>
        rw [hindex] at h
        dsimp only at h
        by_cases hmem : i.module ∈ ns
        · rw [if_pos (by simpa using (hns.mem_iff hindex).mpr hmem)] at h
          rw [if_pos (.inr hmem)]
          exact ih hns h
        · rw [if_neg (by simpa using (hns.mem_iff hindex).not.mpr hmem)] at h
          rw [if_neg (not_or.mpr ⟨hprelude, hmem⟩)]
          exact ih (List.rel_append hns (.cons hindex .nil)) h

/-- If all imports are found, they lead to the imported modules. -/
theorem finds_of_resolveImports {m : Surface.Module} {found : List ℕ}
    (h : resolveImports names m.imports = (found, [])) :
    Finds names found m.imported := (finds_of_foldl .nil h).2

/-- The places that are found have the names of the imported modules. -/
theorem Finds.filterMap_eq {found : List ℕ} {ns : List String} (h : Finds names found ns) :
    found.filterMap (names[·]?) = ns := by
  induction h with
  | nil => rfl
  | cons hk _ ih => rw [List.filterMap_cons_some (getElem?_of_indexOf? hk), ih]

end Imports

section Rounds
variable {deps : List (List ℕ)}

/-- A module depends on another one directly. -/
def Depends (deps : List (List ℕ)) (i d : ℕ) : Prop := d ∈ deps.getD i []

theorem lt_length_of_depends {i d : ℕ} (h : Depends deps i d) : i < deps.length := by
  by_contra hlt
  rw [Depends, List.getD_eq_getElem?_getD, List.getElem?_eq_none (Nat.le_of_not_lt hlt)] at h
  exact absurd h List.not_mem_nil

/-- The waves come one after the other: the modules of each are new, and all they import has come
before. -/
inductive Follows (deps : List (List ℕ)) : List ℕ → List (List ℕ) → Prop
  | nil (done : List ℕ) : Follows deps done []
  | cons {done wave : List ℕ} {waves : List (List ℕ)} (hnodup : wave.Nodup)
    (hnew : ∀ i ∈ wave, i ∉ done)
      (hdeps : ∀ i ∈ wave, ∀ d ∈ deps.getD i [], d ∈ done)
      (hrest : Follows deps (done ++ wave) waves) : Follows deps done (wave :: waves)

/-- The modules that are not done, while all they depend on is. -/
def ready (deps : List (List ℕ)) (done : List ℕ) : List ℕ :=
  (List.range deps.length).filter fun i => !done.contains i && (deps.getD i []).all done.contains

/-- The waves that can follow, and all that is done then. -/
def rounds (deps : List (List ℕ)) : ℕ → List ℕ → List (List ℕ) × List ℕ
  | 0, done => ([], done)
  | n + 1, done =>
    match ready deps done with
    | [] => ([], done)
    | wave =>
      let (waves, done) := rounds deps n (done ++ wave)
      (wave :: waves, done)

theorem mem_ready {done : List ℕ} {i : ℕ} :
    i ∈ ready deps done ↔ i < deps.length ∧ i ∉ done ∧ ∀ d ∈ deps.getD i [], d ∈ done := by
  simp [ready]

theorem pairwise_ready (deps : List (List ℕ)) (done : List ℕ) :
    (ready deps done).Pairwise (· < ·) :=
  List.pairwise_lt_range.filter _

theorem nodup_ready (deps : List (List ℕ)) (done : List ℕ) : (ready deps done).Nodup :=
  List.nodup_range.filter _

/-- Every round takes the modules that are ready, and the waves are the rounds. -/
theorem follows_rounds (deps : List (List ℕ)) (n : ℕ) (done : List ℕ) :
    Follows deps done (rounds deps n done).1 ∧
    (rounds deps n done).2 = done ++ (rounds deps n done).1.flatten := by
  induction n generalizing done with
  | zero => exact ⟨.nil done, by simp [rounds]⟩
  | succ n ih =>
    rw [rounds]
    split
    · exact ⟨.nil done, by simp⟩
    · next wave _ =>
      obtain ⟨hrest, hdone⟩ := ih (done ++ ready deps done)
      refine ⟨.cons ?_ ?_ ?_ hrest, by simp [hdone]⟩
      · exact nodup_ready deps done
      · exact fun i hi => (mem_ready.mp hi).2.1
      · exact fun i hi => (mem_ready.mp hi).2.2

theorem Follows.nodup {done : List ℕ} {waves : List (List ℕ)} (h : Follows deps done waves)
    (hdone : done.Nodup) : (done ++ waves.flatten).Nodup := by
  induction h with
  | nil => simpa using hdone
  | cons hnodup hnew _ _ ih =>
    rw [List.flatten_cons, ← List.append_assoc]
    exact ih (List.nodup_append.mpr ⟨hdone, hnodup, fun a ha b hb hab => hnew b hb (hab ▸ ha)⟩)

/-- Only modules that there are come up in the rounds. -/
theorem lt_length_of_mem_rounds {n i : ℕ} {done : List ℕ} (h : i ∈ (rounds deps n done).1.flatten) :
    i < deps.length := by
  induction n generalizing done with
  | zero => simp [rounds] at h
  | succ n ih =>
    rw [rounds] at h
    split at h
    · simp at h
    · rw [List.flatten_cons, List.mem_append] at h
      obtain h | h := h
      · exact (mem_ready.mp h).1
      · exact ih h

/-- The rounds end when nothing more is ready, or as many modules have come as there are rounds. -/
theorem ready_rounds (deps : List (List ℕ)) (n : ℕ) (done : List ℕ) :
    ready deps (rounds deps n done).2 = [] ∨ done.length + n ≤ (rounds deps n done).2.length := by
  induction n generalizing done with
  | zero => exact .inr (by simp [rounds])
  | succ n ih =>
    rw [rounds]
    split
    · next hready => exact .inl hready
    · next hready =>
      refine (ih (done ++ ready deps done)).imp_right fun hlength => ?_
      have hpos : 0 < (ready deps done).length := List.length_pos_of_ne_nil hready
      rw [List.length_append] at hlength
      dsimp only
      omega

end Rounds

section Counters
variable {deps : List (List ℕ)}

/-- What counting down leaves: a counter is down by how often the module comes up, and the modules
whose counters came to zero are new, each once. -/
structure CountedDown (pending us pending' new : List ℕ) : Prop where
  length : pending'.length = pending.length
  left : ∀ u, pending'.getD u 0 = pending.getD u 0 - us.count u
  nodup : new.Nodup
  mem_new : ∀ u, u ∈ new ↔ u ∈ us ∧ us.count u = pending.getD u 0

/-- Counting down one counter leaves the others. -/
theorem getD_set_pred {pending : List ℕ} {v : ℕ} (hv : 0 < pending.getD v 0) (u : ℕ) :
    (pending.set v (pending.getD v 0 - 1)).getD u 0 =
      pending.getD u 0 - if v = u then 1 else 0 := by
  have hlt : v < pending.length := by
    by_contra hge
    simp [List.getD_eq_getElem?_getD, List.getElem?_eq_none (Nat.le_of_not_lt hge)] at hv
  simp only [List.getD_eq_getElem?_getD, List.getElem?_set]
  split
  next heq =>
    subst heq
    simp [hlt]
  next => rfl

/-- The induction is on the modules to count down; the modules that come to zero are behind those
that came to zero before. -/
theorem countedDown_foldl {us pending : List ℕ} (next : List ℕ)
    (hus : ∀ u, us.count u ≤ pending.getD u 0) :
    ∃ pending' new, us.foldl countDown (pending, next) = (pending', next ++ new) ∧
      CountedDown pending us pending' new := by
  induction us generalizing pending next with
  | nil => exact ⟨pending, [], by simp, rfl, fun u => rfl, List.nodup_nil, by simp⟩
  | cons v us ih =>
    have hcount (u : ℕ) : (v :: us).count u = us.count u + if v = u then 1 else 0 := by
      simp [List.count_cons]
    simp only [hcount] at hus
    have hv := hus v
    rw [if_pos rfl] at hv
    have hset := getD_set_pred (show 0 < pending.getD v 0 by omega)
    have hless (u : ℕ) : us.count u ≤ (pending.set v (pending.getD v 0 - 1)).getD u 0 := by
      have := hus u
      rw [hset]
      omega
    obtain ⟨pending', new, hnew, hlength, hleft, hnodup, hmem⟩ :=
      ih (if pending.getD v 0 - 1 = 0 then next ++ [v] else next) hless
    rw [List.length_set] at hlength
    have hleft' (u : ℕ) : pending'.getD u 0 = pending.getD u 0 - (v :: us).count u := by
      rw [hleft, hset, hcount, Nat.sub_sub, Nat.add_comm]
    rw [List.foldl_cons, countDown, hnew]
    by_cases hzero : pending.getD v 0 - 1 = 0
    · -- The counter of the module is at zero, so the module does not come up again.
      have hnot : v ∉ us := List.count_eq_zero.mp (by omega)
      refine ⟨pending', v :: new,
        by rw [if_pos hzero, List.append_assoc, List.singleton_append], hlength, hleft',
        List.nodup_cons.mpr ⟨fun h => hnot ((hmem v).mp h).1, hnodup⟩, fun u => ?_⟩
      rw [List.mem_cons, List.mem_cons, hcount, hmem, hset]
      by_cases huv : u = v
      · subst huv
        simp only [true_or, if_true, true_and, true_iff]
        omega
      · simp [huv, Ne.symm huv]
    · refine ⟨pending', new, by rw [if_neg hzero], hlength, hleft', hnodup, fun u => ?_⟩
      rw [List.mem_cons, hcount, hmem, hset]
      by_cases huv : u = v
      · subst huv
        have hpos := List.count_pos_iff (a := u) (l := us)
        rw [if_pos rfl, ← hpos]
        omega
      · simp [huv, Ne.symm huv]

/-- How many dependencies of each module are not done. -/
def remaining (deps : List (List ℕ)) (done : List ℕ) : List ℕ :=
  deps.map fun ds => ds.countP (· ∉ done)

theorem getD_remaining (deps : List (List ℕ)) (done : List ℕ) (i : ℕ) :
    (remaining deps done).getD i 0 = (deps.getD i []).countP (· ∉ done) := by
  simp only [remaining, List.getD_eq_getElem?_getD, List.getElem?_map]
  cases deps[i]? <;> rfl

/-- A module is listed as a user once for each time that it lists the dependency. -/
theorem count_users (deps : List (List ℕ)) (d u : ℕ) :
    (users deps d).count u = (deps.getD u []).count d := by
  have hgeneral (n : ℕ) : ((List.range n).flatMap fun i => List.replicate
      ((deps.getD i []).count d) i).count u =
      if u < n then (deps.getD u []).count d else 0 := by
    induction n with
    | zero => simp
    | succ n ih =>
      rw [List.range_succ, List.flatMap_append, List.count_append, ih, List.flatMap_singleton,
        List.count_replicate]
      by_cases hu : n = u
      · subst hu
        simp
      · simp [hu, show u < n + 1 ↔ u < n by omega]
  rw [users, hgeneral]
  split
  case isTrue => rfl
  case isFalse hu => exact (List.count_eq_zero.mpr fun hd => hu (lt_length_of_depends hd)).symm

/-- In the users of a wave a module comes up once for every dependency that it has in the wave. -/
theorem count_flatMap_users {wave : List ℕ} (hwave : wave.Nodup) (u : ℕ) :
    (wave.flatMap (users deps)).count u = (deps.getD u []).countP (· ∈ wave) := by
  induction wave with
  | nil => simp
  | cons d wave ih =>
    obtain ⟨hd, hwave⟩ := List.nodup_cons.mp hwave
    have hsplit (ds : List ℕ) : ds.countP (· ∈ d :: wave) = ds.count d + ds.countP (· ∈ wave) := by
      induction ds with
      | nil => rfl
      | cons x xs ih =>
        rw [List.countP_cons, List.count_cons, List.countP_cons, ih]
        by_cases hx : x = d
        · subst hx
          simp [hd, Nat.add_right_comm]
        · simp [hx, Nat.add_assoc]
    rw [List.flatMap_cons, List.count_append, count_users, ih hwave, hsplit]

/-- With a module all it depends on is done. -/
def Closed (deps : List (List ℕ)) (done : List ℕ) : Prop :=
  ∀ i ∈ done, ∀ d ∈ deps.getD i [], d ∈ done

theorem Closed.append_ready {done : List ℕ} (h : Closed deps done) :
    Closed deps (done ++ ready deps done) := by
  intro i hi d hd
  refine List.mem_append_left _ ?_
  obtain hi | hi := List.mem_append.mp hi
  · exact h i hi d hd
  · exact (mem_ready.mp hi).2.2 d hd

theorem countP_remaining {done wave : List ℕ} (hnew : ∀ d ∈ wave, d ∉ done) (ds : List ℕ) :
    ds.countP (· ∉ done) = ds.countP (· ∈ wave) + ds.countP (· ∉ done ++ wave) := by
  induction ds with
  | nil => rfl
  | cons d ds ih =>
    rw [List.countP_cons, List.countP_cons, List.countP_cons, ih]
    by_cases hwave : d ∈ wave
    · simp [hwave, hnew d hwave, Nat.add_right_comm]
    · simp [hwave, Nat.add_assoc]

/-- The users of a wave that wait for no other module are those that are ready after it. -/
theorem mem_users_iff_ready {done : List ℕ} (hclosed : Closed deps done) (u : ℕ) :
    (∃ d ∈ deps.getD u [], d ∈ ready deps done) ∧
    (∀ d ∈ deps.getD u [], d ∈ done ++ ready deps done) ↔
      u ∈ ready deps (done ++ ready deps done) := by
  rw [mem_ready, List.mem_append, not_or]
  constructor
  · rintro ⟨⟨d, hd, hwave⟩, hall⟩
    have hnot : d ∉ done := (mem_ready.mp hwave).2.1
    exact ⟨lt_length_of_depends hd,
      ⟨fun hu => hnot (hclosed u hu d hd), fun hu => hnot ((mem_ready.mp hu).2.2 d hd)⟩, hall⟩
  · rintro ⟨hlt, ⟨hdone, hwave⟩, hall⟩
    refine ⟨?_, hall⟩
    rw [mem_ready] at hwave
    push Not at hwave
    obtain ⟨d, hd, hnot⟩ := hwave hlt hdone
    exact ⟨d, hd, (List.mem_append.mp (hall d hd)).resolve_left hnot⟩

/-- Counting down for the users of a wave gives the next one. -/
theorem countDown_users {done : List ℕ} (hclosed : Closed deps done) :
    ∃ next, ((ready deps done).flatMap (users deps)).foldl countDown (remaining deps done, []) =
        (remaining deps (done ++ ready deps done), next) ∧
      next.mergeSort = ready deps (done ++ ready deps done) := by
  have hcount (u : ℕ) : ((ready deps done).flatMap (users deps)).count u =
      (deps.getD u []).countP (· ∈ ready deps done) :=
    count_flatMap_users (nodup_ready deps done) u
  have hsplit (u : ℕ) : (deps.getD u []).countP (· ∉ done) =
      (deps.getD u []).countP (· ∈ ready deps done) +
      (deps.getD u []).countP (· ∉ done ++ ready deps done) :=
    countP_remaining (fun d hd => (mem_ready.mp hd).2.1) _
  have hless (u : ℕ) : ((ready deps done).flatMap (users deps)).count u ≤
      (remaining deps done).getD u 0 := by
    rw [hcount, getD_remaining, hsplit]
    exact Nat.le_add_right _ _
  obtain ⟨pending, next, heq, hlength, hleft, hnodup, hmem⟩ := countedDown_foldl [] hless
  refine ⟨next, ?_, ?_⟩
  · have hpending : pending = remaining deps (done ++ ready deps done) := by
      refine List.ext_getElem (by simpa [remaining] using hlength) fun i hi hi' => ?_
      have hget := hleft i
      rw [hcount, getD_remaining, hsplit, Nat.add_sub_cancel_left, ← getD_remaining] at hget
      simpa [List.getElem?_eq_getElem hi, List.getElem?_eq_getElem hi'] using hget
    rw [heq, hpending, List.nil_append]
  · have hready (u : ℕ) : u ∈ next ↔ u ∈ ready deps (done ++ ready deps done) := by
      rw [hmem, ← mem_users_iff_ready hclosed, hcount, getD_remaining, hsplit, ← List.count_pos_iff,
        hcount, List.countP_pos_iff, left_eq_add, List.countP_eq_zero]
      simp only [decide_eq_true_eq, not_not]
    have hperm : next.mergeSort.Perm (ready deps (done ++ ready deps done)) :=
      (List.mergeSort_perm next _).trans
        ((List.perm_ext_iff_of_nodup hnodup (nodup_ready _ _)).mpr hready)
    exact hperm.eq_of_pairwise (fun a b _ _ hab hba => by omega)
      (List.pairwise_mergeSort' (· ≤ ·) next) ((pairwise_ready _ _).imp Nat.le_of_lt)

/-- The loop over the counters goes through the rounds. -/
theorem wavesFrom_eq_rounds {done : List ℕ} (hclosed : Closed deps done) (n : ℕ) :
    wavesFrom deps n (remaining deps done) (ready deps done) =
      ((rounds deps n done).1, remaining deps (rounds deps n done).2) := by
  induction n generalizing done with
  | zero => rfl
  | succ n ih =>
    obtain ⟨next, heq, hnext⟩ := countDown_users hclosed
    have hrest := ih hclosed.append_ready
    rw [← hnext] at hrest
    rw [rounds]
    generalize ready deps done = wave at heq hrest
    cases wave with
    | nil => rfl
    | cons i wave =>
      rw [wavesFrom, heq]
      dsimp only
      rw [hrest]
      exact fun h => nomatch h

/-- Modules are put into the waves of the rounds, if all are done in the end; else the error is
about those that are pending. -/
theorem waves_eq_rounds (deps : List (List ℕ)) (names : List String) :
    waves deps names =
      if (rounds deps deps.length []).1.flatten.length < deps.length then
        .error (.cycle ((cycle deps (remaining deps (rounds deps deps.length []).2)).map
          fun i => names.getD i ""))
      else .ok (rounds deps deps.length []).1 := by
  have hpending : deps.map (·.length) = remaining deps [] := by simp [remaining]
  have hfirst : (List.range deps.length).filter (fun i => (remaining deps []).getD i 0 = 0) =
      ready deps [] := by
    refine List.filter_congr fun i _ => ?_
    rw [getD_remaining]
    cases deps.getD i [] <;> simp
  unfold waves
  dsimp only
  rw [hpending, hfirst, wavesFrom_eq_rounds fun i hi => absurd hi List.not_mem_nil]

end Counters

section Waves
variable {deps : List (List ℕ)}

/-- Without a cycle the waves follow each other and have all modules. -/
theorem follows_of_waves {names : List String} {ws : List (List ℕ)}
    (h : waves deps names = .ok ws) : Follows deps [] ws ∧ ∀ i < deps.length, i ∈ ws.flatten := by
  obtain ⟨hfollows, -⟩ := follows_rounds deps deps.length []
  rw [waves_eq_rounds] at h
  split at h
  case isTrue => simp at h
  case isFalse hlength =>
    obtain rfl := Except.ok.inj h
    refine ⟨hfollows, fun i hi => ?_⟩
    have hnodup : (rounds deps deps.length []).1.flatten.Nodup := by
      simpa using hfollows.nodup List.nodup_nil
    have hsubset : (rounds deps deps.length []).1.flatten ⊆ List.range deps.length := fun j hj =>
      List.mem_range.mpr (lt_length_of_mem_rounds hj)
    have hperm := (hnodup.subperm hsubset).perm_of_length_le (by simpa using hlength)
    exact hperm.mem_iff.mpr (List.mem_range.mpr hi)

/-- What comes in waves depends on nothing in circles, however long the way round is. -/
theorem Follows.acc {done : List ℕ} {waves : List (List ℕ)} (h : Follows deps done waves)
    (hdone : ∀ i ∈ done, Acc (Function.swap (Depends deps)) i) :
    ∀ i ∈ done ++ waves.flatten, Acc (Function.swap (Depends deps)) i := by
  induction h with
  | nil => simpa using hdone
  | @cons done wave waves _ _ hdeps _ ih =>
    rw [List.flatten_cons, ← List.append_assoc]
    refine ih fun i hi => ?_
    obtain hi | hi := List.mem_append.mp hi
    · exact hdone i hi
    · exact .intro i fun d hd => hdone d (hdeps i hi d hd)

/-- If all modules come in waves, there is no cycle. -/
theorem not_cycle_of_waves {names : List String} {ws : List (List ℕ)}
    (h : waves deps names = .ok ws) (i : ℕ) : ¬ TransGen (Depends deps) i i := by
  intro hcycle
  obtain ⟨hfollows, hall⟩ := follows_of_waves h
  have hlt : i < deps.length := by
    obtain ⟨d, hd, -⟩ := TransGen.head'_iff.mp hcycle
    exact lt_length_of_depends hd
  have hacc : Acc (TransGen (Function.swap (Depends deps))) i :=
    (hfollows.acc (by simp) i (by simpa using hall i hlt)).transGen
  clear hlt
  induction hacc with
  | intro i _ ih => exact ih i (transGen_swap.mpr hcycle) hcycle

end Waves

end ModuleGraph

end LeveledTypes
