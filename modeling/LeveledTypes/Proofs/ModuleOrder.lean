import LeveledTypes.Proofs.ModuleGraph

/-!
# The order of modules

If no module depends on itself, directly or not, every module stands in exactly one wave: in the
first one without a dependency, else right behind the last of its dependencies. If there is a cycle,
the error shows one, as a way through dependencies that ends where it starts.
-/
namespace LeveledTypes.ModuleGraph

open Relation (TransGen)

variable {deps : List (List ℕ)}

section Waves

/-- The place of the wave that a module stands in. -/
def waveOf (ws : List (List ℕ)) (i : ℕ) : ℕ := ws.findIdx fun w => i ∈ w

/-- The waves have each module once, and right behind what it depends on. -/
structure Ordered (deps ws : List (List ℕ)) : Prop where
  perm : ws.flatten.Perm (List.range deps.length)
  inhabited : [] ∉ ws
  sorted : ∀ w ∈ ws, w.Pairwise (· < ·)
  waveOf_eq : ∀ i < deps.length, waveOf ws i =
    (deps.getD i []).toFinset.sup fun d => waveOf ws d + 1
  independent : ∀ w ∈ ws, ∀ i ∈ w, ∀ d ∈ w, ¬ Depends deps i d

/-- A wave consists of all modules that are ready when the waves before it are done. -/
theorem eq_ready_of_rounds {n k : ℕ} {done w : List ℕ} (h : (rounds deps n done).1[k]? = some w) :
    w = ready deps (done ++ ((rounds deps n done).1.take k).flatten) ∧ w ≠ [] := by
  induction n generalizing done k with
  | zero => simp [rounds] at h
  | succ n ih =>
    rw [rounds] at h ⊢
    split at h
    · simp at h
    · next hready =>
      cases k with
      | zero =>
        obtain rfl : ready deps done = w := by simpa using h
        simpa using hready
      | succ k => simpa using ih h

theorem mem_flatten_take_iff {ws : List (List ℕ)} {i k : ℕ} (hk : k ≤ ws.length) :
    i ∈ (ws.take k).flatten ↔ waveOf ws i < k := by
  have hexists := @List.findIdx_lt_length _ (fun w => decide (i ∈ w)) (ws.take k)
  rw [List.findIdx_take, List.length_take, Nat.min_eq_left hk] at hexists
  rw [List.mem_flatten, waveOf]
  simpa using hexists.symm

/-- What is done before a wave are the modules of earlier waves, and the wave is what is ready
then. -/
theorem eq_ready_of_waves {names : List String} {ws : List (List ℕ)} {k : ℕ} {w : List ℕ}
    (h : waves deps names = .ok ws) (hw : ws[k]? = some w) :
    w = ready deps (ws.take k).flatten ∧ w ≠ [] := by
  rw [waves_eq_rounds] at h
  split at h
  case isTrue => simp at h
  case isFalse =>
    obtain rfl := Except.ok.inj h
    simpa using eq_ready_of_rounds hw

/-- A module comes as soon as all it depends on is done. -/
theorem waveOf_eq_sup {names : List String} {ws : List (List ℕ)} {i : ℕ}
    (h : waves deps names = .ok ws) (hi : i < deps.length) : waveOf ws i =
    (deps.getD i []).toFinset.sup fun d => waveOf ws d + 1 := by
  have hlt : waveOf ws i < ws.length := by
    rw [← mem_flatten_take_iff le_rfl, List.take_length]
    exact (follows_of_waves h).2 i hi
  have hmem : i ∈ ready deps (ws.take (waveOf ws i)).flatten := by
    rw [← (eq_ready_of_waves h (List.getElem?_eq_getElem hlt)).1]
    have hfound := List.findIdx_getElem (w := hlt)
    rwa [decide_eq_true_eq] at hfound
  refine le_antisymm ?_ (Finset.sup_le fun d hd => ?_)
  · by_contra hsup
    -- Otherwise the module would have been ready in an earlier wave.
    generalize hk : (deps.getD i []).toFinset.sup (fun d => waveOf ws d + 1) = k at hsup
    have hkw : k < ws.length := by omega
    have hearlier : i ∈ ws[k] := by
      rw [(eq_ready_of_waves h (List.getElem?_eq_getElem hkw)).1, mem_ready]
      refine ⟨hi, (mem_flatten_take_iff hkw.le).not.mpr (by omega), fun d hd => ?_⟩
      rw [mem_flatten_take_iff hkw.le, ← hk]
      exact Finset.le_sup (f := fun d => waveOf ws d + 1) (List.mem_toFinset.mpr hd)
    have hfirst : waveOf ws i < k + 1 := by
      rw [← mem_flatten_take_iff (by omega), List.mem_flatten]
      exact ⟨ws[k], List.mem_take_iff_getElem.mpr ⟨k, by omega, rfl⟩, hearlier⟩
    omega
  · exact (mem_flatten_take_iff hlt.le).mp ((mem_ready.mp hmem).2.2 d (List.mem_toFinset.mp hd))

/-- The waves follow each other, which puts every module right behind the last of its dependencies.
-/
theorem ordered_of_waves {names : List String} {ws : List (List ℕ)}
    (h : waves deps names = .ok ws) : Ordered deps ws := by
  obtain ⟨hfollows, hall⟩ := follows_of_waves h
  have hready {w : List ℕ} (hw : w ∈ ws) : ∃ done, w = ready deps done ∧ w ≠ [] := by
    obtain ⟨k, hk⟩ := List.mem_iff_getElem?.mp hw
    exact ⟨_, eq_ready_of_waves h hk⟩
  have hlt : ∀ i ∈ ws.flatten, i < deps.length := by
    intro i hi
    obtain ⟨w, hw, hiw⟩ := List.mem_flatten.mp hi
    obtain ⟨done, rfl, -⟩ := hready hw
    exact (mem_ready.mp hiw).1
  have hnodup : ws.flatten.Nodup := by simpa using hfollows.nodup List.nodup_nil
  refine ⟨?_, ?_, ?_, ?_, ?_⟩
  · refine (List.perm_ext_iff_of_nodup hnodup List.nodup_range).mpr fun i => ?_
    rw [List.mem_range]
    exact ⟨hlt i, hall i⟩
  · intro hnil
    obtain ⟨_, -, hne⟩ := hready hnil
    exact hne rfl
  · intro w hw
    obtain ⟨done, rfl, -⟩ := hready hw
    exact List.pairwise_lt_range.filter _
  · exact fun i hi => waveOf_eq_sup h hi
  · intro w hw i hi d hd hdep
    obtain ⟨done, rfl, -⟩ := hready hw
    exact (mem_ready.mp hd).2.1 ((mem_ready.mp hi).2.2 d hdep)

end Waves

section Cycles
variable {pending : List ℕ}

/-- The path goes through dependencies and ends where it starts. -/
structure Circular (deps : List (List ℕ)) (path : List ℕ) : Prop where
  length : 2 ≤ path.length
  closed : path.head? = path.getLast?
  linked : path.IsChain (Depends deps)

/-- A walk, the latest module first, through modules that are pending. -/
structure Walk (deps : List (List ℕ)) (pending : List ℕ) (current : ℕ) (path : List ℕ) : Prop where
  current : path.head? = some current
  nodup : path.Nodup
  pending : ∀ i ∈ path, 0 < pending.getD i 0
  linked : path.IsChain fun a b => Depends deps b a

theorem Walk.length_le {current : ℕ} {path : List ℕ} (h : Walk deps pending current path) :
    path.length ≤ pending.length := by
  have hsubset : path ⊆ List.range pending.length := by
    intro i hi
    have hpos := h.pending i hi
    by_contra hlt
    simp [List.getD_eq_getElem?_getD,
      List.getElem?_eq_none (Nat.le_of_not_lt (List.mem_range.not.mp hlt))] at hpos
  simpa using (h.nodup.subperm hsubset).length_le

/-- A walk that comes to one of its own modules again closes a cycle there. -/
theorem Walk.close {current next : ℕ} {path : List ℕ} (h : Walk deps pending current path)
    (hdep : Depends deps current next) (hnext : next ∈ path) :
    Circular deps (path.reverse.dropWhile (· ≠ next) ++ [next]) := by
  obtain ⟨skipped, rest, hpath, hskipped⟩ := List.eq_append_cons_of_mem (List.mem_reverse.mpr hnext)
  have hturn : path.reverse.dropWhile (· ≠ next) = next :: rest := by
    rw [hpath, List.dropWhile_append_of_pos]
    · simp
    · exact fun i hi => decide_eq_true fun heq => hskipped (heq ▸ hi)
  have hlast : (next :: rest).getLast? = some current := by
    rw [← h.current, ← List.getLast?_reverse, hpath, List.getLast?_append_cons]
  have hlinked : (next :: rest).IsChain (Depends deps) := by
    have hreverse := List.isChain_reverse.mpr h.linked
    rw [hpath] at hreverse
    exact hreverse.right_of_append
  rw [hturn]
  refine ⟨by simp, by rw [List.getLast?_concat]; rfl, ?_⟩
  refine hlinked.append (List.isChain_singleton next) fun i hi d hd => ?_
  obtain rfl : current = i := Option.some.inj (hlast.symm.trans hi)
  obtain rfl : next = d := by simpa using hd
  exact hdep

/-- If whoever is pending depends on one that is pending, the walk comes back to a module that it
has been at. -/
theorem circular_cycleFrom {n current : ℕ} {path : List ℕ}
    (hstuck : ∀ i, 0 < pending.getD i 0 → ∃ d, Depends deps i d ∧ 0 < pending.getD d 0)
    (h : Walk deps pending current path) (hn : pending.length < path.length + n) :
    Circular deps (cycleFrom deps pending n current path) := by
  induction n generalizing current path with
  | zero =>
    have := h.length_le
    omega
  | succ n ih =>
    rw [cycleFrom]
    split
    case h_1 hnone =>
      obtain ⟨d, hd, hpending⟩ :=
        hstuck current (h.pending current (List.mem_of_mem_head? h.current))
      exact absurd (decide_eq_true hpending) (List.find?_eq_none.mp hnone d hd)
    case h_2 next hsome =>
      have hdep : Depends deps current next := List.mem_of_find?_eq_some hsome
      have hnext := List.find?_some hsome
      rw [decide_eq_true_eq] at hnext
      split
      case isTrue hmem => exact h.close hdep (by simpa using hmem)
      case isFalse hnew =>
        refine ih ⟨rfl, List.nodup_cons.mpr ⟨by simpa using hnew, h.nodup⟩,
          List.forall_mem_cons.mpr ⟨hnext, h.pending⟩, h.linked.cons fun i hi => ?_⟩ ?_
        · obtain rfl : current = i := Option.some.inj (h.current.symm.trans hi)
          exact hdep
        · rw [List.length_cons]
          omega

theorem remaining_pos_iff {done : List ℕ} {i : ℕ} :
    0 < (remaining deps done).getD i 0 ↔ ∃ d, Depends deps i d ∧ d ∉ done := by
  rw [getD_remaining, List.countP_pos_iff]
  simp only [decide_eq_true_eq, Depends]

/-- If nothing is ready, whoever is not done waits for one that is not done. -/
theorem remaining_pos_of_ready {done : List ℕ} {i : ℕ} (hready : ready deps done = [])
    (hi : i < deps.length) (hdone : i ∉ done) : 0 < (remaining deps done).getD i 0 := by
  have hnot : i ∉ ready deps done := by simp [hready]
  rw [mem_ready] at hnot
  push Not at hnot
  exact remaining_pos_iff.mpr (hnot hi hdone)

/-- A pending module has a pending dependency as long as none is ready, so that the walk goes on
until it comes to one of its own modules, since it cannot have more modules than there are. -/
theorem circular_cycle {done : List ℕ} (hrange : ∀ i d, Depends deps i d → d < deps.length)
    (hready : ready deps done = []) (hlength : done.length < deps.length) :
    Circular deps (cycle deps (remaining deps done)) := by
  have hstuck (i : ℕ) (hi : 0 < (remaining deps done).getD i 0) :
      ∃ d, Depends deps i d ∧ 0 < (remaining deps done).getD d 0 := by
    obtain ⟨d, hd, hdone⟩ := remaining_pos_iff.mp hi
    exact ⟨d, hd, remaining_pos_of_ready hready (hrange i d hd) hdone⟩
  rw [cycle]
  split
  case h_1 hnone =>
    have hsubset : List.range deps.length ⊆ done := by
      intro i hi
      by_contra hdone
      have hpos := remaining_pos_of_ready hready (List.mem_range.mp hi) hdone
      exact List.find?_eq_none.mp hnone i hi (decide_eq_true hpos)
    have hle := (List.nodup_range.subperm hsubset).length_le
    rw [List.length_range] at hle
    omega
  case h_2 start hsome =>
    have hstart := List.find?_some hsome
    rw [decide_eq_true_eq] at hstart
    refine circular_cycleFrom hstuck
      ⟨rfl, List.nodup_singleton start, by simpa using hstart, List.isChain_singleton start⟩ ?_
    rw [remaining, List.length_map, List.length_singleton]
    omega

/-- If modules are left over, the error shows a cycle. -/
theorem circular_of_waves {names : List String} {e : Error} (hrange : ∀ i d, Depends deps i d →
    d < deps.length) (h : waves deps names = .error e) :
    ∃ path, Circular deps path ∧ e = .cycle (path.map fun i => names.getD i "") := by
  rw [waves_eq_rounds] at h
  split at h
  case isFalse => simp at h
  case isTrue hlength =>
    obtain ⟨-, hdone⟩ := follows_rounds deps deps.length []
    rw [List.nil_append] at hdone
    rw [← hdone] at hlength
    have hready : ready deps (rounds deps deps.length []).2 = [] :=
      (ready_rounds deps deps.length []).resolve_right (by simpa using hlength)
    exact ⟨_, circular_cycle hrange hready hlength, (Except.error.inj h).symm⟩

/-- A circular path shows that a module depends on itself. -/
theorem Circular.exists_transGen {path : List ℕ} (h : Circular deps path) :
    ∃ i, TransGen (Depends deps) i i := by
  obtain ⟨hlength, hclosed, hlinked⟩ := h
  obtain _ | ⟨i, _ | ⟨d, rest⟩⟩ := path
  · simp at hlength
  · simp at hlength
  · obtain ⟨hdep, hrest⟩ := List.isChain_cons_cons.mp hlinked
    have hlast : (d :: rest).getLast (List.cons_ne_nil d rest) = i := by
      simpa [List.getLast?_eq_getLast_of_ne_nil, List.getLast_cons] using hclosed.symm
    exact ⟨i, .head' hdep (List.relationReflTransGen_of_exists_isChain_cons rest hrest hlast)⟩

/-- If modules are left over, there is a cycle. -/
theorem exists_cycle_of_waves {names : List String} {e : Error} (hrange : ∀ i d, Depends deps i d →
    d < deps.length) (h : waves deps names = .error e) : ∃ i, TransGen (Depends deps) i i := by
  obtain ⟨path, hpath, -⟩ := circular_of_waves hrange h
  exact hpath.exists_transGen

end Cycles

section Order

/-- Modules are put in order if and only if none depends on itself, directly or not; else the error
shows a cycle. -/
theorem waves_ordered_or_circular (deps : List (List ℕ)) (names : List String)
    (hrange : ∀ i d, Depends deps i d → d < deps.length) :
    ((∃ ws, waves deps names = .ok ws) ↔ ∀ i, ¬ TransGen (Depends deps) i i) ∧
      (∀ ws, waves deps names = .ok ws → Ordered deps ws) ∧
      ∀ e, waves deps names = .error e →
        ∃ path, Circular deps path ∧ e = .cycle (path.map fun i => names.getD i "") := by
  refine ⟨⟨fun ⟨ws, h⟩ i => not_cycle_of_waves h i, fun hacyclic => ?_⟩,
    fun ws h => ordered_of_waves h, fun e h => circular_of_waves hrange h⟩
  cases h : waves deps names with
  | ok ws => exact ⟨ws, rfl⟩
  | error e =>
    obtain ⟨i, hi⟩ := exists_cycle_of_waves hrange h
    exact absurd hi (hacyclic i)

/-- Two modules import each other, one of them twice, while another one imports itself. -/
theorem waves_ordered_or_circular_mutual :
    let deps := [[1, 1], [0], [2], []]
    let names := ["a", "b", "c", "d"]
    (∀ i d, Depends deps i d → d < deps.length) ∧
      ((∃ ws, waves deps names = .ok ws) ↔ ∀ i, ¬ TransGen (Depends deps) i i) ∧
      (∀ ws, waves deps names = .ok ws → Ordered deps ws) ∧
      ∀ e, waves deps names = .error e →
        ∃ path, Circular deps path ∧ e = .cycle (path.map fun i => names.getD i "") := by
  have hrange : ∀ i d, Depends [[1, 1], [0], [2], []] i d → d < [[1, 1], [0], [2], []].length := by
    intro i d hd
    have hsmall : ∀ i < 4, ∀ d ∈ [[1, 1], [0], [2], []].getD i [], d < 4 := by decide
    exact hsmall i (lt_length_of_depends hd) d hd
  exact ⟨hrange, waves_ordered_or_circular _ _ hrange⟩

end Order

end LeveledTypes.ModuleGraph
