import LeveledTypes.Proofs.Level.Solution

/-!
# Relaxation finds the longest walks

A distance computed by relaxation is the weight of a walk along edges, and after `k` rounds it is at
least the weight of every walk of at most `k` edges. If some assignment of numbers to the nodes
satisfies all edges, then no cycle has a positive weight, so that a walk may leave its cycles out:
the longest walks have no more edges than there are nodes, and relaxation ends within its rounds
with distances that satisfy every edge.
-/
namespace LeveledTypes

/-! ## Walks -/

/-- The edges lead, one after the other, from `s` to `t`. -/
def LevelWalk : LevelNode → List LevelEdge → LevelNode → Prop
  | s, [], t => s = t
  | s, e :: es, t => e.source = s ∧ LevelWalk e.target es t

/-- The sum of the weights along a walk. -/
def walkWeight (es : List LevelEdge) : ℤ := (es.map (·.weight)).sum

@[simp] theorem walkWeight_nil : walkWeight [] = 0 := rfl

@[simp] theorem walkWeight_cons (e : LevelEdge) (es : List LevelEdge) :
    walkWeight (e :: es) = e.weight + walkWeight es := by simp [walkWeight]

@[simp] theorem walkWeight_append (as bs : List LevelEdge) :
    walkWeight (as ++ bs) = walkWeight as + walkWeight bs := by simp [walkWeight]

/-- An assignment of numbers to nodes that satisfies the edges. -/
def Potential (edges : List LevelEdge) (φ : LevelNode → ℤ) : Prop :=
  ∀ e ∈ edges, φ e.source + e.weight ≤ φ e.target

namespace LevelWalk
variable {edges es as bs : List LevelEdge} {s t : LevelNode}

theorem append_iff : LevelWalk s (as ++ bs) t ↔ ∃ u, LevelWalk s as u ∧ LevelWalk u bs t := by
  induction as generalizing s with
  | nil => simp [LevelWalk]
  | cons e as ih => simp only [List.cons_append, LevelWalk, ih, and_assoc, exists_and_left]

theorem weight_le {φ : LevelNode → ℤ} (hφ : Potential edges φ) (hes : es ⊆ edges)
    (h : LevelWalk s es t) : φ s + walkWeight es ≤ φ t := by
  induction es generalizing s with
  | nil =>
    obtain rfl : s = t := h
    simp
  | cons e es ih =>
    obtain ⟨rfl, h⟩ := h
    have he := hφ e (hes List.mem_cons_self)
    have ht := ih (List.subset_of_cons_subset hes) h
    rw [walkWeight_cons]
    omega

/-- Two edges of a list that start at the same node, if there are any. -/
theorem exists_same_source (h : ¬(es.map (·.source)).Nodup) :
    ∃ as e bs e' cs, es = as ++ (e :: bs) ++ e' :: cs ∧ e.source = e'.source := by
  induction es with
  | nil => simp at h
  | cons e es ih =>
    rw [List.map_cons, List.nodup_cons, not_and_or, not_not] at h
    obtain h | h := h
    · obtain ⟨e', he', hs⟩ := List.mem_map.mp h
      obtain ⟨bs, cs, rfl⟩ := List.append_of_mem he'
      exact ⟨[], e, bs, e', cs, rfl, hs.symm⟩
    · obtain ⟨as, e₁, bs, e₂, cs, rfl, hs⟩ := ih h
      exact ⟨e :: as, e₁, bs, e₂, cs, rfl, hs⟩

/-- A walk that leaves out its cycles has no more edges than there are nodes, and its weight is no
smaller. -/
theorem exists_short {φ : LevelNode → ℤ} (hφ : Potential edges φ) {nodes : List LevelNode}
    (hnodes : ∀ e ∈ edges, e.source ∈ nodes) (hes : es ⊆ edges) (h : LevelWalk s es t) :
    ∃ es' ⊆ edges, LevelWalk s es' t ∧ es'.length ≤ nodes.length ∧
      walkWeight es ≤ walkWeight es' := by
  induction hn : es.length using Nat.strong_induction_on generalizing es with
  | _ n ih =>
    by_cases hnodup : (es.map (·.source)).Nodup
    · have hsub : es.map (·.source) ⊆ nodes := by
        intro x hx
        obtain ⟨e, he, rfl⟩ := List.mem_map.mp hx
        exact hnodes e (hes he)
      have hlen := (hnodup.subperm hsub).length_le
      rw [List.length_map] at hlen
      exact ⟨es, hes, h, hlen, le_rfl⟩
    obtain ⟨as, e, bs, e', cs, rfl, hsource⟩ := exists_same_source hnodup
    obtain ⟨u, huab, he'⟩ := append_iff.mp h
    obtain ⟨v, hv, hcycle⟩ := append_iff.mp huab
    -- The walk is at the source of `e` before `e` and at the source of `e'`, the same node, after
    -- the cycle.
    obtain rfl : e.source = v := hcycle.1
    obtain rfl : e'.source = u := he'.1
    simp only [List.append_subset] at hes
    have hle := weight_le hφ hes.1.2 hcycle
    have hshort : LevelWalk s (as ++ e' :: cs) t := append_iff.mpr ⟨_, hv, hsource ▸ he'⟩
    have hlt : (as ++ e' :: cs).length < n := by
      subst hn
      simp only [List.length_append, List.length_cons]
      omega
    obtain ⟨es', hes', hw', hlen', hle'⟩ :=
      ih _ hlt (List.append_subset.mpr ⟨hes.1.1, hes.2⟩) hshort rfl
    refine ⟨es', hes', hw', hlen', ?_⟩
    simp only [walkWeight_append, walkWeight_cons, hsource] at hle hle' ⊢
    omega

end LevelWalk

/-! ## One step and one round -/

/-- What relaxing along some edges does to distances: none decreases, the target of each edge is as
far as the edge asks for, and every new distance comes from an old one by a walk. -/
structure Relaxed (edges : List LevelEdge) (f f' : LevelNode → Option ℤ) : Prop where
  grows : ∀ n x, f n = some x → ∃ y, f' n = some y ∧ x ≤ y
  raised : ∀ e ∈ edges, ∀ x, f e.source = some x → ∃ y, f' e.target = some y ∧ x + e.weight ≤ y
  reached : ∀ n y, f' n = some y → ∃ s x es, f s = some x ∧ es ⊆ edges ∧ LevelWalk s es n ∧
    y = x + walkWeight es

namespace Relaxed
variable {edges edges' : List LevelEdge} {f f' f'' : LevelNode → Option ℤ}

theorem refl : Relaxed [] f f where
  grows _ x h := ⟨x, h, le_rfl⟩
  raised := by simp
  reached n y h := ⟨n, y, [], h, by simp, rfl, by simp⟩

/-- First along some edges and then along others is along all of them. -/
theorem trans (h : Relaxed edges f f') (h' : Relaxed edges' f' f'') :
    Relaxed (edges ++ edges') f f'' where
  grows n x hx := by
    obtain ⟨y, hy, hxy⟩ := h.grows n x hx
    obtain ⟨z, hz, hyz⟩ := h'.grows n y hy
    exact ⟨z, hz, hxy.trans hyz⟩
  raised e he x hx := by
    obtain he | he := List.mem_append.mp he
    · obtain ⟨y, hy, hxy⟩ := h.raised e he x hx
      obtain ⟨z, hz, hyz⟩ := h'.grows _ y hy
      exact ⟨z, hz, hxy.trans hyz⟩
    · obtain ⟨y, hy, hxy⟩ := h.grows _ x hx
      obtain ⟨z, hz, hyz⟩ := h'.raised e he y hy
      exact ⟨z, hz, by omega⟩
  reached n z hz := by
    obtain ⟨u, y, bs, hy, hbs, hwalk', rfl⟩ := h'.reached n z hz
    obtain ⟨s, x, as, hx, has, hwalk, rfl⟩ := h.reached u y hy
    refine ⟨s, x, as ++ bs, hx, ?_,
      LevelWalk.append_iff.mpr ⟨u, hwalk, hwalk'⟩, by simp [add_assoc]⟩
    exact List.append_subset.mpr ⟨List.subset_append_of_subset_left _ has,
      List.subset_append_of_subset_right _ hbs⟩

/-- One edge leaves the distances alone because they satisfy it, or raises its target to what it
asks for. -/
theorem singleton {e : LevelEdge} (hother : ∀ n, n ≠ e.target → f' n = f n)
    (htarget : (f' e.target = f e.target ∧ ∀ x, f e.source = some x → ∃ y, f e.target = some y ∧
      x + e.weight ≤ y) ∨
      ∃ x, f e.source = some x ∧ f' e.target = some (x + e.weight) ∧ ∀ y, f e.target = some y →
        y ≤ x + e.weight) :
    Relaxed [e] f f' := by
  obtain ⟨hsame, hsat⟩ | ⟨x, hx, hnew, hmax⟩ := htarget
  · obtain rfl : f' = f := funext fun n => by
      by_cases hn : n = e.target
      · rw [hn, hsame]
      · exact hother n hn
    refine ⟨refl.grows, by simpa using hsat, fun n y hy => ?_⟩
    exact ⟨n, y, [], hy, by simp, rfl, by simp⟩
  · refine ⟨fun n y hy => ?_, ?_, fun n y hy => ?_⟩
    · by_cases hn : n = e.target
      · subst hn
        exact ⟨_, hnew, hmax y hy⟩
      · exact ⟨y, by rw [hother n hn, hy], le_rfl⟩
    · intro e' he' y hy
      obtain rfl : e' = e := by simpa using he'
      obtain rfl : x = y := by simpa [hx] using hy
      exact ⟨_, hnew, le_rfl⟩
    · by_cases hn : n = e.target
      · subst hn
        obtain rfl : x + e.weight = y := by simpa [hnew] using hy
        exact ⟨e.source, x, [e], hx, by simp, ⟨rfl, rfl⟩, by simp⟩
      · exact ⟨n, y, [], (hother n hn).symm.trans hy, by simp, rfl, by simp⟩

end Relaxed

namespace LevelDistances

/-- What an edge makes of the distances from zero, and whether that is a change. -/
def raiseZero (d : LevelDistances) (e : LevelEdge) : Std.HashMap LevelNode ℤ × Bool :=
  match d.fromZero[e.source]? with
  | some x =>
    if x + e.weight > d.fromZero.getD e.target 0 then
      (d.fromZero.insert e.target (x + e.weight), true)
    else (d.fromZero, false)
  | none => (d.fromZero, false)

/-- What an edge makes of the distances from the level parameter, and whether that is a change. -/
def raiseParam (d : LevelDistances) (e : LevelEdge) : Std.HashMap LevelNode ℤ × Bool :=
  match d.fromParam[e.source]? with
  | some x =>
    if ∃ y, d.fromParam[e.target]? = some y ∧ x + e.weight ≤ y then (d.fromParam, false)
    else (d.fromParam.insert e.target (x + e.weight), true)
  | none => (d.fromParam, false)

/-- The distances satisfy an edge, so that relaxing along it changes nothing. -/
structure Settled (d : LevelDistances) (e : LevelEdge) : Prop where
  fromZero : ∀ x, d.fromZero[e.source]? = some x → x + e.weight ≤ d.fromZero.getD e.target 0
  fromParam : ∀ x, d.fromParam[e.source]? = some x → ∃ y, d.fromParam[e.target]? = some y ∧
    x + e.weight ≤ y

section Step
variable (d : LevelDistances) (e : LevelEdge)

/-- The two tables of distances are raised without regard to each other. -/
theorem relaxEdge_eq : d.relaxEdge e =
    (⟨(d.raiseZero e).1, (d.raiseParam e).1⟩, (d.raiseZero e).2 || (d.raiseParam e).2) := by
  unfold relaxEdge
  split
  case h_1 fromZero raised hzero =>
    have hraise : d.raiseZero e = (fromZero, raised) := hzero
    rw [hraise, raiseParam]
    cases d.fromParam[e.source]? with
    | none => simp
    | some x =>
      cases d.fromParam[e.target]? with
      | none => simp
      | some y =>
        by_cases hxy : x + e.weight ≤ y
        · simp [hxy]
        · simp [hxy, not_le.mp hxy]

variable {d e}

theorem raiseZero_of_settled (h : ∀ x, d.fromZero[e.source]? = some x →
    x + e.weight ≤ d.fromZero.getD e.target 0) : d.raiseZero e = (d.fromZero, false) := by
  unfold raiseZero
  split
  case h_1 x hx => exact if_neg (not_lt.mpr (h x hx))
  case h_2 => rfl

theorem raiseParam_of_settled (h : ∀ x, d.fromParam[e.source]? = some x →
    ∃ y, d.fromParam[e.target]? = some y ∧ x + e.weight ≤ y) : d.raiseParam e =
      (d.fromParam, false) := by
  unfold raiseParam
  split
  case h_1 x hx => exact if_pos (h x hx)
  case h_2 => rfl

theorem relaxEdge_of_settled (h : d.Settled e) : d.relaxEdge e = (d, false) := by
  rw [relaxEdge_eq, raiseZero_of_settled h.fromZero, raiseParam_of_settled h.fromParam]
  rfl

/-- If nothing was raised, the distances of the target are large enough already. -/
theorem settled_of_unchanged (h : (d.relaxEdge e).2 = false) : d.Settled e := by
  rw [relaxEdge_eq, Bool.or_eq_false_iff] at h
  obtain ⟨hz, hp⟩ := h
  constructor
  · intro x hx
    simp only [raiseZero, hx] at hz
    by_contra hlt
    rw [if_pos (not_le.mp hlt)] at hz
    exact absurd hz (by simp)
  · intro x hx
    simp only [raiseParam, hx] at hp
    by_contra hlt
    rw [if_neg hlt] at hp
    exact absurd hp (by simp)

/-- One edge, and the distances from zero. -/
theorem relaxed_fromZero_relaxEdge (htarget : ∃ y, d.fromZero[e.target]? = some y) :
    Relaxed [e] (d.fromZero[·]?) ((d.relaxEdge e).1.fromZero[·]?) := by
  obtain ⟨y, hy⟩ := htarget
  have hgetD : d.fromZero.getD e.target 0 = y := by
    rw [Std.HashMap.getD_eq_getD_getElem?, hy, Option.getD_some]
  rw [relaxEdge_eq]
  by_cases h : ∀ x, d.fromZero[e.source]? = some x → x + e.weight ≤ d.fromZero.getD e.target 0
  · rw [raiseZero_of_settled h]
    exact .singleton (fun _ _ => rfl) (.inl ⟨rfl, fun x hx => ⟨y, hy, hgetD ▸ h x hx⟩⟩)
  · push Not at h
    obtain ⟨x, hx, hlt⟩ := h
    simp only [raiseZero, hx, gt_iff_lt, if_pos hlt]
    refine .singleton (fun n hn => ?_) (.inr ⟨x, hx, by simp, fun z hz => ?_⟩)
    · rw [Std.HashMap.getElem?_insert, if_neg (by simpa using Ne.symm hn)]
    · obtain rfl : y = z := by simpa [hy] using hz
      omega

/-- One edge, and the distances from the parameter, where a node need not have one. -/
theorem relaxed_fromParam_relaxEdge :
    Relaxed [e] (d.fromParam[·]?) ((d.relaxEdge e).1.fromParam[·]?) := by
  rw [relaxEdge_eq]
  by_cases h : ∀ x, d.fromParam[e.source]? = some x → ∃ y, d.fromParam[e.target]? = some y ∧
    x + e.weight ≤ y
  · rw [raiseParam_of_settled h]
    exact .singleton (fun _ _ => rfl) (.inl ⟨rfl, h⟩)
  · push Not at h
    obtain ⟨x, hx, hlt⟩ := h
    have hneg : ¬∃ y, d.fromParam[e.target]? = some y ∧ x + e.weight ≤ y :=
      fun ⟨y, hy, hle⟩ => not_lt.mpr hle (hlt y hy)
    simp only [raiseParam, hx, if_neg hneg]
    refine .singleton (fun n hn => ?_) (.inr ⟨x, hx, by simp, fun z hz => (hlt z hz).le⟩)
    rw [Std.HashMap.getElem?_insert, if_neg (by simpa using Ne.symm hn)]

end Step

/-! ## Rounds -/

section Rounds
variable {edges : List LevelEdge} {d d' : LevelDistances}

/-- One round, without the report of the last change. -/
def round (edges : List LevelEdge) (d : LevelDistances) : LevelDistances :=
  edges.foldl (fun d e => (d.relaxEdge e).1) d

/-- Relaxation of a list of edges is a round along it, and reports no edge exactly if all of them
were satisfied before. -/
theorem relaxAll_eq (edges : List LevelEdge) (d : LevelDistances) :
    ∃ last, relaxAll edges d = (round edges d, last) ∧
      (last = none ↔ ∀ e ∈ edges, d.Settled e) := by
  suffices h : ∀ start, ∃ last, edges.foldl (fun p e =>
      ((p.1.relaxEdge e).1, if (p.1.relaxEdge e).2 then some e else p.2)) (d, start) =
        (round edges d, last) ∧
      (last = none ↔ start = none ∧ ∀ e ∈ edges, d.Settled e) by
    obtain ⟨last, hlast, hnone⟩ := h none
    exact ⟨last, hlast, by simpa using hnone⟩
  induction edges generalizing d with
  | nil => exact fun start => ⟨start, rfl, by simp⟩
  | cons e edges ih =>
    intro start
    obtain ⟨last, hlast, hnone⟩ :=
      ih (d.relaxEdge e).1 (if (d.relaxEdge e).2 then some e else start)
    refine ⟨last, hlast, hnone.trans ?_⟩
    rw [List.forall_mem_cons]
    cases hchanged : (d.relaxEdge e).2 with
    | true =>
      have hns : ¬d.Settled e := fun hs => by simp [relaxEdge_of_settled hs] at hchanged
      simp [hns]
    | false =>
      have hs := settled_of_unchanged hchanged
      rw [relaxEdge_of_settled hs]
      simp [hs]

theorem round_of_settled (h : ∀ e ∈ edges, d.Settled e) : round edges d = d := by
  induction edges with
  | nil => rfl
  | cons e edges ih =>
    obtain ⟨he, h⟩ := List.forall_mem_cons.mp h
    have hd : (d.relaxEdge e).1 = d := by rw [relaxEdge_of_settled he]
    rw [round, List.foldl_cons, hd]
    exact ih h

/-- Relaxation gives the distances after `k` rounds if these satisfy every edge. -/
theorem relax_eq_ok {k rounds : ℕ} (hk : k ≤ rounds)
    (h : ∀ e ∈ edges, ((round edges)^[k] d).Settled e) :
    relax edges rounds d = .ok ((round edges)^[k] d) := by
  induction k generalizing rounds d with
  | zero =>
    obtain ⟨last, hall, hnone⟩ := relaxAll_eq edges d
    obtain rfl := hnone.mpr h
    have hs : round edges d = d := round_of_settled h
    rw [relax_of_unchanged hall, hs]
    rfl
  | succ k ih =>
    obtain ⟨last, hall, hnone⟩ := relaxAll_eq edges d
    cases last with
    | none =>
      have hs := round_of_settled (hnone.mp rfl)
      rw [relax_of_unchanged hall, Function.iterate_fixed hs, hs]
    | some e =>
      obtain ⟨rounds, rfl⟩ : ∃ r, rounds = r + 1 := ⟨rounds - 1, by omega⟩
      rw [relax_succ_of_changed hall, Function.iterate_succ_apply]
      exact ih (by omega) h

/-- The induction is on the edges of the round. -/
theorem relaxed_round (htargets : ∀ e ∈ edges, ∃ y, d.fromZero[e.target]? = some y) :
    Relaxed edges (d.fromZero[·]?) ((round edges d).fromZero[·]?) ∧
      Relaxed edges (d.fromParam[·]?) ((round edges d).fromParam[·]?) := by
  induction edges generalizing d with
  | nil => exact ⟨.refl, .refl⟩
  | cons e edges ih =>
    have hz := relaxed_fromZero_relaxEdge (htargets e List.mem_cons_self)
    have htail : ∀ e' ∈ edges, ∃ y, (d.relaxEdge e).1.fromZero[e'.target]? = some y :=
      fun e' he' => by
      obtain ⟨y, hy⟩ := htargets e' (List.mem_cons_of_mem _ he')
      obtain ⟨z, hz, -⟩ := hz.grows _ y hy
      exact ⟨z, hz⟩
    obtain ⟨ihz, ihp⟩ := ih htail
    exact ⟨hz.trans ihz, relaxed_fromParam_relaxEdge.trans ihp⟩

end Rounds

end LevelDistances

/-- Distances after a number of rounds. -/
inductive RelaxedRounds (edges : List LevelEdge) :
    ℕ → (LevelNode → Option ℤ) → (LevelNode → Option ℤ) → Prop
  | zero {f} : RelaxedRounds edges 0 f f
  | succ {k f f' f''} : Relaxed edges f f' → RelaxedRounds edges k f' f'' →
    RelaxedRounds edges (k + 1) f f''

namespace RelaxedRounds
variable {edges es : List LevelEdge} {k : ℕ} {f f' : LevelNode → Option ℤ}

theorem grows (h : RelaxedRounds edges k f f') {n : LevelNode} {x : ℤ} (hx : f n = some x) :
    ∃ y, f' n = some y ∧ x ≤ y := by
  induction h generalizing x with
  | zero => exact ⟨x, hx, le_rfl⟩
  | succ hround _ ih =>
    obtain ⟨y, hy, hxy⟩ := hround.grows n x hx
    obtain ⟨z, hz, hyz⟩ := ih hy
    exact ⟨z, hz, hxy.trans hyz⟩

/-- A distance is the weight of a walk from a node that had a distance. -/
theorem reached (h : RelaxedRounds edges k f f') {n : LevelNode} {y : ℤ} (hy : f' n = some y) :
    ∃ s x es, f s = some x ∧ es ⊆ edges ∧ LevelWalk s es n ∧ y = x + walkWeight es := by
  induction h generalizing y with
  | zero => exact ⟨n, y, [], hy, by simp, rfl, by simp⟩
  | succ hround _ ih =>
    obtain ⟨u, z, bs, hz, hbs, hwalk', rfl⟩ := ih hy
    obtain ⟨s, x, as, hx, has, hwalk, rfl⟩ := hround.reached u z hz
    exact ⟨s, x, as ++ bs, hx, List.append_subset.mpr ⟨has, hbs⟩,
      LevelWalk.append_iff.mpr ⟨u, hwalk, hwalk'⟩, by simp [add_assoc]⟩

/-- After `k` rounds the distances are no smaller than the walks of at most `k` edges. -/
theorem le_of_walk (h : RelaxedRounds edges k f f') {s t : LevelNode} {x : ℤ} (hes : es ⊆ edges)
    (hlen : es.length ≤ k) (hwalk : LevelWalk s es t) (hx : f s = some x) : ∃ y, f' t = some y ∧
    x + walkWeight es ≤ y := by
  induction h generalizing s x es with
  | zero =>
    obtain rfl : es = [] := List.length_eq_zero_iff.mp (by omega)
    obtain rfl : s = t := hwalk
    exact ⟨x, hx, by simp⟩
  | succ hround hrounds ih =>
    cases es with
    | nil =>
      obtain rfl : s = t := hwalk
      simpa using (succ hround hrounds).grows hx
    | cons e es =>
      obtain ⟨rfl, hwalk⟩ := hwalk
      obtain ⟨y, hy, hxy⟩ := hround.raised e (hes List.mem_cons_self) x hx
      obtain ⟨z, hz, hyz⟩ := ih (List.subset_of_cons_subset hes) (by simpa using hlen) hwalk hy
      exact ⟨z, hz, by rw [walkWeight_cons]; omega⟩

/-- Without positive cycles the distances satisfy every edge after as many rounds as there are
nodes. -/
theorem settled {φ : LevelNode → ℤ} (hφ : Potential edges φ) {nodes : List LevelNode}
    (hnodes : ∀ e ∈ edges, e.source ∈ nodes) (h : RelaxedRounds edges nodes.length f f') :
    ∀ e ∈ edges, ∀ x, f' e.source = some x → ∃ y, f' e.target = some y ∧ x + e.weight ≤ y := by
  intro e he x hx
  obtain ⟨s, x₀, es, hx₀, hes, hwalk, rfl⟩ := h.reached hx
  have hlonger : LevelWalk s (es ++ [e]) e.target := LevelWalk.append_iff.mpr ⟨_, hwalk, rfl, rfl⟩
  have hsub : es ++ [e] ⊆ edges := List.append_subset.mpr ⟨hes, by simpa using he⟩
  obtain ⟨es', hes', hwalk', hlen, hle⟩ := hlonger.exists_short hφ hnodes hsub
  obtain ⟨y, hy, hxy⟩ := h.le_of_walk hes' hlen hwalk' hx₀
  refine ⟨y, hy, ?_⟩
  simp only [walkWeight_append, walkWeight_cons, walkWeight_nil] at hle
  omega

end RelaxedRounds

namespace LevelDistances
variable {edges : List LevelEdge} {nodes : List LevelNode} {d : LevelDistances}

/-- The rounds of the algorithm are rounds in the sense of the relation above, for both tables. -/
theorem relaxedRounds_iterate
    (htargets : ∀ e ∈ edges, ∃ y, d.fromZero[e.target]? = some y) (k : ℕ) :
    RelaxedRounds edges k (d.fromZero[·]?) (((round edges)^[k] d).fromZero[·]?) ∧
      RelaxedRounds edges k (d.fromParam[·]?) (((round edges)^[k] d).fromParam[·]?) := by
  induction k generalizing d with
  | zero => exact ⟨.zero, .zero⟩
  | succ k ih =>
    obtain ⟨hz, hp⟩ := relaxed_round htargets
    have htargets' : ∀ e ∈ edges, ∃ y, (round edges d).fromZero[e.target]? = some y :=
      fun e he => by
      obtain ⟨y, hy⟩ := htargets e he
      obtain ⟨z, hz, -⟩ := hz.grows _ y hy
      exact ⟨z, hz⟩
    obtain ⟨ihz, ihp⟩ := ih htargets'
    exact ⟨.succ hz ihz, .succ hp ihp⟩

/-- All nodes start at distance zero from zero. -/
theorem fromZero_initial (n : LevelNode) :
    (initial nodes).fromZero[n]? = if n ∈ nodes then some 0 else none := by
  suffices h : ∀ m : Std.HashMap LevelNode ℤ,
      (nodes.foldl (fun d n => d.insert n 0) m)[n]? = if n ∈ nodes then some 0 else m[n]? by
    simpa [initial] using h ∅
  induction nodes with
  | nil => simp
  | cons k nodes ih =>
    intro m
    rw [List.foldl_cons, ih, Std.HashMap.getElem?_insert]
    by_cases hn : n ∈ nodes
    · simp [hn]
    · by_cases hk : k = n
      · simp [hk]
      · simp [hn, hk, Ne.symm hk]

theorem fromParam_initial (n : LevelNode) :
    (initial nodes).fromParam[n]? = if n = .param then some 0 else none := by
  by_cases hn : n = .param
  · simp [initial, hn]
  · simp [initial, hn, Ne.symm hn]

/-- What relaxation ends in: distances that satisfy every edge, and are the weights of walks from
any of the nodes, or from the level parameter. -/
structure Longest (edges : List LevelEdge) (nodes : List LevelNode) (d : LevelDistances) :
    Prop where
  fromZero : ∀ n x, d.fromZero[n]? = some x → ∃ s es, es ⊆ edges ∧ LevelWalk s es n ∧
    x = walkWeight es
  fromParam : ∀ n x, d.fromParam[n]? = some x → ∃ es, es ⊆ edges ∧ LevelWalk .param es n ∧
    x = walkWeight es
  nodes : ∀ n ∈ nodes, ∃ x, d.fromZero[n]? = some x ∧ 0 ≤ x
  param : ∃ x, d.fromParam[LevelNode.param]? = some x ∧ 0 ≤ x
  settledZero : ∀ e ∈ edges, ∀ x, d.fromZero[e.source]? = some x →
    ∃ y, d.fromZero[e.target]? = some y ∧ x + e.weight ≤ y
  settledParam : ∀ e ∈ edges, ∀ x, d.fromParam[e.source]? = some x →
    ∃ y, d.fromParam[e.target]? = some y ∧ x + e.weight ≤ y

/-- Relaxation finds the longest walks, if some assignment of numbers to the nodes satisfies every
edge. -/
theorem exists_longest {φ : LevelNode → ℤ} (hφ : Potential edges φ)
    (hnodes : ∀ e ∈ edges, e.source ∈ nodes ∧ e.target ∈ nodes) :
    ∃ d, relax edges (nodes.length + 1) (initial nodes) = .ok d ∧ Longest edges nodes d := by
  have htargets : ∀ e ∈ edges, ∃ y, (initial nodes).fromZero[e.target]? = some y := fun e he =>
    ⟨0, by rw [fromZero_initial, if_pos (hnodes e he).2]⟩
  obtain ⟨hz, hp⟩ := relaxedRounds_iterate htargets nodes.length
  have hzs := hz.settled hφ fun e he => (hnodes e he).1
  have hps := hp.settled hφ fun e he => (hnodes e he).1
  refine ⟨_, relax_eq_ok (Nat.le_succ _) fun e he => ⟨fun x hx => ?_, hps e he⟩,
    fun n x hx => ?_, fun n x hx => ?_, fun n hn => ?_, ?_, hzs, hps⟩
  · obtain ⟨y, hy, hle⟩ := hzs e he x hx
    rwa [Std.HashMap.getD_eq_getD_getElem?, hy, Option.getD_some]
  · obtain ⟨s, y, es, hy, hes, hwalk, rfl⟩ := hz.reached hx
    rw [fromZero_initial] at hy
    obtain ⟨-, rfl⟩ : s ∈ nodes ∧ 0 = y := by simpa using hy
    exact ⟨s, es, hes, hwalk, zero_add _⟩
  · obtain ⟨s, y, es, hy, hes, hwalk, rfl⟩ := hp.reached hx
    rw [fromParam_initial] at hy
    obtain ⟨rfl, rfl⟩ : s = .param ∧ 0 = y := by simpa using hy
    exact ⟨es, hes, hwalk, zero_add _⟩
  · exact hz.grows (by rw [fromZero_initial, if_pos hn])
  · exact hp.grows (by rw [fromParam_initial, if_pos rfl])

end LevelDistances

end LeveledTypes
