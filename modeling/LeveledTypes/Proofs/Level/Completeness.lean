import LeveledTypes.Proofs.Level.Relaxation

/-!
# Completeness of the level solver

If levels for the holes make every constraint true at every value of the level parameter, then the
distances that the solver computes are bounded by the values of these levels: relaxation finds no
cycle and every test passes. Two things limit this. An upper bound `max (w + b) c` is met by one of
its two sides at a time: the solver asks for the first side as soon as the second one does not
suffice, and never returns to it. And a distance from the level parameter is rounded up to zero only
after relaxation, so that chains of constraints that lower the parameter are left out.
-/
namespace LeveledTypes

/-! ## Assignments of finite levels -/

/-- A level of a solution: a number or `max (param + a) f`, with numbers within bounds. -/
inductive Level.Finite : Level → Prop
  | const {n : ℕ} : n ≤ Level.bound → Finite (.const n)
  | param {a f : ℕ} : a ≤ Level.bound → f ≤ Level.bound → Finite (.var .param a f)

/-- The values that an assignment of levels gives to the level holes. -/
noncomputable def assignedValues (ρ : ℕ → Level) (p m : ℕ) : ℕ∞ := (ρ m).eval p fun _ => 0

/-- The value of a finite level at a value of the level parameter. -/
def Level.number (p : ℕ) : Level → ℕ
  | .const n => n
  | .var _ a f => max (p + a) f
  | .top => 0

theorem Level.Finite.eval_eq {l : Level} (h : l.Finite) (p : ℕ) (σ : ℕ → ℕ∞) :
    l.eval p σ = (l.number p : ℕ∞) := by
  cases h with
  | const => rfl
  | param => simp [Level.eval, Level.number, LevelVar.eval, Nat.mono_cast.map_max]

/-- A finite level stays at a number, or grows with the level parameter. -/
theorem Level.Finite.number_shape {l : Level} (h : l.Finite) :
    (∃ c ≤ Level.bound, ∀ p, l.number p = c) ∨
    ∃ a ≤ Level.bound, ∃ f ≤ Level.bound, ∀ p, l.number p = max (p + a) f := by
  cases h with
  | const hn => exact .inl ⟨_, hn, fun _ => rfl⟩
  | param ha hf => exact .inr ⟨_, ha, _, hf, fun _ => rfl⟩

/-- The value of a node under an assignment of finite levels. -/
def nodeNumber (ρ : ℕ → Level) (p : ℕ) : LevelNode → ℕ
  | .zero => 0
  | .param => p
  | .hole m => (ρ m).number p

section Assigned
variable {ρ : ℕ → Level} (hρ : ∀ m, (ρ m).Finite)
include hρ

theorem eval_node_assigned (p : ℕ) (n : LevelNode) :
    n.eval p (assignedValues ρ p) = (nodeNumber ρ p n : ℕ∞) := by
  cases n with
  | zero => rfl
  | param => rfl
  | hole m =>
    rw [LevelNode.eval, assignedValues, nodeNumber]
    exact (hρ m).eval_eq p _

theorem nodeNumber_shape (n : LevelNode) : (∃ c ≤ Level.bound, ∀ p, nodeNumber ρ p n = c) ∨
    ∃ a ≤ Level.bound, ∃ f ≤ Level.bound, ∀ p, nodeNumber ρ p n = max (p + a) f := by
  cases n with
  | zero => exact .inl ⟨0, by simp, fun _ => rfl⟩
  | param => exact .inr ⟨0, by simp, 0, by simp, fun p => by simp [nodeNumber]⟩
  | hole m =>
    exact (hρ m).number_shape

/-- What stays below a node at every value of the level parameter. -/
theorem le_bound_of_le_nodeNumber {n : LevelNode} {x : ℤ} (hx : ∀ p : ℕ, p + x ≤ nodeNumber ρ p n) :
    x ≤ Level.bound := by
  obtain ⟨c, -, hc⟩ | ⟨a, ha, f, -, hn⟩ := nodeNumber_shape hρ n
  · have h := hx (c + x.natAbs + 1)
    rw [hc] at h
    omega
  · have h := hx (f + x.natAbs)
    rw [hn] at h
    omega

theorem nodeNumber_zero_le_bound (n : LevelNode) : nodeNumber ρ 0 n ≤ Level.bound := by
  obtain ⟨c, hc, h⟩ | ⟨a, ha, f, hf, h⟩ := nodeNumber_shape hρ n
  · rw [h]
    exact hc
  · rw [h]
    omega

end Assigned

/-! ## Graphs that an assignment satisfies side by side -/

/-- An assignment satisfies a graph at every value of the level parameter, and each alternative by
the same side at all of them; no chain of edges and alternatives lowers the level parameter, where
`chain n x` says that one leads from the parameter to `n` with offset `x`. -/
structure LevelGraph.SolvedBy (ρ : ℕ → Level) (chain : LevelNode → ℤ → Prop) (g : LevelGraph) :
    Prop where
  edges : ∀ e ∈ g.edges, ∀ p, (nodeNumber ρ p e.source : ℤ) + e.weight ≤ nodeNumber ρ p e.target
  alternatives : ∀ a ∈ g.alternatives,
    (∀ p, (nodeNumber ρ p a.source : ℤ) + a.add ≤ nodeNumber ρ p a.target + a.targetAdd) ∨
      ∀ p, (nodeNumber ρ p a.source : ℤ) + a.add ≤ a.floor
  uppers : ∀ b ∈ g.uppers, ∀ p, (nodeNumber ρ p b.1 : ℤ) ≤ b.2.1
  infinite : g.infinite = []
  chainEdges : ∀ e ∈ g.edges, ∀ x, chain e.source x → chain e.target (x + e.weight)
  chainAlternatives : ∀ a ∈ g.alternatives, ∀ x, chain a.source x →
    chain a.target (x + (a.add - a.targetAdd))

/-- The solved level of a node is bounded by the level that an assignment gives it. -/
structure LevelValue.Below (ρ : ℕ → Level) (n : LevelNode) (v : LevelValue) : Prop where
  floor_nonneg : 0 ≤ v.floor
  floor : v.floor ≤ nodeNumber ρ 0 n
  add_nonneg : ∀ a, v.add = some a → 0 ≤ a
  add : ∀ a, v.add = some a → ∀ p : ℕ, p + a ≤ nodeNumber ρ p n

/-- A node that an assignment keeps below a number has no part that grows with the level
parameter. -/
theorem LevelValue.Below.of_bounded {ρ : ℕ → Level} {n : LevelNode} {v : LevelValue}
    (h : v.Below ρ n) {c : ℤ} (hc : ∀ p, (nodeNumber ρ p n : ℤ) ≤ c) : v.add = none ∧
    v.floor ≤ c := by
  constructor
  · cases ha : v.add with
    | none => rfl
    | some a =>
      have h₁ := h.add a ha (c - a + 1).natAbs
      have h₂ := hc (c - a + 1).natAbs
      have h₃ := h.add_nonneg a ha
      omega
  · exact h.floor.trans (hc 0)

/-- A chain goes on along a walk, and its offset grows by the weight of the walk. -/
theorem LevelWalk.chain {chain : LevelNode → ℤ → Prop} {edges es : List LevelEdge}
    {s t : LevelNode} {x : ℤ} (hedges : ∀ e ∈ edges, ∀ x, chain e.source x →
      chain e.target (x + e.weight)) (hes : es ⊆ edges)
    (h : LevelWalk s es t) (hx : chain s x) : chain t (x + walkWeight es) := by
  induction es generalizing s x with
  | nil =>
    obtain rfl : s = t := h
    simpa using hx
  | cons e es ih =>
    obtain ⟨rfl, h⟩ := h
    have := ih (List.subset_of_cons_subset hes) h (hedges e (hes List.mem_cons_self) x hx)
    rwa [walkWeight_cons, ← add_assoc]

namespace LevelDistances
variable {ρ : ℕ → Level} {chain : LevelNode → ℤ → Prop} {g : LevelGraph} {nodes : List LevelNode}
  {d : LevelDistances}

/-- Distances that are longest walks of a satisfied graph stay below the assignment. -/
structure BelowAssignment (ρ : ℕ → Level) (d : LevelDistances) : Prop where
  fromZero : ∀ n (x : ℤ), d.fromZero[n]? = some x → x ≤ nodeNumber ρ 0 n
  fromParam : ∀ n (x : ℤ), d.fromParam[n]? = some x → 0 ≤ x ∧ ∀ p : ℕ, p + x ≤ nodeNumber ρ p n

/-- A longest distance is the weight of a walk, and an assignment that satisfies the edges grows by
at least that along the walk. -/
theorem Longest.below (hg : g.SolvedBy ρ chain) (hparam : chain .param 0)
    (hchain : ∀ n x, chain n x → 0 ≤ x) (h : Longest g.edges nodes d) : d.BelowAssignment ρ := by
  have hpot (p : ℕ) : Potential g.edges fun n => nodeNumber ρ p n := fun e he => hg.edges e he p
  refine ⟨fun n x hx => ?_, fun n x hx => ⟨?_, fun p => ?_⟩⟩
  · obtain ⟨s, es, hes, hwalk, rfl⟩ := h.fromZero n x hx
    have := hwalk.weight_le (hpot 0) hes
    omega
  · obtain ⟨es, hes, hwalk, rfl⟩ := h.fromParam n x hx
    simpa using hchain _ _ (hwalk.chain hg.chainEdges hes hparam)
  · obtain ⟨es, hes, hwalk, rfl⟩ := h.fromParam n x hx
    exact hwalk.weight_le (hpot p) hes

/-- Distances below an assignment give values below it. -/
theorem BelowAssignment.value (h : d.BelowAssignment ρ) (n : LevelNode) :
    (d.value n).Below ρ n := by
  cases n with
  | zero => exact ⟨le_rfl, le_rfl, by simp [LevelDistances.value], by simp [LevelDistances.value]⟩
  | param =>
    exact ⟨le_rfl,
      le_rfl, by simp [LevelDistances.value], by simp [LevelDistances.value, nodeNumber]⟩
  | hole m =>
    refine ⟨d.floor_nonneg _, ?_, fun a ha => ?_, fun a ha => ?_⟩
    · simp only [LevelDistances.value, Std.HashMap.getD_eq_getD_getElem?]
      cases hx : d.fromZero[LevelNode.hole m]? with
      | none => simp
      | some x => simpa using h.fromZero _ x hx
    all_goals
      obtain ⟨x, hx, rfl⟩ : ∃ x, d.fromParam[LevelNode.hole m]? = some x ∧ max x 0 = a := by
        simpa [LevelDistances.value] using ha
      obtain ⟨h0, hle⟩ := h.fromParam _ x hx
      rw [max_eq_left h0]
    · exact h0
    · exact hle

/-- No distance has to be rounded: the value of a node is its two distances. -/
theorem value_eq (h : Longest g.edges nodes d) (hb : d.BelowAssignment ρ) {n : LevelNode}
    (hn : n ∈ nodes) : ∃ x, d.fromZero[n]? = some x ∧ d.value n = ⟨d.fromParam[n]?, x⟩ := by
  obtain ⟨x, hx, h0⟩ := h.nodes n hn
  have hle := hb.fromZero n x hx
  refine ⟨x, hx, ?_⟩
  cases n with
  | zero =>
    cases hy : d.fromParam[LevelNode.zero]? with
    | none =>
      obtain rfl : x = 0 := by simp only [nodeNumber] at hle; omega
      rfl
    | some y =>
      have := (hb.fromParam _ y hy).2 (y.natAbs + 1)
      simp only [nodeNumber] at this
      omega
  | param =>
    obtain ⟨y, hy, hy0⟩ := h.param
    have hy1 := (hb.fromParam _ y hy).2 0
    simp only [nodeNumber] at hle hy1
    obtain rfl : x = 0 := by omega
    obtain rfl : y = 0 := by omega
    rw [hy]
    rfl
  | hole m =>
    simp only [LevelDistances.value, Std.HashMap.getD_eq_getD_getElem?, hx, Option.getD_some,
      max_eq_left h0]
    cases hy : d.fromParam[LevelNode.hole m]? with
    | none => rfl
    | some y => simp [(hb.fromParam _ y hy).1]

/-- Longest distances are not raised by an edge. They are clamped at zero when an edge is checked,
which makes no difference below an assignment. -/
theorem holds_of_longest (h : Longest g.edges nodes d) (hb : d.BelowAssignment ρ)
    (hnodes : ∀ e ∈ g.edges, e.source ∈ nodes ∧ e.target ∈ nodes) {e : LevelEdge}
    (he : e ∈ g.edges) : e.holds d := by
  obtain ⟨hs, ht⟩ := hnodes e he
  obtain ⟨x, hx, hu⟩ := value_eq h hb hs
  obtain ⟨y, hy, hv⟩ := value_eq h hb ht
  obtain ⟨y', hy', hle⟩ := h.settledZero e he x hx
  obtain rfl : y = y' := by simpa [hy] using hy'
  simp only [LevelEdge.holds, hu, hv, Bool.and_eq_true, decide_eq_true_eq]
  refine ⟨?_, hle.trans (le_max_right _ _)⟩
  cases ha : d.fromParam[e.source]? with
  | none => rfl
  | some a =>
    obtain ⟨b, hb', hab⟩ := h.settledParam e he a ha
    simpa [hb'] using hab

end LevelDistances

namespace LevelGraph
variable {ρ : ℕ → Level} {chain : LevelNode → ℤ → Prop} {g : LevelGraph} {nodes : List LevelNode}

/-- The least distances pass every test, and stay below the assignment. -/
theorem SolvedBy.least (hg : g.SolvedBy ρ chain) (hparam : chain .param 0)
    (hchain : ∀ n x, chain n x → 0 ≤ x) (hnodes : ∀ e ∈ g.edges, e.source ∈ nodes ∧
      e.target ∈ nodes) :
    ∃ d, g.least nodes = .ok d ∧ ∀ n, (d.value n).Below ρ n := by
  have hpot : Potential g.edges fun n => nodeNumber ρ 0 n := fun e he => hg.edges e he 0
  obtain ⟨d, hd, hlongest⟩ := LevelDistances.exists_longest hpot hnodes
  have hb := hlongest.below hg hparam hchain
  refine ⟨d, ?_, hb.value⟩
  have hedges : (g.edges.find? fun e => !e.holds d) = none :=
    List.find?_eq_none.mpr fun e he => by
      simp [LevelDistances.holds_of_longest hlongest hb hnodes he]
  have huppers : (g.uppers.find? fun b => (d.value b.1).add.isSome ||
      (d.value b.1).floor > b.2.1) = none := by
    refine List.find?_eq_none.mpr fun b hbm => ?_
    obtain ⟨hadd, hfloor⟩ := (hb.value b.1).of_bounded (hg.uppers b hbm)
    simp [hadd, hfloor]
  simp [LevelGraph.least, hd, hedges, huppers, bind, Except.bind, pure, Except.pure]

/-- An alternative that the assignment meets by its constant side holds of distances below the
assignment. -/
theorem holds_of_le_floor {a : LevelAlternative} {d : LevelDistances}
    (hd : ∀ n, (d.value n).Below ρ n) (h : ∀ p, (nodeNumber ρ p a.source : ℤ) + a.add ≤ a.floor) :
    a.holds d := by
  obtain ⟨hadd, hfloor⟩ := (hd a.source).of_bounded (c := a.floor - a.add) fun p => by
    have := h p; omega
  simp only [LevelAlternative.holds, hadd, Bool.true_and, decide_eq_true_eq]
  exact le_max_of_le_right (by omega)

/-- An alternative that the assignment meets by its variable side may become an edge. -/
theorem SolvedBy.narrowed (hg : g.SolvedBy ρ chain) {i : ℕ} {a : LevelAlternative}
    (hi : g.alternatives[i]? = some a)
    (ha : ∀ p, (nodeNumber ρ p a.source : ℤ) + a.add ≤ nodeNumber ρ p a.target + a.targetAdd) :
    (({ g with alternatives := swapRemove g.alternatives i } : LevelGraph).addEdge a.source a.target
      (a.add - a.targetAdd) a.span).SolvedBy ρ chain := by
  have hrest : ({ g with alternatives := swapRemove g.alternatives i } :
    LevelGraph).SolvedBy ρ chain :=
    { hg with
      alternatives := fun b hb => hg.alternatives b (mem_of_mem_swapRemove hb)
      chainAlternatives := fun b hb => hg.chainAlternatives b (mem_of_mem_swapRemove hb) }
  unfold addEdge
  split
  case isTrue => exact hrest
  case isFalse =>
    refine { hrest with edges := fun e he p => ?_, chainEdges := fun e he => ?_ }
    all_goals obtain he | rfl := List.mem_append.mp he |>.imp_right List.mem_singleton.mp
    · exact hg.edges e he p
    · have := ha p
      dsimp only
      omega
    · exact hg.chainEdges e he
    · exact hg.chainAlternatives a (List.mem_of_getElem? hi)

/-- Narrowing ends without a conflict: an alternative that fails is met by its variable side. -/
theorem SolvedBy.narrow (hg : g.SolvedBy ρ chain) (hparam : chain .param 0)
    (hchain : ∀ n x, chain n x → 0 ≤ x) (hnodes : ∀ x ∈ g.endpoints, x.1 ∈ nodes ∧ x.2 ∈ nodes) :
    ∃ d g', narrow nodes g = .ok (d, g') ∧ g'.infinite = [] ∧ ∀ n, (d.value n).Below ρ n := by
  have hleast {g : LevelGraph} (hg : g.SolvedBy ρ chain)
      (hnodes : ∀ x ∈ g.endpoints, x.1 ∈ nodes ∧ x.2 ∈ nodes) :
      ∃ d, g.least nodes = .ok d ∧ ∀ n, (d.value n).Below ρ n :=
    hg.least hparam hchain fun e he =>
      hnodes (e.source, e.target) (List.mem_append_left _ (List.mem_map.mpr ⟨e, he, rfl⟩))
  induction g using narrow.induct nodes with
  | case1 g e he =>
    obtain ⟨d, hd, -⟩ := hleast hg hnodes
    simp [he] at hd
  | case2 g d hd hnone =>
    obtain ⟨d', hd', hb⟩ := hleast hg hnodes
    obtain rfl : d = d' := by simpa [hd] using hd'
    exact ⟨d, g, narrow_of_findIdx?_eq_none hd hnone, hg.infinite, hb⟩
  | case3 g d hd i hi hnone =>
    have := (List.findIdx?_eq_some_iff_getElem.mp hi).1
    simp only [List.getElem?_eq_none_iff] at hnone
    omega
  | case4 g d hd i hi a ha g₁ ih =>
    obtain ⟨d', hd', hb⟩ := hleast hg hnodes
    obtain rfl : d = d' := by simpa [hd] using hd'
    have hfails : a.holds d = false := by
      obtain ⟨hlt, hfails, -⟩ := List.findIdx?_eq_some_iff_getElem.mp hi
      obtain rfl : g.alternatives[i] = a := by simpa [hlt] using ha
      simpa using hfails
    have hside := (hg.alternatives a (List.mem_of_getElem? ha)).resolve_right fun h => by
      simp [holds_of_le_floor hb h] at hfails
    rw [narrow_of_findIdx?_eq_some hd hi ha]
    refine ih (hg.narrowed ha hside) fun x hx => ?_
    obtain hx | rfl := endpoints_addEdge hx
    · exact hnodes x (endpoints_swapRemove hx)
    · exact hnodes (a.source, a.target)
        (List.mem_append_right _ (List.mem_map.mpr ⟨a, List.mem_of_getElem? ha, rfl⟩))

/-- A level below an assignment is within bounds. -/
theorem exists_finiteLevel (hρ : ∀ m, (ρ m).Finite) {m : ℕ} {v : LevelValue}
    (h : v.Below ρ (.hole m)) : ∃ l, finiteLevel m v = .ok l := by
  have hfloor : 0 ≤ v.floor ∧ v.floor ≤ Level.bound :=
    ⟨h.floor_nonneg, h.floor.trans (Nat.cast_le.mpr (nodeNumber_zero_le_bound hρ _))⟩
  unfold finiteLevel
  cases ha : v.add with
  | none => exact ⟨_, by simp [hfloor, bind, Except.bind, pure, Except.pure]; rfl⟩
  | some a =>
    have hadd : 0 ≤ a ∧ a ≤ Level.bound :=
      ⟨h.add_nonneg a ha, le_bound_of_le_nodeNumber hρ (h.add a ha)⟩
    exact ⟨_, by simp [hfloor, hadd, bind, Except.bind, pure, Except.pure]; rfl⟩

theorem exists_bind_eq_ok {ε α β : Type} {x : Except ε α} {f : α → Except ε β} (hx : ∃ a, x = .ok a)
    (hf : ∀ a, ∃ b, f a = .ok b) : ∃ b, x >>= f = .ok b := by
  obtain ⟨a, rfl⟩ := hx
  exact hf a

theorem exists_mapM_eq_ok {ε α β : Type} {f : α → Except ε β} {xs : List α}
    (h : ∀ x ∈ xs, ∃ y, f x = .ok y) : ∃ ys, xs.mapM f = .ok ys := by
  induction xs with
  | nil => exact ⟨[], rfl⟩
  | cons x xs ih =>
    rw [List.mapM_cons]
    refine exists_bind_eq_ok (h x List.mem_cons_self) fun y => ?_
    exact exists_bind_eq_ok (ih fun x hx => h x (List.mem_cons_of_mem _ hx))
      fun ys => ⟨y :: ys, rfl⟩

/-- The solver finds a solution of every graph that an assignment satisfies side by side. -/
theorem SolvedBy.solve (hρ : ∀ m, (ρ m).Finite) (hg : g.SolvedBy ρ chain) (hparam : chain .param 0)
    (hchain : ∀ n x, chain n x → 0 ≤ x) (holes : List ℕ) : ∃ sol, g.solve holes = .ok sol := by
  have hnodes : ∀ x ∈ g.endpoints, x.1 ∈ g.nodes holes ∧ x.2 ∈ g.nodes holes :=
    fun x hx => mem_nodes_of_endpoint hx
  obtain ⟨d, g', hnarrow, hinfinite, hb⟩ := hg.narrow hparam hchain hnodes
  have hspread : spreadInfinite (g'.uppers.map (·.1)) [] g'.infinite.reverse g'.links = .ok [] := by
    rw [hinfinite, List.reverse_nil, spreadInfinite]
  rw [LevelGraph.solve, hnarrow]
  dsimp only [bind, Except.bind]
  rw [hspread]
  refine exists_bind_eq_ok (exists_mapM_eq_ok fun n _ => ?_) fun solved =>
    ⟨solved.filterMap id, rfl⟩
  cases n with
  | zero => exact ⟨none, rfl⟩
  | param => exact ⟨none, rfl⟩
  | hole m =>
    obtain ⟨l, hl⟩ := exists_finiteLevel hρ (hb (.hole m))
    exact ⟨some (m, l), by simp [hl, pure, Except.pure]⟩

/-- Without constraints there is a solution. -/
theorem solve_empty (holes : List ℕ) : ∃ sol, ({} : LevelGraph).solve holes = .ok sol := by
  have hg : ({} : LevelGraph).SolvedBy (fun _ => .const 0) fun n x => n = .param ∧ x = 0 := by
    constructor <;> simp
  exact hg.solve (fun _ => .const (by decide)) ⟨rfl, rfl⟩ (fun _ _ h => h.2.ge) holes

/-! ## Graphs of constraints -/

end LevelGraph

namespace LevelConstraint

/-- The bounds that a constraint asks for. -/
def bounds (k : LevelConstraint) : List (Level × Level) :=
  (k.left, k.right) :: if k.equal then [(k.right, k.left)] else []

end LevelConstraint

/-- A bound `v + a ≤ max (w + b) c` of a variable by a variable, among the bounds of some
constraints. A variable that bounds itself from above asks for nothing. -/
structure VarBound (ks : List LevelConstraint) (v : LevelVar) (a : ℕ) (w : LevelVar) (b c : ℕ) :
    Prop where
  mem : ∃ k ∈ ks, ∃ f, (Level.var v a f, Level.var w b c) ∈ k.bounds
  notSelf : ¬(v = w ∧ a ≤ b)

/-- A chain of bounds leads from the level parameter to a variable: `param + x ≤ v`, as far as the
floors do not matter. -/
inductive LevelChain (ks : List LevelConstraint) : LevelVar → ℤ → Prop
  | param : LevelChain ks .param 0
  | step {v w : LevelVar} {a b c : ℕ} {x : ℤ} : VarBound ks v a w b c → LevelChain ks v x →
    LevelChain ks w (x + (a - b))

/-- The graph comes from some constraints: its edges between variables and its alternatives are
among their bounds. -/
structure LevelGraph.StemsFrom (ks : List LevelConstraint) (g : LevelGraph) : Prop where
  edges : ∀ e ∈ g.edges, e.source = .zero ∨
    ∃ v a w b c, VarBound ks v a w b c ∧ e.source = v.node ∧ e.target = w.node ∧ e.weight = a - b
  alternatives : ∀ x ∈ g.alternatives, ∃ v a w b c, VarBound ks v a w b c ∧
    x.source = v.node ∧ x.target = w.node ∧ x.add = a ∧ x.targetAdd = b ∧ x.floor = c
  infinite : g.infinite = []

namespace LevelGraph.StemsFrom
variable {ks : List LevelConstraint} {g : LevelGraph} {l r : Level} {span : Span}

theorem empty : StemsFrom ks {} := ⟨by simp, by simp, rfl⟩

theorem addEdge {s t : LevelNode} {w : ℤ} (hg : StemsFrom ks g)
    (hst : ¬(s = t ∧ w ≤ 0) → s = .zero ∨
      ∃ v a u b c, VarBound ks v a u b c ∧ s = v.node ∧ t = u.node ∧ w = a - b) :
    StemsFrom ks (g.addEdge s t w span) := by
  unfold LevelGraph.addEdge
  split
  case isTrue => exact hg
  case isFalse h =>
    refine { hg with edges := fun e he => ?_ }
    obtain he | rfl := List.mem_append.mp he |>.imp_right List.mem_singleton.mp
    · exact hg.edges e he
    · exact hst h

theorem addConstLe {c : ℕ} (hg : StemsFrom ks g) : StemsFrom ks (g.addConstLe c r span).1 := by
  unfold LevelGraph.addConstLe
  split
  · exact hg
  · split <;> exact hg
  · dsimp only
    split
    · exact hg.addEdge fun _ => .inl rfl
    · exact hg

/-- A bound on a variable becomes an edge, an alternative or an upper bound, depending on the other
side. -/
theorem addVarLe {v : LevelVar} {a f : ℕ} (hg : StemsFrom ks g)
    (hk : ∃ k ∈ ks, (Level.var v a f, r) ∈ k.bounds) :
    StemsFrom ks (g.addVarLe l v a r span).1 := by
  obtain ⟨k, hk, hmem⟩ := hk
  unfold LevelGraph.addVarLe
  split
  case h_1 => exact hg
  case h_2 =>
    split
    · exact hg
    · exact { hg with }
  case h_3 w b =>
    refine hg.addEdge fun hself => .inr ⟨v, a, w, b, 0, ⟨⟨k, hk, f, hmem⟩, ?_⟩, rfl, rfl, rfl⟩
    rintro ⟨rfl, hab⟩
    exact hself ⟨rfl, by omega⟩
  case h_4 w b c _ =>
    split
    case isTrue => exact hg
    case isFalse hself =>
      refine { hg with alternatives := fun x hx => ?_ }
      obtain hx | rfl := List.mem_append.mp hx |>.imp_right List.mem_singleton.mp
      · exact hg.alternatives x hx
      · exact ⟨v, a, w, b, c, ⟨⟨k, hk, f, hmem⟩, hself⟩, rfl, rfl, rfl, rfl, rfl⟩

/-- The two bounds of an inequality are added one after the other. -/
theorem addLe (hg : StemsFrom ks g) (hl : l ≠ .top) (hk : ∃ k ∈ ks, (l, r) ∈ k.bounds) :
    StemsFrom ks (g.addLe l r span).1 := by
  unfold LevelGraph.addLe
  split
  case h_1 => exact hg
  case h_2 => exact absurd rfl hl
  case h_3 => exact absurd rfl hl
  case h_4 => exact hg.addConstLe
  case h_5 v a f _ =>
    split
    case isTrue =>
      have h₁ : StemsFrom ks (g.addConstLe f r span).1 := hg.addConstLe
      split
      case h_1 g₁ heq =>
        rw [heq] at h₁
        exact h₁.addVarLe hk
      case h_2 => exact h₁
    case isFalse => exact hg.addVarLe hk

/-- A constraint adds an inequality, or one in each direction if it is an equation. -/
theorem addTo {k : LevelConstraint} (hg : StemsFrom ks g) (hk : k ∈ ks) (hl : k.left ≠ .top)
    (hr : k.right ≠ .top) : StemsFrom ks (k.addTo g).1 := by
  unfold LevelConstraint.addTo
  split
  case isTrue he =>
    unfold LevelGraph.addEq
    have h₁ : StemsFrom ks (g.addLe k.left k.right k.span).1 :=
      hg.addLe hl ⟨k, hk, by simp [LevelConstraint.bounds]⟩
    split
    case h_1 g₁ heq =>
      rw [heq] at h₁
      exact h₁.addLe hr ⟨k, hk, by simp [LevelConstraint.bounds, he]⟩
    case h_2 => exact h₁
  case isFalse => exact hg.addLe hl ⟨k, hk, by simp [LevelConstraint.bounds]⟩

/-- The induction is on the constraints that are still to be added. -/
theorem addAll? {g' : LevelGraph} {new : List LevelConstraint} (hg : StemsFrom ks g)
    (hnew : new ⊆ ks) (htop : ∀ k ∈ new, k.left ≠ .top ∧ k.right ≠ .top)
    (h : g.addAll? new = some g') : StemsFrom ks g' := by
  induction new generalizing g with
  | nil =>
    obtain rfl : g = g' := by simpa [LevelGraph.addAll?] using h
    exact hg
  | cons k new ih =>
    have hk := hg.addTo (hnew List.mem_cons_self) (htop k List.mem_cons_self).1
      (htop k List.mem_cons_self).2
    unfold LevelGraph.addAll? at h
    split at h
    case h_1 g₁ h₁ =>
      rw [h₁] at hk
      exact ih hk (List.subset_of_cons_subset hnew)
        (fun k hk => htop k (List.mem_cons_of_mem _ hk)) h
    case h_2 => simp at h

end LevelGraph.StemsFrom

namespace LevelGraph
variable {ρ : ℕ → Level} {g : LevelGraph} {l r : Level} {span : Span} {ks : List LevelConstraint}

theorem addConstLe_snd_eq_none {c : ℕ} {σ : ℕ → ℕ∞} (h : (c : ℕ∞) ≤ r.eval 0 σ) :
    (g.addConstLe c r span).2 = none := by
  cases r with
  | top => rfl
  | const b => simp [addConstLe, Nat.cast_le.mp h]
  | var => rfl

/-- A bound that holds at the assignment is not refused when it is added. -/
theorem addVarLe_snd_eq_none {v : LevelVar} {a : ℕ}
    (h : ∀ p, v.eval p (assignedValues ρ p) + a ≤ r.eval p (assignedValues ρ p)) :
    (g.addVarLe l v a r span).2 = none := by
  unfold addVarLe
  split
  case h_1 => rfl
  case h_2 b =>
    have hab : ¬a > b := fun hab => by
      have hle : (a : ℕ∞) ≤ b := le_trans le_add_self (h 0)
      exact absurd (Nat.cast_le.mp hle) (by omega)
    have hv : v ≠ .param := by
      rintro rfl
      have hle : ((b + 1 : ℕ) : ℕ∞) + a ≤ b := h (b + 1)
      rw [← Nat.cast_add, Nat.cast_le] at hle
      omega
    simp [hab, hv]
  case h_3 => rfl
  case h_4 => split <;> rfl

/-- A bound between levels that is true at every value of the level parameter is added without a
conflict. -/
theorem addLe_snd_eq_none (hl : l ≠ .top)
    (h : ∀ p, l.eval p (assignedValues ρ p) ≤ r.eval p (assignedValues ρ p)) :
    (g.addLe l r span).2 = none := by
  unfold addLe
  split
  case h_1 => rfl
  case h_2 => exact absurd rfl hl
  case h_3 => exact absurd rfl hl
  case h_4 => exact addConstLe_snd_eq_none (h 0)
  case h_5 v a f _ =>
    have hvar {g : LevelGraph} : (g.addVarLe (.var v a f) v a r span).2 = none :=
      addVarLe_snd_eq_none fun p => (le_max_left _ _).trans (h p)
    have hconst : (g.addConstLe f r span).2 = none :=
      addConstLe_snd_eq_none ((le_max_right _ _).trans (h 0))
    split
    case isTrue =>
      split
      case h_1 => exact hvar
      case h_2 => exact hconst
    case isFalse => exact hvar

/-- A constraint that holds at the assignment is not refused when it is added. -/
theorem addTo_snd_eq_none {k : LevelConstraint} (htop : k.left ≠ .top ∧ k.right ≠ .top)
    (h : ∀ p, k.Holds p (assignedValues ρ p)) : (k.addTo g).2 = none := by
  have hle : (g.addLe k.left k.right k.span).2 = none := addLe_snd_eq_none htop.1 fun p => (h p).1
  unfold LevelConstraint.addTo addEq
  split
  case isTrue he =>
    split
    case h_1 => exact addLe_snd_eq_none htop.2 fun p => (h p).2 he
    case h_2 => exact hle
  case isFalse => exact hle

/-- Constraints that are true at every value of the level parameter are added without a conflict. -/
theorem exists_addAll? (htop : ∀ k ∈ ks, k.left ≠ .top ∧ k.right ≠ .top)
    (h : ∀ k ∈ ks, ∀ p, k.Holds p (assignedValues ρ p)) : ∃ g', g.addAll? ks = some g' := by
  induction ks generalizing g with
  | nil => exact ⟨g, rfl⟩
  | cons k ks ih =>
    have hk : (k.addTo g).2 = none :=
      addTo_snd_eq_none (htop k List.mem_cons_self) (h k List.mem_cons_self)
    obtain ⟨g', hg'⟩ := ih (fun k hk => htop k (List.mem_cons_of_mem _ hk))
      (fun k hk => h k (List.mem_cons_of_mem _ hk)) (g := (k.addTo g).1)
    refine ⟨g', ?_⟩
    rw [addAll?, show k.addTo g = ((k.addTo g).1, none) from Prod.ext rfl hk]
    exact hg'

end LevelGraph

/-- A bound by a maximum that one of its sides meets at every value of the level parameter. -/
def LevelConstraint.OneSided (ρ : ℕ → Level) (k : LevelConstraint) : Prop :=
  ∀ v a f w b c, (Level.var v a f, Level.var w b c) ∈ k.bounds →
    (∀ p, v.eval p (assignedValues ρ p) + a ≤ w.eval p (assignedValues ρ p) + b) ∨
      ∀ p, v.eval p (assignedValues ρ p) + a ≤ c

namespace LevelGraph
variable {ρ : ℕ → Level} {g : LevelGraph} {ks : List LevelConstraint}

theorem node_injective : Function.Injective LevelVar.node := by
  intro v w h
  cases v <;> cases w <;> simp_all [LevelVar.node]

/-- An assignment that satisfies the graph, each alternative by one side at all values, solves it,
with the chains of bounds as the chains along the graph. -/
theorem StemsFrom.solvedBy (hg : g.StemsFrom ks) (hρ : ∀ m, (ρ m).Finite)
    (hsat : ∀ p, g.Satisfied (LevelNode.eval p (assignedValues ρ p)))
    (hsides : ∀ k ∈ ks, k.OneSided ρ) :
    g.SolvedBy ρ fun n x => ∃ v, n = v.node ∧ LevelChain ks v x := by
  have heval (p : ℕ) (v : LevelVar) : v.eval p (assignedValues ρ p) =
      (nodeNumber ρ p v.node : ℕ∞) := by
    rw [← LevelVar.eval_node, eval_node_assigned hρ]
  refine ⟨fun e he p => ?_, fun x hx => ?_, fun b hb p => ?_, hg.infinite, ?_, ?_⟩
  · obtain ⟨s, hs, hle⟩ := (hsat p).edges e he _ (eval_node_assigned hρ p e.target)
    rw [eval_node_assigned hρ, Nat.cast_inj] at hs
    rwa [hs]
  · obtain ⟨v, a, w, b, c, ⟨⟨k, hk, f, hmem⟩, -⟩, hs, ht, ha, hb, hc⟩ := hg.alternatives x hx
    rw [hs, ht, ha, hb, hc]
    refine (hsides k hk v a f w b c hmem).imp (fun h p => ?_) (fun h p => ?_)
    · have := h p
      rw [heval, heval] at this
      exact_mod_cast this
    · have := h p
      rw [heval] at this
      exact_mod_cast this
  · obtain ⟨s, hs, hle⟩ := (hsat p).uppers b hb
    rw [eval_node_assigned hρ, Nat.cast_inj] at hs
    rwa [hs]
  · rintro e he x ⟨v, hv, hx⟩
    obtain hzero | ⟨v', a, w, b, c, hbound, hs, ht, hw⟩ := hg.edges e he
    · cases v <;> simp [hzero, LevelVar.node] at hv
    · obtain rfl := node_injective (hv.symm.trans hs)
      exact ⟨w, ht, hw ▸ hx.step hbound⟩
  · rintro y hy x ⟨v, hv, hx⟩
    obtain ⟨v', a, w, b, c, hbound, hs, ht, ha, hb, -⟩ := hg.alternatives y hy
    obtain rfl := node_injective (hv.symm.trans hs)
    exact ⟨w, ht, ha ▸ hb ▸ hx.step hbound⟩

/-- The solver is complete for constraints that an assignment of finite levels meets side by side:
if it makes each of them true at every value of the level parameter, each bound by a maximum through
one side, and no chain of bounds lowers the level parameter, then all constraints are added without
a conflict and the graph has a solution for every list of holes. -/
theorem exists_solve_of_holds (hρ : ∀ m, (ρ m).Finite)
    (htop : ∀ k ∈ ks, k.left ≠ .top ∧ k.right ≠ .top)
    (hholds : ∀ k ∈ ks, ∀ p, k.Holds p (assignedValues ρ p)) (hsides : ∀ k ∈ ks, k.OneSided ρ)
    (hchain : ∀ v x, LevelChain ks v x → 0 ≤ x) (holes : List ℕ) :
    ∃ g sol, LevelGraph.addAll? {} ks = some g ∧ g.solve holes = .ok sol := by
  obtain ⟨g, hg⟩ := exists_addAll? (g := {}) htop hholds
  have hsat (p : ℕ) : g.Satisfied (LevelNode.eval p (assignedValues ρ p)) :=
    (satisfied_addAll? hg).mpr ⟨satisfied_empty, fun k hk => hholds k hk p⟩
  have hstems : g.StemsFrom ks := StemsFrom.empty.addAll? (fun _ => id) htop hg
  obtain ⟨sol, hsol⟩ := (hstems.solvedBy hρ hsat hsides).solve hρ ⟨.param, rfl, .param⟩
    (fun n x ⟨v, _, hx⟩ => hchain v x hx) holes
  exact ⟨g, sol, hg, hsol⟩

/-- The bound `?0 ≤ max (?1 + 1) 3` is met by its variable side, which the solver finds out when the
constant fails. -/
theorem exists_solve_of_holds_raised :
    let ks : List LevelConstraint :=
      [{ left := .var .param 1 0, right := .hole 0 },
        { left := .hole 0, right := .var (.hole 1) 1 3 }]
    ∃ g sol, LevelGraph.addAll? {} ks = some g ∧ g.solve [0, 1] = .ok sol := by
  intro ks
  let ρ : ℕ → Level := fun m => if m = 0 then .var .param 1 0 else .var .param 0 0
  have hvar {k : LevelConstraint} {v w : LevelVar} {a f b c : ℕ} (hk : k ∈ ks)
      (hmem : (Level.var v a f, Level.var w b c) ∈ k.bounds) :
      v = .param ∧ a = 1 ∧ w = .hole 0 ∧ b = 0 ∨ v = .hole 0 ∧ a = 0 ∧ w = .hole 1 ∧ b = 1 := by
    simp only [ks, List.mem_cons, List.not_mem_nil, or_false] at hk
    obtain rfl | rfl := hk <;> simp_all [LevelConstraint.bounds, Level.hole, Level.ofVar]
  have hchain (v : LevelVar) (x : ℤ) (h : LevelChain ks v x) :
      v = .param ∧ x = 0 ∨ v = .hole 0 ∧ x = 1 ∨ v = .hole 1 ∧ x = 0 := by
    induction h with
    | param => exact .inl ⟨rfl, rfl⟩
    | step hb _ ih =>
      obtain ⟨k, hk, f, hmem⟩ := hb.mem
      obtain ⟨rfl, rfl, rfl, rfl⟩ | ⟨rfl, rfl, rfl, rfl⟩ := hvar hk hmem <;> simp_all
  refine exists_solve_of_holds (ρ := ρ) (fun m => ?_) (by decide) ?_ ?_ ?_ [0, 1]
  · simp only [ρ]
    split <;> exact .param (by decide) (by decide)
  · simp [ks, ρ, LevelConstraint.Holds, Level.eval, LevelVar.eval, Level.hole, Level.ofVar,
      assignedValues]
  · intro k hk v a f w b c hmem
    left
    obtain ⟨rfl, rfl, rfl, rfl⟩ | ⟨rfl, rfl, rfl, rfl⟩ := hvar hk hmem <;>
      simp [ρ, LevelVar.eval, assignedValues, Level.eval]
  · intro v x h
    have := hchain v x h
    omega

/-- The graph of the bounds `max l 5 ≤ ?0`, `?0 ≤ max ?1 7` and `?1 ≤ l` at the level parameter
`l`. -/
def sharedBound : LevelGraph where
  edges := [⟨.zero, .hole 0, 5, default⟩, ⟨.param, .hole 0, 0, default⟩,
    ⟨.hole 1, .param, 0, default⟩]
  alternatives := [⟨.hole 0, 0, .hole 1, 0, 7, default⟩]

/-- Two rounds change the distances and the third does not. -/
theorem least_sharedBound : ∃ d, sharedBound.least [.zero, .param, .hole 0, .hole 1] = .ok d ∧
    d.value (.hole 0) = ⟨some 0, 5⟩ ∧ d.value (.hole 1) = ⟨none, 0⟩ := by
  let d₀ : LevelDistances := .initial [.zero, .param, .hole 0, .hole 1]
  let d : LevelDistances := ⟨d₀.fromZero.insert (.hole 0) 5, d₀.fromParam.insert (.hole 0) 0⟩
  have hfirst : LevelDistances.relaxAll sharedBound.edges d₀ =
      (d, some ⟨.param, .hole 0, 0, default⟩) := by
    simp [sharedBound, LevelDistances.relaxAll, LevelDistances.relaxEdge, LevelDistances.initial, d,
      d₀, Std.HashMap.getElem_insert, Std.HashMap.getD_insert]
  have hsecond : LevelDistances.relaxAll sharedBound.edges d = (d, none) := by
    simp [sharedBound, LevelDistances.relaxAll, LevelDistances.relaxEdge, LevelDistances.initial, d,
      d₀, Std.HashMap.getElem_insert, Std.HashMap.getD_insert]
  have hvalue : d.value (.hole 0) = ⟨some 0, 5⟩ ∧ d.value (.hole 1) = ⟨none, 0⟩ := by
    simp [LevelDistances.value, LevelDistances.initial, d, d₀, Std.HashMap.getD_insert]
  refine ⟨d, ?_, hvalue⟩
  rw [least, List.length_cons, LevelDistances.relax_succ_of_changed hfirst,
    LevelDistances.relax_of_unchanged hsecond]
  have hholds : ∀ e ∈ sharedBound.edges, e.holds d := by
    simp only [sharedBound, List.forall_mem_cons, LevelEdge.holds, hvalue.1, hvalue.2]
    decide
  have hedges : (sharedBound.edges.find? fun e => !e.holds d) = none :=
    List.find?_eq_none.mpr fun e he => by simp [hholds e he]
  simp only [bind, Except.bind, hedges]
  rfl

/-- The bound by the maximum becomes the edge `?0 ≤ ?1`, which cannot hold since `?1` is below the
parameter. -/
theorem solve_sharedBound : ∃ e, sharedBound.solve [0, 1] = .error e := by
  have hnodes : sharedBound.nodes [0, 1] = [.zero, .param, .hole 0, .hole 1] := by decide
  obtain ⟨d, hd, h0, h1⟩ := least_sharedBound
  let g : LevelGraph := ({ sharedBound with alternatives := [] } : LevelGraph).addEdge (.hole 0)
    (.hole 1) 0 default
  have hg : ∃ e, g.least [.zero, .param, .hole 0, .hole 1] = .error e := by
    cases hr : g.least [.zero, .param, .hole 0, .hole 1] with
    | error e => exact ⟨e, rfl⟩
    | ok d' =>
      have hholds := (least_eq_ok hr).1
      have h₁ := LevelEdge.eval_of_holds 0 (hholds ⟨.zero, .hole 0, 5, default⟩ (by decide))
      have h₂ := LevelEdge.eval_of_holds 0 (hholds ⟨.hole 1, .param, 0, default⟩ (by decide))
      have h₃ := LevelEdge.eval_of_holds 0 (hholds ⟨.hole 0, .hole 1, 0, default⟩ (by decide))
      simp only [LevelDistances.eval_value_zero, LevelDistances.eval_value_param] at h₁ h₂ h₃
      omega
  obtain ⟨e, he⟩ := hg
  have hfirst : (sharedBound.alternatives.findIdx? fun a => !a.holds d) = some 0 := by
    simp [sharedBound, LevelAlternative.holds, h0, h1]
  have hnarrow : narrow [.zero, .param, .hole 0, .hole 1] sharedBound = .error e := by
    rw [narrow_of_findIdx?_eq_some hd hfirst rfl]
    change narrow _ g = _
    rw [narrow, he]
  exact ⟨e, by rw [solve, hnodes, hnarrow]; rfl⟩

/-- The solver refuses constraints that have a solution: `?0 = max l 5` and `?1 = l` make the bounds
`max l 5 ≤ ?0`, `?0 ≤ max ?1 7` and `?1 ≤ l` true, the second one by its left side where `l` is
large and by its right side where `l` is small. -/
theorem not_solve_of_holds_sharedBound :
    let ks : List LevelConstraint :=
      [{ left := .var .param 0 5, right := .hole 0 },
        { left := .hole 0, right := .var (.hole 1) 0 7 }, { left := .hole 1, right := .param }]
    let ρ : ℕ → Level := fun m => if m = 0 then .var .param 0 5 else .var .param 0 0
    (∀ m, (ρ m).Finite) ∧ (∀ k ∈ ks, k.left ≠ .top ∧ k.right ≠ .top) ∧
      (∀ k ∈ ks, ∀ p, k.Holds p (assignedValues ρ p)) ∧
      ∃ g e, LevelGraph.addAll? {} ks = some g ∧ g.solve [0, 1] = .error e := by
  intro ks ρ
  refine ⟨fun m => ?_, by decide, ?_, ?_⟩
  · simp only [ρ]
    split <;> exact .param (by decide) (by decide)
  · simp [ks, ρ, LevelConstraint.Holds, Level.eval, LevelVar.eval, Level.hole, Level.param,
      Level.ofVar, assignedValues]
    exact fun p => (le_or_gt 5 p).imp_right fun h => ⟨by omega, by norm_num⟩
  · obtain ⟨e, he⟩ := solve_sharedBound
    exact ⟨sharedBound, e, rfl, he⟩

end LevelGraph

end LeveledTypes
