import LeveledTypes.Proofs.Level.Completeness

/-!
# Solutions are least

Distances are weights of walks, and no assignment of levels that satisfies the edges can be below
the weight of a walk. So a solution of a graph without alternatives is below every assignment of
finite levels that satisfies the constraints. A distance from the level parameter that is rounded up
to zero is no exception: a level that grows with the parameter adds a natural number to it.
-/
namespace LeveledTypes

/-- The value of a level without holes, as a number. -/
theorem Level.eval_eq_number {l : Level} (htop : l ≠ .top) (hhole : l.hole? = none)
    (p : ℕ) (σ : ℕ → ℕ∞) : l.eval p σ = (l.number p : ℕ∞) := by
  cases l with
  | const n => rfl
  | top => exact absurd rfl htop
  | var v a f =>
    cases v with
    | param => simp [Level.eval, Level.number, LevelVar.eval, Nat.mono_cast.map_max]
    | hole m => simp [Level.hole?] at hhole

/-- A node whose level is above the parameter less some number is above the parameter. -/
theorem le_nodeNumber_of_growing {ρ : ℕ → Level} {n : LevelNode} {x : ℤ}
    (hx : ∀ p : ℕ, p + x ≤ nodeNumber ρ p n) (p : ℕ) : p ≤ nodeNumber ρ p n := by
  have hconst {c : ℕ} (hc : ∀ p, nodeNumber ρ p n = c) : p ≤ nodeNumber ρ p n := by
    have h := hx (c + x.natAbs + 1)
    rw [hc] at h
    omega
  cases n with
  | zero => exact hconst fun _ => rfl
  | param => exact le_rfl
  | hole m =>
    cases hm : ρ m with
    | const c => exact hconst (c := c) fun _ => by simp [nodeNumber, hm, Level.number]
    | top => exact hconst (c := 0) fun _ => by simp [nodeNumber, hm, Level.number]
    | var v a f =>
      simp only [nodeNumber, hm, Level.number]
      omega

/-- The longest walks are below every assignment that satisfies the edges, at each value of the
level parameter. -/
theorem LevelDistances.Longest.eval_value_le {edges : List LevelEdge} {nodes : List LevelNode}
    {d : LevelDistances} {ρ : ℕ → Level} (h : Longest edges nodes d)
    (hρ : ∀ p, Potential edges fun n => nodeNumber ρ p n) (p : ℕ) (n : LevelNode) :
    (d.value n).eval p ≤ nodeNumber ρ p n := by
  have hzero (x : ℤ) (hx : d.fromZero[n]? = some x) : x ≤ nodeNumber ρ p n := by
    obtain ⟨s, es, hes, hwalk, rfl⟩ := h.fromZero n x hx
    have := hwalk.weight_le (hρ p) hes
    omega
  have hparam (x : ℤ) (hx : d.fromParam[n]? = some x) : p + max x 0 ≤ nodeNumber ρ p n := by
    obtain ⟨es, hes, hwalk, rfl⟩ := h.fromParam n x hx
    have hgrows (q : ℕ) : q + walkWeight es ≤ nodeNumber ρ q n := hwalk.weight_le (hρ q) hes
    have := hgrows p
    have := le_nodeNumber_of_growing hgrows p
    omega
  cases n with
  | zero => exact (d.eval_value_zero p).le
  | param => exact (d.eval_value_param p).le
  | hole m =>
    have hfloor : max (d.fromZero.getD (.hole m) 0) 0 ≤ nodeNumber ρ p (.hole m) := by
      rw [Std.HashMap.getD_eq_getD_getElem?]
      cases hx : d.fromZero[LevelNode.hole m]? with
      | none => simp
      | some x => simpa using hzero x hx
    simp only [LevelValue.eval, LevelDistances.value]
    cases hx : d.fromParam[LevelNode.hole m]? with
    | none => exact hfloor
    | some x => exact max_le (hparam x hx) hfloor

namespace LevelGraph
variable {g : LevelGraph} {nodes : List LevelNode} {d : LevelDistances}

/-- Least distances are what relaxation from the start comes to. -/
theorem relax_of_least (h : g.least nodes = .ok d) :
    LevelDistances.relax g.edges (nodes.length + 1) (.initial nodes) = .ok d := by
  unfold least at h
  cases hr : LevelDistances.relax g.edges (nodes.length + 1) (.initial nodes) with
  | error e => simp [hr, bind, Except.bind] at h
  | ok d' =>
    simp only [hr, bind, Except.bind] at h
    split at h
    case h_1 => simp [throw, throwThe, MonadExceptOf.throw] at h
    case h_2 =>
      split at h
      case h_1 => simp [throw, throwThe, MonadExceptOf.throw] at h
      case h_2 => simpa [pure, Except.pure] using h

/-- The distances that narrowing ends in are the least ones of the graph that it ends in. -/
theorem least_of_narrow {g' : LevelGraph} (h : narrow nodes g = .ok (d, g')) :
    g'.least nodes = .ok d := by
  induction g using narrow.induct nodes with
  | case1 g e he => simp [narrow, he] at h
  | case2 g d' hd hnone =>
    rw [narrow_of_findIdx?_eq_none hd hnone] at h
    obtain ⟨rfl, rfl⟩ : d' = d ∧ g = g' := by simpa using h
    exact hd
  | case3 g d' hd i hi hnone =>
    have := (List.findIdx?_eq_some_iff_getElem.mp hi).1
    simp only [List.getElem?_eq_none_iff] at hnone
    omega
  | case4 g d' hd i hi a ha g₁ ih =>
    rw [narrow_of_findIdx?_eq_some hd hi ha] at h
    exact ih h

/-- Without alternatives there is nothing to be narrowed. -/
theorem eq_of_narrow {g' : LevelGraph} (halternatives : g.alternatives = [])
    (h : narrow nodes g = .ok (d, g')) : g' = g := by
  cases hd : g.least nodes with
  | error e => simp [narrow, hd] at h
  | ok d' =>
    rw [narrow_of_findIdx?_eq_none hd (by simp [halternatives])] at h
    exact (Prod.mk.inj (Except.ok.inj h)).2.symm

/-- The edges of a graph as numbers, under an assignment of finite levels. -/
theorem potential_of_satisfied {ρ : ℕ → Level} (hρ : ∀ m, ρ m ≠ .top ∧ (ρ m).hole? = none) {p : ℕ}
    (hg : g.Satisfied (LevelNode.eval p (assignedValues ρ p))) :
    Potential g.edges fun n => nodeNumber ρ p n := by
  have heval (n : LevelNode) : n.eval p (assignedValues ρ p) = (nodeNumber ρ p n : ℕ∞) := by
    cases n with
    | zero => rfl
    | param => rfl
    | hole m => exact Level.eval_eq_number (hρ m).1 (hρ m).2 p _
  intro e he
  obtain ⟨s, hs, hle⟩ := hg.edges e he _ (heval e.target)
  rw [heval, Nat.cast_inj] at hs
  subst hs
  exact hle

/-- Solutions are least without alternatives: if constraints are added one by one without a
conflict, the graph stores neither an alternative nor an infinite lower bound, and it has a
solution, then this gives each hole asked for a level, and at every value of the level parameter no
hole is above its value under an assignment of finite levels (numbers, or `max (param + a) f` for
any `a` and `f`) that makes each constraint true at all values of the level parameter. -/
theorem solutionValues_le_of_holds {ks : List LevelConstraint} {holes : List ℕ}
    {sol : List (ℕ × Level)} {ρ : ℕ → Level} (hadd : LevelGraph.addAll? {} ks = some g)
    (halternatives : g.alternatives = []) (hinfinite : g.infinite = [])
    (hsol : g.solve holes = .ok sol) (hρ : ∀ m, ρ m ≠ .top ∧
      (ρ m).hole? = none) (hholds : ∀ k ∈ ks, ∀ p : ℕ, k.Holds p (assignedValues ρ p)) :
    (∀ m ∈ holes, ∃ l, sol.lookup m = some l) ∧
      ∀ p m : ℕ, solutionValues sol p m ≤ assignedValues ρ p m := by
  obtain ⟨d, g', infinite, hnarrow, hspread, hlevels, hothers⟩ := solve_eq_ok hsol
  obtain rfl : g' = g := eq_of_narrow halternatives hnarrow
  obtain rfl : [] = infinite := by simpa [hinfinite, spreadInfinite] using hspread
  constructor
  · intro m hm
    obtain ⟨l, hl, -⟩ := hlevels m (mem_nodes_iff.mpr (.inl (.inr (.inr ⟨m, hm, rfl⟩))))
    exact ⟨l, hl⟩
  have hpot (p : ℕ) : Potential g'.edges fun n => nodeNumber ρ p n :=
    potential_of_satisfied hρ
      ((satisfied_addAll? hadd).mpr ⟨satisfied_empty, fun k hk => hholds k hk p⟩)
  have hnodes : ∀ e ∈ g'.edges, e.source ∈ g'.nodes holes ∧ e.target ∈ g'.nodes holes := fun e he =>
    mem_nodes_of_endpoint (List.mem_append_left _ (List.mem_map_of_mem he))
  obtain ⟨d', hd', hlongest⟩ := LevelDistances.exists_longest (hpot 0) hnodes
  obtain rfl : d' = d := Except.ok.inj (hd'.symm.trans (relax_of_least (least_of_narrow hnarrow)))
  intro p m
  by_cases hm : .hole m ∈ g'.nodes holes
  · obtain ⟨l, hl, hval⟩ := hlevels m hm
    have hvalue : finiteLevel m (d'.value (.hole m)) = .ok l := by simpa using hval
    have hle : (d'.value (.hole m)).eval p ≤ (ρ m).number p :=
      hlongest.eval_value_le hpot p (.hole m)
    rw [solutionValues, hl, Option.map_some, Option.getD_some, eval_finiteLevel hvalue,
      assignedValues, Level.eval_eq_number (hρ m).1 (hρ m).2]
    exact Nat.cast_le.mpr (Int.toNat_le.mpr hle)
  · simp [solutionValues, hothers m hm]

/-- The graph of the bounds `l ≤ ?0 + 5` and `2 ≤ ?0` at the level parameter `l`. -/
def loweredParam : LevelGraph where
  edges := [⟨.param, .hole 0, -5, default⟩, ⟨.zero, .hole 0, 2, default⟩]

/-- The distance of the hole from the parameter is negative, and the value that is read off it is
not. -/
theorem least_loweredParam : ∃ d, loweredParam.least [.zero, .param, .hole 0] = .ok d ∧
    d.value (.hole 0) = ⟨some 0, 2⟩ := by
  let d₀ : LevelDistances := .initial [.zero, .param, .hole 0]
  let d : LevelDistances := ⟨d₀.fromZero.insert (.hole 0) 2, d₀.fromParam.insert (.hole 0) (-5)⟩
  have hfirst : LevelDistances.relaxAll loweredParam.edges d₀ =
      (d, some ⟨.zero, .hole 0, 2, default⟩) := by
    simp [loweredParam, LevelDistances.relaxAll, LevelDistances.relaxEdge, LevelDistances.initial,
      d, d₀, Std.HashMap.getElem_insert]
  have hsecond : LevelDistances.relaxAll loweredParam.edges d = (d, none) := by
    simp [loweredParam, LevelDistances.relaxAll, LevelDistances.relaxEdge, LevelDistances.initial,
      d, d₀, Std.HashMap.getElem_insert]
  have hvalue : d.value (.hole 0) = ⟨some 0, 2⟩ := by
    simp [LevelDistances.value, LevelDistances.initial, d, d₀]
  refine ⟨d, ?_, hvalue⟩
  rw [least, List.length_cons, LevelDistances.relax_succ_of_changed hfirst,
    LevelDistances.relax_of_unchanged hsecond]
  have hholds : ∀ e ∈ loweredParam.edges, e.holds d := by
    simp only [loweredParam, List.forall_mem_cons, LevelEdge.holds, hvalue]
    decide
  have hedges : (loweredParam.edges.find? fun e => !e.holds d) = none :=
    List.find?_eq_none.mpr fun e he => by simp [hholds e he]
  simp only [bind, Except.bind, hedges]
  rfl

theorem solve_loweredParam : loweredParam.solve [0] = .ok [(0, .var .param 0 2)] := by
  have hnodes : loweredParam.nodes [0] = [.zero, .param, .hole 0] := by decide
  obtain ⟨d, hd, hvalue⟩ := least_loweredParam
  have hnarrow := narrow_of_findIdx?_eq_none hd (by simp [loweredParam])
  have hspread : spreadInfinite (loweredParam.uppers.map (·.1))
      [] loweredParam.infinite.reverse loweredParam.links = .ok [] := by
    simp [loweredParam, spreadInfinite]
  simp [solve, hnodes, hnarrow, hspread, bind, Except.bind, pure, Except.pure, hvalue, finiteLevel,
    Level.bound, Level.ofVar]

/-- The distance of `?0` from the level parameter is `-5`. It is rounded up, so that `?0` is `max l
2`, which is below the assignment of `max (l + 1) 4`. -/
theorem solutionValues_le_of_holds_loweredParam :
    let ks : List LevelConstraint :=
      [{ left := .param, right := .var (.hole 0) 5 0 }, { left := .const 2, right := .hole 0 }]
    let ρ : ℕ → Level := fun _ => .var .param 1 4
    addAll? {} ks = some loweredParam ∧ loweredParam.solve [0] = .ok [(0, .var .param 0 2)] ∧
      (∀ k ∈ ks, ∀ p : ℕ, k.Holds p (assignedValues ρ p)) ∧
      ∀ p m : ℕ, solutionValues [(0, .var .param 0 2)] p m ≤ assignedValues ρ p m := by
  intro ks ρ
  have hholds : ∀ k ∈ ks, ∀ p : ℕ, k.Holds p (assignedValues ρ p) := by
    have hparam (p : ℕ) : (p : ℕ∞) ≤ max ((p : ℕ∞) + 1) 4 + 5 :=
      le_self_add.trans ((le_max_left _ _).trans le_self_add)
    have hconst (p : ℕ) : (2 : ℕ∞) ≤ p + 1 ∨ (2 : ℕ∞) ≤ 4 := .inr (by norm_num)
    simpa [ks, ρ, LevelConstraint.Holds, Level.eval, LevelVar.eval, Level.hole, Level.param,
      Level.ofVar, assignedValues] using ⟨hparam, hconst⟩
  exact ⟨rfl, solve_loweredParam, hholds,
    (solutionValues_le_of_holds (ρ := ρ) rfl rfl rfl solve_loweredParam
      (fun _ => ⟨by simp [ρ], rfl⟩) hholds).2⟩

end LevelGraph

end LeveledTypes
