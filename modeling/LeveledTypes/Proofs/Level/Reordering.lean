import LeveledTypes.Proofs.Level.Completeness

/-!
# Constraints in another order

The order of constraints decides which alternative is narrowed first, and a narrowed alternative is
an edge from then on. Two things let the order show: an alternative that is met by its two sides
together, as its edge asks for more, and a distance from the level parameter that is below zero, as
it is rounded up too late. Without these, two orders give each solution the other one as a bound, so
that they have the same solution or none.
-/
namespace LeveledTypes

theorem VarBound.mono {ks ks' : List LevelConstraint} {v w : LevelVar} {a b c : ℕ}
    (h : VarBound ks v a w b c) (hks : ks ⊆ ks') : VarBound ks' v a w b c := by
  obtain ⟨⟨k, hk, hmem⟩, hself⟩ := h
  exact ⟨⟨k, hks hk, hmem⟩, hself⟩

theorem LevelChain.mono {ks ks' : List LevelConstraint} {v : LevelVar} {x : ℤ}
    (h : LevelChain ks v x) (hks : ks ⊆ ks') : LevelChain ks' v x := by
  induction h with
  | param => exact .param
  | step hbound _ ih => exact ih.step (hbound.mono hks)

theorem Level.number_mono (l : Level) {p q : ℕ} (hpq : p ≤ q) : l.number p ≤ l.number q := by
  cases l with
  | const n => exact le_rfl
  | top => exact le_rfl
  | var v a f => exact max_le_max (Nat.add_le_add_right hpq a) le_rfl

@[simp] theorem Level.number_ofVar (v : LevelVar) (a f p : ℕ) :
    (Level.ofVar v a f).number p = max (p + a) f := by
  simp only [Level.ofVar, Level.number]
  split <;> omega

/-- A level in normal form is determined by its values. -/
theorem Level.ofVar_eq_of_number_eq {v : LevelVar} {a f b g : ℕ}
    (h : ∀ p, (Level.ofVar v a f).number p = (Level.ofVar v b g).number p) :
    Level.ofVar v a f = Level.ofVar v b g := by
  simp only [Level.number_ofVar] at h
  obtain rfl : a = b := by
    have := h (f + g)
    omega
  have hzero := h 0
  unfold Level.ofVar
  congr 1
  split <;> split <;> omega

/-- The levels that a list of solutions gives to the level holes. A hole without a solution is
zero. -/
def solutionLevels (sol : List (ℕ × Level)) (m : ℕ) : Level := (sol.lookup m).getD (.const 0)

theorem assignedValues_solutionLevels (sol : List (ℕ × Level)) (p : ℕ) :
    assignedValues (solutionLevels sol) p = solutionValues sol p := by
  funext m
  unfold assignedValues solutionLevels solutionValues
  cases sol.lookup m with
  | none => simp [Level.eval]
  | some l => rfl

namespace LevelGraph
variable {g g' : LevelGraph} {ks ks' : List LevelConstraint} {holes : List ℕ}
  {sol sol' : List (ℕ × Level)}

/-! ## Levels that are solved -/

/-- A level of a solution is finite, and its floor counts at zero if it is there at all. -/
theorem finite_of_finiteLevel {m : ℕ} {v : LevelValue} {l : Level} (h : finiteLevel m v = .ok l) :
    l.Finite := by
  unfold finiteLevel at h
  by_cases hfloor : 0 ≤ v.floor ∧ v.floor ≤ Level.bound
  · cases hadd : v.add with
    | none =>
      obtain rfl : Level.const v.floor.toNat = l := by
        simpa [hadd, hfloor, bind, Except.bind, pure, Except.pure] using h
      exact .const (by omega)
    | some a =>
      by_cases ha : 0 ≤ a ∧ a ≤ Level.bound
      · obtain rfl : Level.ofVar .param a.toNat v.floor.toNat = l := by
          simpa [hadd, ha, hfloor, bind, Except.bind, pure, Except.pure] using h
        refine .param (by omega) ?_
        split <;> omega
      · simp [hadd, ha, bind, Except.bind] at h
  · cases hadd : v.add with
    | none => simp [hadd, hfloor, bind, Except.bind] at h
    | some a =>
      by_cases ha : 0 ≤ a ∧ a ≤ Level.bound <;> simp [hadd, ha, hfloor, bind, Except.bind] at h

/-- Levels that are solved are equal if they have the same values. -/
theorem finiteLevel_eq_of_number_eq {m m' : ℕ} {v v' : LevelValue} {l l' : Level}
    (h : finiteLevel m v = .ok l) (h' : finiteLevel m' v' = .ok l')
    (hnumber : ∀ p, l.number p = l'.number p) : l = l' := by
  obtain ⟨-, rfl⟩ | ⟨a, -, -, rfl⟩ := finiteLevel_eq_ok h <;> obtain ⟨-, rfl⟩ | ⟨b, -, -, rfl⟩ :=
    finiteLevel_eq_ok h'
  · exact congrArg Level.const (hnumber 0)
  · have hgrows := hnumber (v.floor.toNat + 1)
    rw [Level.number_ofVar, Level.number] at hgrows
    omega
  · have hgrows := hnumber (v'.floor.toNat + 1)
    rw [Level.number_ofVar, Level.number] at hgrows
    omega
  · exact Level.ofVar_eq_of_number_eq hnumber

/-- What a solution says if nothing is infinite. -/
theorem solve_eq_ok_of_finite (hinfinite : g.infinite = []) (h : g.solve holes = .ok sol) :
    ∃ d g', narrow (g.nodes holes) g = .ok (d, g') ∧
      (∀ m, .hole m ∈ g.nodes holes → ∃ l, sol.lookup m = some l ∧
        finiteLevel m (d.value (.hole m)) = .ok l) ∧
      ∀ m, .hole m ∉ g.nodes holes → sol.lookup m = none := by
  obtain ⟨d, g', infinite, hnarrow, hspread, hlevels, hothers⟩ := solve_eq_ok h
  have hnil : g'.infinite = [] := (narrowed_of_narrow hnarrow).sameInfinite.trans hinfinite
  obtain rfl : [] = infinite := by simpa [hnil, spreadInfinite] using hspread
  exact ⟨d, g', hnarrow, by simpa using hlevels, hothers⟩

/-- Without infinite constraints no solution is infinite. -/
theorem finite_solutionLevels (hinfinite : g.infinite = []) (h : g.solve holes = .ok sol) (m : ℕ) :
    (solutionLevels sol m).Finite := by
  obtain ⟨d, g', -, hlevels, hothers⟩ := solve_eq_ok_of_finite hinfinite h
  unfold solutionLevels
  by_cases hm : .hole m ∈ g.nodes holes
  · obtain ⟨l, hl, hval⟩ := hlevels m hm
    rw [hl]
    exact finite_of_finiteLevel hval
  · rw [hothers m hm]
    exact .const (Nat.zero_le _)

/-! ## One order bounds the other -/

/-- A level of a solution is below another one at every value of the level parameter. -/
theorem number_le_of_below {ρ : ℕ → Level} {m : ℕ} {v : LevelValue} {l : Level}
    (hl : finiteLevel m v = .ok l) (hv : v.Below ρ (.hole m)) (p : ℕ) : l.number p ≤
    (ρ m).number p := by
  have hfloor : v.floor ≤ (ρ m).number p :=
    hv.floor.trans (Nat.cast_le.mpr ((ρ m).number_mono (Nat.zero_le p)))
  obtain ⟨-, rfl⟩ | ⟨a, ha, hnonneg, rfl⟩ := finiteLevel_eq_ok hl
  · exact Int.toNat_le.mpr hfloor
  · have hadd : p + a ≤ (ρ m).number p := hv.add a ha p
    rw [Level.number_ofVar]
    omega

/-- A graph that an assignment satisfies side by side has a solution, which is below the
assignment. -/
theorem SolvedBy.exists_solve_le {ρ : ℕ → Level} {chain : LevelNode → ℤ → Prop}
    (hg : g.SolvedBy ρ chain) (hρ : ∀ m, (ρ m).Finite) (hparam : chain .param 0)
    (hchain : ∀ n x, chain n x → 0 ≤ x) (holes : List ℕ) :
    ∃ sol, g.solve holes = .ok sol ∧ ∀ m p, (solutionLevels sol m).number p ≤ (ρ m).number p := by
  obtain ⟨sol, hsol⟩ := hg.solve hρ hparam hchain holes
  refine ⟨sol, hsol, fun m p => ?_⟩
  obtain ⟨d, g₁, hnarrow, hlevels, hothers⟩ := solve_eq_ok_of_finite hg.infinite hsol
  obtain ⟨d', g₂, hnarrow', -, hbelow⟩ :=
    hg.narrow hparam hchain fun x hx => mem_nodes_of_endpoint hx
  obtain ⟨rfl, rfl⟩ : d = d' ∧ g₁ = g₂ := by simpa using Except.ok.inj (hnarrow.symm.trans hnarrow')
  by_cases hm : .hole m ∈ g.nodes holes
  · obtain ⟨l, hl, hval⟩ := hlevels m hm
    rw [solutionLevels, hl]
    exact number_le_of_below hval (hbelow (.hole m)) p
  · rw [solutionLevels, hothers m hm]
    exact Nat.zero_le _

/-- Constraints added without a conflict, none of which mentions the infinite level, and whose
chains of bounds do not lower the level parameter. -/
structure Added (ks : List LevelConstraint) (g : LevelGraph) : Prop where
  eq : LevelGraph.addAll? {} ks = some g
  finite : ∀ k ∈ ks, k.left ≠ .top ∧ k.right ≠ .top
  chain : ∀ v x, LevelChain ks v x → 0 ≤ x

/-- If the solution of the constraints in one order meets each bound by a maximum through one side,
they have a solution in the other order, which is below it. -/
theorem Added.exists_solve_le (hg : Added ks g) (hg' : Added ks' g') (hks : ks' ⊆ ks)
    (hholes : ∀ k ∈ ks, ∀ m ∈ k.holes, m ∈ holes) (hsol : g.solve holes = .ok sol)
    (hsides : ∀ k ∈ ks, k.OneSided (solutionLevels sol)) :
    ∃ sol', g'.solve holes = .ok sol' ∧ ∀ m p, (solutionLevels sol' m).number p ≤
      (solutionLevels sol m).number p := by
  have hstems := StemsFrom.empty.addAll? (fun _ => id) hg.finite hg.eq
  have hstems' := StemsFrom.empty.addAll? (fun _ => id) hg'.finite hg'.eq
  have hin := holesIn_addAll? .empty hholes hg.eq
  have hnode {m : ℕ} (hm : m ∈ holes) : LevelNode.hole m ∈ g.nodes holes :=
    mem_nodes_iff.mpr (.inl (.inr (.inr ⟨m, hm, rfl⟩)))
  have hsat (p : ℕ) : g.Satisfied (LevelNode.eval p (solutionValues sol p)) :=
    satisfied_of_solve hsol
      (fun b hb => by obtain ⟨m, hm, hbm⟩ := hin.uppers b hb; exact hbm ▸ hnode hm)
      (fun i hi => hnode (hin.infinite i hi)) p
  have hsat' (p : ℕ) : g'.Satisfied (LevelNode.eval p (assignedValues (solutionLevels sol) p)) := by
    rw [assignedValues_solutionLevels]
    exact (satisfied_addAll? hg'.eq).mpr ⟨satisfied_empty, fun k hk =>
      ((satisfied_addAll? hg.eq).mp (hsat p)).2 k (hks hk)⟩
  have hfinite := finite_solutionLevels hstems.infinite hsol
  have hsolved := hstems'.solvedBy hfinite hsat' fun k hk => hsides k (hks hk)
  exact hsolved.exists_solve_le hfinite ⟨.param, rfl, .param⟩
    (fun n x ⟨v, _, hx⟩ => hg'.chain v x hx) holes

/-- The nodes of a graph whose holes are all asked for. -/
theorem HolesIn.hole_mem_nodes_iff (hg : HolesIn holes g) {m : ℕ} :
    .hole m ∈ g.nodes holes ↔ m ∈ holes := by
  rw [mem_nodes_iff]
  constructor
  · rintro ((h | h | ⟨k, hk, h⟩) | ⟨s, t, he, h⟩)
    · simp at h
    · simp at h
    · rwa [LevelNode.hole.inj h]
    · exact hg.ends _ he m (h.imp Eq.symm Eq.symm)
  · exact fun hm => .inl (.inr (.inr ⟨m, hm, rfl⟩))

/-- Solutions with the same values are the same. -/
theorem lookup_eq_of_number_eq (hg : HolesIn holes g) (hg' : HolesIn holes g')
    (hinfinite : g.infinite = []) (hinfinite' : g'.infinite = []) (hsol : g.solve holes = .ok sol)
    (hsol' : g'.solve holes = .ok sol') (h : ∀ m p, (solutionLevels sol m).number p =
      (solutionLevels sol' m).number p) (m : ℕ) :
    sol.lookup m = sol'.lookup m := by
  obtain ⟨d, g₁, -, hlevels, hothers⟩ := solve_eq_ok_of_finite hinfinite hsol
  obtain ⟨d', g₂, -, hlevels', hothers'⟩ := solve_eq_ok_of_finite hinfinite' hsol'
  by_cases hm : m ∈ holes
  · obtain ⟨l, hl, hval⟩ := hlevels m (hg.hole_mem_nodes_iff.mpr hm)
    obtain ⟨l', hl', hval'⟩ := hlevels' m (hg'.hole_mem_nodes_iff.mpr hm)
    have hnumbers : ∀ p, _ := fun p => by simpa [solutionLevels, hl, hl'] using h m p
    rw [hl, hl', finiteLevel_eq_of_number_eq hval hval' hnumbers]
  · rw [hothers m fun h => hm (hg.hole_mem_nodes_iff.mp h),
      hothers' m fun h => hm (hg'.hole_mem_nodes_iff.mp h)]

/-- The order of constraints does not matter where their solutions meet each bound by a maximum
through one side: if the constraints are added in two orders without a conflict, none of them
mentions the infinite level, no chain of their bounds lowers the level parameter, and whatever
solution either order has meets each bound by a maximum through one side at all values of the level
parameter, then both orders have a solution, with the same level for every hole, or neither has. -/
theorem solve_perm (hks : ks.Perm ks') (htop : ∀ k ∈ ks, k.left ≠ .top ∧ k.right ≠ .top)
    (hholes : ∀ k ∈ ks, ∀ m ∈ k.holes, m ∈ holes) (hchain : ∀ v x, LevelChain ks v x → 0 ≤ x)
    (hg : LevelGraph.addAll? {} ks = some g) (hg' : LevelGraph.addAll? {} ks' = some g')
    (hsides : ∀ sol, g.solve holes = .ok sol ∨ g'.solve holes = .ok sol →
      ∀ k ∈ ks, k.OneSided (solutionLevels sol)) :
    (∃ sol sol', g.solve holes = .ok sol ∧ g'.solve holes = .ok sol' ∧
      ∀ m, sol.lookup m = sol'.lookup m) ∨
      (∃ e, g.solve holes = .error e) ∧ ∃ e, g'.solve holes = .error e := by
  have hadded : Added ks g := ⟨hg, htop, hchain⟩
  have hadded' : Added ks' g' :=
    ⟨hg', fun k hk => htop k (hks.mem_iff.mpr hk), fun v x h => hchain v x (h.mono hks.symm.subset)⟩
  have hholes' : ∀ k ∈ ks', ∀ m ∈ k.holes, m ∈ holes := fun k hk => hholes k (hks.mem_iff.mpr hk)
  have hin := holesIn_addAll? .empty hholes hg
  have hin' := holesIn_addAll? .empty hholes' hg'
  have hforth {sol} (h : g.solve holes = .ok sol) :=
    hadded.exists_solve_le hadded' hks.symm.subset hholes h (hsides sol (.inl h))
  have hback {sol} (h : g'.solve holes = .ok sol) :=
    hadded'.exists_solve_le hadded hks.subset hholes' h
    fun k hk => hsides sol (.inr h) k (hks.mem_iff.mpr hk)
  cases hsol : g.solve holes with
  | ok sol =>
    obtain ⟨sol', hsol', hle⟩ := hforth hsol
    obtain ⟨sol₂, hsol₂, hge⟩ := hback hsol'
    obtain rfl : sol = sol₂ := Except.ok.inj (hsol.symm.trans hsol₂)
    refine .inl ⟨sol, sol', rfl, hsol',
      lookup_eq_of_number_eq hin hin' ?_ ?_ hsol hsol' fun m p => ?_⟩
    · exact (StemsFrom.empty.addAll? (fun _ => id) hadded.finite hg).infinite
    · exact (StemsFrom.empty.addAll? (fun _ => id) hadded'.finite hg').infinite
    · exact le_antisymm (hge m p) (hle m p)
  | error e =>
    refine .inr ⟨⟨e, rfl⟩, ?_⟩
    cases hsol' : g'.solve holes with
    | error e' => exact ⟨e', rfl⟩
    | ok sol' =>
      obtain ⟨sol, hsol₂, -⟩ := hback hsol'
      exact absurd (hsol.symm.trans hsol₂) (by simp)

/-- The graph of some lower bounds of `?0` and the bound `?0 ≤ max ?1 3`. -/
def lowerBounds (es : List LevelEdge) : LevelGraph where
  edges := es
  alternatives := [⟨.hole 0, 0, .hole 1, 0, 3, default⟩]

/-- Lower bounds of `?0` up to `2` leave it at most `2`. -/
theorem exists_solve_lowerBounds {es : List LevelEdge}
    (hes : ∀ e ∈ es, e.source = .zero ∧ e.target = .hole 0 ∧ e.weight ≤ 2) (holes : List ℕ) :
    ∃ sol, (lowerBounds es).solve holes = .ok sol ∧ ∀ p, (solutionLevels sol 0).number p ≤ 2 := by
  let ρ : ℕ → Level := fun m => if m = 0 then .const 2 else .const 0
  have hρ (m : ℕ) : (ρ m).Finite := by
    simp only [ρ]
    split <;> exact .const (by decide)
  have hsolved : (lowerBounds es).SolvedBy ρ fun n x => n = .param ∧ x = 0 := by
    refine ⟨fun e he p => ?_, ?_, by simp [lowerBounds], rfl, fun e he => ?_, ?_⟩
    · obtain ⟨hs, ht, hw⟩ := hes e he
      simpa [hs, ht, nodeNumber, ρ, Level.number] using hw
    · simp [lowerBounds, nodeNumber, ρ, Level.number]
    · simp [(hes e he).1]
    · simp [lowerBounds]
  obtain ⟨sol, hsol, hle⟩ := hsolved.exists_solve_le hρ ⟨rfl, rfl⟩ (fun _ _ h => h.2.ge) holes
  exact ⟨sol, hsol, hle 0⟩

/-- The bounds `1 ≤ ?0`, `2 ≤ ?0` and `?0 ≤ max ?1 3`, whose last one is met by its constant side,
in both directions. -/
theorem solve_perm_reverse :
    let ks : List LevelConstraint :=
      [{ left := .const 1, right := .hole 0 }, { left := .const 2, right := .hole 0 },
        { left := .hole 0, right := .var (.hole 1) 0 3 }]
    ∃ g g', LevelGraph.addAll? {} ks = some g ∧ LevelGraph.addAll? {} ks.reverse = some g' ∧
      ∃ sol sol', g.solve [0, 1] = .ok sol ∧ g'.solve [0, 1] = .ok sol' ∧
        ∀ m, sol.lookup m = sol'.lookup m := by
  intro ks
  let e : ℤ → LevelEdge := fun w => ⟨.zero, .hole 0, w, default⟩
  have hlower : ∀ e' ∈ [e 1, e 2], e'.source = .zero ∧ e'.target = .hole 0 ∧
      e'.weight ≤ 2 := by simp [e]
  have hchain (v : LevelVar) (x : ℤ) (h : LevelChain ks v x) : v = .param ∧ x = 0 := by
    induction h with
    | param => exact ⟨rfl, rfl⟩
    | step hb _ ih =>
      obtain ⟨k, hk, f, hmem⟩ := hb.mem
      obtain ⟨rfl, rfl⟩ := ih
      simp only [ks, List.mem_cons, List.not_mem_nil, or_false] at hk
      obtain rfl | rfl | rfl :=
        hk <;> simp [LevelConstraint.bounds, Level.hole, Level.ofVar] at hmem
  have hsides {es : List LevelEdge} (hes : es ⊆ [e 1, e 2]) {sol : List (ℕ × Level)}
      (hsol : (lowerBounds es).solve [0, 1] = .ok sol) :
        ∀ k ∈ ks, k.OneSided (solutionLevels sol) := by
    intro k hk v a f w b c hmem
    simp only [ks, List.mem_cons, List.not_mem_nil, or_false] at hk
    obtain rfl | rfl | rfl := hk <;> simp [LevelConstraint.bounds, Level.hole, Level.ofVar] at hmem
    obtain ⟨⟨rfl, rfl, rfl⟩, rfl, rfl, rfl⟩ := hmem
    refine .inr fun p => ?_
    obtain ⟨sol', hsol', hle⟩ := exists_solve_lowerBounds (fun e' he' => hlower e' (hes he')) [0, 1]
    obtain rfl : sol = sol' := Except.ok.inj (hsol.symm.trans hsol')
    have := hle p
    rw [LevelVar.eval, assignedValues, (finite_solutionLevels rfl hsol 0).eval_eq, Nat.cast_zero,
      add_zero, Nat.cast_le]
    omega
  obtain ⟨sol, hsol, -⟩ := exists_solve_lowerBounds hlower [0, 1]
  have hadd : LevelGraph.addAll? {} ks = some (lowerBounds [e 1, e 2]) := rfl
  have hreverse : LevelGraph.addAll? {} ks.reverse = some (lowerBounds [e 2, e 1]) := rfl
  refine ⟨_, _, hadd, hreverse, (solve_perm (List.reverse_perm ks).symm (by decide) (by decide)
    (fun v x h => (hchain v x h).2.ge) hadd hreverse ?_).resolve_right fun h => ?_⟩
  · rintro sol (h | h)
    · exact hsides (fun _ => id) h
    · exact hsides (by simp) h
  · obtain ⟨⟨err, herr⟩, -⟩ := h
    exact absurd (hsol.symm.trans herr) (by simp)

end LevelGraph

end LeveledTypes
