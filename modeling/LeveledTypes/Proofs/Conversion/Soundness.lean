import LeveledTypes.Proofs.Conversion.Shapes

/-!
# Conversion is sound

If two terms are compared without an error, without a constraint that is kept for later, and the
level constraints can be solved, then the terms are convertible, or in the relation of subtyping,
under the solutions of the holes.
-/
namespace LeveledTypes

/-- The solutions of holes that a store has, with the values of its level solutions. -/
noncomputable def Store.toSolution (s : Store) : Solution where
  hole := s.solution?
  first := solutionValues s.levelSolutions
  second := solutionValues s.levelSolutions

namespace LevelGraph
variable {g : LevelGraph} {holes : List ℕ} {sol : List (ℕ × Level)}

theorem mem_holes_of_mem_nodes (hg : HolesIn holes g) {m : ℕ} (h : .hole m ∈ g.nodes holes) :
    m ∈ holes := by
  obtain (h | h | ⟨k, hk, h⟩) | ⟨s, t, he, h⟩ := mem_nodes_iff.mp h
  · contradiction
  · contradiction
  · exact LevelNode.hole.inj h ▸ hk
  · exact hg.ends _ he m (h.imp Eq.symm Eq.symm)

/-- A solution satisfies a graph all whose holes the solver was told of. -/
theorem satisfied_of_solve_of_holesIn (h : g.solve holes = .ok sol) (hg : HolesIn holes g) (p : ℕ) :
    g.Satisfied (LevelNode.eval p (solutionValues sol p)) := by
  have hmem {m : ℕ} (hm : m ∈ holes) : LevelNode.hole m ∈ g.nodes holes :=
    mem_nodes_iff.mpr (.inl (.inr (.inr ⟨m, hm, rfl⟩)))
  refine satisfied_of_solve h (fun b hb => ?_) (fun i hi => hmem (hg.infinite i hi)) p
  obtain ⟨m, hm, hbm⟩ := hg.uppers b hb
  exact hbm ▸ hmem hm

/-- The solution has levels for the given holes and for no others. -/
theorem isSome_lookup_iff (h : g.solve holes = .ok sol) (hg : HolesIn holes g) (m : ℕ) :
    (sol.lookup m).isSome ↔ m ∈ holes := by
  obtain ⟨d, g', infinite, -, -, hsome, hnone⟩ := solve_eq_ok h
  constructor
  · intro hm
    by_contra hmem
    simp [hnone m fun hn => hmem (mem_holes_of_mem_nodes hg hn)] at hm
  · intro hm
    obtain ⟨l, hl, -⟩ := hsome m (mem_nodes_iff.mpr (.inl (.inr (.inr ⟨m, hm, rfl⟩))))
    simp [hl]

end LevelGraph

namespace Store
variable {s t : Store}

/-- All level holes that the constraints of a store mention are its own, and none of these is on
both levels. -/
structure KnowsLevels (s : Store) : Prop where
  first : LevelGraph.HolesIn s.pLevels s.p
  second : LevelGraph.HolesIn s.hLevels s.h
  disjoint : ∀ m ∈ s.pLevels, m ∉ s.hLevels

/-- Solving the levels fills in their solutions and changes nothing else. -/
theorem solveLevels_eq_ok (h : s.solveLevels = .ok t) : ∃ ps qs,
    s.p.solve s.pLevels = .ok ps ∧ s.h.solve s.hLevels = .ok qs ∧
    t = { s with levelSolutions := qs ++ ps } := by
  unfold solveLevels at h
  cases hps : s.p.solve s.pLevels with
  | error e => simp [hps, bind, Except.bind] at h
  | ok ps =>
    cases hqs : s.h.solve s.hLevels with
    | error e => simp [hps, hqs, bind, Except.bind] at h
    | ok qs =>
      exact ⟨ps, qs, rfl, rfl,
        by simpa [hps, hqs, bind, Except.bind, pure, Except.pure, eq_comm] using h⟩

/-- The solutions satisfy all constraints, at every value of the level parameter. -/
theorem satisfied_of_solveLevels (hs : s.KnowsLevels) (h : s.solveLevels = .ok t) (k : ℕ) :
    s.p.Satisfied (LevelNode.eval k (t.toSolution.first k)) ∧
    s.h.Satisfied (LevelNode.eval k (t.toSolution.second k)) := by
  obtain ⟨ps, qs, hps, hqs, rfl⟩ := solveLevels_eq_ok h
  refine ⟨(LevelGraph.satisfied_of_solve_of_holesIn hps hs.first k).congr hs.first fun m hm => ?_,
    (LevelGraph.satisfied_of_solve_of_holesIn hqs hs.second k).congr hs.second fun m hm => ?_⟩
  · have hnone : qs.lookup m = none := by
      rw [← Option.not_isSome_iff_eq_none, LevelGraph.isSome_lookup_iff hqs hs.second]
      exact hs.disjoint m hm
    simp [toSolution, solutionValues, List.lookup_append, hnone]
  · obtain ⟨l, hl⟩ := Option.isSome_iff_exists.mp
      ((LevelGraph.isSome_lookup_iff hqs hs.second m).mpr hm)
    simp [toSolution, solutionValues, List.lookup_append, hl]

theorem solves_of_solveLevels {S : Signature} {n : ℕ} (hs : s.Over S n)
    (hn : s.constraints.length ≤ n) (h : s.solveLevels = .ok t) : t.toSolution.Solves S n s := by
  have hlevels := satisfied_of_solveLevels ⟨hs.firstHoles, hs.secondHoles, hs.disjoint⟩ h
  obtain ⟨ps, qs, -, -, rfl⟩ := solveLevels_eq_ok h
  exact ⟨fun m t _ ht => ht, fun k => (hlevels k).1, fun k => (hlevels k).2, hn⟩

end Store

namespace Converter
variable {S : Signature} {n : ℕ} {c : Converter}

section Run
variable (henv : c.env.Over S) (hL : c.locals.Over S)

include henv hL

/-- Two terms, given how parts are compared. -/
theorem compares_convertWith {binders : ℕ} {conv : ℕ → Comparison → Term → Term → Convert Unit}
    (hconv : ∀ (k : ℕ) (cmp : Comparison) (a b : Term), a.Over S ⊤ → b.Over S ⊤ →
      Compares S n c.env (conv k cmp a b) fun M => Related S c.env M cmp
        ((c.locals.under binders).under k) a b)
    {cmp : Comparison} {l r : Term} (hl : l.Over S ⊤) (hr : r.Over S ⊤) :
    Compares S n c.env (c.convertWith binders conv cmp l r) fun M =>
      Related S c.env M cmp (c.locals.under binders) l r := by
  intro s s' hs h
  unfold convertWith at h
  obtain ⟨l', t, hlt, h⟩ := bind_eq_ok.mp h
  obtain ⟨hstore, ht, hl', hll'⟩ := converts_whnf henv hL hs hl hlt
  obtain ⟨r', u, hru, h⟩ := bind_eq_ok.mp h
  obtain ⟨hstore', hu, hr', hrr'⟩ := converts_whnf henv hL ht hr hru
  -- What is left is to compare the weak head normal forms in the state after both reductions.
  have hnormal (h : Sound S n c.env s' ∧ ∀ M : Solution, M.Solves S n s'.store →
      M.Solves S n u.store ∧ Related S c.env M cmp (c.locals.under binders) l' r') :
      Sound S n c.env s' ∧ ∀ M : Solution, M.Solves S n s'.store →
        M.Solves S n s.store ∧ Related S c.env M cmp (c.locals.under binders) l r := by
    refine ⟨h.1, fun M hM => ?_⟩
    obtain ⟨hMu, hrel⟩ := h.2 M hM
    have hMt := hstore' ▸ hMu
    have hMs := hstore ▸ hMt
    exact ⟨hMs, .conv (hll' M hMs.holes) hrel (hrr' M hMt.holes)⟩
  refine hnormal ?_
  split at h
  case isTrue hsame =>
    obtain ⟨-, rfl⟩ := EStateM.Result.ok.inj h
    exact ⟨hu, fun M hM => ⟨hM, Conv.related (.same hsame) cmp⟩⟩
  case isFalse =>
    obtain ⟨_, _, hget, h⟩ := bind_eq_ok.mp h
    obtain ⟨rfl, rfl⟩ := EStateM.Result.ok.inj hget
    beta_reduce at h
    have hunsolved {t : Term} {m : ℕ}
        (h : t.headHole?.filter (fun m => (u.store.solution? m).isNone) = some m) :
        t.headHole? = some m ∧ u.store.solution? m = none := by
      simpa [Option.filter_eq_some_iff] using h
    cases hm : l'.headHole?.filter (fun m => (u.store.solution? m).isNone) with
    | some m =>
      simp only [hm] at h
      obtain ⟨hhead, hnone⟩ := hunsolved hm
      obtain ⟨hs', hM⟩ := compares_solve henv hL hu hl' hr' hhead hnone h
      exact ⟨hs', fun M hM' => (hM M hM').imp_right fun h => Conv.related h cmp⟩
    | none =>
      simp only [hm] at h
      cases hm : r'.headHole?.filter (fun m => (u.store.solution? m).isNone) with
      | some m =>
        simp only [hm] at h
        obtain ⟨hhead, hnone⟩ := hunsolved hm
        obtain ⟨hs', hM⟩ := compares_solve henv hL hu hr' hl' hhead hnone h
        exact ⟨hs', fun M hM' => (hM M hM').imp_right fun h => Conv.related h.symm cmp⟩
      | none =>
        simp only [hm] at h
        exact compares_shapes calculus_compares hconv hl' hr' u s' hu h

/-- If a comparison succeeds, then its sides are related in every solution of the store that it ends
with. The induction is on the depth that is left. -/
theorem compares_convertIn (room binders : ℕ) (cmp : Comparison) {l r : Term} (hl : l.Over S ⊤)
    (hr : r.Over S ⊤) : Compares S n c.env (c.convertIn room binders cmp l r) fun M =>
      Related S c.env M cmp (c.locals.under binders) l r := by
  induction room generalizing binders cmp l r with
  | zero =>
    unfold convertIn
    split
    case isTrue hsame => exact .pure fun M => Conv.related (.same hsame) cmp
    case isFalse => exact .throw
  | succ room ih =>
    unfold convertIn
    split
    case isTrue hsame => exact .pure fun M => Conv.related (.same hsame) cmp
    case isFalse =>
      refine compares_convertWith henv hL (fun k cmp a b ha hb => ?_) hl hr
      rw [Locals.under_add]
      exact ih (binders + k) cmp ha hb

end Run

/-- Conversion is sound. Let the definitions, the values of the variables, the store and both terms
be over a signature, and let what is remembered be sound. If the comparison of the terms succeeds
without keeping a constraint for later, and the level constraints can be solved afterwards, then the
terms are in the relation that the comparison is about, under the solutions of holes and levels that
the store then has. -/
theorem related_of_convert {s s' : ConversionState} {t : Store} {cmp : Comparison} {l r : Term}
    (henv : c.env.Over S) (hlocals : c.locals.Over S)
    (hstore : s.store.Over S s.store.constraints.length) (hmemo : s.memo.Sound S c.env)
    (hl : l.Over S ⊤) (hr : r.Over S ⊤) (hrun : c.convert cmp l r s = .ok () s')
    (hconstraints : s'.store.constraints = s.store.constraints)
    (hlevels : s'.store.solveLevels = .ok t) :
    Related S c.env t.toSolution cmp c.locals l r := by
  obtain ⟨hs', hM⟩ := compares_convertIn henv hlocals c.limits.conversionDepth 0 cmp hl hr s s'
    ⟨hstore, hmemo⟩ hrun
  exact (hM _ (Store.solves_of_solveLevels hs'.store (by rw [hconstraints]) hlevels)).2

/-! ## A problem with a hole -/

/-- One hole, and one level hole for each of the levels of universes. -/
def holeSignature : Signature where
  global _ := False
  hole m := m = 0
  first m := m = 0
  second m := m = 1
  arity _ := 0
  paths := False
  record _ _ := False

/-- The hole is a function on types. -/
def holeStore (solution : Option Term) (p h : LevelGraph) : Store where
  holes :=
    #[{ span := default, kind := .implicit, type :=
      .pi (.named "A") (.univ .zero) (.univ .zero), arity := 1, solution }]
  levelCount := 2
  pLevels := [0]
  hLevels := [1]
  p := p
  h := h

/-- The graph of the bound `?m ≤ 1`. -/
def boundedHole (m : ℕ) : LevelGraph where
  uppers := [(.hole m, 1, default)]

/-- The least value of the only level hole is zero. -/
theorem solve_boundedHole (m : ℕ) : (boundedHole m).solve [m] = .ok [(m, .const 0)] := by
  let d : LevelDistances := .initial [.zero, .param, .hole m]
  have hvalue : d.value (.hole m) = ⟨none, 0⟩ := by
    simp [LevelDistances.value, LevelDistances.initial, d]
  have hnodes : (boundedHole m).nodes [m] = [.zero, .param, .hole m] := rfl
  have hleast : (boundedHole m).least [.zero, .param, .hole m] = .ok d := by
    have hrelax : LevelDistances.relax [] 4 d = .ok d := LevelDistances.relax_of_unchanged rfl
    simp [LevelGraph.least, boundedHole, hvalue, d, hrelax, bind, Except.bind, pure, Except.pure]
  have hn := LevelGraph.narrow_of_findIdx?_eq_none hleast rfl
  have hs : LevelGraph.spreadInfinite ((boundedHole m).uppers.map (·.1)) []
      (boundedHole m).infinite.reverse
        (boundedHole m).links = .ok [] := by simp [boundedHole, LevelGraph.spreadInfinite]
  simp [LevelGraph.solve, hnodes, hn, hs, hvalue, LevelGraph.finiteLevel, Level.bound, bind,
    Except.bind, pure, Except.pure]

/-- The identity on types. -/
def typeIdentity : Term := .lam (.named "A") (.univ .zero) (.var 0)

/-- A context of a type `A`, and of a type whose value is `Nat`. -/
def holeConverter : Converter := ⟨default, [some .nat, none], {}, default⟩

def holeLeft : Term :=
  .pi (.named "x") (.app (.hole 0) (.var 1))
    (.sigma (.named "y") (.var 1) (.univ ⟨.hole 0, .hole 1⟩))

def holeRight : Term :=
  .pi (.named "x") (.var 1) (.sigma (.named "y") .nat (.univ ⟨.const 1, .const 1⟩))

/-- Nothing in the store is outside the signature: the hole is the only one, and its type has no
level holes. -/
theorem over_holeStore : (holeStore none {} {}).Over holeSignature 0 where
  solutions := by
    rintro m t rfl ht
    simp [Store.solution?, holeStore] at ht
  types := by
    rintro m h rfl hh
    have hzero : holeSignature.Admits .zero := by
      simp [Signature.Admits, Universe.zero, Level.hole?]
    have htype : h.type = .pi (.named "A") (.univ .zero) (.univ .zero) := by
      rw [← Option.some.inj hh]
      rfl
    rw [htype]
    exact ⟨hzero, hzero⟩
  holes := by
    rintro m rfl
    exact Nat.zero_lt_one
  first m hm := List.mem_singleton.mpr hm
  second m hm := List.mem_singleton.mpr hm
  disjoint := by decide
  firstHoles := .empty
  secondHoles := .empty
  levels := rfl
  constraints := le_rfl

/-- The hole is solved by the identity, and the level holes by zero, which is below one. -/
theorem related_of_convert_holeLeft :
    ∃ s' t, holeConverter.env.Over holeSignature ∧ holeConverter.locals.Over holeSignature ∧
      (holeStore none {} {}).Over holeSignature 0 ∧ Memo.Sound holeSignature holeConverter.env {} ∧
      holeLeft.Over holeSignature ⊤ ∧ holeRight.Over holeSignature ⊤ ∧
      holeConverter.convert .le holeLeft holeRight { store := holeStore none {} {} } = .ok () s' ∧
      s'.store.constraints = [] ∧ s'.store.solveLevels = .ok t ∧
      Related holeSignature holeConverter.env t.toSolution .le holeConverter.locals
        holeLeft holeRight := by
  have henv : holeConverter.env.Over holeSignature := fun _ _ h => h.elim
  have hlocals : holeConverter.locals.Over holeSignature := by
    intro v hv
    obtain rfl : v = .nat := by simpa [holeConverter] using hv
    trivial
  have hleft : holeLeft.Over holeSignature ⊤ := by
    simp [holeLeft, holeSignature, Signature.Admits, Level.hole, Level.ofVar, Level.hole?]
  have hright : holeRight.Over holeSignature ⊤ := by
    simp [holeRight, holeSignature, Signature.Admits, Level.hole?]
  let s' : ConversionState :=
    { store := holeStore (some typeIdentity) (boundedHole 0) (boundedHole 1) }
  have hrun : holeConverter.convert .le holeLeft holeRight { store := holeStore none {} {} } =
    .ok () s' := by rfl
  have hlevels : s'.store.solveLevels =
      .ok { s'.store with levelSolutions := [(1, .const 0), (0, .const 0)] } := by
    simp [s', Store.solveLevels, holeStore, solve_boundedHole, bind, Except.bind, pure, Except.pure]
  exact ⟨s', _, henv, hlocals, over_holeStore, Memo.sound_empty, hleft, hright, hrun, rfl, hlevels,
    related_of_convert (s := { store := holeStore none {} {} }) henv hlocals over_holeStore
      Memo.sound_empty hleft hright hrun rfl hlevels⟩

end Converter

end LeveledTypes
