import LeveledTypes.Proofs.Conversion.Pattern
import LeveledTypes.Proofs.Level.Solution

/-!
# Runs of conversion

A run of conversion changes the store in three ways only: it solves holes that had no solution, it
adds level constraints, and it keeps constraints for later. So what solves the store after the run
solves the store before it.
-/
namespace LeveledTypes

/-- A store over a signature that has at least `n` constraints. -/
structure Store.Over (S : Signature) (n : ℕ) (s : Store) : Prop where
  solutions : ∀ m t, S.hole m → s.solution? m = some t → t.Over S ⊤
  types : ∀ m h, S.hole m → s.holes[m]? = some h → h.type.Over S ⊤
  holes : ∀ m, S.hole m → m < s.holes.size
  first : ∀ m, S.first m → m ∈ s.pLevels
  second : ∀ m, S.second m → m ∈ s.hLevels
  disjoint : ∀ m ∈ s.pLevels, m ∉ s.hLevels
  firstHoles : LevelGraph.HolesIn s.pLevels s.p
  secondHoles : LevelGraph.HolesIn s.hLevels s.h
  levels : s.levelSolutions = []
  constraints : n ≤ s.constraints.length

/-- A solution of a store that has no more than `n` constraints: it has the solutions of holes that
the store has, and it satisfies the level constraints at every value of the level parameter. -/
structure Solution.Solves (S : Signature) (n : ℕ) (M : Solution) (s : Store) : Prop where
  holes : ∀ m t, S.hole m → s.solution? m = some t → M.hole m = some t
  first : ∀ k, s.p.Satisfied (LevelNode.eval k (M.first k))
  second : ∀ k, s.h.Satisfied (LevelNode.eval k (M.second k))
  constraints : s.constraints.length ≤ n

namespace Converter
variable {S : Signature} {n : ℕ} {c : Converter} {α β : Type}

/-- A state whose store and memory are over a signature. -/
structure Sound (S : Signature) (n : ℕ) (env : Environment) (s : ConversionState) : Prop where
  store : s.store.Over S n
  memo : s.memo.Sound S env

/-- Every successful run keeps the state sound, and a solution of the store after the run solves the
store before it and is as said. -/
def Compares (S : Signature) (n : ℕ) (env : Environment) (x : Convert Unit) (R : Solution → Prop) :
    Prop :=
  ∀ s s', Sound S n env s → x s = .ok () s' → Sound S n env s' ∧
    ∀ M : Solution, M.Solves S n s'.store → M.Solves S n s.store ∧ R M

namespace Compares
variable {env : Environment} {x y : Convert Unit} {R R' : Solution → Prop}

theorem pure (h : ∀ M, R M) : Compares S n env (pure ()) R := by
  rintro s s' hs hr
  obtain ⟨-, rfl⟩ := EStateM.Result.ok.inj hr
  exact ⟨hs, fun M hM => ⟨hM, h M⟩⟩

theorem throw {e : Error} : Compares S n env (throw e) R := by
  intro s s' hs hr
  contradiction

theorem mono (hx : Compares S n env x R) (h : ∀ M, R M → R' M) : Compares S n env x R' := by
  intro s s' hs hr
  obtain ⟨hs', hM⟩ := hx s s' hs hr
  exact ⟨hs', fun M hM' => (hM M hM').imp_right (h M)⟩

/-- Two comparisons one after the other. A solution of the last store solves the one in between. -/
theorem seq (hx : Compares S n env x R) (hy : Compares S n env y R') :
    Compares S n env (do x; y) fun M => R M ∧ R' M := by
  intro s s' hs hr
  obtain ⟨⟨⟩, t, hxt, hyt⟩ := bind_eq_ok.mp hr
  obtain ⟨ht, hxM⟩ := hx s t hs hxt
  obtain ⟨hs', hyM⟩ := hy t s' ht hyt
  refine ⟨hs', fun M hM => ?_⟩
  obtain ⟨hMt, hR'⟩ := hyM M hM
  obtain ⟨hMs, hR⟩ := hxM M hMt
  exact ⟨hMs, hR, hR'⟩

end Compares

/-- A reduction inside of conversion leaves the store alone and keeps the memo sound. -/
theorem reduce_eq_ok {f : Reducer → Reduce α} {s s' : ConversionState} {a : α} {Q : α → Prop}
    (hf : Ensures (fun s => s.memo.Sound S c.env) (f ⟨c.env, s.store, c.locals⟩) Q)
    (hs : s.memo.Sound S c.env) (h : c.reduce f s = .ok a s') : s'.store = s.store ∧
    s'.memo.Sound S c.env ∧ Q a := by
  unfold reduce at h
  extract_lets memo s₁ at h
  split at h
  case h_1 b t hb =>
    obtain ⟨rfl, rfl⟩ := EStateM.Result.ok.inj h
    exact ⟨rfl, hf.ok hs hb⟩
  case h_2 => contradiction

/-- A reduction leaves the store as it is. -/
theorem whnf_eq_ok {s : ConversionState} {binders fuel : ℕ} {memo : Memo} {t u : Term}
    (h : Reducer.whnf ⟨c.env, s.store, c.locals⟩ binders t ⟨c.limits.reductionFuel, s.memo⟩ =
      .ok u ⟨fuel, memo⟩) :
    c.whnf binders t s = .ok u { s with memo } := by
  unfold whnf reduce
  simp only [h]

end Converter

namespace Comparison

/-- Adds the level constraint that a comparison of two levels asks for. -/
def add : Comparison → LevelGraph → Level → Level → Span → LevelGraph × Option LevelError
  | .eq => LevelGraph.addEq
  | .le => LevelGraph.addLe

variable {cmp : Comparison} {g g' : LevelGraph} {l r : Level} {span : Span}

theorem holesIn_add {holes : List ℕ} (hg : LevelGraph.HolesIn holes g)
    (hl : ∀ m, l.hole? = some m → m ∈ holes) (hr : ∀ m, r.hole? = some m → m ∈ holes) :
    LevelGraph.HolesIn holes (cmp.add g l r span).1 := by
  cases cmp with
  | eq => exact hg.addEq hl hr
  | le => exact hg.addLe hl hr

theorem satisfied_add {p : ℕ} {σ : ℕ → ℕ∞} (h : cmp.add g l r span = (g', none)) :
    g'.Satisfied (LevelNode.eval p σ) ↔ g.Satisfied (LevelNode.eval p σ) ∧
    cmp.Holds (l.eval p σ) (r.eval p σ) := by
  cases cmp with
  | eq => exact LevelGraph.satisfied_addEq h
  | le => exact LevelGraph.satisfied_addLe h

end Comparison

namespace Store
variable {S : Signature} {n : ℕ} {s s' : Store} {M : Solution} {cmp : Comparison}
  {u v : Universe} {span : Span}

/-- Relating two universes without a conflict relates their levels, in a graph for each of the two.
-/
theorem addUniverse_eq_none (h : s.addUniverse cmp u v span = (s', none)) :
    ∃ p q, cmp.add s.p u.p v.p span = (p, none) ∧ cmp.add s.h u.h v.h span = (q, none) ∧
      s' = { s with p := p, h := q } := by
  have hadd : s.addUniverse cmp u v span = s.addUniverses cmp.add u v span := by cases cmp <;> rfl
  rw [hadd, addUniverses] at h
  split at h
  case h_1 => simp at h
  case h_2 p hp =>
    obtain ⟨rfl, hq⟩ := Prod.mk.inj h
    exact ⟨p, _, hp, Prod.ext rfl hq, rfl⟩

/-- A universe is related to itself, whatever its levels are. -/
theorem addUniverse_self : s.addUniverse cmp u u span = (s, none) := by
  cases cmp <;> simp [addUniverse, addUniverses, LevelGraph.addEq, LevelGraph.addLe_self]

theorem Over.addUniverse (hs : s.Over S n) (hu : S.Admits u) (hv : S.Admits v)
    (h : s.addUniverse cmp u v span = (s', none)) : s'.Over S n := by
  obtain ⟨p, q, hp, hq, rfl⟩ := addUniverse_eq_none h
  have hfirst : LevelGraph.HolesIn s.pLevels (cmp.add s.p u.p v.p span).1 :=
    Comparison.holesIn_add hs.firstHoles (fun m hm => hs.first m (hu.1 m hm)) fun m hm =>
      hs.first m (hv.1 m hm)
  have hsecond : LevelGraph.HolesIn s.hLevels (cmp.add s.h u.h v.h span).1 :=
    Comparison.holesIn_add hs.secondHoles (fun m hm => hs.second m (hu.2 m hm)) fun m hm =>
      hs.second m (hv.2 m hm)
  rw [hp] at hfirst
  rw [hq] at hsecond
  exact { hs with firstHoles := hfirst, secondHoles := hsecond }

theorem solves_addUniverse (h : s.addUniverse cmp u v span = (s', none)) (hM : M.Solves S n s') :
    M.Solves S n s ∧ M.Compares cmp u v := by
  obtain ⟨p, q, hp, hq, rfl⟩ := addUniverse_eq_none h
  have hfirst (k : ℕ) := (cmp.satisfied_add hp).mp (hM.first k)
  have hsecond (k : ℕ) := (cmp.satisfied_add hq).mp (hM.second k)
  exact ⟨⟨hM.holes, fun k => (hfirst k).1, fun k => (hsecond k).1, hM.constraints⟩,
    fun k => (hfirst k).2, fun k => (hsecond k).2⟩

theorem getElem?_assign (m m' : ℕ) (t : Term) : (s.assign m t).holes[m']? =
    if m = m' then s.holes[m']?.map fun h => { h with solution := some t } else s.holes[m']? :=
  Array.getElem?_modify

theorem solution?_assign (m m' : ℕ) (t : Term) : (s.assign m t).solution? m' =
    if m = m' then s.holes[m']?.map fun _ => t else s.solution? m' := by
  rw [solution?, getElem?_assign]
  split
  · cases s.holes[m']? <;> rfl
  · rfl

/-- The type of a hole. -/
def holeType (s : Store) (m : ℕ) : Term := ((s.holes[m]?).map (·.type)).getD .zero

theorem Over.holeType {m : ℕ} (hs : s.Over S n) (hm : S.hole m) : (s.holeType m).Over S ⊤ := by
  unfold Store.holeType
  cases h : s.holes[m]? with
  | none => trivial
  | some k => exact hs.types m k hm h

/-- A store stays over a signature if what a hole is assigned is over it. -/
theorem Over.assign {m : ℕ} {t : Term} (hs : s.Over S n) (ht : t.Over S ⊤) :
    (s.assign m t).Over S n := by
  refine { hs with solutions := ?_, types := ?_, holes := ?_ }
  · intro m' t' hm' ht'
    rw [solution?_assign] at ht'
    split at ht'
    · obtain ⟨_, -, rfl⟩ := Option.map_eq_some_iff.mp ht'
      exact ht
    · exact hs.solutions m' t' hm' ht'
  · intro m' h hm' hh
    rw [getElem?_assign] at hh
    split at hh
    · obtain ⟨h', hh', rfl⟩ := Option.map_eq_some_iff.mp hh
      exact hs.types m' h' hm' hh'
    · exact hs.types m' h hm' hh
  · intro m' hm'
    simpa [Store.assign] using hs.holes m' hm'

/-- A solution of the store in which one more hole is solved. -/
theorem solves_assign {m : ℕ} {t : Term} (hs : s.Over S n) (hm : S.hole m)
    (hnone : s.solution? m = none) (hM : M.Solves S n (s.assign m t)) : M.Solves S n s ∧
    M.hole m = some t := by
  refine ⟨{ hM with holes := ?_ }, hM.holes m t hm ?_⟩
  · intro m' t' hm' ht'
    refine hM.holes m' t' hm' ?_
    rw [solution?_assign, if_neg (by rintro rfl; simp [hnone] at ht'), ht']
  · rw [solution?_assign, if_pos rfl, Array.getElem?_eq_getElem (hs.holes m hm), Option.map_some]

end Store

namespace Converter
variable {S : Signature} {n : ℕ} {c : Converter}

theorem compares_addUniverse {cmp : Comparison} {u v : Universe} (hu : S.Admits u)
    (hv : S.Admits v) : Compares S n c.env (c.addUniverse cmp u v) fun M => M.Compares cmp u v := by
  intro s s' hs hr
  unfold addUniverse at hr
  split at hr
  case h_1 store hstore =>
    obtain ⟨-, rfl⟩ := EStateM.Result.ok.inj hr
    exact ⟨⟨hs.store.addUniverse hu hv hstore, hs.memo⟩,
      fun M hM => Store.solves_addUniverse hstore hM⟩
  case h_2 => contradiction

/-- No solution has no more constraints than the store had before it kept one. -/
theorem compares_defer {binders : ℕ} {cmp : Comparison} {l r : Term} {R : Solution → Prop} :
    Compares S n c.env (c.defer binders cmp l r) R := by
  intro s s' hs hr
  obtain ⟨-, rfl⟩ := EStateM.Result.ok.inj hr
  refine ⟨⟨{ hs.store with constraints := ?_ }, hs.memo⟩, fun M hM => ?_⟩
  · exact hs.store.constraints.trans (by simp)
  · have := hM.constraints.trans hs.store.constraints
    simp at this

/-- What is said of the outcome of comparisons can be said of sequences of comparisons, of failures,
and of comparisons of universes. -/
structure Calculus (S : Signature) (c : Converter) (K : Convert Unit → (Solution → Prop) → Prop) :
    Prop where
  pure {R : Solution → Prop} : (∀ M, R M) → K (pure ()) R
  throw {e : Error} {R : Solution → Prop} : K (throw e) R
  mono {x : Convert Unit} {R R' : Solution → Prop} : K x R → (∀ M, R M → R' M) → K x R'
  seq {x y : Convert Unit} {R R' : Solution → Prop} : K x R → K y R' →
  K (do x; y) fun M => R M ∧ R' M
  addUniverse {cmp : Comparison} {u v : Universe} : S.Admits u → S.Admits v →
    K (c.addUniverse cmp u v) fun M => M.Compares cmp u v

theorem Calculus.forM {K : Convert Unit → (Solution → Prop) → Prop} (hK : Calculus S c K)
    {α : Type} {as : List α} {f : α → Convert Unit} {R : α → Solution → Prop}
    (h : ∀ a ∈ as, K (f a) (R a)) : K (as.forM f) fun M => ∀ a ∈ as, R a M := by
  induction as with
  | nil => exact hK.pure (by simp)
  | cons a as ih =>
    obtain ⟨ha, has⟩ := List.forall_mem_cons.mp h
    exact hK.mono (hK.seq ha (ih has)) fun M hM => List.forall_mem_cons.mpr hM

theorem calculus_compares : Calculus S c (Compares S n c.env) where
  pure := .pure
  throw := .throw
  mono := .mono
  seq := .seq
  addUniverse := compares_addUniverse

end Converter

end LeveledTypes
