import LeveledTypes.Level.Graph
import Mathlib.Data.ENat.Lattice

/-!
# Levels as numbers

A level is an extended natural number once the level parameter and the level holes have values.
Arithmetic is exact here: nothing stops at `Level.bound`. A valuation satisfies a level graph if it
satisfies every constraint the graph stores, and adding the constraint `l ≤ r` to a graph adds
exactly the valuations' condition `l ≤ r`.
-/
namespace LeveledTypes

/-- The value of a variable, where the parameter has a number for its value. -/
def LevelVar.eval (p : ℕ) (σ : ℕ → ℕ∞) : LevelVar → ℕ∞
  | .param => p
  | .hole m => σ m

/-- The value of a node, where the parameter has a number for its value. -/
def LevelNode.eval (p : ℕ) (σ : ℕ → ℕ∞) : LevelNode → ℕ∞
  | .zero => 0
  | .param => p
  | .hole m => σ m

@[simp] theorem LevelVar.eval_node (p : ℕ) (σ : ℕ → ℕ∞) (v : LevelVar) :
    v.node.eval p σ = v.eval p σ := by cases v <;> rfl

/-- The value of a level at a value of the level parameter and at values of the level holes. -/
noncomputable def Level.eval (p : ℕ) (σ : ℕ → ℕ∞) : Level → ℕ∞
  | .const n => n
  | .var v add floor => max (v.eval p σ + add) floor
  | .top => ⊤

/-- The value of a level at values of all level variables. -/
noncomputable def Level.denote (ρ : LevelVar → ℕ∞) : Level → ℕ∞
  | .const n => n
  | .var v add floor => max (ρ v + add) floor
  | .top => ⊤

theorem Level.eval_eq_denote (p : ℕ) (σ : ℕ → ℕ∞) (l : Level) :
    l.eval p σ = l.denote (LevelVar.eval p σ) := by
  cases l <;> rfl

/-- A floor that is dropped never wins. -/
theorem Level.denote_ofVar (ρ : LevelVar → ℕ∞) (v : LevelVar) (add floor : ℕ) :
    (ofVar v add floor).denote ρ = max (ρ v + add) floor := by
  rw [ofVar, denote]
  split
  case isTrue h =>
    rw [Nat.cast_zero, max_eq_left zero_le, max_eq_left]
    exact le_add_of_nonneg_of_le zero_le (Nat.cast_le.mpr h)
  case isFalse => rfl

section Bounds
variable {u v : ℕ∞}

/-- A bound between shifted extended numbers, said of the finite ones only. -/
theorem add_le_max_add_iff (a b c : ℕ) : u + a ≤ max (v + b) c ↔
    ∀ t : ℕ, v = t → ∃ s : ℕ, u = s ∧ (s : ℤ) + a ≤ max ((t : ℤ) + b) c := by
  cases v with
  | top => simp
  | coe t =>
    cases u with
    | top =>
      rw [top_add, top_le_iff, ← Nat.cast_add, ← Nat.mono_cast.map_max]
      simp
    | coe s =>
      have h : (s : ℕ∞) + a ≤ max ((t : ℕ∞) + b) c ↔ (s : ℤ) + a ≤ max ((t : ℤ) + b) c := by
        rw [← Nat.cast_add, ← Nat.cast_add, le_max_iff, Nat.cast_le, Nat.cast_le]
        omega
      simp only [h, Nat.cast_inj, forall_eq', exists_eq_left']

theorem add_le_add_iff (a b : ℕ) : u + a ≤ v + b ↔
    ∀ t : ℕ, v = t → ∃ s : ℕ, u = s ∧ (s : ℤ) + ((a : ℤ) - b) ≤ t := by
  have h := add_le_max_add_iff (u := u) (v := v) a b 0
  rw [Nat.cast_zero, max_eq_left zero_le] at h
  rw [h]
  refine forall₂_congr fun t _ => exists_congr fun s => and_congr_right fun _ => ?_
  omega

end Bounds

/-- The target of an edge is infinite, or it is so much above the source. -/
def LevelEdge.Satisfied (ν : LevelNode → ℕ∞) (e : LevelEdge) : Prop :=
  ∀ t : ℕ, ν e.target = t → ∃ s : ℕ, ν e.source = s ∧ (s : ℤ) + e.weight ≤ t

/-- The target of an alternative is infinite, or the source is below one of the two sides. -/
def LevelAlternative.Satisfied (ν : LevelNode → ℕ∞) (a : LevelAlternative) : Prop :=
  ∀ t : ℕ, ν a.target = t → ∃ s : ℕ, ν a.source = s ∧
    (s : ℤ) + a.add ≤ max (t + a.targetAdd) a.floor

/-- All constraints of a graph hold at the given values of its nodes. -/
@[mk_iff]
structure LevelGraph.Satisfied (ν : LevelNode → ℕ∞) (g : LevelGraph) : Prop where
  edges : ∀ e ∈ g.edges, e.Satisfied ν
  alternatives : ∀ a ∈ g.alternatives, a.Satisfied ν
  uppers : ∀ b ∈ g.uppers, ∃ s : ℕ, ν b.1 = s ∧ (s : ℤ) ≤ b.2.1
  infinite : ∀ i ∈ g.infinite, ν (.hole i.1) = ⊤

namespace LevelGraph
variable {g g' : LevelGraph} {l r : Level} {span : Span} {ν : LevelNode → ℕ∞} {p : ℕ} {σ : ℕ → ℕ∞}

theorem satisfied_empty : ({} : LevelGraph).Satisfied ν := by simp [satisfied_iff]

/-- Only edges that hold at every valuation are left out. -/
theorem satisfied_addEdge {s t : LevelNode} {w : ℤ} : (g.addEdge s t w span).Satisfied ν ↔
    g.Satisfied ν ∧ LevelEdge.Satisfied ν ⟨s, t, w, span⟩ := by
  unfold addEdge
  split
  case isTrue h =>
    obtain ⟨rfl, hw⟩ := h
    refine (and_iff_left fun n hn => ⟨n, hn, ?_⟩).symm
    dsimp only
    omega
  case isFalse =>
    simp only [satisfied_iff, List.mem_append, List.mem_singleton, or_imp, forall_and, forall_eq]
    tauto

theorem satisfied_addAlternative {a : LevelAlternative} :
    ({ g with alternatives := g.alternatives ++ [a] } : LevelGraph).Satisfied ν ↔ g.Satisfied ν ∧
    a.Satisfied ν := by
  simp only [satisfied_iff, List.mem_append, List.mem_singleton, or_imp, forall_and, forall_eq]
  tauto

theorem satisfied_addUpper {n : LevelNode} {b : ℤ} :
    ({ g with uppers := g.uppers ++ [(n, b, span)] } : LevelGraph).Satisfied ν ↔
      g.Satisfied ν ∧ ∃ s : ℕ, ν n = s ∧ (s : ℤ) ≤ b := by
  simp only [satisfied_iff, List.mem_append, List.mem_singleton, or_imp, forall_and, forall_eq]
  tauto

theorem satisfied_addInfinite {m : ℕ} :
    ({ g with infinite := g.infinite ++ [(m, span)] } : LevelGraph).Satisfied ν ↔
      g.Satisfied ν ∧ ν (.hole m) = ⊤ := by
  simp only [satisfied_iff, List.mem_append, List.mem_singleton, or_imp, forall_and, forall_eq]
  tauto

/-- A number below `max (v + add) floor` that is above the floor is below the first part. -/
theorem const_le_var_iff (c : ℕ) (v : LevelVar) (add floor : ℕ) :
    (c : ℕ∞) ≤ (Level.var v add floor).eval p σ ↔ (c > floor →
      LevelEdge.Satisfied (LevelNode.eval p σ) ⟨.zero, v.node, (c : ℤ) - add, span⟩) := by
  have h : (c : ℕ∞) ≤ v.eval p σ + add ↔
      LevelEdge.Satisfied (LevelNode.eval p σ) ⟨.zero, v.node, (c : ℤ) - add, span⟩ := by
    rw [LevelEdge.Satisfied, LevelVar.eval_node, ← add_le_add_iff, LevelNode.eval, zero_add]
  rw [← h, Level.eval, le_max_iff, Nat.cast_le]
  constructor
  · rintro (h | h) hc
    · exact h
    · omega
  · intro h
    by_cases hc : c > floor
    · exact .inl (h hc)
    · exact .inr (by omega)

/-- A constant below a level, at a fixed value of the parameter: the graph with the bound asks for
no more and no less. -/
theorem satisfied_addConstLe {c : ℕ} (h : g.addConstLe c r span = (g', none)) :
    g'.Satisfied (LevelNode.eval p σ) ↔ g.Satisfied (LevelNode.eval p σ) ∧
    (c : ℕ∞) ≤ r.eval p σ := by
  cases r with
  | top =>
    obtain rfl : g = g' := by simpa [addConstLe] using h
    simp [Level.eval]
  | const b =>
    simp only [addConstLe] at h
    split at h
    case isTrue hc =>
      obtain rfl : g = g' := by simpa using h
      simp [Level.eval, hc]
    case isFalse => simp at h
  | var v add floor =>
    simp only [addConstLe, Prod.mk.injEq, and_true] at h
    subst h
    rw [const_le_var_iff c v add floor]
    split
    case isTrue hc => rw [satisfied_addEdge, imp_iff_right hc]
    case isFalse hc => simp [hc]

/-- A variable with an offset below a level. It is an edge, an alternative or an upper bound,
depending on the level, and may hold already. -/
theorem satisfied_addVarLe {v : LevelVar} {add : ℕ} (h : g.addVarLe l v add r span = (g', none)) :
    g'.Satisfied (LevelNode.eval p σ) ↔
      g.Satisfied (LevelNode.eval p σ) ∧ v.eval p σ + add ≤ r.eval p σ := by
  unfold addVarLe at h
  split at h
  case h_1 =>
    obtain rfl : g = g' := by simpa using h
    simp [Level.eval]
  case h_2 b =>
    split at h
    case isTrue => simp at h
    case isFalse hb =>
      obtain rfl := (Prod.mk.injEq .. ▸ h).1
      rw [satisfied_addUpper, LevelVar.eval_node]
      refine and_congr_right fun _ => ?_
      have hab : add ≤ b := by omega
      cases hv : v.eval p σ with
      | top => simp [Level.eval]
      | coe s =>
        simp only [Level.eval, ← Nat.cast_add, Nat.cast_le, Nat.cast_inj, exists_eq_left']
        omega
  case h_3 w a =>
    obtain rfl := (Prod.mk.injEq .. ▸ h).1
    rw [satisfied_addEdge]
    refine and_congr_right fun _ => ?_
    simp only [Level.eval, LevelEdge.Satisfied, LevelVar.eval_node, Nat.cast_zero, zero_le,
      max_eq_left]
    exact (add_le_add_iff add a).symm
  case h_4 w a floor _ =>
    split at h
    case isTrue hv =>
      obtain rfl : g = g' := by simpa using h
      obtain ⟨rfl, ha⟩ := hv
      refine (and_iff_left ?_).symm
      exact le_max_of_le_left (add_le_add_right (Nat.cast_le.mpr ha) _)
    case isFalse =>
      obtain rfl := (Prod.mk.injEq .. ▸ h).1
      rw [satisfied_addAlternative]
      refine and_congr_right fun _ => ?_
      simp only [LevelAlternative.Satisfied, LevelVar.eval_node]
      exact (add_le_max_add_iff add a floor).symm

/-- Adding `l ≤ r` without a conflict makes `l ≤ r` part of what the graph asks for, and nothing
else. -/
theorem satisfied_addLe (h : g.addLe l r span = (g', none)) :
    g'.Satisfied (LevelNode.eval p σ) ↔ g.Satisfied (LevelNode.eval p σ) ∧
    l.eval p σ ≤ r.eval p σ := by
  unfold addLe at h
  split at h
  case h_1 =>
    obtain rfl : g = g' := by simpa using h
    simp [Level.eval]
  case h_2 m add floor =>
    obtain rfl := (Prod.mk.injEq .. ▸ h).1
    rw [satisfied_addInfinite]
    refine and_congr_right fun _ => ?_
    simp only [Level.eval, LevelNode.eval, LevelVar.eval, top_le_iff]
    cases σ m with
    | top => simp
    | coe s => simp [← Nat.cast_add, max_eq_top]
  case h_3 => simp at h
  case h_4 => exact satisfied_addConstLe h
  case h_5 v add floor _ =>
    have hsplit : (Level.var v add floor).eval p σ ≤ r.eval p σ ↔
        (floor : ℕ∞) ≤ r.eval p σ ∧ v.eval p σ + add ≤ r.eval p σ := by
      rw [Level.eval, max_le_iff, and_comm]
    rw [hsplit]
    split at h
    case isTrue =>
      split at h
      case h_1 g₁ h₁ => rw [satisfied_addVarLe h, satisfied_addConstLe h₁, and_assoc]
      case h_2 hne => exact absurd h (hne g')
    case isFalse hf =>
      obtain rfl : floor = 0 := by omega
      rw [satisfied_addVarLe h, Nat.cast_zero, and_iff_right zero_le]

theorem satisfied_addEq (h : g.addEq l r span = (g', none)) :
    g'.Satisfied (LevelNode.eval p σ) ↔ g.Satisfied (LevelNode.eval p σ) ∧
    l.eval p σ = r.eval p σ := by
  unfold addEq at h
  split at h
  case h_1 g₁ h₁ => rw [satisfied_addLe h, satisfied_addLe h₁, and_assoc, le_antisymm_iff]
  case h_2 hne => exact absurd h (hne g')

/-- A level is related to itself without a constraint. -/
theorem addLe_self : g.addLe l l span = (g, none) := by
  cases l with
  | const a => exact if_pos le_rfl
  | top => rfl
  | var v add floor =>
    cases floor with
    | zero => simp [addLe, addVarLe, addEdge]
    | succ floor => simp [addLe, addConstLe, addVarLe]

/-! ## Weaker graphs -/

section Weaker
variable {c add : ℕ} {v : LevelVar}

theorem Satisfied.of_addConstLe (h : (g.addConstLe c r span).1.Satisfied ν) : g.Satisfied ν := by
  unfold addConstLe at h
  split at h
  case h_1 => exact h
  case h_2 => split at h <;> exact h
  case h_3 =>
    dsimp only at h
    split at h
    · exact (satisfied_addEdge.mp h).1
    · exact h

theorem Satisfied.of_addVarLe (h : (g.addVarLe l v add r span).1.Satisfied ν) : g.Satisfied ν := by
  unfold addVarLe at h
  split at h
  case h_1 => exact h
  case h_2 =>
    split at h
    · exact h
    · exact (satisfied_addUpper.mp h).1
  case h_3 => exact (satisfied_addEdge.mp h).1
  case h_4 =>
    split at h
    · exact h
    · exact (satisfied_addAlternative.mp h).1

/-- What a graph asks for is still asked for after a constraint was added, also if that was a
conflict. -/
theorem Satisfied.of_addLe (h : (g.addLe l r span).1.Satisfied ν) : g.Satisfied ν := by
  unfold addLe at h
  split at h
  case h_1 | h_3 => exact h
  case h_2 => exact (satisfied_addInfinite.mp h).1
  case h_4 => exact of_addConstLe h
  case h_5 v add floor _ =>
    split at h
    case isTrue =>
      split at h
      case h_1 g₁ h₁ =>
        have hg₁ : g₁.Satisfied ν := of_addVarLe h
        rw [show g₁ = (g.addConstLe floor r span).1 from (congrArg Prod.fst h₁).symm] at hg₁
        exact of_addConstLe hg₁
      case h_2 => exact of_addConstLe h
    case isFalse => exact of_addVarLe h

theorem Satisfied.of_addEq (h : (g.addEq l r span).1.Satisfied ν) : g.Satisfied ν := by
  unfold addEq at h
  split at h
  case h_1 g₁ h₁ =>
    have hg₁ : g₁.Satisfied ν := of_addLe h
    rw [show g₁ = (g.addLe l r span).1 from (congrArg Prod.fst h₁).symm] at hg₁
    exact of_addLe hg₁
  case h_2 => exact of_addLe h

end Weaker

/-! ## Series of constraints -/

/-- The holes that a graph mentions are among the given ones, and only holes have upper bounds. -/
structure HolesIn (holes : List ℕ) (g : LevelGraph) : Prop where
  ends : ∀ e ∈ g.endpoints, ∀ m, e.1 = .hole m ∨ e.2 = .hole m → m ∈ holes
  uppers : ∀ b ∈ g.uppers, ∃ m ∈ holes, b.1 = .hole m
  infinite : ∀ i ∈ g.infinite, i.1 ∈ holes

namespace HolesIn
variable {holes : List ℕ}

theorem empty : HolesIn holes {} := ⟨by simp [endpoints], by simp, by simp⟩

theorem of_node {v : LevelVar} (hv : ∀ m, v = .hole m → m ∈ holes) {m : ℕ} (h : v.node = .hole m) :
    m ∈ holes := by
  cases v with
  | param => simp [LevelVar.node] at h
  | hole k => exact hv m (congrArg LevelVar.hole (LevelNode.hole.inj h))

theorem addEdge {s t : LevelNode} {w : ℤ} (hg : HolesIn holes g) (hst : ∀ m, s = .hole m ∨
    t = .hole m → m ∈ holes) : HolesIn holes (g.addEdge s t w span) := by
  unfold LevelGraph.addEdge
  split
  · exact hg
  · refine ⟨fun e he => ?_, hg.uppers, hg.infinite⟩
    have he : e ∈ g.endpoints ∨ e = (s, t) := by
      simp only [endpoints, List.map_append, List.map_cons, List.map_nil, List.mem_append,
        List.mem_singleton] at he ⊢
      tauto
    obtain he | rfl := he
    · exact hg.ends e he
    · exact hst

/-- Adding a constant bound mentions the hole of the right side only. -/
theorem addConstLe {c : ℕ} (hg : HolesIn holes g) (hr : ∀ m, r.hole? = some m → m ∈ holes) :
    HolesIn holes (g.addConstLe c r span).1 := by
  unfold LevelGraph.addConstLe
  split
  · exact hg
  · split <;> exact hg
  case h_3 v add floor =>
    have hv : ∀ m, v = .hole m → m ∈ holes := by
      rintro m rfl
      exact hr m rfl
    dsimp only
    split
    · exact hg.addEdge fun m hm => of_node hv (hm.resolve_left (by simp))
    · exact hg

/-- Adding a bound on a variable mentions the holes of its two sides only. -/
theorem addVarLe {v : LevelVar} {add : ℕ} (hg : HolesIn holes g) (hv : ∀ m, v = .hole m → m ∈ holes)
    (hr : ∀ m, r.hole? = some m → m ∈ holes) : HolesIn holes (g.addVarLe l v add r span).1 := by
  unfold LevelGraph.addVarLe
  split
  case h_1 => exact hg
  case h_2 b =>
    split
    case isTrue => exact hg
    case isFalse h =>
      cases v with
      | param => simp at h
      | hole m =>
        refine ⟨hg.ends, fun c hc => ?_, hg.infinite⟩
        obtain hc | rfl := by simpa using hc
        · exact hg.uppers c hc
        · exact ⟨m, hv m rfl, rfl⟩
  case h_3 w a =>
    have hw : ∀ m, w = .hole m → m ∈ holes := by
      rintro m rfl
      exact hr m rfl
    exact hg.addEdge fun m hm => hm.elim (of_node hv) (of_node hw)
  case h_4 w a floor _ =>
    have hw : ∀ m, w = .hole m → m ∈ holes := by
      rintro m rfl
      exact hr m rfl
    split
    · exact hg
    · refine ⟨fun e he => ?_, hg.uppers, hg.infinite⟩
      have he : e ∈ g.endpoints ∨ e = (v.node, w.node) := by
        simp only [endpoints, List.map_append, List.map_cons, List.map_nil, List.mem_append,
          List.mem_singleton] at he ⊢
        tauto
      obtain he | rfl := he
      · exact hg.ends e he
      · exact fun m hm => hm.elim (of_node hv) (of_node hw)

/-- Adding an inequality mentions the holes of its two sides only. -/
theorem addLe (hg : HolesIn holes g) (hl : ∀ m, l.hole? = some m → m ∈ holes)
    (hr : ∀ m, r.hole? = some m → m ∈ holes) : HolesIn holes (g.addLe l r span).1 := by
  unfold LevelGraph.addLe
  split
  case h_1 => exact hg
  case h_2 m _ _ =>
    refine ⟨hg.ends, hg.uppers, fun i hi => ?_⟩
    obtain hi | rfl := by simpa using hi
    · exact hg.infinite i hi
    · exact hr m rfl
  case h_3 => exact hg
  case h_4 => exact hg.addConstLe hr
  case h_5 v add floor _ =>
    have hv : ∀ m, v = .hole m → m ∈ holes := by
      rintro m rfl
      exact hl m rfl
    split
    case isTrue =>
      have h₁ : HolesIn holes (g.addConstLe floor r span).1 := hg.addConstLe hr
      split
      case h_1 g₁ heq =>
        rw [heq] at h₁
        exact h₁.addVarLe hv hr
      case h_2 => exact h₁
    case isFalse => exact hg.addVarLe hv hr

theorem addEq (hg : HolesIn holes g) (hl : ∀ m, l.hole? = some m → m ∈ holes)
    (hr : ∀ m, r.hole? = some m → m ∈ holes) : HolesIn holes (g.addEq l r span).1 := by
  unfold LevelGraph.addEq
  have h₁ : HolesIn holes (g.addLe l r span).1 := hg.addLe hl hr
  split
  case h_1 g₁ heq =>
    rw [heq] at h₁
    exact h₁.addLe hr hl
  case h_2 => exact h₁

end HolesIn

/-- Whether a graph is satisfied depends on the values of the holes that it mentions only. -/
theorem Satisfied.congr {holes : List ℕ} {τ : ℕ → ℕ∞} (hg : HolesIn holes g)
    (hστ : ∀ m ∈ holes, σ m = τ m) (h : g.Satisfied (LevelNode.eval p σ)) :
    g.Satisfied (LevelNode.eval p τ) := by
  have hnode {n : LevelNode} (hn : ∀ m, n = .hole m → m ∈ holes) : n.eval p σ = n.eval p τ := by
    cases n with
    | zero => rfl
    | param => rfl
    | hole m => exact hστ m (hn m rfl)
  have hends {s t : LevelNode} (he : (s, t) ∈ g.endpoints) : s.eval p σ = s.eval p τ ∧
      t.eval p σ = t.eval p τ :=
    ⟨hnode fun m hm => hg.ends _ he m (.inl hm), hnode fun m hm => hg.ends _ he m (.inr hm)⟩
  refine ⟨fun e he => ?_, fun a ha => ?_, fun b hb => ?_, fun i hi => ?_⟩
  · obtain ⟨hs, ht⟩ := hends (List.mem_append_left _ (List.mem_map_of_mem he))
    simpa only [LevelEdge.Satisfied, hs, ht] using h.edges e he
  · obtain ⟨hs, ht⟩ := hends (List.mem_append_right _ (List.mem_map_of_mem ha))
    simpa only [LevelAlternative.Satisfied, hs, ht] using h.alternatives a ha
  · obtain ⟨m, hm, hbm⟩ := hg.uppers b hb
    have hval : b.1.eval p σ = b.1.eval p τ :=
      hnode fun k hk => LevelNode.hole.inj (hbm.symm.trans hk) ▸ hm
    rw [← hval]
    exact h.uppers b hb
  · have hval : LevelNode.eval p σ (.hole i.1) = LevelNode.eval p τ (.hole i.1) :=
      hστ _ (hg.infinite i hi)
    rw [← hval]
    exact h.infinite i hi

end LevelGraph

/-- A constraint between levels, with the place it comes from. -/
structure LevelConstraint where
  /-- Whether the levels have to be equal; otherwise the left one may be smaller. -/
  equal : Bool := false
  left : Level
  right : Level
  span : Span := default

namespace LevelConstraint

/-- Adds a constraint to a graph: an equation, or an inequality. -/
def addTo (k : LevelConstraint) (g : LevelGraph) : LevelGraph × Option LevelError :=
  if k.equal then g.addEq k.left k.right k.span else g.addLe k.left k.right k.span

/-- Whether the constraint is true at a value of the level parameter and at values of the level
holes. -/
def Holds (p : ℕ) (σ : ℕ → ℕ∞) (k : LevelConstraint) : Prop :=
  k.left.eval p σ ≤ k.right.eval p σ ∧ (k.equal → k.right.eval p σ ≤ k.left.eval p σ)

/-- The holes that a constraint mentions. -/
def holes (k : LevelConstraint) : List ℕ := k.left.hole?.toList ++ k.right.hole?.toList

theorem satisfied_addTo {k : LevelConstraint} {g g' : LevelGraph} {p : ℕ} {σ : ℕ → ℕ∞}
    (h : k.addTo g = (g', none)) :
    g'.Satisfied (LevelNode.eval p σ) ↔ g.Satisfied (LevelNode.eval p σ) ∧ k.Holds p σ := by
  unfold addTo at h
  unfold Holds
  split at h
  case isTrue he => rw [LevelGraph.satisfied_addEq h, le_antisymm_iff, imp_iff_right he]
  case isFalse he =>
    rw [LevelGraph.satisfied_addLe h, and_iff_left (a := _ ≤ _) fun h => absurd h he]

theorem holesIn_addTo {k : LevelConstraint} {g : LevelGraph} {hs : List ℕ}
    (hg : LevelGraph.HolesIn hs g) (hk : ∀ m ∈ k.holes, m ∈ hs) :
    LevelGraph.HolesIn hs (k.addTo g).1 := by
  have hl : ∀ m, k.left.hole? = some m → m ∈ hs := fun m hm => hk m (by simp [holes, hm])
  have hr : ∀ m, k.right.hole? = some m → m ∈ hs := fun m hm => hk m (by simp [holes, hm])
  unfold addTo
  split
  · exact hg.addEq hl hr
  · exact hg.addLe hl hr

end LevelConstraint

namespace LevelGraph

/-- Adds constraints one after the other, as long as none is in conflict. -/
def addAll? : LevelGraph → List LevelConstraint → Option LevelGraph
  | g, [] => some g
  | g, k :: ks =>
    match k.addTo g with
    | (g, none) => addAll? g ks
    | (_, some _) => none

/-- The graph of some constraints is satisfied exactly where all of them hold, if none of them was
refused. -/
theorem satisfied_addAll? {g g' : LevelGraph} {ks : List LevelConstraint} {p : ℕ} {σ : ℕ → ℕ∞}
    (h : g.addAll? ks = some g') : g'.Satisfied (LevelNode.eval p σ) ↔
      g.Satisfied (LevelNode.eval p σ) ∧ ∀ k ∈ ks, k.Holds p σ := by
  induction ks generalizing g with
  | nil =>
    obtain rfl : g = g' := by simpa [addAll?] using h
    simp
  | cons k ks ih =>
    unfold addAll? at h
    split at h
    case h_1 g₁ h₁ => rw [ih h, k.satisfied_addTo h₁, List.forall_mem_cons, and_assoc]
    case h_2 => simp at h

/-- The induction is on the list of constraints. -/
theorem holesIn_addAll? {g g' : LevelGraph} {ks : List LevelConstraint} {holes : List ℕ}
    (hg : HolesIn holes g) (hks : ∀ k ∈ ks, ∀ m ∈ k.holes, m ∈ holes) (h : g.addAll? ks = some g') :
    HolesIn holes g' := by
  induction ks generalizing g with
  | nil =>
    obtain rfl : g = g' := by simpa [addAll?] using h
    exact hg
  | cons k ks ih =>
    have hk := k.holesIn_addTo hg (hks k List.mem_cons_self)
    unfold addAll? at h
    split at h
    case h_1 g₁ h₁ =>
      rw [h₁] at hk
      exact ih hk (fun k hk => hks k (List.mem_cons_of_mem _ hk)) h
    case h_2 => simp at h

end LevelGraph

end LeveledTypes
