import Mathlib.Algebra.BigOperators.Group.Finset.Basic
import Mathlib.Algebra.Order.BigOperators.Group.Finset
import Mathlib.Data.Set.Finite.Basic

/-!
# The cost of a computation that remembers

A trace is the course of a computation as if nothing had been known before: the units of work that
it takes, and the subcomputations whose outcomes are remembered under keys. What it costs when some
outcomes are known already does not depend on the order in which the other ones become known: each
of those takes one unit and its own units, once.
-/
namespace LeveledTypes

/-- The course of a computation when nothing is known. -/
inductive Trace (κ : Type) where
  | skip
  | tick
  /-- A subcomputation whose outcome is remembered. -/
  | call (k : κ) (t : Trace κ)
  | seq (t u : Trace κ)
deriving Inhabited

namespace Trace
variable {κ : Type}

/-- The units of work outside the remembered subcomputations. -/
def own : Trace κ → ℕ
  | skip => 0
  | tick => 1
  | call _ _ => 0
  | seq t u => t.own + u.own

/-- Subcomputations take the course that belongs to their key. -/
def Follows (τ : κ → Trace κ) : Trace κ → Prop
  | skip => True
  | tick => True
  | call k t => t = τ k ∧ t.Follows τ
  | seq t u => t.Follows τ ∧ u.Follows τ

open scoped Classical in
/-- The keys that become known. -/
noncomputable def fresh (B : Set κ) : Trace κ → Finset κ
  | skip => ∅
  | tick => ∅
  | call k t => if k ∈ B then ∅ else insert k (t.fresh B)
  | seq t u => t.fresh B ∪ u.fresh B

/-- The units of work when some outcomes are known. -/
noncomputable def cost (τ : κ → Trace κ) (B : Set κ) (t : Trace κ) : ℕ :=
  t.own + ∑ k ∈ t.fresh B, (1 + (τ k).own)

variable {τ : κ → Trace κ} {B C : Set κ} {k : κ} {t u : Trace κ}

attribute [local simp] own fresh

theorem fresh_call_of_mem (h : k ∈ B) : (call k t).fresh B = ∅ := if_pos h

open scoped Classical in
theorem fresh_call_of_notMem (h : k ∉ B) : (call k t).fresh B = insert k (t.fresh B) := if_neg h

theorem coe_fresh_call_of_notMem (h : k ∉ B) :
    ((call k t).fresh B : Set κ) = insert k (t.fresh B : Set κ) := by
  classical
  rw [fresh_call_of_notMem h, Finset.coe_insert]

@[simp] theorem fresh_tick_seq (B : Set κ) (t : Trace κ) : (seq tick t).fresh B = t.fresh B := by
  simp

/-- The more is known, the less becomes known. -/
theorem fresh_antitone (h : B ⊆ C) (t : Trace κ) : t.fresh C ⊆ t.fresh B := by
  classical
  induction t with
  | skip | tick => exact Finset.Subset.refl _
  | call k t ih =>
    by_cases hC : k ∈ C
    · simp [hC]
    · rw [fresh_call_of_notMem hC, fresh_call_of_notMem fun hB => hC (h hB)]
      exact Finset.insert_subset_insert k ih
  | seq t u iht ihu => exact Finset.union_subset_union iht ihu

/-- The subcomputation that belongs to a key that becomes known is a part. -/
theorem Follows.of_mem_fresh (ht : t.Follows τ) (h : k ∈ t.fresh B) :
    (τ k).Follows τ ∧ (τ k).fresh B ⊆ t.fresh B ∧ sizeOf (τ k) < sizeOf t := by
  classical
  induction t with
  | skip | tick => simp at h
  | call j t ih =>
    obtain ⟨rfl, ht⟩ := ht
    by_cases hj : j ∈ B
    · simp [hj] at h
    · rw [fresh_call_of_notMem hj] at h ⊢
      rcases Finset.mem_insert.mp h with rfl | h
      · exact ⟨ht, Finset.subset_insert k _, by simp⟩
      · obtain ⟨hfollows, hsub, hsize⟩ := ih ht h
        exact ⟨hfollows, hsub.trans
          (Finset.subset_insert j _), by simp only [call.sizeOf_spec]; omega⟩
  | seq t u iht ihu =>
    rcases Finset.mem_union.mp h with h | h
    · obtain ⟨hfollows, hsub, hsize⟩ := iht ht.1 h
      exact ⟨hfollows, hsub.trans Finset.subset_union_left, by simp only [seq.sizeOf_spec]; omega⟩
    · obtain ⟨hfollows, hsub, hsize⟩ := ihu ht.2 h
      exact ⟨hfollows, hsub.trans Finset.subset_union_right, by simp only [seq.sizeOf_spec]; omega⟩

/-- A computation does not depend on its own outcome. -/
theorem Follows.notMem_fresh (ht : (call k t).Follows τ) : k ∉ t.fresh B := by
  intro h
  obtain ⟨rfl, ht⟩ := ht
  exact absurd (ht.of_mem_fresh h).2.2 (lt_irrefl _)

open scoped Classical in
/-- What becomes known after keys that are known with all that they depend on. Without this
condition a key could become known later than it would without the others, and its own dependencies
with it. -/
theorem Follows.fresh_union (ht : t.Follows τ) {Y : Finset κ} (hY : ∀ k ∈ Y, (τ k).fresh B ⊆ Y) :
    t.fresh (B ∪ Y) = t.fresh B \ Y := by
  induction t with
  | skip | tick => simp
  | call k t ih =>
    obtain ⟨rfl, ht⟩ := ht
    by_cases hB : k ∈ B
    · rw [fresh_call_of_mem hB, fresh_call_of_mem (.inl hB), Finset.empty_sdiff]
    · rw [fresh_call_of_notMem hB]
      by_cases hk : k ∈ Y
      · rw [fresh_call_of_mem (.inr hk), eq_comm, Finset.sdiff_eq_empty_iff_subset]
        exact Finset.insert_subset hk (hY k hk)
      · have hunknown : k ∉ B ∪ (Y : Set κ) := fun h => h.elim hB hk
        rw [fresh_call_of_notMem hunknown, ih ht, Finset.insert_sdiff_of_notMem _ hk]
  | seq t u iht ihu => rw [fresh, fresh, iht ht.1, ihu ht.2, Finset.union_sdiff_distrib]

open scoped Classical in
/-- What a second computation makes known after a first one. -/
theorem Follows.fresh_after (ht : t.Follows τ) (hu : u.Follows τ) :
    u.fresh (B ∪ t.fresh B) = u.fresh B \ t.fresh B :=
  hu.fresh_union fun _ hk => (ht.of_mem_fresh hk).2.1

theorem Follows.known_seq (ht : t.Follows τ) (hu : u.Follows τ) :
    B ∪ (seq t u).fresh B = B ∪ t.fresh B ∪ (u.fresh (B ∪ t.fresh B) : Set κ) := by
  classical
  rw [ht.fresh_after hu, fresh, Finset.coe_union, Finset.coe_sdiff, Set.union_assoc,
    Set.union_sdiff_self]

/-- The cost of two computations in turn. -/
theorem Follows.cost_seq (ht : t.Follows τ) (hu : u.Follows τ) :
    cost τ B (seq t u) = cost τ B t + cost τ (B ∪ t.fresh B) u := by
  classical
  rw [cost, cost, cost, ht.fresh_after hu, own, fresh, ← Finset.union_sdiff_self_eq_union,
    Finset.sum_union Finset.disjoint_sdiff]
  omega

@[simp] theorem cost_skip : cost τ B skip = 0 := by simp [cost]

@[simp] theorem cost_tick : cost τ B tick = 1 := by simp [cost]

@[simp] theorem cost_tick_seq : cost τ B (seq tick t) = 1 + cost τ B t := by
  rw [cost, cost, own, own, fresh_tick_seq, Nat.add_assoc]

theorem cost_call_of_mem (h : k ∈ B) : cost τ B (call k t) = 0 := by
  simp [cost, h]

/-- An outcome that is not known yet costs one unit more than its computation. -/
theorem Follows.cost_call (ht : (call k t).Follows τ) (h : k ∉ B) :
    cost τ B (call k t) = 1 + cost τ B t := by
  classical
  rw [cost, cost, fresh_call_of_notMem h, Finset.sum_insert ht.notMem_fresh, own, ← ht.1]
  omega

/-- A part of a computation costs at most as much as the whole. -/
theorem cost_le_seq (t u : Trace κ) :
    cost τ B t ≤ cost τ B (seq t u) ∧ cost τ B u ≤ cost τ B (seq t u) := by
  classical
  exact ⟨add_le_add (Nat.le_add_right _ _) (Finset.sum_le_sum_of_subset Finset.subset_union_left),
    add_le_add (Nat.le_add_left _ _) (Finset.sum_le_sum_of_subset Finset.subset_union_right)⟩

/-- The more is known, the less a computation costs. -/
theorem cost_antitone (h : B ⊆ C) (t : Trace κ) : cost τ C t ≤ cost τ B t :=
  Nat.add_le_add_left (Finset.sum_le_sum_of_subset (fresh_antitone h t)) t.own

end Trace

end LeveledTypes
