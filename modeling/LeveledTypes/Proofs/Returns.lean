import Mathlib.Data.List.Basic

/-!
# What computations with a state return

A property that every value returned has, from whatever state the computation is run, or a relation
between the value and the state that a run from one state ends with, or between the ends of two
runs. All follow the parts of a computation: one after the other, or over the entries of a list.
-/
namespace LeveledTypes

variable {σ α β γ δ : Type}

/-- Run from any state, the computation returns a value as said. -/
def Returns (x : StateM σ α) (Q : α → Prop) : Prop := ∀ s, Q (x s).1

namespace Returns
variable {x : StateM σ α} {f : α → StateM σ β} {P : α → Prop} {Q : β → Prop}

theorem pure {a : α} (h : P a) : Returns (pure a : StateM σ α) P := fun _ => h

theorem bind (hx : Returns x P) (hf : ∀ a, P a → Returns (f a) Q) : Returns (x >>= f) Q := fun s =>
  hf _ (hx s) _

theorem mono {P' : α → Prop} (hx : Returns x P) (h : ∀ a, P a → P' a) : Returns x P' :=
  fun s => h _ (hx s)

theorem any (x : StateM σ α) : Returns x fun _ => True := fun _ => trivial

theorem map {g : α → β} (hx : Returns x P) (hg : ∀ a, P a → Q (g a)) : Returns (g <$> x) Q :=
  fun s => hg _ (hx s)

theorem mapM {as : List α} {g : α → StateM σ β} (h : ∀ a ∈ as, Returns (g a) Q) :
    Returns (as.mapM g) fun bs => ∀ b ∈ bs, Q b := by
  induction as with
  | nil => exact .pure (by simp)
  | cons a as ih =>
    rw [List.mapM_cons]
    refine .bind (h a (by simp)) fun b hb => ?_
    exact .bind (ih fun a ha => h a (by simp [ha])) fun bs hbs => .pure
      (List.forall_mem_cons.mpr ⟨hb, hbs⟩)

/-- A loop keeps what its body keeps. -/
theorem forIn {as : List α} {g : α → β → StateM σ (ForInStep β)} {b : β} (hb : Q b)
    (h : ∀ a ∈ as, ∀ b, Q b → Returns (g a b) fun r => Q r.value) : Returns (forIn as b g) Q := by
  induction as generalizing b with
  | nil => exact .pure hb
  | cons a as ih =>
    rw [List.forIn_cons]
    refine .bind (h a (by simp) b hb) fun r hr => ?_
    cases r with
    | done b => exact .pure hr
    | yield b => exact ih hr fun a ha => h a (by simp [ha])

end Returns

/-- Run from a state, the computation ends with a value and a state as said. -/
def Yields (x : StateM σ α) (s : σ) (Q : α → σ → Prop) : Prop := Q (x s).1 (x s).2

namespace Yields
variable {x : StateM σ α} {f : α → StateM σ β} {s : σ} {P : α → σ → Prop} {Q : β → σ → Prop}

theorem pure {a : α} (h : P a s) : Yields (pure a : StateM σ α) s P := h

theorem bind (hx : Yields x s P) (hf : ∀ a t, P a t → Yields (f a) t Q) :
    Yields (x >>= f) s Q := hf _ _ hx

theorem mono {P' : α → σ → Prop} (hx : Yields x s P) (h : ∀ a t, P a t → P' a t) :
    Yields x s P' := h _ _ hx

theorem get {f : σ → StateM σ β} (h : Yields (f s) s Q) : Yields (get >>= f) s Q := h

theorem modify {g : σ → σ} {f : PUnit → StateM σ β} (h : Yields (f ⟨⟩) (g s) Q) :
    Yields (modify g >>= f) s Q := h

/-- A loop whose invariant knows the entries that are left. -/
theorem forIn {I : List α → σ → Prop} {g : α → PUnit → StateM σ (ForInStep PUnit)}
    {as : List α} (hs : I as s) (h : ∀ a as s, I (a :: as) s →
      Yields (g a ⟨⟩) s fun r t => r = .yield ⟨⟩ ∧ I as t) :
    Yields (forIn as PUnit.unit g) s fun _ t => I [] t := by
  induction as generalizing s with
  | nil => exact .pure hs
  | cons a as ih =>
    rw [List.forIn_cons]
    refine .bind (h a as s hs) fun r t ht => ?_
    obtain ⟨rfl, ht⟩ := ht
    exact ih ht

end Yields

/-- Run from a state each, two computations end with values and states as said. -/
def YieldBoth (x : StateM σ α) (y : StateM σ β) (s t : σ) (Q : α → σ → β → σ → Prop) : Prop :=
  Q (x s).1 (x s).2 (y t).1 (y t).2

namespace YieldBoth
variable {x : StateM σ α} {y : StateM σ β} {f : α → StateM σ γ} {g : β → StateM σ δ} {s t : σ}
  {P : α → σ → β → σ → Prop} {Q : γ → σ → δ → σ → Prop}

theorem pure {a : α} {b : β} (h : P a s b t) :
    YieldBoth (pure a : StateM σ α) (pure b : StateM σ β) s t P := h

theorem bind (hxy : YieldBoth x y s t P)
    (hfg : ∀ a s' b t', P a s' b t' → YieldBoth (f a) (g b) s' t' Q) :
    YieldBoth (x >>= f) (y >>= g) s t Q := hfg _ _ _ _ hxy

/-- What is known of each run by itself, and where the second one has led. -/
theorem of_yields {A : α → σ → Prop} {B : β → σ → Prop} (hx : Yields x s A) (hy : Yields y t B)
    (h : ∀ a s', A a s' → B (y t).1 (y t).2 → P a s' (y t).1 (y t).2) : YieldBoth x y s t P :=
  h _ _ hx hy

end YieldBoth

end LeveledTypes
