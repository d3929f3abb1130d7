import LeveledTypes.Elaboration.Expression
import LeveledTypes.Proofs.Level.Valuation
import LeveledTypes.Proofs.Term.Filling

/-!
# Substitution of levels

A level is a function of the values of level variables. Putting a level for a variable composes the
functions as long as no sum exceeds `Level.bound`. Where sums stop at the bound, it still does not
matter whether two levels are put in one after the other or the second is put into the first before,
and the same is true of the universes in a term.
-/
namespace LeveledTypes

theorem cast_max (m n : ℕ) : (max m n : ℕ) = max (m : ℕ∞) n := Nat.mono_cast.map_max

namespace Level
variable {l r w : Level} {v : LevelVar} {add floor : ℕ} {ρ : LevelVar → ℕ∞}

/-- The numbers in a level are within the bound. -/
def Bounded : Level → Prop
  | .const n => n ≤ bound
  | .var _ add floor => add ≤ bound ∧ floor ≤ bound
  | .top => True

section Sums

theorem boundedAdd_of_le {m n : ℕ} (h : m + n ≤ bound) : boundedAdd m n = m + n := min_eq_left h

/-- No sum that is made when `w` is put for `v` exceeds the bound. -/
def SumsFit : Level → LevelVar → Level → Prop
  | .var u add _, v, .const c => u = v → c + add ≤ bound
  | .var u add _, v, .var _ a f => u = v → a + add ≤ bound ∧ (f ≠ 0 → f + add ≤ bound)
  | _, _, _ => True

/-- The value of a level with a floor that is raised and gets a further floor. -/
theorem max_max_add (x : ℕ∞) (a f add floor : ℕ) (h : f ≠ 0 → f + add ≤ bound) :
    max (max (x + a) f + add) floor =
    max (x + (a + add : ℕ)) (if f = 0 then floor else max (boundedAdd f add) floor : ℕ) := by
  split
  case isTrue hf => rw [hf, Nat.cast_zero, max_eq_left zero_le, Nat.cast_add, add_assoc]
  case isFalse hf =>
    rw [boundedAdd_of_le (h hf), ← max_add_add_right, cast_max, Nat.cast_add, Nat.cast_add,
      add_assoc, max_assoc]

/-- Putting a level for a variable gives the variable the value of this level. -/
theorem denote_subst (h : SumsFit l v w) :
    (l.subst v w).denote ρ = l.denote (Function.update ρ v (w.denote ρ)) := by
  cases l with
  | const n => rfl
  | top => rfl
  | var u add floor =>
    by_cases hu : u = v
    · subst hu
      conv_rhs => rw [denote, Function.update_self]
      cases w with
      | const c =>
        simp only [subst, if_true]
        rw [boundedAdd_of_le (h rfl), denote, denote, cast_max, Nat.cast_add]
      | top => simp [subst, denote]
      | var x a f =>
        obtain ⟨ha, hf⟩ := h rfl
        simp only [subst, if_true]
        rw [denote_ofVar, boundedAdd_of_le ha, denote, max_max_add _ _ _ _ _ hf]
    · simp only [subst, hu, if_false, denote, ne_eq, not_false_eq_true, Function.update_of_ne]

end Sums

section Successor

theorem boundedSucc?_eq_some_iff {m n : ℕ} : boundedSucc? n = some m ↔ n < bound ∧ m = n + 1 := by
  unfold boundedSucc?
  split <;> simp_all [eq_comm]

theorem boundedSucc?_eq_none_iff {n : ℕ} : boundedSucc? n = none ↔ bound ≤ n := by
  simp [boundedSucc?]

/-- The successors of what is added and of a floor, where zero stands for no floor. -/
theorem raise_eq_some_iff {α : Type} {f : ℕ → ℕ → α} {a : α} : (do
      let add ← boundedSucc? add
      let floor ← if floor = 0 then some 0 else boundedSucc? floor
      return f add floor) = some a ↔
    add < bound ∧ floor < bound ∧ a = f (add + 1) (if floor = 0 then 0 else floor + 1) := by
  by_cases hf : floor = 0
  · have hpos : 0 < bound := by decide
    by_cases hadd : add < bound <;> simp [boundedSucc?, hadd, hf, hpos, eq_comm]
  · by_cases hadd : add < bound <;> by_cases hfloor : floor < bound <;>
      simp [boundedSucc?, hadd, hf, hfloor, eq_comm]

theorem succ?_var_eq_some_iff : (var v add floor).succ? = some l ↔
    add < bound ∧ floor < bound ∧ l = ofVar v (add + 1) (if floor = 0 then 0 else floor + 1) :=
      raise_eq_some_iff

/-- The successor of a level is one more at every valuation, if there is a successor within bounds.
-/
theorem denote_of_succ? (h : l.succ? = some r) (ρ : LevelVar → ℕ∞) :
    r.denote ρ = l.denote ρ + 1 := by
  cases l with
  | const n =>
    obtain ⟨m, hm, rfl⟩ := Option.map_eq_some_iff.mp h
    obtain ⟨-, rfl⟩ := boundedSucc?_eq_some_iff.mp hm
    exact Nat.cast_succ n
  | top =>
    obtain rfl := Option.some.inj h
    rfl
  | var v add floor =>
    obtain ⟨-, -, rfl⟩ := succ?_var_eq_some_iff.mp h
    rw [denote_ofVar, denote, ← max_add_add_right, Nat.cast_succ, add_assoc]
    split
    case isTrue hf =>
      subst hf
      rw [Nat.cast_zero, max_eq_left zero_le, zero_add, max_eq_left]
      exact le_add_of_le_right le_add_self
    case isFalse => rw [Nat.cast_succ]

theorem bounded_ofVar (hadd : add ≤ bound) (hfloor : floor ≤ bound) :
    (ofVar v add floor).Bounded := by
  refine ⟨hadd, ?_⟩
  split
  · exact Nat.zero_le _
  · exact hfloor

/-- The numbers of a successor are within bounds if there is one. -/
theorem bounded_of_succ? (h : l.succ? = some r) : r.Bounded := by
  cases l with
  | const n =>
    obtain ⟨m, hm, rfl⟩ := Option.map_eq_some_iff.mp h
    obtain ⟨hn, rfl⟩ := boundedSucc?_eq_some_iff.mp hm
    exact hn
  | top =>
    obtain rfl := Option.some.inj h
    trivial
  | var v add floor =>
    obtain ⟨hadd, hfloor, rfl⟩ := succ?_var_eq_some_iff.mp h
    refine bounded_ofVar hadd ?_
    split
    · exact Nat.zero_le _
    · exact hfloor

theorem denote_var_zero (v : LevelVar) (add floor : ℕ) :
    (var v add floor).denote (fun _ => 0) = (max add floor : ℕ) := by
  rw [denote, zero_add, cast_max]

/-- The least value of a level is infinite or within the bound. -/
theorem Bounded.le_of_denote (hl : l.Bounded) {n : ℕ} (h : l.denote (fun _ => 0) = n) :
    n ≤ bound := by
  cases l with
  | const m =>
    obtain rfl := Nat.cast_injective h
    exact hl
  | top => contradiction
  | var v add floor =>
    rw [denote_var_zero, Nat.cast_inj] at h
    exact h ▸ max_le hl.1 hl.2

/-- A level without a successor takes a value that no number in a level exceeds. -/
theorem exists_denote_of_succ? (h : l.succ? = none) :
    ∃ n : ℕ, bound ≤ n ∧ l.denote (fun _ => 0) = n := by
  cases l with
  | const n => exact ⟨n, boundedSucc?_eq_none_iff.mp (Option.map_eq_none_iff.mp h), rfl⟩
  | top => contradiction
  | var v add floor =>
    refine ⟨max add floor, ?_, denote_var_zero v add floor⟩
    by_contra hlt
    rw [not_le, max_lt_iff] at hlt
    exact absurd (h ▸ succ?_var_eq_some_iff.mpr ⟨hlt.1, hlt.2, rfl⟩) (by simp)

/-- There is a successor if and only if a level within the bound has its values. -/
theorem succ?_eq_none_iff :
    l.succ? = none ↔ ¬∃ r : Level, r.Bounded ∧ ∀ ρ, r.denote ρ = l.denote ρ + 1 := by
  constructor
  · rintro h ⟨r, hr, hvalues⟩
    obtain ⟨n, hn, hl⟩ := exists_denote_of_succ? h
    have hle := hr.le_of_denote (n := n + 1) (by rw [hvalues, hl, Nat.cast_succ])
    omega
  · intro h
    by_contra hsome
    obtain ⟨r, hr⟩ := Option.ne_none_iff_exists'.mp hsome
    exact h ⟨r, bounded_of_succ? hr, denote_of_succ? hr⟩

end Successor

section Composition

/-- A level is determined by its variable, what is added to the variable, and its least value. -/
theorem ofVar_congr {a b f g : ℕ} (h : a = b) (hleast : max a f = max b g) :
    ofVar v a f = ofVar v b g := by
  have hfloor : (if f ≤ a then 0 else f) = if g ≤ b then 0 else g := by split_ifs <;> omega
  rw [ofVar, ofVar, h, ← hfloor, h]

theorem max_dropped (add floor : ℕ) :
    max add (if floor ≤ add then 0 else floor) = max add floor := by
  split <;> omega

theorem boundedAdd_assoc (a b c : ℕ) :
    boundedAdd (boundedAdd a b) c = boundedAdd a (boundedAdd b c) := by
  unfold boundedAdd
  omega

theorem boundedAdd_max (a b c : ℕ) :
    boundedAdd (max a b) c = max (boundedAdd a c) (boundedAdd b c) := by
  rw [boundedAdd, boundedAdd, boundedAdd, ← max_add_add_right, min_max_distrib_right]

/-- The least value of a level that another level was put in. -/
theorem max_raised (a f add floor : ℕ) :
    max (boundedAdd a add) (if f = 0 then floor else max (boundedAdd f add) floor) =
      max (boundedAdd (max a f) add) floor := by
  split
  case isTrue h => rw [h, max_eq_left (Nat.zero_le a)]
  case isFalse => rw [boundedAdd_max, max_assoc]

theorem boundedAdd_le (a b : ℕ) : boundedAdd a b ≤ bound := min_le_right _ _

theorem le_boundedAdd {a b : ℕ} (hb : b ≤ bound) : b ≤ boundedAdd a b :=
  le_min (Nat.le_add_left b a) hb

/-- The least values of a level that two levels are put in, one after the other or the second into
the first before. -/
theorem max_raised_twice (m a f add floor : ℕ) :
    let raised := if f = 0 then floor else max (boundedAdd f add) floor
    max (boundedAdd m (boundedAdd a add)) (if raised ≤ boundedAdd a add then 0 else raised) =
      max (boundedAdd (max (boundedAdd m a) f) add) floor := by
  intro raised
  have habsorb : boundedAdd a add ≤ boundedAdd m (boundedAdd a add) :=
    le_boundedAdd (boundedAdd_le a add)
  have hleast : max (boundedAdd a add) (if raised ≤ boundedAdd a add then 0 else raised) =
      max (max (boundedAdd a add) (boundedAdd f add)) floor := by
    rw [max_dropped, max_raised, boundedAdd_max]
  rw [boundedAdd_max, boundedAdd_assoc]
  calc max (boundedAdd m (boundedAdd a add)) (if raised ≤ boundedAdd a add then 0 else raised)
      = max (boundedAdd m (boundedAdd a add))
        (max (max (boundedAdd a add) (boundedAdd f add)) floor) := by
        rw [← hleast, ← max_assoc, max_eq_left habsorb]
    _ = max (max (boundedAdd m (boundedAdd a add)) (boundedAdd f add)) floor := by
        rw [← max_assoc, ← max_assoc, max_eq_left habsorb]

/-- Two levels may be put in one after the other or the second into the first before, also where
sums stop at the bound. -/
theorem subst_subst (l r w : Level) (v : LevelVar) :
    (l.subst v r).subst v w = l.subst v (r.subst v w) := by
  cases l with
  | const n => rfl
  | top => rfl
  | var u add floor =>
    by_cases hu : u = v
    case neg => simp [subst, hu]
    subst hu
    cases r with
    | const c => simp [subst]
    | top => simp [subst]
    | var x a f =>
      by_cases hx : x = u
      case neg => simp [subst, ofVar, hx]
      subst hx
      cases w with
      | top => simp [subst, ofVar]
      | const c =>
        simp only [subst, ofVar, if_true]
        rw [max_raised_twice]
      | var y b g =>
        simp only [subst, ofVar, if_true]
        refine ofVar_congr (boundedAdd_assoc b a add).symm ?_
        rw [max_raised, max_raised_twice, max_raised, max_dropped, max_raised]

end Composition

section Normal

/-- A level within the bound whose floor can win, if it has one. -/
structure Normal (l : Level) : Prop where
  bounded : l.Bounded
  dropped : ∀ v add floor, l = .var v add floor → l = .ofVar v add floor

theorem normal_const {n : ℕ} (hn : n ≤ bound) : (const n).Normal := ⟨hn, by simp⟩

theorem normal_top : top.Normal := ⟨trivial, by simp⟩

theorem normal_ofVar (v : LevelVar) (hadd : add ≤ bound) (hfloor : floor ≤ bound) :
    (ofVar v add floor).Normal := by
  refine ⟨bounded_ofVar hadd hfloor, ?_⟩
  rintro _ _ _ ⟨⟩
  exact ofVar_congr rfl (max_dropped add floor).symm

/-- What is put in need not be normal. -/
theorem Normal.subst (hl : l.Normal) (v : LevelVar) (r : Level) : (l.subst v r).Normal := by
  cases l with
  | const n => exact hl
  | top => exact hl
  | var u add floor =>
    obtain ⟨-, hfloor⟩ := hl.bounded
    by_cases hu : u = v
    case neg => simpa only [Level.subst, if_neg hu] using hl
    cases r with
    | const c =>
      simp only [Level.subst, if_pos hu]
      exact normal_const (max_le (boundedAdd_le _ _) hfloor)
    | top =>
      simp only [Level.subst, if_pos hu]
      exact normal_top
    | var x a f =>
      simp only [Level.subst, if_pos hu]
      refine normal_ofVar x (boundedAdd_le _ _) ?_
      split
      · exact hfloor
      · exact max_le (boundedAdd_le _ _) hfloor

/-- A variable that is put for itself. -/
theorem Normal.subst_self (hl : l.Normal) (v : LevelVar) : l.subst v (.ofVar v 0 0) = l := by
  cases l with
  | const n => rfl
  | top => rfl
  | var u add floor =>
    by_cases hu : u = v
    · subst hu
      have hadd : boundedAdd 0 add = add := by
        rw [boundedAdd_of_le (by simpa using hl.bounded.1), Nat.zero_add]
      rw [hl.dropped u add floor rfl]
      simp only [ofVar, Level.subst, if_true, le_refl, hadd]
      exact ofVar_congr rfl (max_dropped add floor)
    · simp [Level.subst, hu]

end Normal

end Level

namespace LevelExpr

theorem succ?_param_eq_some_iff {add floor : ℕ} {e : LevelExpr} : (param add floor).succ? = some e ↔
    add < Level.bound ∧ floor < Level.bound ∧
    e = param (add + 1) (if floor = 0 then 0 else floor + 1) :=
  Level.raise_eq_some_iff

/-- The successor of a written level is written for the successor of the level. -/
theorem map_toLevel_succ? (e : LevelExpr) : e.succ?.map toLevel = e.toLevel.succ? := by
  cases e with
  | const n => simp [succ?, toLevel, Level.succ?, Function.comp_def]
  | top => rfl
  | param add floor =>
    ext l
    have hdropped := Level.max_dropped add floor
    have hraised (h : add < Level.bound) :
        Level.ofVar .param (add + 1) (if floor = 0 then 0 else floor + 1) =
        Level.ofVar .param (add + 1) (if (if floor ≤ add then 0 else floor) = 0 then 0
          else (if floor ≤ add then 0 else floor) + 1) :=
            Level.ofVar_congr rfl (by split_ifs <;> omega)
    rw [Option.map_eq_some_iff, toLevel, Level.ofVar, Level.succ?_var_eq_some_iff]
    constructor
    · rintro ⟨e, he, rfl⟩
      obtain ⟨hadd, hfloor, rfl⟩ := succ?_param_eq_some_iff.mp he
      exact ⟨hadd, by omega, hraised hadd⟩
    · rintro ⟨hadd, hfloor, rfl⟩
      exact ⟨_, succ?_param_eq_some_iff.mpr ⟨hadd, by omega, rfl⟩, hraised hadd⟩

/-- The level of a maximum takes the larger value at every valuation. -/
theorem denote_toLevel_max (a b : LevelExpr) (ρ : LevelVar → ℕ∞) :
    (a.max b).toLevel.denote ρ = Max.max (a.toLevel.denote ρ) (b.toLevel.denote ρ) := by
  cases a with
  | top => simp [max, toLevel, Level.denote]
  | const m =>
    cases b with
    | top => simp [max, toLevel, Level.denote]
    | const n => exact cast_max m n
    | param add floor =>
      simp only [max, toLevel, Level.denote_ofVar]
      rw [Level.denote, cast_max, ← max_assoc, max_comm]
  | param add floor =>
    cases b with
    | top => simp [max, toLevel, Level.denote]
    | const n =>
      simp only [max, toLevel, Level.denote_ofVar]
      rw [Level.denote, cast_max, max_assoc]
    | param add' floor' =>
      simp only [max, toLevel, Level.denote_ofVar]
      rw [cast_max, cast_max, max_max_max_comm, add_max]

end LevelExpr

namespace Universe
variable {u : Universe}

/-- Both levels are normal. -/
structure Normal (u : Universe) : Prop where
  p : u.p.Normal
  h : u.h.Normal

theorem Normal.subst (hu : u.Normal) (s : Universe) : (u.subst s).Normal :=
  ⟨hu.p.subst _ _, hu.h.subst _ _⟩

theorem Normal.subst_params (hu : u.Normal) : u.subst .params = u := by
  rw [Universe.subst]
  exact congrArg₂ Universe.mk (hu.p.subst_self .param) (hu.h.subst_self .param)

theorem subst_subst (u s t : Universe) : (u.subst s).subst t = u.subst (s.subst t) :=
  congrArg₂ Universe.mk (u.p.subst_subst _ _ _) (u.h.subst_subst _ _ _)

end Universe

namespace Term
variable {t : Term}

/-- All levels in a term are normal. -/
def LevelsNormal (t : Term) : Prop := ∀ s ∈ t.subterms, ∀ u, s.rootUniverse? = some u → u.Normal

/-- The parameters that are put for themselves leave the term as it is, so they need no case of
their own. -/
theorem LevelsNormal.substLevels_eq (ht : t.LevelsNormal) (s : Universe) :
    t.substLevels s = t.mapUniverses (·.subst s) := by
  unfold substLevels
  split
  case isTrue h => exact h ▸ (replace_eq_self (fun r hr u hu => (ht r hr u hu).subst_params) 0).symm
  case isFalse => rfl

theorem LevelsNormal.substLevels_substLevels (ht : t.LevelsNormal) (s u : Universe) :
    (t.substLevels s).substLevels u = t.substLevels (s.subst u) := by
  rw [ht.substLevels_eq s, ht.substLevels_eq (s.subst u)]
  by_cases hu : u = .params
  · rw [substLevels, if_pos hu]
    refine replace_congr_universes (fun r hr v hv => ?_) 0
    rw [hu, ← Universe.subst_subst, ((ht r hr v hv).subst s).subst_params]
  · rw [substLevels, if_neg hu, mapUniverses, mapUniverses, replace_replace]
    exact congrArg (t.replace (fun _ i => .var i) · 0) (funext fun v => v.subst_subst s u)

end Term

/-- Putting a level for a variable composes levels as functions while no sum exceeds the bound, and
levels, also as they are written, have the successors and maxima of their values. The level
parameters of a term may be instantiated twice, or once with the instance of the universe that comes
first, whatever sums stop at the bound. -/
theorem Level.subst_composes (l w : Level) (v : LevelVar) (ρ : LevelVar → ℕ∞)
    (a b : LevelExpr) (t : Term) (s u : Universe) :
    (SumsFit l v w → (l.subst v w).denote ρ = l.denote (Function.update ρ v (w.denote ρ))) ∧
    (l.succ? = none ↔ ¬∃ r : Level, r.Bounded ∧ ∀ ρ, r.denote ρ = l.denote ρ + 1) ∧
    (∀ r, l.succ? = some r → r.denote ρ = l.denote ρ + 1) ∧
    (a.succ? = none ↔ (Elaborator.levelOf (some a)).succ? = none) ∧
    (∀ a', a.succ? = some a' → (Elaborator.levelOf (some a')).denote ρ =
      (Elaborator.levelOf (some a)).denote ρ + 1) ∧
    (Elaborator.levelOf (some (a.max b))).denote ρ =
      max ((Elaborator.levelOf (some a)).denote ρ) ((Elaborator.levelOf (some b)).denote ρ) ∧
    (t.LevelsNormal → (t.substLevels s).substLevels u = t.substLevels (s.subst u)) := by
  have hsucc : (Elaborator.levelOf (some a)).succ? = a.succ?.map LevelExpr.toLevel :=
    a.map_toLevel_succ?.symm
  refine ⟨denote_subst, succ?_eq_none_iff, fun r h => denote_of_succ? h ρ, ?_, fun a' h => ?_,
    a.denote_toLevel_max b ρ, fun ht => ht.substLevels_substLevels s u⟩
  · rw [hsucc, Option.map_eq_none_iff]
  · exact denote_of_succ? (by rw [hsucc, h]; rfl) ρ

/-- A function from a universe next to the bound. -/
def Term.boundaryType : Term :=
  .pi ⟨⟨"_", 0⟩, .explicit⟩ (.univ ⟨.ofVar .param (Level.bound - 1) 0, .param⟩)
    (.univ ⟨.ofVar .param 1 5, .top⟩)

theorem Term.levelsNormal_boundaryType : boundaryType.LevelsNormal := by
  have hsubterms : boundaryType.subterms =
      [boundaryType, .univ ⟨.ofVar .param (Level.bound - 1) 0, .param⟩,
    .univ ⟨.ofVar .param 1 5, .top⟩] := rfl
  rw [LevelsNormal, hsubterms]
  rintro _ (_ | ⟨_, _ | ⟨_, _ | _⟩⟩) u hu
  · contradiction
  · obtain rfl := Option.some.inj hu
    exact ⟨Level.normal_ofVar _ (by decide) (by decide),
      Level.normal_ofVar _ (by decide) (by decide)⟩
  · obtain rfl := Option.some.inj hu
    exact ⟨Level.normal_ofVar _ (by decide) (by decide), Level.normal_top⟩
  · contradiction

/-- A sum that stops at the bound, and one that does not. -/
theorem Level.subst_composes_boundary :
    let l : Level := .ofVar .param 1 5
    let s : Universe := ⟨.ofVar .param 3 7, .hole 0⟩
    let u : Universe := ⟨.ofVar (.hole 1) 2 9, .const 4⟩
    let ρ : LevelVar → ℕ∞ := fun _ => 2
    SumsFit l .param s.p ∧ (l.subst .param s.p).denote ρ = l.denote
      (Function.update ρ .param (s.p.denote ρ)) ∧
    l.succ? = some (.ofVar .param 2 6) ∧ (Level.ofVar .param 2 6).denote ρ = l.denote ρ + 1 ∧
    (LevelExpr.param 1 5).succ? = some (.param 2 6) ∧
    (Elaborator.levelOf (some (.param 2 6))).denote ρ =
    (Elaborator.levelOf (some (.param 1 5))).denote ρ + 1 ∧ Term.boundaryType.LevelsNormal ∧
    (Term.boundaryType.substLevels s).substLevels u = Term.boundaryType.substLevels (s.subst u) ∧
    (Level.ofVar .param (bound - 1) 0).subst .param s.p = .var .param bound 0 := by
  intro l s u ρ
  obtain ⟨hdenote, -, hsucc, -, hwritten, -, hterm⟩ :=
    subst_composes l s.p .param ρ (.param 1 5) .top Term.boundaryType s u
  have hfit : SumsFit l .param s.p := fun _ => by decide
  exact ⟨hfit, hdenote hfit, rfl, hsucc _ rfl, rfl, hwritten _ rfl, Term.levelsNormal_boundaryType,
    hterm Term.levelsNormal_boundaryType, rfl⟩

end LeveledTypes
