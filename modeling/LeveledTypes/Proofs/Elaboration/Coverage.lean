import LeveledTypes.Proofs.Elaboration.Selection
import LeveledTypes.Proofs.Matching.Populated

/-!
# What a case tree covers

If the columns have populated types, every branch of a case tree is the branch of some values of the
columns. So a constructor that no clause covers leaves out some values, and a clause that ends a
branch is the first one that matches some values.
-/
namespace LeveledTypes

open Surface

section Columns
variable (env : Environment) (sol : ℕ → Option Term) (others : Term → Term → Prop)

/-- The variables that are no columns have given values. -/
def Agrees (cols : List Column) (ρ₀ ρ : ℕ → Term) : Prop :=
  ∀ i, (∀ x ∈ cols, x.term ≠ .var i) → ρ i = ρ₀ i

/-- The first `a` columns stand for values of their types. -/
def ValuedUpTo (cols : List Column) (a : ℕ) (ρ : ℕ → Term) : Prop :=
  ∀ b < a, ∀ y, cols[b]? = some y → Value env sol others (y.term.inst ρ) (y.type.inst ρ)

/-- The first `a` columns have the same values, but for what erasure removes. -/
def SameUpTo (cols : List Column) (a : ℕ) (ρ σ : ℕ → Term) : Prop :=
  ∀ b < a, ∀ y, cols[b]? = some y → (y.term.inst ρ).erase = (y.term.inst σ).erase

/-- Columns that can be given values one after the other: they are different variables without
values of their own, and the type of each is populated and depends on the values of the columns
before it only. -/
structure Fillable (L : Locals) (cols : List Column) (ρ₀ : ℕ → Term) : Prop where
  vars : ∀ x ∈ cols, ∃ i, x.term = .var i
  distinct : ∀ (a b : ℕ) x y, cols[a]? = some x → cols[b]? = some y → x.term = y.term → a = b
  fits : ∀ ρ, Agrees cols ρ₀ ρ → L.Fits ρ
  populated : ∀ (a : ℕ) x ρ, cols[a]? = some x → Agrees cols ρ₀ ρ →
    ValuedUpTo env sol others cols a ρ → Populated env sol others (x.type.inst ρ)
  depends : ∀ (a : ℕ) x ρ σ, cols[a]? = some x → Agrees cols ρ₀ ρ → Agrees cols ρ₀ σ →
    ValuedUpTo env sol others cols a ρ → ValuedUpTo env sol others cols a σ → SameUpTo cols a ρ σ →
    (x.type.inst ρ).erase = (x.type.inst σ).erase

end Columns

namespace Fillable
variable {env : Environment} {sol : ℕ → Option Term} {others : Term → Term → Prop} {L : Locals}
  {cols : List Column} {ρ₀ ρ σ : ℕ → Term}

/-- Whether the first columns have values depends on these columns only. -/
theorem valuedUpTo_congr (h : Fillable env sol others L cols ρ₀) {a : ℕ} (hρ : Agrees cols ρ₀ ρ)
    (hσ : Agrees cols ρ₀ σ) (heq : ∀ b < a, ∀ y, cols[b]? = some y → y.term.inst ρ = y.term.inst σ)
    (hvalued : ValuedUpTo env sol others cols a ρ) :
    ValuedUpTo env sol others cols a σ := by
  have hupto (b : ℕ) (hb : b ≤ a) : ValuedUpTo env sol others cols b σ := by
    induction b with
    | zero =>
      intro b hb
      omega
    | succ b ih =>
      intro d hd y hy
      rcases Nat.lt_succ_iff_lt_or_eq.mp hd with hd | rfl
      · exact ih (by omega) d hd y hy
      · have hbefore : ValuedUpTo env sol others cols d ρ := fun b hb => hvalued b (by omega)
        have htype := h.depends d y ρ σ hy hρ hσ hbefore (ih (by omega)) fun b hb y hy =>
          congrArg Term.erase (heq b (by omega) y hy)
        rw [← heq d (by omega) y hy]
        exact (hvalued d (by omega) y hy).congr htype
  exact hupto a le_rfl

/-- There are values for all columns. -/
theorem exists_values (h : Fillable env sol others L cols ρ₀) :
    ∃ ρ, Agrees cols ρ₀ ρ ∧ ∀ x ∈ cols, Value env sol others (x.term.inst ρ) (x.type.inst ρ) := by
  have hupto (a : ℕ) (ha : a ≤ cols.length) : ∃ ρ, Agrees cols ρ₀ ρ ∧
      ValuedUpTo env sol others cols a ρ := by
    induction a with
    | zero => exact ⟨ρ₀, fun _ _ => rfl, fun b hb => by omega⟩
    | succ a ih =>
      obtain ⟨ρ, hρ, hvalued⟩ := ih (by omega)
      have hx : cols[a]? = some cols[a] := List.getElem?_eq_getElem ha
      obtain ⟨i, hi⟩ := h.vars _ (List.mem_of_getElem? hx)
      obtain ⟨v, hv⟩ := (h.populated a _ ρ hx hρ hvalued).exists_value
      let σ := Function.update ρ i v
      have hσ : Agrees cols ρ₀ σ := by
        intro l hl
        have hne : l ≠ i := fun h => hl _ (List.mem_of_getElem? hx) (h ▸ hi)
        rw [← hρ l hl]
        exact Function.update_of_ne hne v ρ
      have heq (b : ℕ) (hb : b < a) (y : Column) (hy : cols[b]? = some y) :
          y.term.inst ρ = y.term.inst σ := by
        obtain ⟨l, hl⟩ := h.vars y (List.mem_of_getElem? hy)
        have hne : l ≠ i := by
          rintro rfl
          have := h.distinct b a y _ hy hx (hl.trans hi.symm)
          omega
        rw [hl, Term.inst, Term.inst]
        exact (Function.update_of_ne hne v ρ).symm
      have hvalued' := h.valuedUpTo_congr hρ hσ heq hvalued
      refine ⟨σ, hσ, fun b hb y hy => ?_⟩
      rcases Nat.lt_succ_iff_lt_or_eq.mp hb with hb | rfl
      · exact hvalued' b hb y hy
      · obtain rfl := Option.some.inj (hx.symm.trans hy)
        have htype := h.depends b _ ρ σ hx hρ hσ hvalued hvalued' fun b hb y hy =>
          congrArg Term.erase (heq b hb y hy)
        have hvalue : cols[b].term.inst σ = v := by
          rw [hi, Term.inst]
          exact Function.update_self i v ρ
        rw [hvalue]
        exact hv.congr htype
  obtain ⟨ρ, hρ, hvalued⟩ := hupto cols.length le_rfl
  refine ⟨ρ, hρ, fun x hx => ?_⟩
  obtain ⟨a, ha⟩ := List.getElem?_of_mem hx
  exact hvalued a (List.getElem?_eq_some_iff.mp ha).1 x ha

end Fillable

namespace Elaborator

/-- A column in the branch of a constructor. -/
def refinedColumn (scrut : Term) (h : Head) (x : Column) : Column :=
  ⟨x.term.lift h.args.length, x.type.refine scrut h.args.length h.term⟩

/-- The column for an argument of a constructor. -/
def argColumn (h : Head) (a : ℕ) (p : Param Term) : Column :=
  ⟨.var (h.args.length - 1 - a), p.type.lift (h.args.length - a)⟩

section Positions
variable {cols : List Column} {j : ℕ} (hj : j < cols.length) (scrut : Term) (h : Head)

include hj

theorem branchColumns_before {b : ℕ} (hb : b < j) :
    (branchColumns cols j scrut h)[b]? = cols[b]?.map (refinedColumn scrut h) := by
  rw [branchColumns, List.append_assoc, List.getElem?_append_left (by simp; omega),
    List.getElem?_map, List.getElem?_take,
    if_pos hb]
  rfl

/-- The columns for the arguments of the constructor stand where the column was that is split. -/
theorem branchColumns_args {a : ℕ} (ha : a < h.args.length) :
    (branchColumns cols j scrut h)[j + a]? = h.args[a]?.map (argColumn h a) := by
  rw [branchColumns, List.append_assoc, List.getElem?_append_right (by simp),
    List.getElem?_append_left (by simp; omega)]
  have hindex : j + a - ((cols.take j).map (refinedColumn scrut h)).length = a := by simp; omega
  change (List.map _ h.args.zipIdx)[j + a - ((cols.take j).map (refinedColumn scrut h)).length]? = _
  rw [hindex]
  simp only [List.getElem?_map, List.getElem?_zipIdx, Option.map_map, Function.comp_def,
    Nat.zero_add]
  rfl

theorem branchColumns_after (b : ℕ) :
    (branchColumns cols j scrut h)[j + h.args.length + b]? = cols[j + 1 + b]?.map
      (refinedColumn scrut h) := by
  rw [branchColumns, List.getElem?_append_right (by simp; omega), List.getElem?_map,
    List.getElem?_drop]
  congr 2
  simp
  omega

variable {scrut h} in
theorem branchColumns_of_before {b : ℕ} {y : Column} (hb : b < j) (hy : cols[b]? = some y) :
    (branchColumns cols j scrut h)[b]? = some (refinedColumn scrut h y) := by
  rw [branchColumns_before hj scrut h hb, hy]
  rfl

variable {scrut h} in
theorem branchColumns_of_arg {a : ℕ} {p : Param Term} (hp : h.args[a]? = some p) :
    (branchColumns cols j scrut h)[j + a]? = some (argColumn h a p) := by
  rw [branchColumns_args hj scrut h (List.getElem?_eq_some_iff.mp hp).1, hp]
  rfl

variable {scrut h} in
theorem branchColumns_of_after {b : ℕ} {y : Column} (hy : cols[j + 1 + b]? = some y) :
    (branchColumns cols j scrut h)[j + h.args.length + b]? = some (refinedColumn scrut h y) := by
  rw [branchColumns_after hj, hy]
  rfl

/-- The columns of a branch are those before the split, those of the arguments, and those behind the
split. -/
theorem branchColumns_cases {a : ℕ} {x : Column}
    (hx : (branchColumns cols j scrut h)[a]? = some x) :
    (∃ y, a < j ∧ cols[a]? = some y ∧ x = refinedColumn scrut h y) ∨
    (∃ b p, a = j + b ∧ h.args[b]? = some p ∧ x = argColumn h b p) ∨
    ∃ b y, a = j + h.args.length + b ∧ cols[j + 1 + b]? = some y ∧ x = refinedColumn scrut h y := by
  rcases lt_or_ge a j with ha | ha
  · rw [branchColumns_before hj scrut h ha] at hx
    obtain ⟨y, hy, rfl⟩ := Option.map_eq_some_iff.mp hx
    exact .inl ⟨y, ha, hy, rfl⟩
  · obtain ⟨b, rfl⟩ := Nat.exists_eq_add_of_le ha
    rcases lt_or_ge b h.args.length with hb | hb
    · rw [branchColumns_args hj scrut h hb] at hx
      obtain ⟨p, hp, rfl⟩ := Option.map_eq_some_iff.mp hx
      exact .inr (.inl ⟨b, p, rfl, hp, rfl⟩)
    · obtain ⟨d, rfl⟩ := Nat.exists_eq_add_of_le hb
      rw [← Nat.add_assoc, branchColumns_after hj scrut h d] at hx
      obtain ⟨y, hy, rfl⟩ := Option.map_eq_some_iff.mp hx
      exact .inr (.inr ⟨d, y, (Nat.add_assoc ..).symm, hy, rfl⟩)

/-- The terms of the columns of a branch are those outside the split column, lifted, and variables
for the arguments. -/
theorem term_branchColumns {a : ℕ} {x : Column} (hx : (branchColumns cols j scrut h)[a]? = some x) :
    (∃ b y, cols[b]? = some y ∧ x.term = y.term.lift h.args.length ∧
      (b < j ∧ a = b ∨ j < b ∧ a + 1 = b + h.args.length)) ∨
    ∃ b < h.args.length, a = j + b ∧ x.term = .var (h.args.length - 1 - b) := by
  rcases branchColumns_cases hj scrut h hx with ⟨y, ha, hy, rfl⟩ | ⟨b, p, rfl, hp, rfl⟩ | ⟨b,
    y, rfl, hy, rfl⟩
  · exact .inl ⟨a, y, hy, rfl, .inl ⟨ha, rfl⟩⟩
  · exact .inr ⟨b, (List.getElem?_eq_some_iff.mp hp).1, rfl, rfl⟩
  · exact .inl ⟨j + 1 + b, y, hy, rfl, .inr ⟨by omega, by omega⟩⟩

end Positions

/-- The values of the variables outside a branch. -/
def outer (h : Head) (ρ : ℕ → Term) (l : ℕ) : Term := ρ (l + h.args.length)

/-- The values of the variables of a branch. -/
def inner (h : Head) (ρ : ℕ → Term) : List Term := (List.range h.args.length).reverse.map ρ

/-- The values of the variables before a split on a variable, from those in the branch of a
constructor. -/
def lowered (h : Head) (i : ℕ) (ρ : ℕ → Term) (l : ℕ) : Term :=
  if l = i then h.term.inst ρ else outer h ρ l

section Instances
variable {h : Head} {ρ : ℕ → Term} {i : ℕ}

theorem length_inner (h : Head) (ρ : ℕ → Term) :
    (inner h ρ).length = h.args.length := by simp [inner]

theorem getElem?_inner {a : ℕ} (ha : a < h.args.length) :
    (inner h ρ)[a]? = some (ρ (h.args.length - 1 - a)) := by
  simp [inner, ha]

/-- The values of a context are those of its last variables in front of those of the others. -/
theorem pushAll_inner (h : Head) (ρ : ℕ → Term) : Term.pushAll (inner h ρ) (outer h ρ) = ρ := by
  funext l
  rcases lt_or_ge l h.args.length with hl | hl
  · rw [Term.pushAll_of_lt (by simpa [length_inner] using hl)]
    simp only [inner, List.getElem_map, List.getElem_reverse, List.getElem_range, List.length_map,
      List.length_reverse, List.length_range]
    congr 1
    omega
  · rw [Term.pushAll_of_le (by simpa [length_inner] using hl), length_inner, outer]
    congr 1
    omega

/-- The column that is split is the constructor in the branch. -/
theorem term_lowered {t : Term} (hi : t = .var i) : t.inst (lowered h i ρ) = h.term.inst ρ := by
  rw [hi, Term.inst, lowered, if_pos rfl]

theorem refine_inst_lowered (t : Term) :
    (t.refine (.var i) h.args.length h.term).inst ρ = t.inst (lowered h i ρ) := by
  rw [Term.refine_var, Term.inst_inst]
  congr 1
  funext l
  by_cases hl : l = i <;> simp [hl, lowered, outer]

theorem lift_inst_outer (t : Term) : (t.lift h.args.length).inst ρ = t.inst (outer h ρ) := by
  conv_lhs => rw [← pushAll_inner h ρ, ← length_inner h ρ]
  exact Term.lift_inst_pushAll t _ _

/-- The type of an argument in the branch of its constructor. -/
theorem lift_inst_inner (t : Term) {a : ℕ} (ha : a ≤ h.args.length) :
    (t.lift (h.args.length - a)).inst ρ = t.inst
      (Term.pushAll ((inner h ρ).take a) (outer h ρ)) := by
  rw [← length_inner h ρ] at ha ⊢
  have := Term.lift_inst_pushAll_take (ρ := outer h ρ) t ha
  rwa [pushAll_inner] at this

end Instances

section Branch
variable {env : Environment} {sol sol' : ℕ → Option Term} {others : Term → Term → Prop} {L : Locals}
  {cols : List Column} {ρ₀ ρ σ : ℕ → Term} {j i : ℕ} {col : Column} {h : Head} {hs : List Head}

/-- The values of the variables of a branch that are no columns of it. -/
def branchBase (h : Head) (ρ₀ : ℕ → Term) : ℕ → Term :=
  Term.pushAll (List.replicate h.args.length .zero) ρ₀

variable (hfill : Fillable env sol' others L cols ρ₀) (hcol : cols[j]? = some col)
  (hi : col.term = .var i)

section Agreement
include hfill

/-- A value of the variables of a branch gives one of the variables outside of it. -/
theorem agrees_outer (hρ : Agrees (branchColumns cols j col.term h) (branchBase h ρ₀) ρ) :
    Agrees cols ρ₀ (outer h ρ) := by
  intro l hl
  have hbase : branchBase h ρ₀ (l + h.args.length) = ρ₀ l := by
    have := Term.pushAll_add (List.replicate h.args.length .zero) ρ₀ l
    rwa [List.length_replicate] at this
  rw [outer, hρ, hbase]
  intro x hx
  simp only [branchColumns, List.mem_append, List.mem_map] at hx
  obtain (⟨y, hy, rfl⟩ | ⟨⟨p, a⟩, hp, rfl⟩) | ⟨y, hy, rfl⟩ := hx
  · obtain ⟨n, hn⟩ := hfill.vars y (List.mem_of_mem_take hy)
    have hne := hl y (List.mem_of_mem_take hy)
    simp_all
  · have ha := (List.getElem?_eq_some_iff.mp (List.mem_zipIdx_iff_getElem?.mp hp)).1
    intro heq
    have := Term.var.inj heq
    dsimp only at ha this
    omega
  · obtain ⟨n, hn⟩ := hfill.vars y (List.mem_of_mem_drop hy)
    have hne := hl y (List.mem_of_mem_drop hy)
    simp_all

include hcol hi

theorem agrees_lowered (hρ : Agrees (branchColumns cols j col.term h) (branchBase h ρ₀) ρ) :
    Agrees cols ρ₀ (lowered h i ρ) := by
  intro l hl
  have hne : l ≠ i := fun h => hl col (List.mem_of_getElem? hcol) (h ▸ hi)
  rw [lowered, if_neg hne]
  exact agrees_outer hfill hρ l hl

/-- The other columns have the same values before the split and in the branch. -/
theorem lift_inst_lowered {b : ℕ} {y : Column} (hy : cols[b]? = some y) (hb : b ≠ j) :
    (y.term.lift h.args.length).inst ρ = y.term.inst (lowered h i ρ) := by
  obtain ⟨l, hl⟩ := hfill.vars y (List.mem_of_getElem? hy)
  have hne : l ≠ i := by
    rintro rfl
    exact hb (hfill.distinct b j y col hy hcol (hl.trans hi.symm))
  rw [lift_inst_outer, hl, Term.inst, Term.inst, lowered, if_neg hne]

end Agreement

section Values
include hfill hcol hi

theorem valuedUpTo_lowered {a : ℕ} (ha : a ≤ j)
    (hv : ValuedUpTo env sol' others (branchColumns cols j col.term h) a ρ) :
    ValuedUpTo env sol' others cols a (lowered h i ρ) := by
  intro b hb y hy
  have hj := (List.getElem?_eq_some_iff.mp hcol).1
  have hvalue := hv b hb _ (branchColumns_of_before hj (by omega) hy)
  rwa [refinedColumn, hi, refine_inst_lowered, lift_inst_lowered hfill hcol hi hy
    (by omega)] at hvalue

theorem valuedUpTo_outer {a : ℕ} (ha : a ≤ j)
    (hρ : Agrees (branchColumns cols j col.term h) (branchBase h ρ₀) ρ)
    (hv : ValuedUpTo env sol' others (branchColumns cols j col.term h) a ρ) :
    ValuedUpTo env sol' others cols a (outer h ρ) := by
  refine hfill.valuedUpTo_congr (agrees_lowered hfill hcol hi hρ) (agrees_outer hfill hρ)
    (fun b hb y hy => ?_) (valuedUpTo_lowered hfill hcol hi ha hv)
  rw [← lift_inst_lowered hfill hcol hi hy (by omega), lift_inst_outer]

/-- The column that is split has the same type in the values outside the branch. -/
theorem erase_type_outer (hρ : Agrees (branchColumns cols j col.term h) (branchBase h ρ₀) ρ)
    (hv : ValuedUpTo env sol' others (branchColumns cols j col.term h) j ρ) :
    (col.type.inst (outer h ρ)).erase = (col.type.inst (lowered h i ρ)).erase := by
  refine hfill.depends j col _ _ hcol (agrees_outer hfill hρ) (agrees_lowered hfill hcol hi hρ)
    (valuedUpTo_outer hfill hcol hi le_rfl hρ hv) (valuedUpTo_lowered hfill hcol hi le_rfl hv)
      fun b hb y hy => ?_
  rw [← lift_inst_lowered hfill hcol hi hy (by omega), lift_inst_outer]

omit hfill hi in
/-- The first arguments of the constructor have values of their types if the columns that stand for
them have. -/
theorem valued_inner {a : ℕ} (ha : a ≤ h.args.length)
    (hv : ValuedUpTo env sol' others (branchColumns cols j col.term h) (j + a) ρ) :
    h.Valued env sol' others (outer h ρ) ((inner h ρ).take a) := by
  intro b p x hp hx
  have hj := (List.getElem?_eq_some_iff.mp hcol).1
  have hb : b < a := by
    have := (List.getElem?_eq_some_iff.mp hx).1
    rw [List.length_take] at this
    omega
  rw [List.getElem?_take_of_lt hb] at hx
  have hbk : b < h.args.length := by omega
  have hvalue := hv (j + b) (by omega) _ (branchColumns_of_arg hj hp)
  obtain rfl : ρ (h.args.length - 1 - b) = x := by
    rw [getElem?_inner hbk] at hx
    exact Option.some.inj hx
  rw [List.take_take, min_eq_left hb.le, ← lift_inst_inner _ hbk.le]
  exact hvalue

omit hfill hi in
/-- The arguments of the constructor are columns of the branch. -/
theorem erase_inner {a b : ℕ} (heq : SameUpTo (branchColumns cols j col.term h) a ρ σ)
    (hb : j + b ≤ a) (hbk : b ≤ h.args.length) :
    ((inner h σ).take b).map Term.erase = ((inner h ρ).take b).map Term.erase := by
  have hj := (List.getElem?_eq_some_iff.mp hcol).1
  refine List.ext_getElem (by simp [length_inner]) fun d hd hd' => ?_
  have hdb : d < b := by
    simp only [List.length_map, List.length_take] at hd
    omega
  have hvalue := heq (j + d) (by omega) _
    (branchColumns_of_arg hj (List.getElem?_eq_getElem (by omega)))
  simpa [inner, argColumn] using hvalue.symm

section Split
variable (henv : env.WellFormed) (hsplits : Splits env sol L col.type hs)
  (hkeeps : ∀ m t, sol m = some t → sol' m = some t) (hh : h ∈ hs)

include henv hsplits hkeeps hh

/-- The constructor of a branch is a value of the column that is split. -/
theorem value_lowered (hρ : Agrees (branchColumns cols j col.term h) (branchBase h ρ₀) ρ)
    (hv : ValuedUpTo env sol' others (branchColumns cols j col.term h) (j + h.args.length) ρ) :
    Value env sol' others (col.term.inst (lowered h i ρ)) (col.type.inst (lowered h i ρ)) ∧
      h.Heads (col.term.inst (lowered h i ρ)) (inner h ρ) := by
  have hbefore : ValuedUpTo env sol' others (branchColumns cols j col.term h) j ρ :=
    fun b hb => hv b (by omega)
  have houter := agrees_outer hfill hρ
  have hpop := hfill.populated j col _ hcol houter
    (valuedUpTo_outer hfill hcol hi le_rfl hρ hbefore)
  have hinner : h.Valued env sol' others (outer h ρ) (inner h ρ) := by
    have := valued_inner hcol le_rfl hv
    rwa [List.take_of_length_le (length_inner h ρ).le] at this
  have hvalue := hsplits.value_of_head henv ⟨hkeeps, hfill.fits _ houter⟩ hpop hh
    (length_inner h ρ).symm hinner
  rw [pushAll_inner] at hvalue
  rw [term_lowered hi]
  exact ⟨hvalue.1.congr (erase_type_outer hfill hcol hi hρ hbefore), hvalue.2⟩

/-- Behind the column that is split, the columns of the branch are the columns outside of it,
lifted. -/
theorem valuedUpTo_lowered_after {b : ℕ}
    (hρ : Agrees (branchColumns cols j col.term h) (branchBase h ρ₀) ρ)
    (hv : ValuedUpTo env sol' others (branchColumns cols j col.term h) (j + h.args.length + b) ρ) :
    ValuedUpTo env sol' others cols (j + 1 + b) (lowered h i ρ) := by
  intro d hd y hy
  have hj := (List.getElem?_eq_some_iff.mp hcol).1
  rcases lt_trichotomy d j with hdj | rfl | hdj
  · have hbefore : ValuedUpTo env sol' others (branchColumns cols j col.term h) j ρ :=
      fun b hb => hv b (by omega)
    exact valuedUpTo_lowered hfill hcol hi le_rfl hbefore d hdj y hy
  · obtain rfl := Option.some.inj (hcol.symm.trans hy)
    exact (value_lowered hfill hcol hi henv hsplits hkeeps hh hρ fun b hb => hv b (by omega)).1
  · obtain ⟨n, rfl⟩ := Nat.exists_eq_add_of_le hdj
    have hvalue := hv _ (by omega) _ (branchColumns_of_after hj hy)
    rwa [refinedColumn, hi, refine_inst_lowered, lift_inst_lowered hfill hcol hi hy
      (by omega)] at hvalue

/-- Values for the columns of a branch are values for the columns before the split. -/
theorem values_lowered (hρ : Agrees (branchColumns cols j col.term h) (branchBase h ρ₀) ρ)
    (hv : ∀ x ∈ branchColumns cols j col.term h, Value env sol' others (x.term.inst ρ)
      (x.type.inst ρ)) :
    ∀ x ∈ cols, Value env sol' others (x.term.inst (lowered h i ρ))
      (x.type.inst (lowered h i ρ)) := by
  intro x hx
  obtain ⟨a, ha⟩ := List.getElem?_of_mem hx
  have hvalued := valuedUpTo_lowered_after (b :=
    a) hfill hcol hi henv hsplits hkeeps hh hρ fun b _ y hy =>
    hv y (List.mem_of_getElem? hy)
  exact hvalued a (by omega) x ha

/-- The types of the columns of a branch are populated. -/
theorem populated_branch {a : ℕ} {x : Column} (hx : (branchColumns cols j col.term h)[a]? = some x)
    (hρ : Agrees (branchColumns cols j col.term h) (branchBase h ρ₀) ρ)
    (hv : ValuedUpTo env sol' others (branchColumns cols j col.term h) a ρ) :
    Populated env sol' others (x.type.inst ρ) := by
  have hj := (List.getElem?_eq_some_iff.mp hcol).1
  have hlowered := agrees_lowered hfill hcol hi hρ
  rcases branchColumns_cases hj _ h hx with ⟨y, ha, hy, rfl⟩ | ⟨b, p, rfl, hp, rfl⟩ | ⟨b,
    y, rfl, hy, rfl⟩
  · rw [refinedColumn, hi, refine_inst_lowered]
    exact hfill.populated a y _ hy hlowered (valuedUpTo_lowered hfill hcol hi ha.le hv)
  · have hb := (List.getElem?_eq_some_iff.mp hp).1
    have hbefore : ValuedUpTo env sol' others (branchColumns cols j col.term h) j ρ :=
      fun d hd => hv d (by omega)
    have houter := agrees_outer hfill hρ
    have hpop := hfill.populated j col _ hcol houter
      (valuedUpTo_outer hfill hcol hi le_rfl hρ hbefore)
    rw [argColumn, lift_inst_inner _ hb.le]
    exact hsplits.populated_args henv ⟨hkeeps, hfill.fits _ houter⟩ hpop hh hp
      (by simp [length_inner, hb.le]) (valued_inner hcol hb.le hv)
  · rw [refinedColumn, hi, refine_inst_lowered]
    exact hfill.populated _ y _ hy hlowered
      (valuedUpTo_lowered_after hfill hcol hi henv hsplits hkeeps hh hρ hv)

omit henv hkeeps in
/-- The values before the split have the same erasure if those in the branch do, since the
constructor depends on its arguments only. -/
theorem erase_lowered {a d : ℕ} {y : Column}
    (heq : SameUpTo (branchColumns cols j col.term h) a ρ σ) (hd : d < j ∧ d < a ∨
      j + h.args.length ≤ a ∧ d + h.args.length < a + 1) (hy : cols[d]? = some y) :
    (y.term.inst (lowered h i ρ)).erase = (y.term.inst (lowered h i σ)).erase := by
  have hj := (List.getElem?_eq_some_iff.mp hcol).1
  rcases lt_trichotomy d j with hdj | rfl | hdj
  · rw [← lift_inst_lowered hfill hcol hi hy (by omega),
      ← lift_inst_lowered hfill hcol hi hy (by omega)]
    exact heq d (by omega) _ (branchColumns_of_before hj hdj hy)
  · obtain rfl := Option.some.inj (hcol.symm.trans hy)
    have hargs := erase_inner hcol heq (b := h.args.length) (by omega) le_rfl
    rw [List.take_of_length_le (length_inner h σ).le,
      List.take_of_length_le (length_inner h ρ).le] at hargs
    have hterm := hsplits.erase_term (ρ := outer h ρ) (σ :=
      outer h σ) hh (length_inner h ρ).symm hargs
    rw [pushAll_inner, pushAll_inner] at hterm
    rw [term_lowered hi, term_lowered hi, hterm]
  · obtain ⟨n, rfl⟩ := Nat.exists_eq_add_of_le hdj
    rw [← lift_inst_lowered hfill hcol hi hy (by omega),
      ← lift_inst_lowered hfill hcol hi hy (by omega)]
    exact heq _ (by omega) _ (branchColumns_of_after hj hy)

/-- The types of the columns of a branch depend on the columns before them only. -/
theorem depends_branch {a : ℕ} {x : Column} (hx : (branchColumns cols j col.term h)[a]? = some x)
    (hρ : Agrees (branchColumns cols j col.term h) (branchBase h ρ₀) ρ)
    (hσ : Agrees (branchColumns cols j col.term h) (branchBase h ρ₀) σ)
    (hvρ : ValuedUpTo env sol' others (branchColumns cols j col.term h) a ρ)
    (hvσ : ValuedUpTo env sol' others (branchColumns cols j col.term h) a σ)
    (heq : SameUpTo (branchColumns cols j col.term h) a ρ σ) :
    (x.type.inst ρ).erase = (x.type.inst σ).erase := by
  have hj := (List.getElem?_eq_some_iff.mp hcol).1
  have hloweredρ := agrees_lowered hfill hcol hi hρ
  have hloweredσ := agrees_lowered hfill hcol hi hσ
  rcases branchColumns_cases hj _ h hx with ⟨y, ha, hy, rfl⟩ | ⟨b, p, rfl, hp, rfl⟩ | ⟨b,
    y, rfl, hy, rfl⟩
  · rw [refinedColumn, hi, refine_inst_lowered, refine_inst_lowered]
    exact hfill.depends a y _ _ hy hloweredρ hloweredσ (valuedUpTo_lowered hfill hcol hi ha.le hvρ)
      (valuedUpTo_lowered hfill hcol hi ha.le hvσ) fun d hd z hz =>
        erase_lowered hfill hcol hi hsplits hh heq (.inl ⟨by omega, hd⟩) hz
  · have hb := (List.getElem?_eq_some_iff.mp hp).1
    have houterρ := agrees_outer hfill hρ
    have houterσ := agrees_outer hfill hσ
    have hvalued {ρ : ℕ → Term} (hρ : Agrees (branchColumns cols j col.term h) (branchBase h ρ₀) ρ)
        (hv : ValuedUpTo env sol' others (branchColumns cols j col.term h) (j + b) ρ) :
        ValuedUpTo env sol' others cols j (outer h ρ) :=
      valuedUpTo_outer hfill hcol hi le_rfl hρ fun d hd => hv d (by omega)
    have htype : (col.type.inst (outer h ρ)).erase = (col.type.inst (outer h σ)).erase := by
      refine hfill.depends j col _ _ hcol houterρ houterσ (hvalued hρ hvρ)
        (hvalued hσ hvσ) fun d hd y hy => ?_
      rw [← lift_inst_outer, ← lift_inst_outer]
      exact heq d (by omega) _ (branchColumns_of_before hj hd hy)
    have hpop := hfill.populated j col _ hcol houterρ (hvalued hρ hvρ)
    rw [argColumn, lift_inst_inner _ hb.le, lift_inst_inner _ hb.le]
    exact hsplits.erase_args henv ⟨hkeeps, hfill.fits _ houterρ⟩ ⟨hkeeps, hfill.fits _ houterσ⟩
      hpop htype hh hp (by simp [length_inner, hb.le]) (erase_inner hcol heq le_rfl hb.le)
  · rw [refinedColumn, hi, refine_inst_lowered, refine_inst_lowered]
    exact hfill.depends _ y _ _ hy hloweredρ hloweredσ
      (valuedUpTo_lowered_after hfill hcol hi henv hsplits hkeeps hh hρ hvρ)
      (valuedUpTo_lowered_after hfill hcol hi henv hsplits hkeeps hh hσ hvσ) fun d hd z hz =>
        erase_lowered hfill hcol hi hsplits hh heq (.inr ⟨by omega, by omega⟩) hz

/-- The columns of a branch can be given values one after the other. -/
theorem Fillable.branch :
    Fillable env sol' others (L.under h.args.length) (branchColumns cols j col.term h)
      (branchBase h ρ₀) where
  vars x hx := by
    have hj := (List.getElem?_eq_some_iff.mp hcol).1
    obtain ⟨a, ha⟩ := List.getElem?_of_mem hx
    rcases term_branchColumns hj _ h ha with ⟨b, y, hy, hterm, -⟩ | ⟨b, -, -, hterm⟩
    · obtain ⟨l, hl⟩ := hfill.vars y (List.mem_of_getElem? hy)
      exact ⟨_, by rw [hterm, hl, Term.lift_var]⟩
    · exact ⟨_, hterm⟩
  distinct a b x y hx hy hxy := by
    have hj := (List.getElem?_eq_some_iff.mp hcol).1
    rcases term_branchColumns hj _ h hx with ⟨a', x', hx', hxterm, ha⟩ | ⟨a', ha, rfl, hxterm⟩ <;>
      rcases term_branchColumns hj _ h hy with ⟨b', y', hy', hyterm, hb⟩ | ⟨b', hb, rfl, hyterm⟩
    · obtain ⟨l, hl⟩ := hfill.vars x' (List.mem_of_getElem? hx')
      obtain ⟨m, hm⟩ := hfill.vars y' (List.mem_of_getElem? hy')
      rw [hxterm, hyterm, hl, hm, Term.lift_var, Term.lift_var, Term.var.injEq,
        Nat.add_right_cancel_iff] at hxy
      have := hfill.distinct a' b' x' y' hx' hy' (by rw [hl, hm, hxy])
      omega
    · obtain ⟨l, hl⟩ := hfill.vars x' (List.mem_of_getElem? hx')
      rw [hxterm, hyterm, hl, Term.lift_var, Term.var.injEq] at hxy
      omega
    · obtain ⟨l, hl⟩ := hfill.vars y' (List.mem_of_getElem? hy')
      rw [hxterm, hyterm, hl, Term.lift_var, Term.var.injEq] at hxy
      omega
    · rw [hxterm, hyterm, Term.var.injEq] at hxy
      omega
  fits ρ hρ := by
    have hfits := (hfill.fits _ (agrees_outer hfill hρ)).under (inner h ρ)
    rwa [length_inner, pushAll_inner] at hfits
  populated a x ρ hx hρ hv := populated_branch hfill hcol hi henv hsplits hkeeps hh hx hρ hv
  depends a x ρ σ hx hρ hσ hvρ hvσ heq :=
    depends_branch hfill hcol hi henv hsplits hkeeps hh hx hρ hσ hvρ hvσ heq

end Split

end Values

end Branch

end Elaborator

end LeveledTypes
