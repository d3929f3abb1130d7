import LeveledTypes.Proofs.Prelude.Definitions
import LeveledTypes.Proofs.Session.Contents

/-!
# Arithmetic over the prelude

The definitions that the text of the prelude gives compute: an arithmetic expression normalizes to
the numeral of its value, unless fuel runs out.
-/
namespace LeveledTypes.Prelude

open Primitive (globalName)

/-- Where the functions on natural numbers are defined as in the prelude, they are their case
trees. -/
theorem Arithmetic.hasArithmetic {ds : List Definition} {env : Environment} (h : Arithmetic ds)
    (henv : ∀ d ∈ Primitive.definitions ++ ds, env.get? d.name = some d) : HasArithmetic env := by
  have hprimitive {d : Definition} (hd : d ∈ Primitive.definitions) :
      env.Defines d.name d.tele.length d.body :=
    ⟨d, henv d (List.mem_append_left _ hd), rfl, rfl, rfl⟩
  have hfunction {P : Term → Prop} {n : GlobalName} {k : ℕ}
      (hd : ∃ d ∈ ds, Elaborator.IsFunction d n k P) :
      ∃ t j, env.Defines n k (.func t j) ∧ P t := by
    obtain ⟨d, hd, hname, hlength, -, t, j, hbody, ht⟩ := hd
    exact ⟨t, j, ⟨d, hname ▸ henv d (List.mem_append_right _ hd), hname, hlength, hbody⟩, ht⟩
  exact {
    nat := hprimitive (List.mem_of_getElem? (i := 0) rfl)
    zero := hprimitive (List.mem_of_getElem? (i := 1) rfl)
    succ := hprimitive (List.mem_of_getElem? (i := 2) rfl)
    plus := by
      obtain ⟨_, j, hdefines, u, v, w, rfl⟩ := hfunction h.plus
      exact ⟨u, v, w, j, hdefines⟩
    mul := by
      obtain ⟨_, j, hdefines, u, v, w, x, rfl⟩ := hfunction h.mul
      exact ⟨u, v, w, x, j, hdefines⟩
    pred := by
      obtain ⟨_, j, hdefines, u, v, rfl⟩ := hfunction h.pred
      exact ⟨u, v, j, hdefines⟩
    minus := by
      obtain ⟨_, j, hdefines, u, v, w, x, rfl⟩ := hfunction h.minus
      exact ⟨u, v, w, x, j, hdefines⟩ }

/-- The definitions of the prelude have different names. -/
theorem nodup_prelude (base : Registry) (limits : Limits) {m : Surface.Module}
    (hread : Surface.Module.read source.name text = .ok m) : ((Primitive.definitions ++
      (elaborateModule base limits text m (Primitive.definitions.map (·.name))).definitions).map
        (·.name)).Nodup := by
  have hnames := sublist_names_of_elaborateModule base limits text m
    (Primitive.definitions.map (·.name))
  rw [(decls_of_read hread).2.2.1] at hnames
  rw [List.map_append]
  refine List.Nodup.sublist (hnames.append_left _) ?_
  decide

/-- Normalizing an arithmetic expression over the definitions that the text of the prelude gives
returns the numeral of its value, with enough fuel and room for nested calls, and has no other
outcome with less of them than that they run out. -/
theorem nfGas_arithmetic {base : Registry} {limits : Limits} {m : Surface.Module}
    {env : Environment} (hbase : ∀ d ∈ Primitive.definitions, base.get? d.name = some d)
    (hroom : 0 < limits.conversionDepth) (hread : Surface.Module.read source.name text = .ok m)
    (henv : ∀ d ∈ Primitive.definitions ++
      (elaborateModule base limits text m (Primitive.definitions.map (·.name))).definitions,
        env.get? d.name = some d)
    {t : Term} {n : ℕ} (h : Expression t n) :
    ∃ fuel₀ gas₀, ∀ fuel gas, match (Reducer.bare env).nfGas gas 0 t ⟨fuel, {}⟩ with
      | .ok v _ => v = .numeral n
      | .error .fuel _ => fuel < fuel₀
      | .error .gas _ => gas < gas₀ :=
  nfGas_of_expression ((arithmetic_of_read hbase hroom hread).hasArithmetic henv) h

/-- Two and three times one, less the predecessor of the successor of four. -/
def sampleExpression : Term :=
  let call (short : String) (as : List Term) := (Term.ref (globalName short) .zero).apps as
  call "minus" [call "plus" [.numeral 2, call "mul" [.numeral 3, .numeral 1]],
    call "pred" [call "suc" [.numeral 4]]]

/-- The expression has the value one, over the prelude as it is read and elaborated from the
primitives under the default limits. -/
theorem nfGas_arithmetic_sample : ∃ m, Surface.Module.read source.name text = .ok m ∧
    (∀ d ∈ Primitive.definitions, primitives.get? d.name = some d) ∧
    0 < ({} : Limits).conversionDepth ∧ ∃ env, (∀ d ∈ Primitive.definitions ++
      (elaborateModule primitives {} text m (Primitive.definitions.map (·.name))).definitions,
        env.get? d.name = some d) ∧
    Expression sampleExpression 1 ∧
    ∃ fuel₀ gas₀, ∀ fuel gas, match (Reducer.bare env).nfGas gas 0 sampleExpression ⟨fuel, {}⟩ with
      | .ok v _ => v = .numeral 1
      | .error .fuel _ => fuel < fuel₀
      | .error .gas _ => gas < gas₀ := by
  obtain ⟨m, hread⟩ := exists_read
  have hbase : ∀ d ∈ Primitive.definitions, primitives.get? d.name = some d :=
    fun d hd => get?_primitives.mpr ⟨hd, rfl⟩
  let P := Primitive.definitions ++
    (elaborateModule primitives {} text m (Primitive.definitions.map (·.name))).definitions
  have henv : ∀ d ∈ P, (⟨registry P, {}⟩ : Environment).get? d.name = some d := by
    intro d hd
    rw [Environment.get?, Registry.get?_empty, Option.none_or]
    exact (Registry.get?_insertAll (nodup_prelude primitives {} hread) {} d.name d).mpr
      (.inl ⟨hd, rfl⟩)
  have hexpression : Expression sampleExpression 1 :=
    .minus _ (.plus _ (.numeral 2) (.mul _ (.numeral 3) (.numeral 1)))
      (.pred _ (.suc _ (.numeral 4)))
  exact ⟨m, hread, hbase, by decide, _, henv, hexpression,
    nfGas_arithmetic hbase (by decide) hread henv hexpression⟩

end LeveledTypes.Prelude
