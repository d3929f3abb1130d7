import LeveledTypes.Proofs.Elaboration.Selection
import LeveledTypes.Scope

/-!
# What the variables of a clause stand for

Name resolution gives every variable of a clause an identity of its own. So each of them is looked
up, where the right-hand side of the clause is elaborated, as what the patterns bind it to.
-/
namespace LeveledTypes

open Surface

namespace Surface.Clause

/-- The variables of a clause are told apart from each other and from those of the context, as name
resolution makes them. -/
structure Fresh (k : Clause Expr) (c : Context) : Prop where
  distinct : (Pattern.varsAll k.patterns).Pairwise fun v w => v.same w = false
  bound : ∀ v ∈ Pattern.varsAll k.patterns, v.id ≠ 0
  outer : ∀ v ∈ Pattern.varsAll k.patterns, ∀ x ∈ c.entries, x.binder.var.same v = false

end Surface.Clause

namespace Resolver
variable {n n' : ℕ}

/-- Variables with different identities, from `n` up to `n'`. -/
structure Numbered (n n' : ℕ) (vs : List Variable) : Prop where
  le : n ≤ n'
  range : ∀ v ∈ vs, n ≤ v.id ∧ v.id < n'
  distinct : vs.Pairwise fun v w => v.same w = false

theorem Numbered.nil (n : ℕ) : Numbered n n [] := ⟨le_rfl, by simp, by simp⟩

theorem Numbered.single (n : ℕ) (name : String) (span : Span) :
    Numbered n (n + 1) (Pattern.vars (.var span ⟨name, n⟩)) := by
  rw [Pattern.vars, Pattern.bound?]
  split
  · exact ⟨by omega, by simp, by simp⟩
  · exact ⟨by omega, by simp, by simp⟩

/-- Numbered lists are put together if the second one goes on where the first one ends. -/
theorem Numbered.append {m : ℕ} {vs ws : List Variable} (hv : Numbered n m vs)
    (hw : Numbered m n' ws) : Numbered n n' (vs ++ ws) := by
  refine ⟨hv.le.trans hw.le, fun v h => ?_,
    List.pairwise_append.mpr ⟨hv.distinct, hw.distinct, fun v hvs w hws => ?_⟩⟩
  · have hvle := hv.le
    have hwle := hw.le
    rcases List.mem_append.mp h with h | h
    · have := hv.range v h
      omega
    · have := hw.range v h
      omega
  · have hvlt := (hv.range v hvs).2
    have hwle := (hw.range w hws).1
    rw [Variable.same, beq_eq_false_iff_ne]
    omega

mutual

/-- The variables that a pattern binds once its names are resolved are new and different. -/
theorem numbered_of_pattern (r : Resolver) (p : Pattern) {s s' : State} {p' : Pattern}
    {vs vs' : List Variable} (hp : p.vars = []) (h : r.pattern p vs s = .ok (p', vs') s') :
    Numbered s.next s'.next p'.vars := by
  cases p with
  | var span v =>
    obtain ⟨heq, rfl⟩ := EStateM.Result.ok.inj h
    obtain ⟨rfl, -⟩ := Prod.mk.inj heq
    exact hp ▸ .nil s.next
  | num span k =>
    obtain ⟨heq, rfl⟩ := EStateM.Result.ok.inj h
    obtain ⟨rfl, -⟩ := Prod.mk.inj heq
    exact .nil s.next
  | absurd span =>
    obtain ⟨heq, rfl⟩ := EStateM.Result.ok.inj h
    obtain ⟨rfl, -⟩ := Prod.mk.inj heq
    exact .nil s.next
  | con span k args =>
    obtain ⟨⟨args', ws⟩, m, hargs, h⟩ := bind_eq_ok.mp h
    obtain ⟨heq, rfl⟩ := EStateM.Result.ok.inj h
    obtain ⟨rfl, -⟩ := Prod.mk.inj heq
    exact numbered_of_patternAll r args hp hargs
  | name span k args =>
    unfold pattern at h
    cases hctor : r.ctor? k with
    | some c =>
      simp only [hctor] at h
      obtain ⟨⟨args', ws⟩, m, hargs, h⟩ := bind_eq_ok.mp h
      obtain ⟨heq, rfl⟩ := EStateM.Result.ok.inj h
      obtain ⟨rfl, -⟩ := Prod.mk.inj heq
      exact numbered_of_patternAll r args hp hargs
    | none =>
      simp only [hctor] at h
      cases args with
      | cons => contradiction
      | nil =>
        dsimp only at h
        split at h
        case isTrue =>
          obtain ⟨_, _, hfail, -⟩ := bind_eq_ok.mp h
          contradiction
        case isFalse =>
          obtain ⟨heq, rfl⟩ := EStateM.Result.ok.inj h
          obtain ⟨rfl, -⟩ := Prod.mk.inj heq
          exact .single s.next k span

/-- The variables that resolution makes for a list of patterns have new numbers, in order. -/
theorem numbered_of_patternAll (r : Resolver) (ps : List Pattern) {s s' : State}
    {ps' : List Pattern} {vs vs' : List Variable} (hps : Pattern.varsAll ps = [])
    (h : r.patternAll ps vs s = .ok (ps', vs') s') :
    Numbered s.next s'.next (Pattern.varsAll ps') := by
  cases ps with
  | nil =>
    obtain ⟨heq, rfl⟩ := EStateM.Result.ok.inj h
    obtain ⟨rfl, -⟩ := Prod.mk.inj heq
    exact .nil s.next
  | cons p ps =>
    obtain ⟨hp, hps⟩ := List.append_eq_nil_iff.mp hps
    obtain ⟨⟨p', ws⟩, m, hrun, h⟩ := bind_eq_ok.mp h
    obtain ⟨⟨ps'', us⟩, k, hrest, h⟩ := bind_eq_ok.mp h
    obtain ⟨heq, rfl⟩ := EStateM.Result.ok.inj h
    obtain ⟨rfl, -⟩ := Prod.mk.inj heq
    exact (numbered_of_pattern r p hp hrun).append (numbered_of_patternAll r ps hps hrest)

end

/-- A clause whose names are resolved has variables of its own in a context of variables bound
before. -/
theorem fresh_of_patternAll {r : Resolver} {ps : List Pattern} {k : Clause Expr}
    {vs : List Variable} {c : Context} {s s' : State} (hps : Pattern.varsAll ps = [])
    (h : r.patternAll ps [] s = .ok (k.patterns, vs) s') (hs : 0 < s.next)
    (hc : ∀ x ∈ c.entries, x.binder.var.id < s.next) : k.Fresh c := by
  obtain ⟨-, hrange, hdistinct⟩ := numbered_of_patternAll r ps hps h
  refine ⟨hdistinct, fun v hv => ?_, fun v hv x hx => ?_⟩
  · have := (hrange v hv).1
    omega
  · have hv := (hrange v hv).1
    have hx := hc x hx
    rw [Variable.same, beq_eq_false_iff_ne]
    omega

end Resolver

namespace Elaborator
variable {check : Context → Expr → Term → Elab Term} {cs : List (Clause Expr)} {c inner : Context}
  {goal t u : Term} {ρ σ : ℕ → Term} {bs : List (Variable × Term)}

/-- Of aliases that are told apart, each is found by its variable. -/
theorem find?_alias {added rest : List (Variable × Alias)} {v : Variable} {a : Alias}
    (hdistinct : (added.map (·.1)).Pairwise fun v w => v.same w = false) (hmem : (v, a) ∈ added) :
    (added ++ rest).find? (fun p => p.1.same v) = some (v, a) := by
  induction added with
  | nil => contradiction
  | cons p added ih =>
    rw [List.map_cons, List.pairwise_cons] at hdistinct
    obtain ⟨hp, hdistinct⟩ := hdistinct
    rcases List.mem_cons.mp hmem with rfl | hmem
    · simp [Variable.same]
    · have hv := hp v (List.mem_map_of_mem hmem)
      rw [List.cons_append, List.find?_cons, hv]
      exact ih hdistinct hmem

/-- The variables of a clause are looked up as what its patterns bind them to. -/
theorem Arrives.lookup? {r : Row} {k : Clause Expr}
    (ha : Arrives check cs c goal t ρ r bs inner u σ) (hpatterns : r.patterns = k.patterns)
    (hbound : r.bound = []) (hfresh : k.Fresh c) :
    ∀ b ∈ bs, ∃ w type, inner.lookup? b.1 = some (w, type) ∧ (w.inst σ).erase = b.2.erase := by
  obtain ⟨new, hnew, hid, -⟩ := ha.extends_context
  obtain ⟨added, hadded, hperm, -, hbinds⟩ := ha.binds
  rw [hbound, hpatterns, List.map_nil, List.nil_append] at hperm
  intro b hb
  obtain ⟨a, hmem, hvalue⟩ := hbinds b hb
  have hvar : b.1 ∈ Pattern.varsAll k.patterns := hperm.mem_iff.mp (List.mem_map_of_mem hmem)
  have hentries : inner.entries.findIdx? (fun x => x.binder.var.same b.1) = none := by
    rw [List.findIdx?_eq_none_iff, hnew]
    intro x hx
    rcases List.mem_append.mp hx with hx | hx
    · rw [Variable.same, hid x hx]
      exact beq_eq_false_iff_ne.mpr (hfresh.bound _ hvar).symm
    · exact hfresh.outer _ hvar x hx
  have hsymm : ∀ v w : Variable, v.same w = false → w.same v = false := fun v w h => by
    rwa [Variable.same, Bool.beq_comm]
  have hdistinct := (hperm.pairwise_iff (fun {v w} => hsymm v w)).mpr hfresh.distinct
  have hlookup : inner.lookup? b.1 =
      some (a.value.lift (inner.length - a.depth), a.type.lift (inner.length - a.depth)) := by
    rw [Context.lookup?, hentries, hadded, find?_alias hdistinct hmem]
    rfl
  exact ⟨_, _, hlookup, hvalue⟩

end Elaborator

end LeveledTypes
