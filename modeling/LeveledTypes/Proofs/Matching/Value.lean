import LeveledTypes.Proofs.Reduction.Instantiation

/-!
# Values of data types

A closed type has a form if it evaluates to `Nat` or to a data type, and to nothing else of this
kind. The values of such a type are its constructors, applied to values of the types of their
arguments. A guarded constructor builds only those instances of the data type whose arguments its
index patterns match. What the values of other types are is left open.
-/
namespace LeveledTypes

theorem forall₂_of_mapM {α β : Type} {f : α → Option β} {as : List α} {bs : List β}
    (h : as.mapM f = some bs) : List.Forall₂ (fun a b => f a = some b) as bs := by
  induction as generalizing bs with
  | nil =>
    obtain rfl : bs = [] := by simpa using h.symm
    exact .nil
  | cons a as ih =>
    rw [List.mapM_cons] at h
    obtain ⟨b, hb, h⟩ := Option.bind_eq_some_iff.mp h
    obtain ⟨bs, hbs, h⟩ := Option.bind_eq_some_iff.mp h
    obtain rfl := Option.some.inj h
    exact .cons hb (ih hbs)

/-- The types and the indices that values are told apart by. -/
def Term.IsForm : Term → Prop
  | .nat | .data _ _ _ | .zero | .succ _ | .con _ _ _ _ => True
  | _ => False

/-- The only form, up to erasure, that a closed term evaluates to. It may fail to be the only one if
the term has a path whose ends are not those that its function gives. -/
structure HasForm (env : Environment) (sol : ℕ → Option Term) (t form : Term) : Prop where
  evaluates : Evaluates env sol t form
  isForm : form.IsForm
  unique : ∀ form', form'.IsForm → Evaluates env sol t form' → form'.erase = form.erase

section Indices
variable (env : Environment) (sol : ℕ → Option Term)

mutual

/-- An index pattern matches a closed term, and adds the values of its variables to a list. -/
def IndexMatch : Term → Term → List (ℕ × Term) → List (ℕ × Term) → Prop
  | .var i, a, out, out' => out' = (i, a) :: out
  | .zero, a, out, out' => HasForm env sol a .zero ∧ out' = out
  | .succ p, a, out, out' => ∃ b, HasForm env sol a (.succ b) ∧ IndexMatch p b out out'
  | .con k _ _ ps, a, out, out' => ∃ u qs xs, HasForm env sol a (.con k u qs xs) ∧
    IndexMatches ps xs out out'
  | _, _, _, _ => False

def IndexMatches : List Term → List Term → List (ℕ × Term) → List (ℕ × Term) → Prop
  | p :: ps, a :: as, out, out' => ∃ mid, IndexMatch p a out mid ∧ IndexMatches ps as mid out'
  | _, _, out, out' => out' = out

end

/-- A constructor builds the instance of its data type at the given arguments. The values of its
leading parameters are these arguments, or what the index patterns give for their variables. -/
def Definition.Builds (k : Definition) (args values : List Term) : Prop :=
  match k.body with
  | .constructor _ _ params none => values = args ∧ values.length = params ∧ params ≤ k.tele.length
  | .constructor _ _ params (some ps) => params ≤ k.tele.length ∧
    ∃ out, IndexMatches env sol ps args [] out ∧
      (List.range params).mapM (fun i => out.lookup (params - 1 - i)) = some values
  | _ => False

/-- The closed constructor values of a closed type. The values of a type that has no form are
given. -/
inductive Value (others : Term → Term → Prop) : Term → Term → Prop
  | zero {type : Term} : HasForm env sol type .nat → Value others .zero type
  | succ {v type : Term} : HasForm env sol type .nat → Value others v .nat →
    Value others (.succ v) type
  | con {n d : GlobalName} {u w : Universe} {args values qs xs : List Term} {type : Term}
    {data k : Definition}
      {ctors : List GlobalName} : HasForm env sol type (.data d u args) → env.get? d = some data →
      data.body = .data ctors → n ∈ ctors → env.get? n = some k → k.Builds env sol args values →
      values.length + xs.length = k.tele.length →
      (∀ (a : ℕ) p x, k.tele[values.length + a]? = some p → xs[a]? = some x →
        Value others x ((p.type.substLevels u).substAll (values ++ xs.take a))) →
        Value others (.con n w qs xs) type
  | other {v type : Term} : (∀ form : Term, form.IsForm → ¬Evaluates env sol type form) →
    others v type.erase →
      Value others v type

end Indices

variable {env : Environment} {sol : ℕ → Option Term} {others : Term → Term → Prop}
  {t t' form form' v type type' : Term}

theorem HasForm.congr (h : HasForm env sol t form) (ht : t.erase = t'.erase) :
    HasForm env sol t' form where
  evaluates := (Evaluates.congr_left ht).mp h.evaluates
  isForm := h.isForm
  unique form' hform h' := h.unique form' hform ((Evaluates.congr_left ht).mpr h')

/-- There is one value for each leading parameter of the constructor. -/
theorem Definition.length_of_builds {k : Definition} {data : GlobalName} {index params : ℕ}
    {patterns : Option (List Term)} {args values : List Term}
    (hbody : k.body = .constructor data index params patterns) (h : k.Builds env sol args values) :
    values.length = min params k.tele.length := by
  rw [Builds, hbody] at h
  cases patterns with
  | none =>
    obtain ⟨-, hlen, hle⟩ := h
    omega
  | some ps =>
    obtain ⟨hle, out, -, hvalues⟩ := h
    rw [min_eq_left hle, ← (forall₂_of_mapM hvalues).length_eq, List.length_range]

/-- All values of a type are values of each type with the same erasure. -/
theorem Value.congr (h : Value env sol others v type) (ht : type.erase = type'.erase) :
    Value env sol others v type' := by
  cases h with
  | zero hnat => exact .zero (hnat.congr ht)
  | succ hnat hv => exact .succ (hnat.congr ht) hv
  | con hform hdata hbody hn hk hbuilds hlen hxs =>
    exact .con (hform.congr ht) hdata hbody hn hk hbuilds hlen hxs
  | other hnone hv =>
    exact .other (fun form hform h => hnone form hform ((Evaluates.congr_left ht).mpr h)) (ht ▸ hv)

attribute [local simp] Term.IsForm Term.erase

theorem Term.isForm_erase (t : Term) : t.erase.IsForm ↔ t.IsForm := by
  cases t <;> rfl

theorem Term.isForm_of_erase (h : t.erase = t'.erase) (ht : t.IsForm) : t'.IsForm := by
  rwa [← Term.isForm_erase, ← h, Term.isForm_erase]

theorem Term.IsForm.inst (ht : t.IsForm) (ρ : ℕ → Term) : (t.inst ρ).IsForm := by
  cases t <;> simp_all

theorem Term.IsForm.eq_zero {ρ : ℕ → Term} (ht : t.IsForm) (h : (t.inst ρ).erase = .zero) :
    t = .zero := by
  cases t <;> simp_all

theorem Term.IsForm.eq_succ {a : Term} {ρ : ℕ → Term} (ht : t.IsForm)
    (h : (t.inst ρ).erase = .succ a) : ∃ b, t = .succ b := by
  cases t <;> simp_all

theorem Term.IsForm.eq_con {n : GlobalName} {u : Universe} {ps xs : List Term}
    {ρ : ℕ → Term} (ht : t.IsForm) (h : (t.inst ρ).erase = .con n u ps xs) :
    ∃ v qs ys, t = .con n v qs ys := by
  cases t <;> simp_all

theorem HeadStep.not_isForm {L : Locals} (h : HeadStep env sol L t t') : ¬t.IsForm := by
  cases h with
  | @delta n u d args _ hd hlen hc =>
    intro hform
    rcases List.eq_nil_or_concat args with rfl | ⟨as, a, rfl⟩
    · exact hform
    · rw [List.concat_eq_append, Term.apps_append] at hform
      exact hform
  | _ => exact id

/-- A form evaluates to itself only. -/
theorem HasForm.self (h : form.IsForm) : HasForm env sol form form := by
  refine ⟨.refl, h, fun form' hform' heval => ?_⟩
  clear hform'
  induction heval with
  | refl => rfl
  | tail _ hstep ih =>
    rcases hstep with hstep | herase
    · exact absurd (Term.isForm_of_erase ih.symm h) hstep.not_isForm
    · exact herase.symm.trans ih

end LeveledTypes
