import LeveledTypes.Elaboration.Matching
import LeveledTypes.Proofs.Reduction.Whnf
import Mathlib.Tactic.Tauto

/-!
# What patterns match

A pattern matches a constructor value, and binds its variables to subterms of the value. The first
of a list of clauses whose patterns match is the one that is meant. Taking a row of patterns apart
under a constructor changes neither whether it matches nor what it binds.
-/
namespace LeveledTypes

open Surface

/-- The name of the constructor at the root of a value, with its arguments. -/
def Term.named? : Term → Option (GlobalName × List Term)
  | .con n _ _ xs => some (n, xs)
  | .zero => some (Primitive.globalName "zero", [])
  | .succ a => some (Primitive.globalName "suc", [a])
  | _ => none

namespace Surface.Pattern

mutual

/-- The named variables of a pattern, from left to right. -/
def vars : Pattern → List Variable
  | p@(.var _ _) => p.bound?.toList
  | .con _ _ ps | .name _ _ ps => varsAll ps
  | .num _ _ | .absurd _ => []

def varsAll : List Pattern → List Variable
  | [] => []
  | p :: ps => vars p ++ varsAll ps

end

theorem varsAll_append (ps qs : List Pattern) : varsAll (ps ++ qs) = varsAll ps ++ varsAll qs := by
  induction ps with
  | nil => rfl
  | cons p ps ih => simp [varsAll, ih]

theorem varsAll_anonymous (span : Span) (n : ℕ) :
    varsAll (List.replicate n (.var span .anonymous)) = [] := by
  induction n with
  | zero => rfl
  | succ n ih =>
    have hvar : vars (.var span .anonymous) = [] := rfl
    simp [List.replicate_succ, varsAll, ih, hvar]

/-- The value of the variable at the root of a pattern. -/
def binding (p : Pattern) (t : Term) : List (Variable × Term) := p.bound?.toList.map (·, t)

mutual

/-- Matches a value, and gives the values of the named variables. -/
def match? : Pattern → Term → Option (List (Variable × Term))
  | p@(.var _ _), t => some (p.binding t)
  | .con _ c ps, t =>
    match t.named? with
    | some (n, xs) => if c = n then matchAll? ps xs else none
    | none => none
  | .num _ n, t => if t.number? = some n then some [] else none
  | .name _ _ _, _ | .absurd _, _ => none

/-- Matches values with as many patterns, one by one. -/
def matchAll? : List Pattern → List Term → Option (List (Variable × Term))
  | [], [] => some []
  | p :: ps, t :: ts =>
    match match? p t, matchAll? ps ts with
    | some bs, some cs => some (bs ++ cs)
    | _, _ => none
  | _, _ => none

end

theorem matchAll?_append {ps qs : List Pattern} {ts us : List Term} (h : ps.length = ts.length) :
    matchAll? (ps ++ qs) (ts ++ us) = (matchAll? ps ts).bind fun bs =>
      (matchAll? qs us).map (bs ++ ·) := by
  induction ps generalizing ts with
  | nil =>
    obtain rfl := List.length_eq_zero_iff.mp h.symm
    simp [matchAll?]
  | cons p ps ih =>
    cases ts with
    | nil => simp at h
    | cons t ts =>
      simp only [List.cons_append, matchAll?, ih (Nat.succ.inj h)]
      cases match? p t <;> cases matchAll? ps ts <;> cases matchAll? qs us <;> simp

/-- Variables match everything. -/
theorem matchAll?_of_isVar {ps : List Pattern} {ts : List Term} (hlen : ps.length = ts.length)
    (h : ∀ p ∈ ps, p.isVar = true) :
    matchAll? ps ts = some ((ps.zip ts).flatMap fun x => x.1.binding x.2) := by
  induction ps generalizing ts with
  | nil =>
    obtain rfl := List.length_eq_zero_iff.mp hlen.symm
    rfl
  | cons p ps ih =>
    obtain ⟨hp, hps⟩ := List.forall_mem_cons.mp h
    cases ts with
    | nil => simp at hlen
    | cons t ts =>
      have hpt : match? p t = some (p.binding t) := by cases p <;> simp_all [isVar, match?]
      simp [matchAll?, hpt, ih (Nat.succ.inj hlen) hps]

theorem matchAll?_anonymous (span : Span) (ts : List Term) :
    matchAll? (List.replicate ts.length (.var span .anonymous)) ts = some [] := by
  induction ts with
  | nil => rfl
  | cons t ts ih =>
    have ht : match? (.var span .anonymous) t = some [] := rfl
    simp [List.replicate_succ, matchAll?, ih, ht]

end Surface.Pattern

namespace Term

theorem numberFrom?_eq (t : Term) (n : ℕ) : t.numberFrom? n = t.number?.map (· + n) := by
  have h (t : Term) : ∀ m n, t.numberFrom? (m + n) = (t.numberFrom? m).map (· + n) := by
    induction t with
    | succ a ih => exact fun m n => by simpa [numberFrom?, Nat.add_right_comm] using ih (m + 1) n
    | zero => exact fun m n => by simp [numberFrom?]
    | _ => exact fun m n => by simp [numberFrom?]
  simpa [number?] using h t 0 n

@[simp] theorem number?_zero : Term.zero.number? = some 0 := rfl

@[simp] theorem number?_succ (a : Term) : (Term.succ a).number? = a.number?.map (· + 1) :=
  numberFrom?_eq a 1

end Term

/-- The value has the constructor of the head, with as many arguments. -/
structure Head.Heads (h : Head) (v : Term) (xs : List Term) : Prop where
  constructor : Reducer.constructor? v = some (h.head, xs)
  named : v.named? = some (h.name, xs)
  length : h.args.length = xs.length

/-- What a pattern contributes for the constructor of a value matches the arguments of the value if
the pattern matches the value. -/
def Surface.Pattern.Contributes (p : Pattern) (v : Term) (xs : List Term) :
    Option (List Pattern) → Prop
  | some qs => qs.length = xs.length ∧ p.match? v = (matchAll? qs xs).map (p.binding v ++ ·)
  | none => p.match? v = none

namespace Elaborator
variable {p : Pattern} {h : Head} {v : Term} {xs : List Term} {s s' : ElaborationState}

/-- Specialization does what matching does: a pattern is replaced by the patterns of the arguments
if it can match, and the row is dropped if it cannot. -/
theorem contributes_of_specialize {o : Option (List Pattern)} (hv : h.Heads v xs)
    (ho : specialize p h s = .ok o s') : s' = s ∧ p.Contributes v xs o := by
  cases p with
  | var span w =>
    obtain ⟨rfl, rfl⟩ := EStateM.Result.ok.inj ho
    refine ⟨rfl, by simp [hv.length], ?_⟩
    rw [hv.length, Pattern.matchAll?_anonymous]
    simp [Pattern.match?]
  | con span c ps =>
    have hmatch : (Pattern.con span c ps).match? v =
        if c = h.name then Pattern.matchAll? ps xs else none := by
      simp [Pattern.match?, hv.named]
    by_cases hc : c = h.name
    · rw [if_pos hc] at hmatch
      by_cases hlen : ps.length = h.args.length
      · have hrun : specialize (.con span c ps) h s = .ok (some ps) s := by
          simp only [specialize, hc, hlen, ne_eq, not_true, if_false]
          rfl
        obtain ⟨rfl, rfl⟩ := EStateM.Result.ok.inj (hrun.symm.trans ho)
        exact ⟨rfl, hlen.trans hv.length, by simp [hmatch, Pattern.binding, Pattern.bound?]⟩
      · simp only [specialize, hc, hlen, ne_eq, not_true, not_false_eq_true, if_false,
          if_true] at ho
        obtain ⟨_, _, hfail, -⟩ := bind_eq_ok.mp ho
        contradiction
    · have hrun : specialize (.con span c ps) h s = .ok none s := by
        simp only [specialize, hc, ne_eq, not_false_eq_true, if_true]
        rfl
      obtain ⟨rfl, rfl⟩ := EStateM.Result.ok.inj (hrun.symm.trans ho)
      exact ⟨rfl, hmatch.trans (if_neg hc)⟩
  | num span n =>
    obtain ⟨hcon, -, -⟩ := hv
    obtain ⟨head, name, args, univ⟩ := h
    cases v <;> simp only [Reducer.constructor?, Option.some.injEq, Prod.mk.injEq,
      reduceCtorEq] at hcon
    all_goals
      obtain ⟨rfl, rfl⟩ := hcon
      cases n <;> obtain ⟨rfl, rfl⟩ := EStateM.Result.ok.inj ho <;> clear ho <;> refine ⟨rfl, ?_⟩
    case succ.succ a n =>
      refine ⟨rfl, ?_⟩
      simp only [Pattern.match?, Pattern.matchAll?, Term.number?_succ, Option.map_eq_some_iff,
        Nat.add_right_cancel_iff, exists_eq_right]
      split <;> rfl
    case zero.zero => exact ⟨rfl, rfl⟩
    case succ.zero a => simp [Pattern.Contributes, Pattern.match?]
    all_goals simp [Pattern.Contributes, Pattern.match?, Term.number?, Term.numberFrom?]
  | name span n ps =>
    obtain ⟨rfl, rfl⟩ := EStateM.Result.ok.inj ho
    exact ⟨rfl, by simp [Pattern.Contributes, Pattern.match?]⟩
  | absurd span =>
    obtain ⟨rfl, rfl⟩ := EStateM.Result.ok.inj ho
    exact ⟨rfl, by simp [Pattern.Contributes, Pattern.match?]⟩

/-- The values of the columns of a branch: the arguments of a constructor take the place of its
value. -/
def branchValues (vs : List Term) (j : ℕ) (xs : List Term) : List Term :=
  vs.take j ++ xs ++ vs.drop (j + 1)

/-- What is left of a clause after its pattern `p` for the value `v` is taken apart. The clause
matches values if what is left of it matches the values of the branch, and what it binds is bound in
the branch or by the pattern. -/
structure RowContinues (r r' : Row) (p : Pattern) (meaning : Alias) (v : Term)
    (vs vs' : List Term) : Prop where
  index : r'.index = r.index
  length : r'.patterns.length = vs'.length
  bound : r'.bound = r.bound ++ p.bound?.toList.map (·, meaning)
  isSome : (Pattern.matchAll? r.patterns vs).isSome = (Pattern.matchAll? r'.patterns vs').isSome
  binds : ∀ bs bs', Pattern.matchAll? r.patterns vs = some bs →
    Pattern.matchAll? r'.patterns vs' = some bs' → ∀ x ∈ bs, x ∈ p.binding v ∨ x ∈ bs'

/-- A clause goes on in the branch of a constructor unless it does not match. -/
theorem continues_of_specializeRow {c : Context} {j : ℕ} {type : Term} {r : Row} {o : Option Row}
    {vs : List Term} (hv : h.Heads v xs) (hlen : r.patterns.length = vs.length)
    (hj : vs[j]? = some v) (ho : specializeRow c j type h r s = .ok o s') : s' = s ∧
      ((o = none ∧ Pattern.matchAll? r.patterns vs = none) ∨ ∃ r' p, o = some r' ∧
        r.patterns[j]? = some p ∧
        RowContinues r r' p ⟨h.term, type.lift h.args.length, c.length⟩ v vs
          (branchValues vs j xs)) := by
  obtain ⟨hjlt, rfl⟩ := List.getElem?_eq_some_iff.mp hj
  have hp : r.patterns[j]? = some r.patterns[j] := List.getElem?_eq_getElem (by omega)
  have hpatterns : r.patterns = r.patterns.take j ++ r.patterns[j] :: r.patterns.drop (j + 1) := by
    simp
  have hvalues : vs = vs.take j ++ vs[j] :: vs.drop (j + 1) := by simp
  generalize r.patterns[j] = p at hp hpatterns
  have hmatch : Pattern.matchAll? r.patterns vs =
      (Pattern.matchAll? (r.patterns.take j) (vs.take j)).bind fun as =>
        (match p.match? vs[j], Pattern.matchAll? (r.patterns.drop (j + 1)) (vs.drop (j + 1)) with
          | some bs, some cs => some (bs ++ cs)
          | _, _ => none).map (as ++ ·) := by
    conv_lhs => rw [hpatterns, hvalues]
    rw [Pattern.matchAll?_append (by simp [hlen]), Pattern.matchAll?]
  unfold specializeRow at ho
  simp only [hp] at ho
  obtain ⟨q, t, hq, ho⟩ := bind_eq_ok.mp ho
  obtain ⟨rfl, hcontributes⟩ := contributes_of_specialize hv hq
  cases q with
  | none =>
    obtain ⟨rfl, rfl⟩ := EStateM.Result.ok.inj ho
    refine ⟨rfl, .inl ⟨rfl, ?_⟩⟩
    rw [hmatch, show p.match? vs[j] = none from hcontributes]
    simp
  | some qs =>
    obtain ⟨rfl, rfl⟩ := EStateM.Result.ok.inj ho
    obtain ⟨hqs, hpq⟩ := hcontributes
    have hbranch : Pattern.matchAll? (r.patterns.take j ++ qs ++ r.patterns.drop (j + 1))
        (branchValues vs j xs) = ((Pattern.matchAll? (r.patterns.take j) (vs.take j)).bind fun as =>
          (Pattern.matchAll? qs xs).map (as ++ ·)).bind fun as =>
            (Pattern.matchAll? (r.patterns.drop (j + 1)) (vs.drop (j + 1))).map (as ++ ·) := by
      rw [branchValues, Pattern.matchAll?_append (by simp [hqs, hlen]),
        Pattern.matchAll?_append (by simp [hlen])]
    rw [hpq] at hmatch
    refine ⟨rfl, .inr ⟨_, p, rfl, hp, rfl, ?_, ?_, ?_, ?_⟩⟩
    · simp [branchValues, hqs, hlen]
    · cases p.bound? <;> rfl
    · rw [hmatch, hbranch]
      cases Pattern.matchAll? (r.patterns.take j) (vs.take j) <;> cases Pattern.matchAll? qs xs <;>
        cases Pattern.matchAll? (r.patterns.drop (j + 1)) (vs.drop (j + 1)) <;> rfl
    · intro bs bs' hbs hbs' x hx
      rw [hmatch] at hbs
      rw [hbranch] at hbs'
      cases hl : Pattern.matchAll? (r.patterns.take j) (vs.take j) <;> cases hm :
        Pattern.matchAll? qs xs <;>
        cases hr : Pattern.matchAll? (r.patterns.drop (j + 1)) (vs.drop (j + 1)) <;> simp
          [hl, hm, hr] at hbs hbs'
      subst hbs hbs'
      simp only [List.mem_append] at hx ⊢
      tauto

end Elaborator

end LeveledTypes
