import LeveledTypes.Elaboration.Declaration
import LeveledTypes.Proofs.Conversion.Blocked
import LeveledTypes.Proofs.Elaboration.Declaration
import LeveledTypes.Proofs.Elaboration.State
import LeveledTypes.Proofs.Level.Completeness
import LeveledTypes.Proofs.Prelude.Arithmetic
import LeveledTypes.Proofs.Reduction.Whnf

/-!
# Elaboration of functions on natural numbers

Where all types are those of natural numbers, and of functions between them, elaboration finds
everything at once: it makes no holes but those for universes, and nothing is left for later. So it
succeeds, and the terms that it returns are spelled as the expressions are.
-/
namespace LeveledTypes

/-- From a state with an invariant the computation returns a value as said, in a state with the
invariant. -/
def Delivers {ε σ α : Type} (I : σ → Prop) (x : EStateM ε σ α) (Q : α → Prop) : Prop :=
  ∀ s, I s → ∃ a t, x s = .ok a t ∧ I t ∧ Q a

namespace Delivers
variable {ε σ α β : Type} {I : σ → Prop} {x : EStateM ε σ α} {f : α → EStateM ε σ β}
  {P P' : α → Prop} {Q : β → Prop}

theorem pure {a : α} (h : P a) : Delivers I (pure a : EStateM ε σ α) P :=
  fun s hs => ⟨a, s, rfl, hs, h⟩

theorem bind (hx : Delivers I x P) (hf : ∀ a, P a → Delivers I (f a) Q) :
    Delivers I (x >>= f) Q := by
  intro s hs
  obtain ⟨a, t, hr, ht, ha⟩ := hx s hs
  obtain ⟨b, u, hr', hu, hb⟩ := hf a ha t ht
  exact ⟨b, u, (bind_of_ok hr).trans hr', hu, hb⟩

theorem mono (hx : Delivers I x P) (h : ∀ a, P a → P' a) : Delivers I x P' := by
  intro s hs
  obtain ⟨a, t, hr, ht, ha⟩ := hx s hs
  exact ⟨a, t, hr, ht, h a ha⟩

theorem forIn {as : List α} {g : α → PUnit → EStateM ε σ (ForInStep PUnit)}
    (h : ∀ a ∈ as, Delivers I (g a ⟨⟩) (· = .yield ⟨⟩)) :
    Delivers I (forIn as PUnit.unit g) fun _ => True := by
  induction as with
  | nil => exact .pure trivial
  | cons a as ih =>
    obtain ⟨ha, has⟩ := List.forall_mem_cons.mp h
    rw [List.forIn_cons]
    refine .bind ha fun r hr => ?_
    rw [hr]
    exact ih has

theorem mapM_pair {a b : α} {R : β → Prop} (ha : Delivers I (f a) Q) (hb : Delivers I (f b) R) :
    Delivers I ([a, b].mapM f) fun ys => ∃ y z, ys = [y, z] ∧ Q y ∧ R z := by
  simp only [List.mapM_cons, List.mapM_nil, bind_assoc, pure_bind]
  exact .bind ha fun y hy => .bind hb fun z hz => .pure ⟨y, z, rfl, hy, hz⟩

end Delivers

open Primitive (globalName)

/-- The types of natural numbers, as they are elaborated or in weak head normal form. -/
inductive Term.IsNat : Term → Prop
  | nat : IsNat .nat
  | ref (u : Universe) : IsNat (.ref (globalName "Nat") u)

/-- The types of functions with a number of explicit parameters between natural numbers. -/
inductive Term.Curried : ℕ → Term → Prop
  | nat {t : Term} : t.IsNat → Curried 0 t
  | pi {k : ℕ} {x : Binder} {a b : Term} : x.info = .explicit → a.IsNat → Curried k b →
    Curried (k + 1) (.pi x a b)

namespace Term
variable {t : Term} {k : ℕ}

theorem IsNat.replace (h : t.IsNat) (f : ℕ → ℕ → Term) (g : Universe → Universe) (c : ℕ) :
    (t.replace f g c).IsNat := by
  cases h with
  | nat => exact .nat
  | ref u => exact .ref (g u)

theorem Curried.replace (h : t.Curried k) (f : ℕ → ℕ → Term) (g : Universe → Universe) (c : ℕ) :
    (t.replace f g c).Curried k := by
  induction h generalizing c with
  | nat h => exact .nat (h.replace f g c)
  | pi hx ha _ ih => exact .pi hx (ha.replace f g c) (ih (c + 1))

theorem IsNat.lift (h : t.IsNat) (n : ℕ) : (t.lift n).IsNat := by
  rw [lift_eq_replaceVars]
  exact h.replace _ _ _

theorem Curried.substLevels (h : t.Curried k) (u : Universe) : (t.substLevels u).Curried k := by
  obtain ⟨g, hg⟩ := exists_mapUniverses u
  rw [hg]
  exact h.replace _ _ _

theorem Curried.subst (h : t.Curried k) (a : Term) : (t.subst a).Curried k := h.replace _ _ _

end Term

/-- The type of natural numbers reduces to the primitive type, whichever of its two forms it has. -/
theorem Reducer.whnf_nat {r : Reducer} {depth : ℕ} {t : Term} {s : ReductionState}
    (henv : r.env.Defines (globalName "Nat") 0 (.primitive .nat)) (ht : t.IsNat) :
    r.whnf depth t s = .ok .nat s := by
  have hnat : r.whnfGas depth 999999999999999999 .nat s = .ok .nat s := whnfGas_of_isRigid .nat
  cases ht with
  | nat => exact whnfGas_of_isRigid .nat
  | ref u =>
    obtain ⟨d, hd, -, htele, hbody⟩ := henv
    have hlength : d.tele.length = ([] : List Term).length := htele
    have hdelta : r.delta (r.whnfGas depth 999999999999999999) (globalName "Nat") u [] s =
        .ok .nat s := by
      simp only [delta, hd, hlength, hbody]
      exact hnat
    exact (whnfGas_apps_ref hd hlength).trans hdelta

namespace Elaborator

open Surface

/-- Nothing is left to be found: there are no holes, no constraints on terms or levels, and no
goals. -/
structure Quiet (own : Registry) (s : ElaborationState) : Prop where
  own_eq : s.own = own
  holes : s.conversion.store.holes = #[]
  constraints : s.conversion.store.constraints = []
  first : s.conversion.store.p = {}
  second : s.conversion.store.h = {}
  obligations : s.obligations = []
  goals : s.goals = []

/-- The primitives are what they are in the prelude, and a function has a type with so many
parameters. -/
def HasPrimitives (env : Environment) : Prop :=
  ∀ d ∈ Primitive.definitions, env.get? d.name = some d

/-- The global is a function with so many parameters. -/
def Takes (env : Environment) (n : GlobalName) (k : ℕ) : Prop :=
  ∃ d, env.get? n = some d ∧ (Term.pis d.tele d.type).Curried k

variable {e : Elaborator} {own : Registry} {c : Context} {t type type' : Term} {span : Span} {k : ℕ}

theorem HasPrimitives.nat {env : Environment} (h : HasPrimitives env) :
    ∃ d, env.get? (globalName "Nat") = some d ∧ d.tele = [] ∧ d.type = .univ .zero ∧
      d.body = .primitive .nat :=
  ⟨_, h _ (List.mem_of_getElem? (i := 0) rfl), rfl, rfl, rfl⟩

theorem HasPrimitives.takes_zero {env : Environment} (h : HasPrimitives env) :
    Takes env (globalName "zero") 0 :=
  ⟨_, h _ (List.mem_of_getElem? (i := 1) rfl), .nat .nat⟩

theorem HasPrimitives.takes_suc {env : Environment} (h : HasPrimitives env) :
    Takes env (globalName "suc") 1 :=
  ⟨_, h _ (List.mem_of_getElem? (i := 2) rfl), .pi rfl .nat (.nat .nat)⟩

theorem delivers_environment : Delivers (Quiet own) e.environment (· = ⟨e.base, own⟩) :=
  fun s hs => ⟨_, s, rfl, hs, by rw [hs.own_eq]⟩

theorem delivers_freshUniverse : Delivers (Quiet own) freshUniverse fun _ => True := by
  rintro ⟨own', ⟨store, memo⟩, obligations, goals, warnings⟩ hs
  exact ⟨_, _, rfl, ⟨hs.own_eq, hs.holes, hs.constraints, hs.first, hs.second, hs.obligations,
    hs.goals⟩, trivial⟩

/-- A global is mentioned at a fresh universe, which is all that is left open. -/
theorem delivers_global {n : GlobalName} {d : Definition}
    (hd : (⟨e.base, own⟩ : Environment).get? n = some d) :
    Delivers (Quiet own) (e.global n span) fun p => ∃ u, p = (.ref n u, d.fullType u) := by
  unfold global
  extract_lets join
  have hjoin (u : Universe) : Delivers (Quiet own) (join u) fun p => ∃ u, p =
      (.ref n u, d.fullType u) := by
    refine .bind delivers_environment fun env henv => ?_
    rw [henv, hd]
    exact .pure ⟨u, rfl⟩
  split
  · exact .bind (.pure (P := fun _ => True) trivial) fun u _ => hjoin u
  · exact .bind delivers_freshUniverse fun u _ => hjoin u

section Nat
variable (henv : (⟨e.base, own⟩ : Environment).Defines (globalName "Nat") 0 (.primitive .nat))

include henv

theorem delivers_whnf_nat (ht : t.IsNat) : Delivers (Quiet own) (e.whnf c t span) (· = .nat) := by
  intro s hs
  rw [← hs.own_eq] at henv
  exact ⟨_, s, whnf_eq_ok (Reducer.whnf_nat henv ht), hs, rfl⟩

/-- All types of natural numbers are convertible. -/
theorem delivers_subtype (hroom : 0 < e.limits.conversionDepth) (ht : t.IsNat)
    (htype : type.IsNat) : Delivers (Quiet own) (e.subtype c t type span) fun _ => True := by
  intro s hs
  rw [← hs.own_eq] at henv
  obtain ⟨room, hroom⟩ := Nat.exists_eq_succ_of_ne_zero hroom.ne'
  have hwhnf {t : Term} (ht : t.IsNat) :
      Converter.whnf ⟨⟨e.base, s.own⟩, c.locals, e.limits, span⟩ 0 t s.conversion =
        .ok .nat s.conversion :=
    Converter.whnf_eq_ok (Reducer.whnf_nat henv ht)
  have hconvert : Converter.convert ⟨⟨e.base, s.own⟩, c.locals, e.limits, span⟩ .le t
      type s.conversion = .ok () s.conversion := by
    rw [Converter.convert, hroom, Converter.convertIn]
    split
    · rfl
    · exact (bind_of_ok (hwhnf ht)).trans ((bind_of_ok (hwhnf htype)).trans rfl)
  have hconverter : e.converter c span s = .ok ⟨⟨e.base, s.own⟩, c.locals, e.limits, span⟩ s := rfl
  refine ⟨(), s, (bind_of_ok hconverter).trans ?_, hs, trivial⟩
  change EStateM.tryCatch _ _ s = _
  rw [EStateM.tryCatch, converting, hconvert]

end Nat

/-- The expression is built from variables for natural numbers and globals by applying functions
between natural numbers. -/
inductive FirstOrder (env : Environment) (c : Context) : Expr → ℕ → Prop
  | localVar {span : Span} {v : Variable} {t type : Term} :
    c.lookup? v = some (t, type) → type.IsNat →
      FirstOrder env c (.localVar span v) 0
  | globalRef {span : Span} {n : GlobalName} {k : ℕ} : Takes env n k →
    FirstOrder env c (.globalRef span n) k
  | app {span : Span} {f a : Expr} {k : ℕ} : FirstOrder env c f (k + 1) → FirstOrder env c a 0 →
      FirstOrder env c (.app span f .explicit a) k

/-- The term that a variable stands for. -/
def meaning (c : Context) (v : Variable) : Term := ((c.lookup? v).map (·.1)).getD default

/-- The term is spelled as the expression is, with what stands for its variables, and globals at any
universes. -/
def Renders (c : Context) : Expr → Term → Prop
  | .localVar _ v, t => t = meaning c v
  | .globalRef _ n, t => ∃ u, t = .ref n u
  | .app _ f _ a, t => ∃ g b, t = .app g b ∧ Renders c f g ∧ Renders c a b
  | _, _ => False

/-- A bound for the nesting of calls that an application takes. -/
def callDepth : Expr → ℕ
  | .app _ f _ a => max (callDepth f) (callDepth a) + 2
  | _ => 1

section Expressions
variable (henv : (⟨e.base, own⟩ : Environment).Defines (globalName "Nat") 0 (.primitive .nat))
  (hroom : 0 < e.limits.conversionDepth) {x : Expr} {gas : ℕ}

include henv hroom

/-- An expression of a natural number is checked by inferring its type. -/
theorem delivers_checkWith {r : Recursion} (hx : FirstOrder ⟨e.base, own⟩ c x 0)
    (htype : type.IsNat) (hinfer : Delivers (Quiet own) (r.infer c x) fun y => Renders c x y.term ∧
      y.type.Curried 0) :
    Delivers (Quiet own) (e.checkWith r c x type) (Renders c x) := by
  have hplain : e.checkPlain r c x type .nat = do
      let y ← r.infer c x
      let y ← e.insertImplicits c .nat x.span unboundedGas y
      e.subtype c y.type type x.span
      return y.term := by
    cases hx <;> rfl
  refine .bind (delivers_whnf_nat henv htype) fun expected hexpected => ?_
  rw [hexpected]
  change Delivers (Quiet own) (e.checkPlain r c x type .nat) _
  rw [hplain]
  refine .bind hinfer fun y ⟨hy, hcurried⟩ => ?_
  cases hcurried with
  | nat hnat =>
    have hinsert : Delivers (Quiet own)
        (e.insertImplicits c .nat x.span unboundedGas y) (· = y) := by
      refine .bind (delivers_whnf_nat henv hnat) fun expected hexpected => ?_
      rw [hexpected]
      exact .pure rfl
    refine .bind hinsert fun z hz => ?_
    rw [hz]
    exact .bind (delivers_subtype henv hroom hnat htype) fun _ _ => .pure hy

/-- The induction is on the expression. An argument is a natural number, so that its type is
compared at once and no constraint is left. -/
theorem delivers_infer (hx : FirstOrder ⟨e.base, own⟩ c x k) (hgas : callDepth x ≤ gas) :
    Delivers (Quiet own) (e.inferGas gas c x) fun y => Renders c x y.term ∧ y.type.Curried k := by
  induction hx generalizing gas with
  | @localVar span v t type hlookup htype =>
    obtain ⟨gas, rfl⟩ := Nat.exists_eq_succ_of_ne_zero (Nat.one_le_iff_ne_zero.mp hgas)
    have hvar : Elaborator.localVar c v span = pure (t, type) := by
      rw [Elaborator.localVar, hlookup]
    refine .bind (P := (· = (t, type))) (hvar ▸ .pure rfl) fun y hy => ?_
    rw [hy]
    exact .pure ⟨by simp [Renders, meaning, hlookup], .nat htype⟩
  | globalRef h =>
    obtain ⟨gas, rfl⟩ := Nat.exists_eq_succ_of_ne_zero (Nat.one_le_iff_ne_zero.mp hgas)
    obtain ⟨d, hd, hcurried⟩ := h
    refine .bind (delivers_global hd) fun y ⟨u, hy⟩ => ?_
    rw [hy]
    exact .pure ⟨⟨u, rfl⟩, hcurried.substLevels u⟩
  | @app span f a k _ ha ihf iha =>
    rw [callDepth] at hgas
    obtain ⟨gas, rfl⟩ := Nat.exists_eq_add_of_le' (show 2 ≤ gas by omega)
    refine .bind (@ihf (gas + 1) (by omega)) fun y ⟨hy, hcurried⟩ => ?_
    obtain ⟨t, type⟩ := y
    cases hcurried with
    | @pi _ q dom cod hq hdom hcod =>
      have hwhnf : Delivers (Quiet own) (e.whnf c (.pi q dom cod) span) (· = .pi q dom cod) :=
        fun s hs =>
        ⟨_, s, whnf_eq_ok (Reducer.whnfGas_of_isRigid .pi), hs, rfl⟩
      refine .bind hwhnf fun type' htype' => ?_
      rw [htype']
      simp only [hq, if_true]
      refine .bind (delivers_checkWith henv hroom ha hdom (iha (by omega))) fun s hs => ?_
      exact .pure ⟨⟨_, _, rfl, hy, hs⟩, hcod.subst s⟩

theorem delivers_check (hx : FirstOrder ⟨e.base, own⟩ c x 0) (htype : type.IsNat)
    (hgas : callDepth x < gas) : Delivers (Quiet own) (e.checkGas gas c x type) (Renders c x) := by
  obtain ⟨gas, rfl⟩ := Nat.exists_eq_succ_of_ne_zero (Nat.ne_zero_of_lt hgas)
  exact delivers_checkWith henv hroom hx htype
    (delivers_infer henv hroom hx (Nat.lt_succ_iff.mp hgas))

end Expressions

section Patterns

/-- The constructors of the natural numbers. -/
def zeroHead : Head := ⟨.zero, globalName "zero", [], none⟩

/-- The successor as the head of a branch. -/
def succHead : Head := ⟨.succ, globalName "suc", [{ Binder.named "n" with type := .nat }], none⟩

/-- Patterns of natural numbers: variables and constructors with as many arguments as they have. -/
inductive NatPattern : Pattern → Prop
  | var (span : Span) (v : Variable) : NatPattern (.var span v)
  | zero (span : Span) : NatPattern (.con span (globalName "zero") [])
  | suc (span : Span) (p : Pattern) : NatPattern (.con span (globalName "suc") [p])

/-- The patterns that a pattern contributes for a constructor, unless it cannot match it. -/
def contributed (h : Head) : Pattern → Option (List Pattern)
  | .var span _ => some (List.replicate h.args.length (.var span .anonymous))
  | .con _ c ps => if c = h.name then some ps else none
  | _ => none

/-- The clause for a constructor, if its pattern can match it. -/
def specialized (c : Context) (j : ℕ) (type : Term) (h : Head) (r : Row) : Option Row := do
  let p ← r.patterns[j]?
  let ps ← contributed h p
  let meaning := p.bound?.map fun v => (v, ⟨h.term, type.lift h.args.length, c.length⟩)
  return { r with
    patterns := r.patterns.take j ++ ps ++ r.patterns.drop (j + 1)
    bound := r.bound ++ meaning.toList }

/-- The context of a right-hand side, where the variables of the patterns stand for the columns. -/
def leafContext (c : Context) (row : Row) (cols : List Column) : Context :=
  let vars := (row.patterns.zip cols).filterMap fun (p, x) =>
    p.bound?.map fun v => (v, (⟨x.term, x.type, c.length⟩ : Alias))
  (row.bound ++ vars).foldl (fun c (v, a) => c.addAlias v a) c

variable {h : Head} {p : Pattern} {r : Row} {rs : List Row} {j : ℕ}

theorem specialize_eq (hp : NatPattern p) (hh : h = zeroHead ∨ h = succHead) :
    specialize p h = pure (contributed h p) := by
  cases hp <;> obtain rfl | rfl := hh <;> rfl

theorem specializeRow_eq (hr : ∀ p ∈ r.patterns[j]?, NatPattern p)
    (hh : h = zeroHead ∨ h = succHead) :
    specializeRow c j type h r = pure (specialized c j type h r) := by
  unfold specializeRow specialized
  cases hp : r.patterns[j]? with
  | none => rfl
  | some p =>
    simp only [specialize_eq (hr p hp) hh, pure_bind, Option.bind_eq_bind, Option.bind_some]
    cases contributed h p <;> rfl

theorem filterMapM_specializeRow (hrs : ∀ r ∈ rs, ∀ p ∈ r.patterns[j]?, NatPattern p)
    (hh : h = zeroHead ∨ h = succHead) :
    rs.filterMapM (specializeRow c j type h) = pure (rs.filterMap (specialized c j type h)) := by
  induction rs with
  | nil => rfl
  | cons r rs ih =>
    obtain ⟨hr, hrs⟩ := List.forall_mem_cons.mp hrs
    rw [List.filterMapM_cons, specializeRow_eq hr hh, pure_bind, ih hrs, List.filterMap_cons]
    cases specialized c j type h r <;> simp

/-- No pattern of natural numbers is refused. -/
theorem forM_checkPattern (hrs : ∀ r ∈ rs, ∀ p ∈ r.patterns[j]?, NatPattern p) :
    (rs.forM fun r => (r.patterns[j]?).toList.forM (checkPattern c type [zeroHead, succHead])) =
      pure () := by
  induction rs with
  | nil => rfl
  | cons r rs ih =>
    obtain ⟨hr, hrs⟩ := List.forall_mem_cons.mp hrs
    have hcheck : (r.patterns[j]?).toList.forM
        (checkPattern c type [zeroHead, succHead]) = pure () := by
      cases hp : r.patterns[j]? with
      | none => rfl
      | some p => cases hr p hp <;> rfl
    change ((r.patterns[j]?).toList.forM (checkPattern c type [zeroHead, succHead]) >>= fun _ =>
      rs.forM fun r => (r.patterns[j]?).toList.forM (checkPattern c type [zeroHead, succHead])) =
        pure ()
    rw [hcheck, pure_bind, ih hrs]

end Patterns

section Types
variable (n : GlobalName) (u : Universe)

@[simp] theorem lift_ref (k : ℕ) : (Term.ref n u).lift k = .ref n u := by
  rw [Term.lift_eq_replaceVars]
  rfl

@[simp] theorem motive_ref (t : Term) : (Term.ref n u).motive t = .ref n u := by
  cases t
  case var => rfl
  all_goals exact lift_ref n u 1

@[simp] theorem refine_ref (t con : Term) (k : ℕ) : (Term.ref n u).refine t k con = .ref n u := by
  cases t
  case var =>
    change ((Term.ref n u).shift k 1).subst con = _
    rw [Term.shift_eq_replaceVars]
    rfl
  all_goals exact lift_ref n u k

end Types

section Splitting
variable {check : Context → Expr → Term → Elab Term} {cs : List (Clause Expr)} {gas j : ℕ}
  {row : Row} {rows : List Row} {cols : List Column} {u : Universe}

/-- A branch ends with the right-hand side of a clause all of whose patterns are variables. -/
theorem delivers_split_leaf {clause : Clause Expr} {rhs : Expr} {goal : Term} {Q : Term → Prop}
    (hvars : row.patterns.findIdx? (fun p => !p.isVar) = none)
    (hclause : cs[row.index]? = some clause) (hrhs : clause.rhs = some rhs)
    (hcheck : Delivers (Quiet own) (check (leafContext c row cols) rhs goal) Q) :
    Delivers (Quiet own) (e.split check cs span (gas + 1) c row rows cols goal) fun y => Q y.1 ∧
    y.2.missing = [] := by
  have hleaf : e.split check cs span (gas + 1) c row rows cols goal =
      leaf check c cs row cols goal := by
    rw [split, hvars]
    simp
  rw [hleaf, leaf, hclause]
  simp only [hrhs]
  exact .bind hcheck fun t ht => .pure ⟨ht, rfl⟩

variable (henv : (⟨e.base, own⟩ : Environment).Defines (globalName "Nat") 0 (.primitive .nat))

include henv

theorem delivers_heads (htype : type.IsNat) :
    Delivers (Quiet own) (e.heads? c type span) (· = some [zeroHead, succHead]) := by
  refine .bind (delivers_whnf_nat henv htype) fun t ht => ?_
  rw [ht]
  exact .pure rfl

/-- A column of natural numbers is split into the clauses for zero and those for a successor. -/
theorem delivers_split_nat {p : Pattern} {t : Term} {x : String} {z s : Row} {zs ss : List Row}
    {P Q : Term → Prop} (hj : row.patterns.findIdx? (fun p => !p.isVar) = some j)
    (hp : row.patterns[j]? = some p) (hcol : cols[j]? = some ⟨t, type⟩) (htype : type.IsNat)
    (hrows : ∀ r ∈ row :: rows, ∀ p ∈ r.patterns[j]?, NatPattern p)
    (hx : succHead.names j (row :: rows) = [x])
    (hz : (row :: rows).filterMap (specialized c j type zeroHead) = z :: zs)
    (hs : (row :: rows).filterMap
      (specialized (c.push ⟨⟨x, 0⟩, .explicit⟩ .nat) j type succHead) = s :: ss)
    (hzero : Delivers (Quiet own)
      (e.split check cs span gas c z zs (branchColumns cols j t zeroHead)
      (.ref (globalName "Nat") u)) fun y => P y.1 ∧ y.2.missing = [])
    (hsucc : Delivers (Quiet own) (e.split check cs span gas (c.push ⟨⟨x, 0⟩, .explicit⟩ .nat) s ss
      (branchColumns cols j t succHead) (.ref (globalName "Nat") u)) fun y => Q y.1 ∧
      y.2.missing = []) :
    Delivers (Quiet own) (e.split check cs span (gas + 1) c row rows cols
      (.ref (globalName "Nat") u)) fun y =>
      (∃ a b, y.1 = Prelude.natCase u t a x b ∧ P a ∧ Q b) ∧ y.2.missing = [] := by
  unfold split
  simp only [hj, Option.getD_some, hp, hcol]
  refine .bind (delivers_heads henv htype) fun heads hheads => ?_
  rw [hheads]
  simp only [forM_checkPattern hrows, pure_bind, refine_ref, motive_ref]
  have hnames : zeroHead.names j (row :: rows) = [] := rfl
  refine .bind (.mapM_pair (Q := fun part => (∃ a, part.1 = some ⟨.zero, [], a⟩ ∧ P a) ∧
    part.2.missing = [])
    (R := fun part => (∃ b, part.1 = some ⟨.succ, [x], b⟩ ∧ Q b) ∧
      part.2.missing = []) ?zero ?succ) ?_
  case zero =>
    rw [hnames, filterMapM_specializeRow hrows (.inl rfl), pure_bind]
    generalize hleft : List.filterMap _ (row :: rows) = left
    obtain rfl : left = z :: zs := hleft.symm.trans hz
    exact .bind hzero fun y hy => .pure ⟨⟨y.1, rfl, hy.1⟩, hy.2⟩
  case succ =>
    rw [hx, filterMapM_specializeRow hrows (.inr rfl), pure_bind]
    generalize hleft : List.filterMap _ (row :: rows) = left
    obtain rfl : left = s :: ss := hleft.symm.trans hs
    exact .bind hsucc fun y hy => .pure ⟨⟨y.1, rfl, hy.1⟩, hy.2⟩
  rintro _ ⟨⟨_, cz⟩, ⟨_, cs⟩, rfl, ⟨⟨a, rfl, ha⟩, hcz⟩, ⟨b, rfl, hb⟩, hcs⟩
  refine .pure ⟨⟨a, b, rfl, ha, hb⟩, ?_⟩
  change ([] ++ cz.missing) ++ cs.missing = []
  rw [hcz, hcs]
  rfl

end Splitting

section Clauses
variable {check : Context → Expr → Term → Elab Term} {cs : List (Clause Expr)} {row : Row}
  {rows : List Row} {cols : List Column} {goal : Term} {gas : ℕ} {Q : Term → Prop}

/-- Clauses with a pattern for each column elaborate as the case tree that they are compiled into,
if it covers everything. -/
theorem delivers_clauses (hlength : ∀ k ∈ cs, k.patterns.length = cols.length)
    (hrows : cs.zipIdx.map (fun (k, i) => (⟨i, k.patterns, []⟩ : Row)) = row :: rows)
    (hgas : (row :: rows).foldl (fun n r => n + Pattern.weightAll r.patterns) 1 = gas)
    (hsplit : Delivers (Quiet own) (e.split check cs span gas c row rows cols goal) fun y => Q y.1 ∧
      y.2.missing = []) :
    Delivers (Quiet own) (e.clauses check c cs cols goal span) Q := by
  have hloop : Delivers (Quiet own) (forIn cs PUnit.unit fun k _ => do
      if k.patterns.length ≠ cols.length then
        mismatch (counted cols.length "patterns") (counted k.patterns.length "patterns") k.span
      pure (.yield PUnit.unit) : Elab PUnit) fun _ => True := by
    refine .forIn fun k hk => ?_
    rw [if_neg (not_not.mpr (hlength k hk))]
    exact .pure rfl
  refine .bind hloop fun _ _ => ?_
  rw [hrows]
  simp only [hgas]
  refine .bind hsplit fun y ⟨ht, hy⟩ => ?_
  simp only [hy, List.isEmpty_nil, Bool.not_true, Bool.false_eq_true, if_false]
  refine .bind (P := fun _ => True) (fun s hs => ⟨_, _, rfl, ?_, trivial⟩) fun _ _ => .pure ht
  exact ⟨hs.own_eq, hs.holes, hs.constraints, hs.first, hs.second, hs.obligations, hs.goals⟩

end Clauses

section Declarations

/-- The type of natural numbers elaborates to itself, at a fresh universe. -/
theorem delivers_inferType (hprim : HasPrimitives ⟨e.base, own⟩) (place : Span) :
    Delivers (Quiet own) (e.inferType c (.globalRef place (globalName "Nat"))) fun y => ∃ u,
      y.1 = .ref (globalName "Nat") u := by
  obtain ⟨d, hd, htele, htype, -⟩ := hprim.nat
  have huniv (u : Universe) : ∃ v, d.fullType u = .univ v := by
    obtain ⟨g, hg⟩ := Term.exists_mapUniverses u
    rw [Definition.fullType, hg, htele, htype]
    exact ⟨_, rfl⟩
  have hglobal : Delivers (Quiet own)
      (e.recursion.infer c (.globalRef place (globalName "Nat"))) fun y =>
      (∃ u, y.term = .ref (globalName "Nat") u) ∧ ∃ v, y.type = .univ v := by
    refine .bind (delivers_global hd) fun y ⟨u, hy⟩ => ?_
    rw [hy]
    exact .pure ⟨⟨u, rfl⟩, huniv u⟩
  refine .bind hglobal fun y ⟨⟨u, hu⟩, v, hv⟩ => ?_
  have hwhnf : Delivers (Quiet own) (e.whnf c y.type place) (· = .univ v) := by
    rw [hv]
    exact fun s hs => ⟨_, s, whnf_eq_ok (Reducer.whnfGas_of_isRigid .univ), hs, rfl⟩
  refine .bind hwhnf fun k hk => ?_
  rw [hk]
  exact .pure ⟨u, hu⟩

/-- The parameter is one for a natural number. -/
def IsNatParam (p : Param Expr) : Prop :=
  p.info = .explicit ∧ ∃ place, p.type = .globalRef place (globalName "Nat")

/-- The elaborated parameters: the same binders for natural numbers. -/
def NatTele (ps : Telescope Expr) (tele : Telescope Term) : Prop :=
  List.Forall₂ (fun p q => q.toBinder = p.toBinder ∧
    ∃ u, q.type = .ref (globalName "Nat") u) ps tele

/-- Parameters of natural numbers are elaborated to themselves. -/
theorem delivers_tele (hprim : HasPrimitives ⟨e.base, own⟩) {ps : Telescope Expr}
    (hps : ∀ p ∈ ps, IsNatParam p) :
    Delivers (Quiet own) (e.tele c ps) fun y => y.1 = c.pushTele y.2.1 ∧ NatTele ps y.2.1 := by
  induction ps generalizing c with
  | nil => exact .pure ⟨rfl, .nil⟩
  | cons p ps ih =>
    obtain ⟨⟨-, place, hp⟩, hps⟩ := List.forall_mem_cons.mp hps
    refine .bind (hp ▸ delivers_inferType hprim place) fun y ⟨u, hu⟩ => .bind
      (ih hps) fun z ⟨hcontext, htele⟩ => ?_
    exact .pure ⟨hcontext, .cons ⟨rfl, u, hu⟩ htele⟩

theorem zonk_eq_mapUniverses {s : Store} (h : s.holes = #[]) :
    ∃ g, ∀ t, s.zonk t = t.mapUniverses g := by
  have hzonk (t : Term) : s.zonk t = t.fillLevels s.levelSolution? := by
    rw [Store.zonk, h]
    rfl
  exact ⟨_, hzonk⟩

/-- Where nothing is left to be found, the levels have a solution. -/
theorem solveAll_of_quiet {s : ElaborationState} (hs : Quiet own s) :
    ∃ solved, e.solveAll s = .ok () { s with conversion := { s.conversion with store := solved } } ∧
      solved.holes = #[] := by
  obtain ⟨ps, hps⟩ := LevelGraph.solve_empty s.conversion.store.pLevels
  obtain ⟨qs, hqs⟩ := LevelGraph.solve_empty s.conversion.store.hLevels
  refine ⟨{ s.conversion.store with levelSolutions := qs ++ ps },
    solveAll_of_idle hs.obligations hs.goals hs.constraints ?_, hs.holes⟩
  rw [← hs.first] at hps
  rw [← hs.second] at hqs
  rw [Store.solveLevels, hps, hqs]
  rfl

/-- What the clauses of a function are matched against: its parameters. -/
def paramColumns (c : Context) : List Column :=
  (c.entries.zipIdx.filter fun (x, _) => x.binder.info = .explicit).reverse.map fun (x, i) =>
    ⟨.var i, x.type.lift (i + 1)⟩

/-- The function before its body is known. -/
def pendingFunction (d : Decl) (tele : Telescope Term) (u : Universe) : Definition :=
  { span := d.span, name := d.name, tele, type := .ref (globalName "Nat") u, body := .pending }

theorem NatTele.holes_eq_nil {ps : Telescope Expr} {tele : Telescope Term} (h : NatTele ps tele) :
    ∀ t ∈ typesOf tele, t.holes = [] := by
  intro t ht
  obtain ⟨q, hq, rfl⟩ := List.mem_map.mp ht
  obtain ⟨i, hi, rfl⟩ := List.mem_iff_getElem.mp hq
  obtain ⟨-, u, hu⟩ := (List.forall₂_iff_get.mp h).2 i (h.length_eq ▸ hi) hi
  rw [List.get_eq_getElem] at hu
  rw [hu]
  rfl

theorem ensureSolved_of_holes_eq_nil {ts : List Term} {s : ElaborationState}
    (h : ∀ t ∈ ts, t.holes = []) : ensureSolved ts s = .ok () s := by
  have hnone : ts.findSome? (fun t => t.holes.head?) = none :=
    List.findSome?_eq_none_iff.mpr fun t ht => by rw [h t ht, List.head?_nil]
  have hstore : store s = .ok s.conversion.store s := rfl
  refine (bind_of_ok hstore).trans ?_
  rw [hnone]
  rfl

theorem NatTele.mapUniverses {ps : Telescope Expr} {tele : Telescope Term} (h : NatTele ps tele)
    (g : Universe → Universe) : NatTele ps (tele.map (·.map (·.mapUniverses g))) := by
  refine List.forall₂_map_right_iff.mpr (List.Forall₂.imp ?_ h)
  rintro p q ⟨hbinder, u, hu⟩
  refine ⟨hbinder, g u, ?_⟩
  simp only [Param.map, hu]
  rfl

/-- Terms of this form can be bodies of a function, at whatever universes: they have no holes and no
binders, and their recursive calls descend. -/
structure BodyForm (n : GlobalName) (arity : ℕ) (P : Term → Prop) : Prop where
  mapUniverses : ∀ t g, P t → P (t.mapUniverses g)
  nameOnly : ∀ t, P t → t.nameOnly = t
  holes : ∀ t, P t → t.holes = []
  descent : ∀ t, P t → Descent.check n arity t ≠ .rejected

/-- A function between natural numbers that is given by clauses has a body of a form, if the clauses
elaborate to terms of this form. -/
theorem exists_func {d : Decl} {place : Span} {cs : List (Clause Expr)} {P : Term → Prop}
    {s : ElaborationState} (hs : Quiet own s) (hprim : HasPrimitives ⟨e.base, own⟩)
    (hparams : ∀ p ∈ d.tele, IsNatParam p) (hbody : ∀ tele u, NatTele d.tele tele →
      Delivers (Quiet (own.insert (pendingFunction d tele u)))
        (e.clauses e.recursion.check (({} : Context).pushTele tele) cs
          (paramColumns (({} : Context).pushTele tele)) (.ref (globalName "Nat") u) d.span) P)
    (hP : BodyForm d.name d.tele.length P) :
    ∃ tele u t k p s', e.func d (some (.globalRef place (globalName "Nat"))) (.clauses cs) s =
      .ok [⟨d.span, d.name, tele, .ref (globalName "Nat") u, .func t k, [], default⟩] s' ∧
      NatTele d.tele tele ∧ P t ∧ s'.own = own.insert p ∧ p.name = d.name := by
  obtain ⟨⟨c, tele, us⟩, s₁, h₁, hs₁, hc, htele⟩ := delivers_tele (c := {}) hprim hparams s hs
  obtain ⟨⟨ret, v⟩, s₂, h₂, hs₂, u, hret⟩ := delivers_inferType (c := c) hprim place s₁ hs₁
  simp only at hc hret
  subst hc hret
  have hannounce : announce d.span d.name tele (.ref (globalName "Nat") u) s₂ =
      .ok () { s₂ with own := s₂.own.insert (pendingFunction d tele u) } := rfl
  have hs₃ : Quiet (own.insert (pendingFunction d tele u))
      { s₂ with own := s₂.own.insert (pendingFunction d tele u) } :=
    ⟨by rw [hs₂.own_eq], hs₂.holes, hs₂.constraints, hs₂.first, hs₂.second,
        hs₂.obligations, hs₂.goals⟩
  obtain ⟨body, s₄, h₄, hs₄, hbody⟩ := hbody tele u htele _ hs₃
  obtain ⟨solved, h₅, hholes₅⟩ := solveAll_of_quiet (e := e) hs₄
  obtain ⟨g, hg⟩ := zonk_eq_mapUniverses hholes₅
  have htele' : NatTele d.tele (zonkTele solved tele) := by
    have hzonk : zonkTele solved tele = tele.map (·.map (·.mapUniverses g)) := by
      rw [zonkTele, funext hg]
    exact hzonk ▸ htele.mapUniverses g
  have hbody' : P (solved.zonk body) := hg body ▸ hP.mapUniverses body g hbody
  have hret : solved.zonk (.ref (globalName "Nat") u) = .ref (globalName "Nat") (g u) := hg _
  let s₅ : ElaborationState := { s₄ with conversion := { s₄.conversion with store := solved } }
  have hstore : store s₅ = .ok solved s₅ := rfl
  have hensure : ensureSolved (typesOf (zonkTele solved tele) ++
      [solved.zonk (.ref (globalName "Nat") u), solved.zonk body]) s₅ = .ok () s₅ := by
    refine ensureSolved_of_holes_eq_nil fun t ht => ?_
    rcases List.mem_append.mp ht with ht | ht
    · exact htele'.holes_eq_nil t ht
    · rcases List.mem_pair.mp ht with rfl | rfl
      · rw [hret]
        rfl
      · exact hP.holes _ hbody'
  have hlength : (zonkTele solved tele).length = d.tele.length := htele'.length_eq.symm
  have hreturn : (pure (Term.ref (globalName "Nat") u) : Elab Term) s₂ =
      .ok (.ref (globalName "Nat") u) s₂ := rfl
  have hdescent := hP.descent _ hbody'
  rw [← hlength] at hdescent
  rsuffices ⟨k, hfunc⟩ : ∃ k, e.func d (some (.globalRef place (globalName "Nat")))
    (.clauses cs) s =
      .ok [⟨d.span, d.name, zonkTele solved tele, .ref (globalName "Nat") (g u),
        .func (solved.zonk body) k, [], default⟩] s₅
  · exact ⟨_, g u, _, k, pendingFunction d tele u, s₅, hfunc, htele', hbody', hs₄.own_eq, rfl⟩
  refine Exists.imp (fun k hk =>
    (bind_of_ok h₁).trans ((bind_of_ok h₂).trans
      ((bind_of_ok hreturn).trans
        ((bind_of_ok hannounce).trans
          ((bind_of_ok h₄).trans ((bind_of_ok h₅).trans ((bind_of_ok hstore).trans
      ((bind_of_ok hensure).trans hk)))))))) ?_
  rw [hret]
  cases h : Descent.check d.name (zonkTele solved tele).length (solved.zonk body) with
  | notRecursive => exact ⟨none, rfl⟩
  | along k => exact ⟨some k, rfl⟩
  | rejected => exact absurd h hdescent

end Declarations

end Elaborator

end LeveledTypes
