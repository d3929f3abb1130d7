import LeveledTypes.Proofs.Elaboration.Naming
import LeveledTypes.Proofs.Likeness.Declaration
import LeveledTypes.Proofs.Prelude.FirstOrder
import LeveledTypes.Proofs.Prelude.Resolution

/-!
# The definitions of the prelude

The functions on natural numbers are the first declarations of the prelude. Each elaborates to the
case tree that its equations are compiled into, whatever the registry has besides the primitives.
-/
namespace LeveledTypes

open Surface
open Primitive (globalName)

namespace Elaborator
variable {base own own' : Registry} {d : Definition} {n : GlobalName} {k : ℕ}

theorem HasPrimitives.defines_nat {env : Environment} (h : HasPrimitives env) :
    env.Defines (globalName "Nat") 0 (.primitive .nat) :=
  ⟨_, h _ (List.mem_of_getElem? (i := 0) rfl), rfl, rfl, rfl⟩

/-- The registry has one more definition, in the place of one of the same name perhaps. -/
def Extends (own own' : Registry) (d : Definition) : Prop :=
  ∀ n, own'.get? n = if d.name = n then some d else own.get? n

theorem extends_insert : Extends own (own.insert d) d := Registry.get?_insert own d

theorem Extends.get?_self (h : Extends own own' d) :
    (⟨base, own'⟩ : Environment).get? d.name = some d := by
  rw [Environment.get?, h, if_pos rfl]
  rfl

theorem Extends.get?_of_ne (h : Extends own own' d) (hd : d.name ≠ n) :
    (⟨base, own'⟩ : Environment).get? n = (⟨base, own⟩ : Environment).get? n := by
  rw [Environment.get?, h, if_neg hd]
  rfl

theorem HasPrimitives.extend (h : HasPrimitives ⟨base, own⟩) (hext : Extends own own' d)
    (hd : d.name ∉ Primitive.definitions.map (·.name)) : HasPrimitives ⟨base, own'⟩ := by
  intro q hq
  rw [hext.get?_of_ne fun hname => hd (hname ▸ List.mem_map_of_mem hq)]
  exact h q hq

theorem Takes.extend (h : Takes ⟨base, own⟩ n k) (hext : Extends own own' d) (hd : d.name ≠ n) :
    Takes ⟨base, own'⟩ n k := by
  obtain ⟨q, hq, hcurried⟩ := h
  exact ⟨q, (hext.get?_of_ne hd).trans hq, hcurried⟩

/-- The definition is a function of natural numbers whose body has the form. -/
structure IsFunction (d : Definition) (n : GlobalName) (k : ℕ) (P : Term → Prop) : Prop where
  name : d.name = n
  length : d.tele.length = k
  curried : (Term.pis d.tele d.type).Curried k
  body : ∃ t j, d.body = .func t j ∧ P t

theorem curried_pis {tele : Telescope Term} {type : Term}
    (htele : ∀ q ∈ tele, q.info = .explicit ∧ q.type.IsNat) (htype : type.IsNat) :
    (Term.pis tele type).Curried tele.length := by
  induction tele with
  | nil => exact .nat htype
  | cons q tele ih =>
    obtain ⟨⟨hinfo, hq⟩, htele⟩ := List.forall_mem_cons.mp htele
    exact .pi hinfo hq (ih htele)

theorem NatTele.explicit {ps : Telescope Expr} {tele : Telescope Term} (h : NatTele ps tele)
    (hps : ∀ p ∈ ps, IsNatParam p) : ∀ q ∈ tele, q.info = .explicit ∧ q.type.IsNat := by
  induction h with
  | nil => simp
  | cons hq _ ih =>
    obtain ⟨hp, hps⟩ := List.forall_mem_cons.mp hps
    obtain ⟨hbinder, u, hu⟩ := hq
    refine List.forall_mem_cons.mpr ⟨⟨?_, hu ▸ .ref u⟩, ih hps⟩
    rw [hbinder]
    exact hp.1

/-- A function can be called while its body is elaborated. -/
theorem NatTele.takes {d : Decl} {tele : Telescope Term} (h : NatTele d.tele tele)
    (hd : ∀ p ∈ d.tele, IsNatParam p) (u : Universe) :
    Takes ⟨base, own.insert (pendingFunction d tele u)⟩ d.name d.tele.length := by
  refine ⟨pendingFunction d tele u, extends_insert.get?_self, ?_⟩
  rw [h.length_eq]
  exact curried_pis (h.explicit hd) (.ref u)

theorem NatTele.eq_singleton {p : Param Expr} {tele : Telescope Term} (h : NatTele [p] tele) :
    ∃ u, tele = [{ p.toBinder with type := .ref (globalName "Nat") u }] := by
  obtain _ | ⟨⟨hq, u, hu⟩, _ | _⟩ := h
  exact ⟨u, by rw [← hq, ← hu]⟩

theorem NatTele.eq_pair {p q : Param Expr} {tele : Telescope Term} (h : NatTele [p, q] tele) :
    ∃ u v, tele = [{ p.toBinder with type := .ref (globalName "Nat") u },
      { q.toBinder with type := .ref (globalName "Nat") v }] := by
  obtain _ | ⟨⟨hp, u, hu⟩, htail⟩ := h
  obtain ⟨v, rfl⟩ := NatTele.eq_singleton htail
  exact ⟨u, v, by rw [← hp, ← hu]⟩

theorem isNat_nameOnly {t : Term} (h : t.IsNat) : t.nameOnly.IsNat := by
  cases h with
  | nat => exact .nat
  | ref u => exact .ref u

theorem curried_nameOnly {t : Term} (h : t.Curried k) : t.nameOnly.Curried k := by
  induction h with
  | nat h => exact .nat (isNat_nameOnly h)
  | pi hx ha _ ih => exact .pi hx (isNat_nameOnly ha) ih

theorem pis_nameOnly (tele : Telescope Term) (type : Term) :
    Term.pis (tele.map fun p => { p.toBinder.nameOnly with type := p.type.nameOnly })
      type.nameOnly = (Term.pis tele type).nameOnly := by
  induction tele with
  | nil => rfl
  | cons p tele ih =>
    rw [List.map_cons, Term.pis, List.foldr_cons, ← Term.pis, ih]
    rfl

/-- Recording dependencies and the digest, and forgetting which variables binders stand for, keeps
the form of a function. -/
theorem isFunction_sealed {d : Definition} {ps : Telescope Expr} {P : Term → Prop} {u : Universe}
    {t : Term} {j : Option ℕ} (htele : NatTele ps d.tele) (hps : ∀ p ∈ ps, IsNatParam p)
    (htype : d.type = .ref (globalName "Nat") u) (hbody : d.body = .func t j) (ht : P t)
    (hP : BodyForm d.name ps.length P) (digest : Digest) :
    IsFunction { d.nameOnly.withDeps with digest } d.name ps.length P where
  name := rfl
  length := by simp [Definition.nameOnly, Definition.withDeps, htele.length_eq]
  curried := by
    have hcurried := curried_nameOnly
      (curried_pis (htele.explicit hps) (htype ▸ .ref u : d.type.IsNat))
    rw [← pis_nameOnly, ← htele.length_eq] at hcurried
    exact hcurried
  body := by
    refine ⟨t, j, ?_, ht⟩
    simp [Definition.nameOnly, Definition.withDeps, hbody, Body.mapTerms, hP.nameOnly t ht]

theorem isNatParam_of_mem {p : Places} {vs : List Variable} :
    ∀ x ∈ p.spread Equations.resolvedParam vs, IsNatParam x := by
  induction vs generalizing p with
  | nil => exact List.forall_mem_nil _
  | cons v vs ih => exact List.forall_mem_cons.mpr ⟨⟨rfl, _, rfl⟩, ih⟩

theorem length_spread {α κ : Type} {f : Places → κ → α} {p : Places} {ks : List κ} :
    (p.spread f ks).length = ks.length := by
  induction ks generalizing p with
  | nil => rfl
  | cons k ks ih => rw [Places.spread, List.length_cons, List.length_cons, ih]

/-- A function whose clauses come to a case tree of the right form is added to the registry, under
its name and with this body. -/
theorem exists_add {limits : Limits} (text : String) {p : Progress} {k : Equations} {q : Places}
    {i : ℕ} {cs : List String} {P : Term → Prop} (hprim : HasPrimitives ⟨base, p.own⟩)
    (hfailed : p.failed = []) (hbody : ∀ tele u, NatTele (k.resolved cs q i).tele tele →
      Delivers (Quiet (p.own.insert (pendingFunction (k.resolved cs q i) tele u)))
        (clauses ⟨base, limits, [k.name]⟩ (recursion ⟨base, limits, [k.name]⟩).check
          (({} : Context).pushTele tele)
          (Equation.resolvedAll cs q.right i k.equations)
          (paramColumns (({} : Context).pushTele tele)) (.ref (globalName "Nat") u) q.span) P)
    (hP : BodyForm k.name k.params.length P) :
    ∃ d p', p.add base limits text (k.resolved cs q i) = (.ok [d], p') ∧
      IsFunction d k.name k.params.length P ∧ p'.failed = [] ∧ Extends p.own p'.own d := by
  have hquiet : Quiet p.own p.start := ⟨rfl, rfl, rfl, rfl, rfl, rfl, rfl⟩
  have hlength : (k.resolved cs q i).tele.length = k.params.length := length_spread
  rw [← hlength] at hP ⊢
  obtain ⟨tele, u, t, j, r, s, hfunc, htele, ht, hown, hr⟩ :=
    exists_func hquiet hprim isNatParam_of_mem hbody hP
  have hnone : ((k.resolved cs q i).globals.find? fun g => p.failed.contains g.1) = none := by
    rw [hfailed]
    exact List.find?_eq_none.mpr fun _ _ => Bool.false_ne_true
  refine ⟨_, _, Progress.add_of_ok hnone hfunc,
    isFunction_sealed htele isNatParam_of_mem rfl rfl ht hP _, hfailed, fun n => ?_⟩
  refine (Registry.get?_insert _ _ n).trans ?_
  split
  · rfl
  · next hne =>
    rw [hown, Registry.get?_insert, if_neg]
    rw [hr]
    exact hne

/-- Nothing has failed, and there are functions of natural numbers besides the primitives. -/
structure Stage (base : Registry) (p : Progress) (fs : List (GlobalName × ℕ)) : Prop where
  failed : p.failed = []
  primitives : HasPrimitives ⟨base, p.own⟩
  functions : ∀ f ∈ fs, Takes ⟨base, p.own⟩ f.1 f.2

/-- A function whose names have been resolved is elaborated, and can be called from then on. -/
theorem Stage.exists_add {p : Progress} {fs : List (GlobalName × ℕ)} {k : Equations}
    {cs : List String} {P : Term → Prop} (h : Stage base p fs) (limits : Limits) (text : String)
    (q : Places) (i : ℕ) (hprim : k.name ∉ Primitive.definitions.map (·.name))
    (hfs : k.name ∉ fs.map (·.1)) (hbody : ∀ own tele u, HasPrimitives ⟨base, own⟩ →
      (∀ f ∈ (k.name, k.params.length) :: fs, Takes ⟨base, own⟩ f.1 f.2) →
      NatTele (k.resolved cs q i).tele tele → Delivers (Quiet own)
        (clauses ⟨base, limits, [k.name]⟩ (recursion ⟨base, limits, [k.name]⟩).check
          (({} : Context).pushTele tele)
          (Equation.resolvedAll cs q.right i k.equations)
          (paramColumns (({} : Context).pushTele tele)) (.ref (globalName "Nat") u) q.span) P)
    (hP : BodyForm k.name k.params.length P) :
    ∃ d p', p.add base limits text (k.resolved cs q i) = (.ok [d], p') ∧
      IsFunction d k.name k.params.length P ∧ Stage base p' ((k.name, k.params.length) :: fs) := by
  have hother : ∀ f ∈ fs, k.name ≠ f.1 := fun f hf hname => hfs (hname ▸ List.mem_map_of_mem hf)
  obtain ⟨d, p', hadd, hd, hfailed, hext⟩ :=
    Elaborator.exists_add text h.primitives h.failed (fun tele u htele => by
    have htakes : Takes ⟨base, p.own.insert (pendingFunction (k.resolved cs q i) tele u)⟩ k.name
        k.params.length := by
      rw [← length_spread]
      exact htele.takes isNatParam_of_mem u
    refine hbody _ tele u (h.primitives.extend extends_insert hprim)
      (List.forall_mem_cons.mpr ⟨htakes, fun f hf => ?_⟩) htele
    exact (h.functions f hf).extend extends_insert (hother f hf)) hP
  refine ⟨d, p', hadd, hd, hfailed, h.primitives.extend hext (hd.name ▸ hprim),
    List.forall_mem_cons.mpr ⟨?_, fun f hf => ?_⟩⟩
  · exact ⟨d, hd.name ▸ hext.get?_self, hd.curried⟩
  · exact (h.functions f hf).extend hext (hd.name ▸ hother f hf)

end Elaborator

namespace Prelude

open Elaborator
open Resolver (primitiveNames ctorNames)

def IsPlus (t : Term) : Prop := ∃ u v w, t = plusBody u v w

def IsMul (t : Term) : Prop := ∃ u v w x, t = mulBody u v w x

def IsPred (t : Term) : Prop := ∃ u v, t = predBody u v

def IsMinus (t : Term) : Prop := ∃ u v w x, t = minusBody u v w x

theorem bodyForm_plus : BodyForm (globalName "plus") 2 IsPlus where
  mapUniverses := by rintro _ g ⟨u, v, w, rfl⟩; exact ⟨g u, g v, g w, rfl⟩
  nameOnly := by rintro _ ⟨u, v, w, rfl⟩; rfl
  holes := by rintro _ ⟨u, v, w, rfl⟩; rfl
  descent := by
    rintro _ ⟨u, v, w, rfl⟩
    exact (show Descent.check (globalName "plus") 2 (plusBody u v w) = .along 0 from rfl) ▸ nofun

theorem bodyForm_mul : BodyForm (globalName "mul") 2 IsMul where
  mapUniverses := by rintro _ g ⟨u, v, w, x, rfl⟩; exact ⟨g u, g v, g w, g x, rfl⟩
  nameOnly := by rintro _ ⟨u, v, w, x, rfl⟩; rfl
  holes := by rintro _ ⟨u, v, w, x, rfl⟩; rfl
  descent := by
    rintro _ ⟨u, v, w, x, rfl⟩
    exact (show Descent.check (globalName "mul") 2 (mulBody u v w x) = .along 0 from rfl) ▸ nofun

theorem bodyForm_pred : BodyForm (globalName "pred") 1 IsPred where
  mapUniverses := by rintro _ g ⟨u, v, rfl⟩; exact ⟨g u, g v, rfl⟩
  nameOnly := by rintro _ ⟨u, v, rfl⟩; rfl
  holes := by rintro _ ⟨u, v, rfl⟩; rfl
  descent := by
    rintro _ ⟨u, v, rfl⟩
    exact (show Descent.check (globalName "pred") 1 (predBody u v) = .notRecursive from rfl) ▸ nofun

theorem bodyForm_minus : BodyForm (globalName "minus") 2 IsMinus where
  mapUniverses := by rintro _ g ⟨u, v, w, x, rfl⟩; exact ⟨g u, g v, g w, g x, rfl⟩
  nameOnly := by rintro _ ⟨u, v, w, x, rfl⟩; rfl
  holes := by rintro _ ⟨u, v, w, x, rfl⟩; rfl
  descent := by
    rintro _ ⟨u, v, w, x, rfl⟩
    exact (show Descent.check (globalName "minus") 2 (minusBody u v w x) =
      .along 0 from rfl) ▸ nofun

section Bodies
variable {e : Elaborator} {own : Registry} {q : Places} {tele : Telescope Term}
  {span : Span} {u : Universe} (hprim : HasPrimitives ⟨e.base, own⟩)
  (hroom : 0 < e.limits.conversionDepth)

/-- The equations of a function by recursion on the first of two parameters split this parameter. -/
theorem delivers_recursive {c : Context} {s₁ s₂ s₃ s₄ s₅ s₆ s₇ : Span} {i : ℕ} {x y : Expr}
    {v w : Universe} {P Q : Term → Prop} {check : Context → Expr → Term → Elab Term}
    (hnat : (⟨e.base, own⟩ : Environment).Defines (globalName "Nat") 0 (.primitive .nat))
    (hx : Delivers (Quiet own)
      (check (c.addAlias ⟨"n", i⟩ ⟨.var 0, .ref (globalName "Nat") v, c.length⟩) x
        (.ref (globalName "Nat") w)) P)
    (hy : Delivers (Quiet own)
      (check (((c.push ⟨⟨"m", 0⟩, .explicit⟩ .nat).addAlias ⟨"m", i + 1⟩
        ⟨.var 0, .nat, c.length + 1⟩).addAlias ⟨"n", i + 2⟩
        ⟨.var 1, .ref (globalName "Nat") v, c.length + 1⟩) y (.ref (globalName "Nat") w)) Q) :
    Delivers (Quiet own) (e.clauses check c
      [⟨s₁, [.con s₂ (globalName "zero") [], .var s₃ ⟨"n", i⟩], some x⟩,
        ⟨s₄, [.con s₅ (globalName "suc") [.var s₆ ⟨"m", i + 1⟩], .var s₇ ⟨"n", i + 2⟩], some y⟩]
      [⟨.var 1, .ref (globalName "Nat") u⟩, ⟨.var 0, .ref (globalName "Nat") v⟩]
      (.ref (globalName "Nat") w) span)
      fun t => ∃ a b, t = natCase w (.var 1) a "m" b ∧ P a ∧ Q b := by
  refine delivers_clauses (by simp) (show _ = [⟨0, _, []⟩, ⟨1, _, []⟩] from rfl)
    (show _ = 3 from rfl) (delivers_split_nat hnat rfl rfl rfl (.ref u) ?_ rfl rfl rfl
      (delivers_split_leaf rfl rfl rfl hx) (delivers_split_leaf rfl rfl rfl hy))
  simp [NatPattern.zero, NatPattern.suc]

/-- The equations of a function by cases on its parameter split this parameter. -/
theorem delivers_cases {c : Context} {s₁ s₂ s₃ s₄ s₅ : Span} {i : ℕ} {x y : Expr} {w : Universe}
    {P Q : Term → Prop} {check : Context → Expr → Term → Elab Term}
    (hnat : (⟨e.base, own⟩ : Environment).Defines (globalName "Nat") 0 (.primitive .nat))
    (hx : Delivers (Quiet own) (check c x (.ref (globalName "Nat") w)) P)
    (hy : Delivers (Quiet own)
      (check ((c.push ⟨⟨"n", 0⟩, .explicit⟩ .nat).addAlias ⟨"n", i⟩ ⟨.var 0, .nat, c.length + 1⟩) y
        (.ref (globalName "Nat") w)) Q) :
    Delivers (Quiet own) (e.clauses check c
      [⟨s₁, [.con s₂ (globalName "zero") []], some x⟩,
        ⟨s₃, [.con s₄ (globalName "suc") [.var s₅ ⟨"n", i⟩]], some y⟩]
      [⟨.var 0, .ref (globalName "Nat") u⟩] (.ref (globalName "Nat") w) span)
      fun t => ∃ a b, t = natCase w (.var 0) a "n" b ∧ P a ∧ Q b := by
  refine delivers_clauses (by simp) (show _ = [⟨0, _, []⟩, ⟨1, _, []⟩] from rfl)
    (show _ = 3 from rfl) (delivers_split_nat hnat rfl rfl rfl (.ref u) ?_ rfl rfl rfl
      (delivers_split_leaf rfl rfl rfl hx) (delivers_split_leaf rfl rfl rfl hy))
  simp [NatPattern.zero, NatPattern.suc]

/-- The equations of a function by recursion on both parameters split the second one first, where
the first equation has a constructor. -/
theorem delivers_both {c : Context} {s₁ s₂ s₃ s₄ s₅ s₆ s₇ s₈ s₉ s₁₀ s₁₁ s₁₂ : Span} {i : ℕ}
    {x y z : Expr} {v w : Universe} {P Q R : Term → Prop} {check : Context → Expr →
      Term → Elab Term}
    (hnat : (⟨e.base, own⟩ : Environment).Defines (globalName "Nat") 0 (.primitive .nat))
    (hx : Delivers (Quiet own)
      (check (c.addAlias ⟨"m", i⟩ ⟨.var 1, .ref (globalName "Nat") v, c.length⟩) x
        (.ref (globalName "Nat") w)) P)
    (hy : Delivers (Quiet own)
      (check ((c.push ⟨⟨"n", 0⟩, .explicit⟩ .nat).addAlias ⟨"n", i + 1⟩ ⟨.var 0,
        .nat, c.length + 1⟩)
      y (.ref (globalName "Nat") w)) Q)
    (hz : Delivers (Quiet own)
      (check ((((c.push ⟨⟨"n", 0⟩, .explicit⟩ .nat).push ⟨⟨"m", 0⟩, .explicit⟩ .nat).addAlias
      ⟨"m", i + 2⟩ ⟨.var 0, .nat, c.length + 2⟩).addAlias ⟨"n", i + 3⟩ ⟨.var 1, .nat, c.length + 2⟩)
        z
      (.ref (globalName "Nat") w)) R) :
    Delivers (Quiet own) (e.clauses check c
      [⟨s₁, [.var s₂ ⟨"m", i⟩, .con s₃ (globalName "zero") []], some x⟩,
        ⟨s₄, [.con s₅ (globalName "zero") [], .con s₆ (globalName "suc") [.var s₇ ⟨"n", i + 1⟩]],
          some y⟩,
        ⟨s₈, [.con s₉ (globalName "suc") [.var s₁₀ ⟨"m", i + 2⟩],
          .con s₁₁ (globalName "suc") [.var s₁₂ ⟨"n", i + 3⟩]], some z⟩]
      [⟨.var 1, .ref (globalName "Nat") v⟩, ⟨.var 0, .ref (globalName "Nat") u⟩]
      (.ref (globalName "Nat") w) span)
      fun t => ∃ a k, t = natCase w (.var 0) a "n" k ∧ P a ∧
      ∃ b d, k = natCase w (.var 2) b "m" d ∧ Q b ∧ R d := by
  refine delivers_clauses (by simp) (show _ = [⟨0, _, []⟩, ⟨1, _, []⟩, ⟨2, _, []⟩] from rfl)
    (show _ = 6 from rfl) (delivers_split_nat hnat rfl rfl rfl (.ref u) ?_ rfl rfl rfl
      (delivers_split_leaf rfl rfl rfl hx)
      (delivers_split_nat hnat rfl rfl rfl (.ref v) ?_ rfl rfl rfl
        (delivers_split_leaf rfl rfl rfl hy) (delivers_split_leaf rfl rfl rfl hz)))
  · simp [NatPattern.zero, NatPattern.suc]
  · change ∀ r ∈ [(⟨1, [.con s₅ _ [], _], _⟩ : Row), ⟨2, [.con s₉ _ [_], _], _⟩],
      ∀ p ∈ r.patterns[0]?, NatPattern p
    simp [NatPattern.zero, NatPattern.suc]

include hprim hroom

theorem delivers_rhs {c : Context} {x : Expr} (hx : FirstOrder ⟨e.base, own⟩ c x 0)
    (hgas : callDepth x < unboundedGas) :
    Delivers (Quiet own) (e.recursion.check c x (.ref (globalName "Nat") u)) (Renders c x) :=
  delivers_check hprim.defines_nat hroom hx (.ref u) hgas

/-- The first argument is split; both branches are elaborated as they are written. -/
theorem delivers_plus (hplus : Takes ⟨e.base, own⟩ (globalName "plus") 2)
    (htele : NatTele (plusEquations.resolved ctorNames q 25).tele tele) :
    Delivers (Quiet own) (e.clauses e.recursion.check (({} : Context).pushTele tele)
      (Equation.resolvedAll ctorNames q.right 25 plusEquations.equations)
      (paramColumns (({} : Context).pushTele tele)) (.ref (globalName "Nat") u) span) IsPlus := by
  obtain ⟨u₁, u₂, rfl⟩ := NatTele.eq_pair htele
  have hsuc := hprim.takes_suc
  refine (delivers_recursive (u := u₁) (v := u₂) hprim.defines_nat
    (delivers_rhs hprim hroom (.localVar rfl (.ref _)) (by simp [callDepth, unboundedGas]))
    (delivers_rhs hprim hroom
      (.app (.globalRef hsuc) (.app (.app (.globalRef hplus) (.localVar rfl .nat))
      (.localVar rfl (.ref _)))) (by simp [callDepth, unboundedGas]))).mono ?_
  rintro _ ⟨_, _, rfl, rfl, _, _, rfl, ⟨v, rfl⟩, _, _, rfl, ⟨_, _, rfl, ⟨w, rfl⟩, rfl⟩, rfl⟩
  exact ⟨u, v, w, rfl⟩

/-- The first argument is split, and the successor branch calls addition. -/
theorem delivers_mul (hplus : Takes ⟨e.base, own⟩ (globalName "plus") 2)
    (hmul : Takes ⟨e.base, own⟩ (globalName "mul") 2)
    (htele : NatTele (mulEquations.resolved ctorNames q 28).tele tele) :
    Delivers (Quiet own) (e.clauses e.recursion.check (({} : Context).pushTele tele)
      (Equation.resolvedAll ctorNames q.right 28 mulEquations.equations)
      (paramColumns (({} : Context).pushTele tele)) (.ref (globalName "Nat") u) span) IsMul := by
  obtain ⟨u₁, u₂, rfl⟩ := NatTele.eq_pair htele
  refine (delivers_recursive (u := u₁) (v := u₂) hprim.defines_nat
    (delivers_rhs hprim hroom (.globalRef hprim.takes_zero) (by simp [callDepth, unboundedGas]))
    (delivers_rhs hprim hroom
      (.app (.app (.globalRef hplus) (.localVar rfl (.ref _))) (.app (.app (.globalRef hmul)
      (.localVar rfl .nat)) (.localVar rfl (.ref _)))) (by simp [callDepth, unboundedGas]))).mono ?_
  rintro _ ⟨_, _, rfl, ⟨v, rfl⟩, _, _, rfl, ⟨_, _, rfl, ⟨w, rfl⟩, rfl⟩, _, _, rfl,
    ⟨_, _, rfl, ⟨x, rfl⟩, rfl⟩, rfl⟩
  exact ⟨u, v, w, x, rfl⟩

theorem delivers_pred (htele : NatTele (predEquations.resolved ctorNames q 31).tele tele) :
    Delivers (Quiet own) (e.clauses e.recursion.check (({} : Context).pushTele tele)
      (Equation.resolvedAll ctorNames q.right 31 predEquations.equations)
      (paramColumns (({} : Context).pushTele tele)) (.ref (globalName "Nat") u) span) IsPred := by
  obtain ⟨u₁, rfl⟩ := NatTele.eq_singleton htele
  refine (delivers_cases (u := u₁) hprim.defines_nat
    (delivers_rhs hprim hroom (.globalRef hprim.takes_zero) (by simp [callDepth, unboundedGas]))
    (delivers_rhs hprim hroom (.localVar rfl .nat) (by simp [callDepth, unboundedGas]))).mono ?_
  rintro _ ⟨_, _, rfl, ⟨v, rfl⟩, rfl⟩
  exact ⟨u, v, rfl⟩

/-- The second argument is split, then the first one in the successor branch: the compiler takes the
first column with a constructor in the first row. -/
theorem delivers_minus (hminus : Takes ⟨e.base, own⟩ (globalName "minus") 2)
    (htele : NatTele (minusEquations.resolved ctorNames q 32).tele tele) :
    Delivers (Quiet own) (e.clauses e.recursion.check (({} : Context).pushTele tele)
      (Equation.resolvedAll ctorNames q.right 32 minusEquations.equations)
      (paramColumns (({} : Context).pushTele tele)) (.ref (globalName "Nat") u) span) IsMinus := by
  obtain ⟨u₁, u₂, rfl⟩ := NatTele.eq_pair htele
  refine (delivers_both (u := u₂) (v := u₁) hprim.defines_nat
    (delivers_rhs hprim hroom (.localVar rfl (.ref _)) (by simp [callDepth, unboundedGas]))
    (delivers_rhs hprim hroom (.globalRef hprim.takes_zero) (by simp [callDepth, unboundedGas]))
    (delivers_rhs hprim hroom
      (.app (.app (.globalRef hminus) (.localVar rfl .nat)) (.localVar rfl .nat))
      (by simp [callDepth, unboundedGas]))).mono ?_
  rintro _ ⟨_, _, rfl, rfl, _, _, rfl, ⟨w, rfl⟩, _, _, rfl, ⟨_, _, rfl, ⟨x, rfl⟩, rfl⟩, rfl⟩
  exact ⟨u, u, w, x, rfl⟩

end Bodies

section Scopes

theorem scoped_plus : plusEquations.Scoped ("plus" :: primitiveNames) ctorNames :=
  ⟨by decide, by decide, by decide⟩

theorem scoped_mul : mulEquations.Scoped ("mul" :: "plus" :: primitiveNames) ctorNames :=
  ⟨by decide, by decide, by decide⟩

theorem scoped_pred : predEquations.Scoped
    ("pred" :: "mul" :: "plus" :: primitiveNames) ctorNames :=
  ⟨by decide, by decide, by decide⟩

theorem scoped_minus : minusEquations.Scoped
    ("minus" :: "pred" :: "mul" :: "plus" :: primitiveNames) ctorNames :=
  ⟨by decide, by decide, by decide⟩

/-- The functions on natural numbers are the first declarations of the prelude that are resolved. -/
theorem exists_decls (p q r s : Places) (ds : List Decl) :
    ∃ ds', Resolver.prelude.decls [] { next := 25 }
      (plusEquations.written p :: mulEquations.written q :: predEquations.written r ::
        minusEquations.written s :: ds) =
    .ok (plusEquations.resolved ctorNames p 25) :: .ok (mulEquations.resolved ctorNames q 28) ::
      .ok (predEquations.resolved ctorNames r 31) ::
        .ok (minusEquations.resolved ctorNames s 32) :: ds' := by
  obtain ⟨r₁, h₁, hplus⟩ :=
    Resolver.knows_prelude.decls_cons (n := "plus") (j :=
      28) rfl (by decide) (by decide) scoped_plus
    [] (by decide) p rfl (mulEquations.written q :: predEquations.written r ::
      minusEquations.written s :: ds)
  obtain ⟨r₂, h₂, hmul⟩ := h₁.decls_cons (n := "mul") (j :=
    31) rfl (by decide) (by decide) scoped_mul [globalName "plus"] (by decide) q rfl
    (predEquations.written r :: minusEquations.written s :: ds)
  obtain ⟨r₃, h₃, hpred⟩ :=
    h₂.decls_cons (n := "pred") (j := 32) rfl (by decide) (by decide) scoped_pred
    [globalName "mul", globalName "plus"] (by decide) r rfl
    (minusEquations.written s :: ds)
  obtain ⟨r₄, -, hminus⟩ := h₃.decls_cons (n := "minus") rfl (by decide) (by decide) scoped_minus
    [globalName "pred", globalName "mul", globalName "plus"] (by decide) s rfl ds
  exact ⟨_, by rw [hplus, hmul, hpred, hminus]⟩

end Scopes

section Module
variable {base : Registry} {limits : Limits} {text : String}

theorem step_of_add {p p' : Progress} {d : Decl} {ds : List Definition}
    (h : p.add base limits text d = (.ok ds, p')) (out : ModuleOutcome) (ns : List GlobalName) :
    ∃ out', ModuleOutcome.step base limits text (out, p) (.ok d, ns) = (out', p') ∧
      out'.definitions = out.definitions ++ ds := by
  unfold ModuleOutcome.step
  simp only [h]
  exact ⟨_, rfl, rfl⟩

/-- The functions on natural numbers are among the definitions. -/
structure Arithmetic (ds : List Definition) : Prop where
  plus : ∃ d ∈ ds, IsFunction d (globalName "plus") 2 IsPlus
  mul : ∃ d ∈ ds, IsFunction d (globalName "mul") 2 IsMul
  pred : ∃ d ∈ ds, IsFunction d (globalName "pred") 1 IsPred
  minus : ∃ d ∈ ds, IsFunction d (globalName "minus") 2 IsMinus

theorem stage_empty (h : ∀ d ∈ Primitive.definitions, base.get? d.name = some d) :
    Stage base {} [] where
  failed := rfl
  primitives d hd := by
    rw [Environment.get?, Registry.get?_empty, Option.none_or]
    exact h d hd
  functions := List.forall_mem_nil _

/-- The four functions are added one after the other, and each finds those before it. What the
prelude declares after them does not change them. -/
theorem exists_arithmetic (hbase : ∀ d ∈ Primitive.definitions, base.get? d.name = some d)
    (hroom : 0 < limits.conversionDepth) (p q r s : Places) (ns₁ ns₂ ns₃ ns₄ : List GlobalName)
    (ds : List (Except Error Decl × List GlobalName)) :
    Arithmetic (((.ok (plusEquations.resolved ctorNames p 25), ns₁) ::
      (.ok (mulEquations.resolved ctorNames q 28), ns₂) ::
      (.ok (predEquations.resolved ctorNames r 31), ns₃) ::
      (.ok (minusEquations.resolved ctorNames s 32), ns₄) ::
        ds).foldl (ModuleOutcome.step base limits text) ({}, {})).1.definitions := by
  obtain ⟨d₁, p₁, hadd₁, hd₁, h₁⟩ :=
    (stage_empty hbase).exists_add limits text p 25 (by decide) (by decide)
    (fun own tele u hprim hfs htele => delivers_plus hprim hroom
      (hfs _ List.mem_cons_self) htele) bodyForm_plus
  obtain ⟨d₂, p₂, hadd₂, hd₂, h₂⟩ := h₁.exists_add limits text q 28 (by decide) (by decide)
    (fun own tele u hprim hfs htele => delivers_mul hprim hroom
      (hfs _ (List.mem_cons_of_mem _ List.mem_cons_self))
      (hfs _ List.mem_cons_self) htele) bodyForm_mul
  obtain ⟨d₃, p₃, hadd₃, hd₃, h₃⟩ := h₂.exists_add limits text r 31 (by decide) (by decide)
    (fun own tele u hprim hfs htele => delivers_pred hprim hroom htele) bodyForm_pred
  obtain ⟨d₄, p₄, hadd₄, hd₄, -⟩ := h₃.exists_add limits text s 32 (by decide) (by decide)
    (fun own tele u hprim hfs htele => delivers_minus hprim hroom
      (hfs _ List.mem_cons_self) htele) bodyForm_minus
  obtain ⟨out₁, hstep₁, hout₁⟩ := step_of_add hadd₁ {} ns₁
  obtain ⟨out₂, hstep₂, hout₂⟩ := step_of_add hadd₂ out₁ ns₂
  obtain ⟨out₃, hstep₃, hout₃⟩ := step_of_add hadd₃ out₂ ns₃
  obtain ⟨out₄, hstep₄, hout₄⟩ := step_of_add hadd₄ out₃ ns₄
  simp only [List.foldl_cons]
  rw [hstep₁, hstep₂, hstep₃, hstep₄]
  have hdefinitions : out₄.definitions = [d₁, d₂, d₃, d₄] := by
    rw [hout₄, hout₃, hout₂, hout₁]
    rfl
  obtain ⟨ks, hks, -⟩ := ModuleOutcome.exists_sublist_of_foldl base limits text ds (out₄, p₄)
  rw [hks, hdefinitions]
  exact ⟨⟨d₁, by simp, hd₁⟩, ⟨d₂, by simp, hd₂⟩, ⟨d₃, by simp, hd₃⟩, ⟨d₄, by simp, hd₄⟩⟩

/-- Over the primitives the text of the prelude defines the functions on natural numbers. -/
theorem arithmetic_of_read (hbase : ∀ d ∈ Primitive.definitions, base.get? d.name = some d)
    (hroom : 0 < limits.conversionDepth) {m : Surface.Module}
    (hread : Surface.Module.read source.name Prelude.text = .ok m) :
    Arithmetic (elaborateModule base limits text m
      (Primitive.definitions.map (·.name))).definitions := by
  obtain ⟨hname, hcount, -, p, q, r, s, ds, hdecls⟩ := decls_of_read hread
  have hvisible : (Primitive.definitions.map (·.name)).filterMap base.get? =
      Primitive.definitions := by
    rw [List.filterMap_map]
    exact (List.filterMap_congr fun d hd => hbase d hd).trans List.filterMap_some
  obtain ⟨ds', hresolve⟩ := exists_decls p q r s ds
  have hdecls' : m.resolve (Scope.importAll {} Primitive.definitions) =
      .ok (plusEquations.resolved ctorNames p 25) :: .ok (mulEquations.resolved ctorNames q 28) ::
        .ok (predEquations.resolved ctorNames r 31) ::
          .ok (minusEquations.resolved ctorNames s 32) :: ds' := by
    rw [Surface.Module.resolve, hname, hcount, hdecls, ← hresolve]
    rfl
  unfold elaborateModule
  simp only [hvisible, hdecls', hdecls]
  exact exists_arithmetic hbase hroom p q r s _ _ _ _ _

end Module

end Prelude

end LeveledTypes
