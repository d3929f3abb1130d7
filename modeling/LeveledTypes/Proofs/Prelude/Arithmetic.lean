import LeveledTypes.Primitive
import LeveledTypes.Proofs.Elaboration.Expression
import LeveledTypes.Proofs.Reduction.Application
import LeveledTypes.Proofs.Reduction.Dependencies
import LeveledTypes.Proofs.Reduction.Memo
import LeveledTypes.Proofs.Registry

/-!
# Arithmetic

The functions on natural numbers that the prelude defines, as case trees. A term counts to a number
if its weak head normal form is zero or a successor, whose argument counts on. The functions take
terms that count to numbers to a term that counts to their sum, product, predecessor or difference,
however the numbers are given. So an expression of any size normalizes to the numeral of its value,
unless fuel runs out.
-/
namespace LeveledTypes

/-- The global has so many parameters and stands for the body. -/
def Environment.Defines (env : Environment) (n : GlobalName) (arity : ℕ) (body : Body) : Prop :=
  ∃ d, env.get? n = some d ∧ d.name = n ∧ d.tele.length = arity ∧ d.body = body

theorem Term.exists_mapUniverses (u : Universe) :
    ∃ g, ∀ t : Term, t.substLevels u = t.mapUniverses g := by
  by_cases h : u = .params
  · exact ⟨id, fun t => by rw [Term.substLevels, if_pos h, Term.mapUniverses, Term.replace_id]⟩
  · exact ⟨_, fun t => by rw [Term.substLevels, if_neg h]⟩

namespace Prelude

open Primitive (globalName)

/-- A case split on a natural number, with a number in each branch. -/
def natCase (u : Universe) (a z : Term) (x : String) (s : Term) : Term :=
  .case a (.ref (globalName "Nat") u) [⟨.zero, [], z⟩, ⟨.succ, [x], s⟩]

/-- The first argument is split; the sum with a successor is the successor of the sum. -/
def plusBody (u v w : Universe) : Term :=
  natCase u (.var 1) (.var 0) "m"
    (.app (.ref (globalName "suc") v) ((Term.ref (globalName "plus") w).apps [.var 0, .var 1]))

/-- The first argument is split, and the second is added once for each successor. -/
def mulBody (u v w x : Universe) : Term :=
  natCase u (.var 1) (.ref (globalName "zero") v) "m"
    ((Term.ref (globalName "plus") w).apps
      [.var 1, (Term.ref (globalName "mul") x).apps [.var 0, .var 1]])

/-- Zero has itself for its predecessor. -/
def predBody (u v : Universe) : Term := natCase u (.var 0) (.ref (globalName "zero") v) "n" (.var 0)

/-- The second argument is split first. -/
def minusBody (u v w x : Universe) : Term :=
  natCase u (.var 0) (.var 1) "n"
    (natCase v (.var 2) (.ref (globalName "zero") w) "m"
      ((Term.ref (globalName "minus") x).apps [.var 0, .var 1]))

/-- The natural numbers are the primitive ones, and the functions on them are their case trees, at
whatever universes. -/
structure HasArithmetic (env : Environment) : Prop where
  nat : env.Defines (globalName "Nat") 0 (.primitive .nat)
  zero : env.Defines (globalName "zero") 0 (.primitive .zero)
  succ : env.Defines (globalName "suc") 1 (.primitive .succ)
  plus : ∃ u v w k, env.Defines (globalName "plus") 2 (.func (plusBody u v w) k)
  mul : ∃ u v w x k, env.Defines (globalName "mul") 2 (.func (mulBody u v w x) k)
  pred : ∃ u v k, env.Defines (globalName "pred") 1 (.func (predBody u v) k)
  minus : ∃ u v w x k, env.Defines (globalName "minus") 2 (.func (minusBody u v w x) k)

/-- An arithmetic expression with its value: a numeral, or a function of the prelude at arithmetic
expressions. -/
inductive Expression : Term → ℕ → Prop
  | numeral (n : ℕ) : Expression (.numeral n) n
  | zero (u : Universe) : Expression (.ref (globalName "zero") u) 0
  | succ {a : Term} {n : ℕ} : Expression a n → Expression (.succ a) (n + 1)
  | suc {a : Term} {n : ℕ} (u : Universe) : Expression a n →
    Expression (.app (.ref (globalName "suc") u) a) (n + 1)
  | pred {a : Term} {n : ℕ} (u : Universe) : Expression a n →
    Expression (.app (.ref (globalName "pred") u) a) (n - 1)
  | plus {a b : Term} {m n : ℕ} (u : Universe) : Expression a m → Expression b n →
      Expression ((Term.ref (globalName "plus") u).apps [a, b]) (m + n)
  | mul {a b : Term} {m n : ℕ} (u : Universe) : Expression a m → Expression b n →
      Expression ((Term.ref (globalName "mul") u).apps [a, b]) (m * n)
  | minus {a b : Term} {m n : ℕ} (u : Universe) : Expression a m → Expression b n →
      Expression ((Term.ref (globalName "minus") u).apps [a, b]) (m - n)

section Instances
variable (g : Universe → Universe) (a b : Term)

@[simp] theorem substAll_lift : (b.lift 1).substAll [a] = b := by
  simp [Term.substAll_eq_inst, Term.lift_eq_inst, Term.inst_inst, Term.pushAll]

@[simp] theorem substAll_var : (Term.var 0).substAll [a] = a := by
  simp [Term.substAll_eq_inst, Term.pushAll]

@[simp] theorem substAll_ref (n : GlobalName) (u : Universe) (as : List Term) :
    (Term.ref n u).substAll as = .ref n u := by
  simp [Term.substAll_eq_inst]

@[simp] theorem substAll_app (f : Term) (as : List Term) :
    (Term.app f a).substAll as = .app (f.substAll as) (a.substAll as) := by
  simp [Term.substAll_eq_inst]

theorem substAll_plusBody (u v w : Universe) : ((plusBody u v w).mapUniverses g).substAll [a, b] =
    natCase (g u) a b "m"
      (.app (.ref (globalName "suc") (g v))
        ((Term.ref (globalName "plus") (g w)).apps [.var 0, b.lift 1])) := by
  rw [Term.substAll_eq_inst]
  simp [plusBody, natCase, Term.mapUniverses, Term.replace, Term.pushAll, Branch.arity, Term.up]

theorem substAll_mulBody (u v w x : Universe) : ((mulBody u v w x).mapUniverses g).substAll [a, b] =
    natCase (g u) a (.ref (globalName "zero") (g v)) "m" ((Term.ref (globalName "plus") (g w)).apps
      [b.lift 1, (Term.ref (globalName "mul") (g x)).apps [.var 0, b.lift 1]]) := by
  rw [Term.substAll_eq_inst]
  simp [mulBody, natCase, Term.mapUniverses, Term.replace, Term.pushAll, Branch.arity, Term.up]

theorem substAll_predBody (u v : Universe) : ((predBody u v).mapUniverses g).substAll [a] =
    natCase (g u) a (.ref (globalName "zero") (g v)) "n" (.var 0) := by
  rw [Term.substAll_eq_inst]
  simp [predBody, natCase, Term.mapUniverses, Term.replace, Term.pushAll, Branch.arity, Term.up]

theorem substAll_minusBody (u v w x : Universe) :
    ((minusBody u v w x).mapUniverses g).substAll [a, b] =
    natCase (g u) b a "n" (natCase (g v) (a.lift 1) (.ref (globalName "zero") (g w)) "m"
      ((Term.ref (globalName "minus") (g x)).apps [.var 0, .var 1])) := by
  rw [Term.substAll_eq_inst]
  simp [minusBody, natCase, Term.mapUniverses, Term.replace, Term.pushAll, Branch.arity, Term.up]

theorem substAll_minusBranch (u v w : Universe) (k : Term) :
    (natCase u (a.lift 1) (.ref (globalName "zero") v) "m"
      ((Term.ref (globalName "minus") w).apps [.var 0, .var 1])).substAll [k] =
    natCase u a (.ref (globalName "zero") v) "m"
      ((Term.ref (globalName "minus") w).apps [.var 0, k.lift 1]) := by
  have ha : (a.lift 1).inst (Term.pushAll [k] .var) = a := by
    rw [← Term.substAll_eq_inst, substAll_lift]
  rw [Term.substAll_eq_inst]
  simp [natCase, ha, Term.pushAll, Branch.arity, Term.up]

end Instances

end Prelude

namespace Reducer

open Prelude
open Primitive (globalName)

variable {r : Reducer} {depth : ℕ} {ρ : Round} {t t' v w a b z s : Term} {m n : ℕ}

/-- The round returns the term, when nothing is remembered and fuel and gas are no matter. -/
def Ends (r : Reducer) (ρ : Round) (v : Term) : Prop := ∃ T, Evals r ρ v T

/-- The weak head normal form of a term. -/
abbrev Evaluates (r : Reducer) (depth : ℕ) (t v : Term) : Prop := Ends r (r.round (.whnf depth t)) v

namespace Ends

theorem ret (t : Term) : Ends r (.ret t) t := ⟨_, .ret t⟩

theorem step (h : Ends r ρ v) : Ends r (.step ρ) v := by
  obtain ⟨T, h⟩ := h
  exact ⟨_, .step h⟩

theorem call {c : Call} {k : Term → Round} (hv : Ends r (r.round c) v) (hw : Ends r (k v) w) :
    Ends r (.call c k) w := by
  obtain ⟨T, hv⟩ := hv
  obtain ⟨U, hw⟩ := hw
  exact ⟨_, .call hv hw⟩

theorem whnf (h : Evaluates r depth t v) : Ends r (.whnf depth t) v := h.call (.ret v)

theorem unfold {c : GlobalName} {u : Universe} {body : Term} {args : List Term}
    {k : Option Term → Round} (hv : Evaluates r depth ((body.substLevels u).substAll args) v)
    (hstuck : isStuck v = false) (hw : Ends r (k (some v)) w) :
    Ends r (.unfold depth c u body args k) w := by
  obtain ⟨T, hv⟩ := hv
  obtain ⟨U, hw⟩ := hw
  rw [← unblocked?_of_not_stuck hstuck] at hw
  exact ⟨_, .unfold hv hw⟩

end Ends

namespace Evaluates

theorem zero : Evaluates r depth .zero .zero := .ret _

theorem succ (a : Term) : Evaluates r depth (.succ a) (.succ a) := .ret _

theorem case {m : Term} {bs : List (Branch Term)} {head : BranchHead} {xs : List Term}
    {x : Branch Term} (ha : Evaluates r depth a v) (hv : constructor? v = some (head, xs))
    (hx : bs.find? (fun x => x.head == head) = some x)
    (hw : Evaluates r depth (x.body.substAll xs) w) : Evaluates r depth (.case a m bs) w := by
  refine Ends.call ha ?_
  rw [hv]
  simp only [hx]
  exact hw.whnf.step

theorem natCase_zero {u : Universe} {x : String} (ha : Evaluates r depth a .zero)
    (hz : Evaluates r depth z w) : Evaluates r depth (natCase u a z x s) w := case ha rfl rfl hz

theorem natCase_succ {u : Universe} {x : String} (ha : Evaluates r depth a (.succ b))
    (hs : Evaluates r depth (s.substAll [b]) w) : Evaluates r depth (natCase u a z x s) w :=
      case ha rfl rfl hs

/-- A global that has parameters is applied to all of them at once. -/
theorem apps {c : GlobalName} {u : Universe} {body : Body} {args : List Term}
    (hd : r.env.Defines c args.length body) (hw : Ends r (.delta r depth c u args) w) :
    Evaluates r depth ((Term.ref c u).apps args) w := by
  obtain ⟨d, hd, -, hlength, -⟩ := hd
  by_cases hargs : args = []
  · subst hargs
    exact hw
  · have hhead : Evaluates r depth (.ref c u) (.ref c u) := by
      have hdelta : Round.delta r depth c u [] = .ret (.ref c u) := by
        simp [Round.delta, hd, hlength, List.length_pos_iff.mpr hargs]
      exact (hdelta ▸ .ret _ : Ends r (.delta r depth c u []) (.ref c u))
    rw [Evaluates, round_apps (by simp) hargs]
    exact hhead.call hw

/-- A primitive takes its canonical form. -/
theorem primitive {c : GlobalName} {u : Universe} {p : Primitive} {args : List Term}
    (hd : r.env.Defines c args.length (.primitive p))
    (hv : Evaluates r depth (canonical p args) v) :
    Evaluates r depth ((Term.ref c u).apps args) v := by
  refine apps hd ?_
  obtain ⟨d, hd, -, hlength, hbody⟩ := hd
  simpa [Round.delta, hd, hbody, hlength] using hv.whnf

/-- What a function comes to at arguments for all of its parameters is what its body comes to, if
this is not blocked. -/
theorem call {c : GlobalName} {u : Universe} {body : Term} {k : Option ℕ} {args : List Term}
    (hd : r.env.Defines c args.length (.func body k))
    (hv : Evaluates r depth ((body.substLevels u).substAll args) v) (hstuck : isStuck v = false)
    (hw : Evaluates r depth v w) : Evaluates r depth ((Term.ref c u).apps args) w := by
  refine apps hd ?_
  obtain ⟨d, hd, -, hlength, hbody⟩ := hd
  simp only [Round.delta, hd, hbody, hlength, lt_irrefl, if_false, List.take_length,
    List.drop_length]
  exact .unfold hv hstuck hw.whnf

end Evaluates

/-- The weak head normal form of the term is zero, or a successor whose argument counts to one
less. -/
inductive Counts (r : Reducer) (depth : ℕ) : Term → ℕ → Prop
  | zero {t : Term} : Evaluates r depth t .zero → Counts r depth t 0
  | succ {t a : Term} {n : ℕ} : Evaluates r depth t (.succ a) → Counts r depth a n →
    Counts r depth t (n + 1)

namespace Counts

theorem of_evaluates (ht : ∀ v, Evaluates r depth t v → Evaluates r depth t' v)
    (h : Counts r depth t n) :
    Counts r depth t' n := by
  cases h with
  | zero h => exact .zero (ht _ h)
  | succ h ha => exact .succ (ht _ h) ha

theorem suc (h : Counts r depth a n) : Counts r depth (.succ a) (n + 1) := .succ (.succ a) h

theorem numeral (n : ℕ) : Counts r depth (.numeral n) n := by
  induction n with
  | zero => exact .zero .zero
  | succ n ih => exact ih.suc

theorem natCase_zero {u : Universe} {x : String} (ha : Evaluates r depth a .zero)
    (hz : Counts r depth z n) :
    Counts r depth (natCase u a z x s) n := hz.of_evaluates fun _ => .natCase_zero ha

theorem natCase_succ {u : Universe} {x : String} (ha : Evaluates r depth a (.succ b))
    (hs : Counts r depth (s.substAll [b]) n) : Counts r depth (natCase u a z x s) n :=
  hs.of_evaluates fun _ => .natCase_succ ha

theorem call {c : GlobalName} {u : Universe} {body : Term} {k : Option ℕ} {args : List Term}
    (hd : r.env.Defines c args.length (.func body k))
    (h : Counts r depth ((body.substLevels u).substAll args) n) :
    Counts r depth ((Term.ref c u).apps args) n := by
  cases h with
  | zero h => exact .zero (.call hd h rfl .zero)
  | succ h ha => exact .succ (.call hd h rfl (.succ _)) ha

/-- A term that counts to a number normalizes to its numeral. -/
theorem ends_nf (h : Counts r depth t n) : Ends r (r.round (.nf depth t)) (.numeral n) := by
  induction h with
  | zero h => exact Ends.call h (.ret _)
  | succ h _ ih => exact Ends.call h (Ends.call ih (.ret _))

section Functions
variable (henv : HasArithmetic r.env) (u : Universe)

include henv

theorem refZero : Counts r depth (.ref (globalName "zero") u) 0 := by
  have hzero : Evaluates r depth ((Term.ref (globalName "zero") u).apps []) .zero :=
    .primitive henv.zero .zero
  exact .zero hzero

theorem refSucc (h : Counts r depth a n) :
    Counts r depth (.app (.ref (globalName "suc") u) a) (n + 1) := by
  have hsucc : Evaluates r depth ((Term.ref (globalName "suc") u).apps [a]) (.succ a) :=
    .primitive henv.succ (.succ a)
  exact .succ hsucc h

/-- The induction is on the first number, by which addition recurses. -/
theorem plus (ha : Counts r depth a m) (hb : Counts r depth b n) :
    Counts r depth ((Term.ref (globalName "plus") u).apps [a, b]) (m + n) := by
  obtain ⟨u₁, u₂, u₃, k, hd⟩ := henv.plus
  induction ha generalizing u with
  | zero ha =>
    obtain ⟨g, hg⟩ := Term.exists_mapUniverses u
    refine .call hd ?_
    rw [hg, substAll_plusBody, Nat.zero_add]
    exact .natCase_zero ha hb
  | succ ha _ ih =>
    obtain ⟨g, hg⟩ := Term.exists_mapUniverses u
    refine .call hd ?_
    rw [hg, substAll_plusBody, Nat.succ_add]
    refine .natCase_succ ha ?_
    simpa using refSucc henv (g u₂) (ih (g u₃))

/-- The induction is on the first number; the successor case adds. -/
theorem mul (ha : Counts r depth a m) (hb : Counts r depth b n) :
    Counts r depth ((Term.ref (globalName "mul") u).apps [a, b]) (m * n) := by
  obtain ⟨u₁, u₂, u₃, u₄, k, hd⟩ := henv.mul
  induction ha generalizing u with
  | zero ha =>
    obtain ⟨g, hg⟩ := Term.exists_mapUniverses u
    refine .call hd ?_
    rw [hg, substAll_mulBody, Nat.zero_mul]
    exact .natCase_zero ha (refZero henv _)
  | succ ha _ ih =>
    obtain ⟨g, hg⟩ := Term.exists_mapUniverses u
    refine .call hd ?_
    rw [hg, substAll_mulBody, Nat.succ_mul, Nat.add_comm]
    refine .natCase_succ ha ?_
    simpa using plus henv (g u₃) hb (ih (g u₄))

theorem pred (ha : Counts r depth a m) :
    Counts r depth ((Term.ref (globalName "pred") u).apps [a]) (m - 1) := by
  obtain ⟨u₁, u₂, k, hd⟩ := henv.pred
  obtain ⟨g, hg⟩ := Term.exists_mapUniverses u
  refine .call hd ?_
  rw [hg, substAll_predBody]
  cases ha with
  | zero ha => exact .natCase_zero ha (refZero henv _)
  | succ ha hb => exact .natCase_succ ha (by simpa using hb)

/-- The difference is truncated at zero. -/
theorem minus (ha : Counts r depth a m) (hb : Counts r depth b n) :
    Counts r depth ((Term.ref (globalName "minus") u).apps [a, b]) (m - n) := by
  obtain ⟨u₁, u₂, u₃, u₄, k, hd⟩ := henv.minus
  induction hb generalizing u a m with
  | zero hb =>
    obtain ⟨g, hg⟩ := Term.exists_mapUniverses u
    refine .call hd ?_
    rw [hg, substAll_minusBody]
    exact .natCase_zero hb ha
  | succ hb _ ih =>
    obtain ⟨g, hg⟩ := Term.exists_mapUniverses u
    refine .call hd ?_
    rw [hg, substAll_minusBody]
    refine .natCase_succ hb ?_
    rw [substAll_minusBranch]
    cases ha with
    | zero ha =>
      rw [Nat.zero_sub]
      exact .natCase_zero ha (refZero henv _)
    | succ ha ha' =>
      rw [Nat.succ_sub_succ]
      exact .natCase_succ ha (by simpa using ih (g u₄) ha')

end Functions

end Counts

/-- An arithmetic expression counts to its value. -/
theorem Counts.of_expression (henv : HasArithmetic r.env) (h : Expression t n) :
    Counts r depth t n := by
  induction h with
  | numeral n => exact .numeral n
  | zero u => exact .refZero henv u
  | succ _ ih => exact ih.suc
  | suc u _ ih => exact .refSucc henv u ih
  | pred u _ ih => exact .pred henv u ih
  | plus u _ _ iha ihb => exact .plus henv u iha ihb
  | mul u _ _ iha ihb => exact .mul henv u iha ihb
  | minus u _ _ iha ihb => exact .minus henv u iha ihb

end Reducer

namespace Prelude

open Primitive (globalName)

/-- The globals that arithmetic is about. -/
def arithmeticNames : List GlobalName :=
  ["Nat", "zero", "suc", "plus", "mul", "pred", "minus"].map globalName

/-- A term over these globals, without holes, whose variables are below a bound. -/
structure Arithmetical (n : ℕ) (t : Term) : Prop where
  built : t.Over (.ofArity (fun _ => 0) False) n
  names : t.NamesIn (· ∈ arithmeticNames)

namespace Arithmetical
variable {n i : ℕ} {a b f z s t : Term} {u : Universe}

theorem var (h : i < n) : Arithmetical n (.var i) := ⟨by simpa using h, Term.namesIn_var i⟩

theorem ref {c : GlobalName} (hc : c ∈ arithmeticNames) : Arithmetical n (.ref c u) :=
  ⟨⟨trivial, Signature.admits_ofArity _ _ u⟩, Term.namesIn_ref.mpr hc⟩

theorem succ (ha : Arithmetical n a) : Arithmetical n (.succ a) := ⟨ha.built, ha.names⟩

theorem app (hf : Arithmetical n f) (ha : Arithmetical n a) : Arithmetical n (.app f a) where
  built := ⟨hf.built, ha.built⟩
  names m hm := hm.elim (hf.names m) (ha.names m)

/-- A case split is built from what its scrutinee and its branches are built from. -/
theorem natCase {x : String} (ha : Arithmetical n a) (hz : Arithmetical n z)
    (hs : Arithmetical (n + 1) s) : Arithmetical n (natCase u a z x s) where
  built := by
    have hnat : (Term.ref (globalName "Nat") u).Over (.ofArity (fun _ => 0) False) (n + 1) :=
      ⟨trivial, Signature.admits_ofArity _ _ u⟩
    have hbranches : ∀ b ∈ [(⟨.zero, [], z⟩ : Branch Term), ⟨.succ, [x], s⟩],
        b.body.Over (.ofArity (fun _ => 0) False) (n + b.arity) := by
      simpa [Branch.arity] using ⟨hz.built, hs.built⟩
    exact
      ⟨by simp [Branch.arity, Signature.headArity], ha.built, hnat,
          Term.overBranches_iff.mpr hbranches⟩
  names := by
    have hnat : (Term.ref (globalName "Nat") u).NamesIn (· ∈ arithmeticNames) :=
      Term.namesIn_ref.mpr (by decide)
    refine Term.namesIn_iff.mpr ⟨List.forall_mem_nil _, ?_⟩
    simp [Prelude.natCase, Term.parts, ha.names, hnat, hz.names, hs.names]

end Arithmetical

theorem arithmetical_plusBody (u v w : Universe) : Arithmetical 2 (plusBody u v w) :=
  .natCase (.var (by decide)) (.var (by decide))
    (.app (.ref (by decide)) (.app (.app (.ref (by decide)) (.var (by decide))) (.var (by decide))))

theorem arithmetical_mulBody (u v w x : Universe) : Arithmetical 2 (mulBody u v w x) :=
  .natCase (.var (by decide)) (.ref (by decide))
    (.app (.app (.ref (by decide)) (.var (by decide)))
      (.app (.app (.ref (by decide)) (.var (by decide))) (.var (by decide))))

theorem arithmetical_predBody (u v : Universe) : Arithmetical 1 (predBody u v) :=
  .natCase (.var (by decide)) (.ref (by decide)) (.var (by decide))

theorem arithmetical_minusBody (u v w x : Universe) : Arithmetical 2 (minusBody u v w x) :=
  .natCase (.var (by decide)) (.var (by decide))
    (.natCase (.var (by decide)) (.ref (by decide))
      (.app (.app (.ref (by decide)) (.var (by decide))) (.var (by decide))))

/-- An expression is closed and mentions nothing but the functions of arithmetic. -/
theorem Expression.arithmetical {t : Term} {n : ℕ} (h : Expression t n) : Arithmetical 0 t := by
  induction h with
  | numeral n =>
    induction n with
    | zero => exact ⟨trivial, fun _ => False.elim⟩
    | succ n ih => exact ih.succ
  | zero u => exact .ref (by decide)
  | succ _ ih => exact ih.succ
  | suc u _ ih | pred u _ ih => exact .app (.ref (by decide)) ih
  | plus u _ _ iha ihb | mul u _ _ iha ihb | minus u _ _ iha ihb =>
    exact .app (.app (.ref (by decide)) iha) ihb

section Definitions
variable {env : Environment}

/-- Each of the globals is a primitive or a function with a body over the globals. -/
theorem HasArithmetic.cases (henv : HasArithmetic env) {n : GlobalName} (hn : n ∈ arithmeticNames) :
    ∃ d, env.get? n = some d ∧ d.name = n ∧
      ((∃ p, d.body = .primitive p) ∨ ∃ t k, d.body = .func t k ∧
        Arithmetical d.tele.length t) := by
  simp only [arithmeticNames, List.map_cons, List.map_nil, List.mem_cons, List.not_mem_nil,
    or_false] at hn
  obtain rfl | rfl | rfl | rfl | rfl | rfl | rfl := hn
  · obtain ⟨d, hd, hname, -, hbody⟩ := henv.nat
    exact ⟨d, hd, hname, .inl ⟨_, hbody⟩⟩
  · obtain ⟨d, hd, hname, -, hbody⟩ := henv.zero
    exact ⟨d, hd, hname, .inl ⟨_, hbody⟩⟩
  · obtain ⟨d, hd, hname, -, hbody⟩ := henv.succ
    exact ⟨d, hd, hname, .inl ⟨_, hbody⟩⟩
  · obtain ⟨u, v, w, k, d, hd, hname, hlength, hbody⟩ := henv.plus
    exact ⟨d, hd, hname, .inr ⟨_, k, hbody, hlength ▸ arithmetical_plusBody u v w⟩⟩
  · obtain ⟨u, v, w, x, k, d, hd, hname, hlength, hbody⟩ := henv.mul
    exact ⟨d, hd, hname, .inr ⟨_, k, hbody, hlength ▸ arithmetical_mulBody u v w x⟩⟩
  · obtain ⟨u, v, k, d, hd, hname, hlength, hbody⟩ := henv.pred
    exact ⟨d, hd, hname, .inr ⟨_, k, hbody, hlength ▸ arithmetical_predBody u v⟩⟩
  · obtain ⟨u, v, w, x, k, d, hd, hname, hlength, hbody⟩ := henv.minus
    exact ⟨d, hd, hname, .inr ⟨_, k, hbody, hlength ▸ arithmetical_minusBody u v w x⟩⟩

/-- The definitions of arithmetic alone. -/
def arithmetic (env : Environment) : Environment :=
  ⟨{}, Registry.insertAll {} (arithmeticNames.filterMap env.get?)⟩

/-- The small environment has the definitions of arithmetic and no others. -/
theorem HasArithmetic.get?_arithmetic (henv : HasArithmetic env) {n : GlobalName} {d : Definition} :
    (arithmetic env).get? n = some d ↔ n ∈ arithmeticNames ∧ env.get? n = some d := by
  have hname : ∀ n ∈ arithmeticNames, ∀ d, env.get? n = some d → d.name = n := by
    intro n hn d hd
    obtain ⟨d', hd', hname, -⟩ := henv.cases hn
    exact Option.some.inj (hd.symm.trans hd') ▸ hname
  have hnames : ∀ ns ⊆ arithmeticNames, (ns.filterMap env.get?).map (·.name) = ns := by
    intro ns hns
    induction ns with
    | nil => rfl
    | cons n ns ih =>
      obtain ⟨hn, hns⟩ := List.cons_subset.mp hns
      obtain ⟨d, hd, -⟩ := henv.cases hn
      rw [List.filterMap_cons_some hd, List.map_cons, hname n hn d hd, ih hns]
  have hnodup : ((arithmeticNames.filterMap env.get?).map (·.name)).Nodup := by
    rw [hnames _ (List.Subset.refl _)]
    decide
  have hempty (n : GlobalName) : ({} : Registry).get? n = none := by simp [Registry.get?]
  rw [arithmetic, Environment.get?, hempty, Option.or_none, Registry.get?_insertAll hnodup, hempty]
  simp only [reduceCtorEq, and_false, or_false, List.mem_filterMap]
  constructor
  · rintro ⟨⟨c, hc, hd⟩, rfl⟩
    obtain rfl := hname c hc d hd
    exact ⟨hc, hd⟩
  · rintro ⟨hn, hd⟩
    exact ⟨⟨n, hn, hd⟩, hname n hn d hd⟩

theorem HasArithmetic.get?_eq (henv : HasArithmetic env) {n : GlobalName}
    (hn : n ∈ arithmeticNames) : (arithmetic env).get? n = env.get? n := by
  obtain ⟨d, hd, -⟩ := henv.cases hn
  rw [hd, henv.get?_arithmetic]
  exact ⟨hn, hd⟩

/-- What arithmetic needs of an environment only concerns the definitions that the small environment
keeps. -/
theorem HasArithmetic.hasArithmetic (henv : HasArithmetic env) :
    HasArithmetic (arithmetic env) := by
  have hdefines {n : GlobalName} {k : ℕ} {b : Body} (hn : n ∈ arithmeticNames)
      (h : env.Defines n k b) : (arithmetic env).Defines n k b := by
    rwa [Environment.Defines, henv.get?_eq hn]
  obtain ⟨u, v, w, k, hplus⟩ := henv.plus
  obtain ⟨u', v', w', x', k', hmul⟩ := henv.mul
  obtain ⟨u'', v'', k'', hpred⟩ := henv.pred
  obtain ⟨u₃, v₃, w₃, x₃, k₃, hminus⟩ := henv.minus
  exact {
    nat := hdefines (by decide) henv.nat
    zero := hdefines (by decide) henv.zero
    succ := hdefines (by decide) henv.succ
    plus := ⟨_, _, _, _, hdefines (by decide) hplus⟩
    mul := ⟨_, _, _, _, _, hdefines (by decide) hmul⟩
    pred := ⟨_, _, _, hdefines (by decide) hpred⟩
    minus := ⟨_, _, _, _, _, hdefines (by decide) hminus⟩ }

/-- The definitions of arithmetic have no other variables than their parameters. -/
theorem HasArithmetic.closed (henv : HasArithmetic env) : (arithmetic env).Closed fun _ => 0 := by
  intro n d hd
  obtain ⟨hn, hd⟩ := henv.get?_arithmetic.mp hd
  obtain ⟨d', hd', -, ⟨p, hbody⟩ | ⟨t, k, hbody, ht⟩⟩ := henv.cases hn
  all_goals
    obtain rfl := Option.some.inj (hd.symm.trans hd')
    rw [hbody]
  · trivial
  · exact ht.built

/-- Arithmetic is reduced alike over all definitions and over those of arithmetic alone. -/
theorem HasArithmetic.alikeOn (henv : HasArithmetic env) :
    Reducer.AlikeOn (· ∈ arithmeticNames) (.bare (arithmetic env)) (.bare env) where
  env n hn := by
    obtain ⟨d, hd, -⟩ := henv.cases hn
    rw [henv.get?_eq hn, hd]
    exact .some (.refl d)
  store := rfl
  locals := rfl
  closed n d hn hd m hm := by
    rw [henv.get?_eq hn] at hd
    obtain ⟨d', hd', -, ⟨p, hbody⟩ | ⟨t, k, hbody, ht⟩⟩ := henv.cases hn
    all_goals
      obtain rfl := Option.some.inj (hd.symm.trans hd')
      rw [hbody] at hm
    · exact hm.elim
    · exact ht.names m hm
  context n hn := by
    obtain ⟨v, hv, -⟩ | ⟨m, t, ht, -⟩ := hn
    · cases hv
    · simp [Store.solution?] at ht

end Definitions

theorem numeral_of_alike {n : ℕ} {t : Term} (h : (Term.numeral n).anonymize = t.anonymize) :
    t = .numeral n := by
  induction n generalizing t with
  | zero =>
    cases Term.alike h
    rfl
  | succ n ih =>
    cases Term.alike h with
    | succ ha => rw [ih ha, Term.numeral]

/-- Normalizing an expression returns the numeral of its value, whatever else is defined, with
enough fuel and room for nested calls. There is no other outcome with less of them than that they
run out. -/
theorem nfGas_of_expression {env : Environment} (henv : HasArithmetic env) {t : Term} {n : ℕ}
    (h : Expression t n) :
    ∃ fuel₀ gas₀, ∀ fuel gas, match (Reducer.bare env).nfGas gas 0 t ⟨fuel, {}⟩ with
      | .ok v _ => v = .numeral n
      | .error .fuel _ => fuel < fuel₀
      | .error .gas _ => gas < gas₀ := by
  have hcounts : Reducer.Counts (.bare (arithmetic env)) 0 t n :=
    .of_expression henv.hasArithmetic h
  obtain ⟨T, hT⟩ := hcounts.ends_nf
  have ht := h.arithmetical
  have hcall : Reducer.Call.Agrees (.ofArity (fun _ => 0) False) (.bare (arithmetic env))
      (.bare (arithmetic env)) 0 (.nf 0 t) (.nf 0 t) := .nf (.ground rfl 0 0) ht.built rfl
  obtain ⟨k, hpays⟩ := hT.pays henv.closed False
  have hrun (gas : ℕ) := Reducer.pays_run_of_round
    (fun gas => hpays 0 _ gas (hcall.round henv.closed.closedIn)) gas
  refine ⟨T.cost (Reducer.courses (fun _ => 0) (arithmetic env)) (Memo.known {}), k + 1,
    fun fuel gas => ?_⟩
  have hsame : (Reducer.bare env).run gas (.nf 0 t) ⟨fuel, {}⟩ =
      (Reducer.bare (arithmetic env)).run gas (.nf 0 t) ⟨fuel, {}⟩ :=
    Reducer.eq_of_sameRuns (henv.alikeOn.sameRuns gas (c := .nf 0 t) ht.names) Memo.namesIn_empty
  have hspends := hrun gas ⟨fuel, {}⟩ Memo.backed_empty
  rw [← Reducer.run_nf, hsame]
  generalize (Reducer.bare (arithmetic env)).run gas (.nf 0 t) ⟨fuel, {}⟩ = result at hspends
  match result with
  | .ok v s => exact numeral_of_alike hspends.1
  | .error .fuel s => exact hspends
  | .error .gas s => exact not_le.mp hspends

end Prelude

end LeveledTypes
