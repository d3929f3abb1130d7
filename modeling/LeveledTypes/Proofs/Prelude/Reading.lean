import LeveledTypes.Proofs.Surface.Continuations
import LeveledTypes.Session.Basic
import Mathlib.Tactic

/-!
# The functions of the prelude as they are read

The functions on natural numbers at the start of the prelude are given by equations between names
that are applied to names. Reading the text gives these equations, with a place for each of their
parts.
-/
namespace LeveledTypes

open Surface

/-- The places of the parts of a text, for a name and what it is applied to. -/
inductive Places where
  | nowhere
  | node (span : Span) (left right : Places)

namespace Places

def span : Places → Span
  | .node s _ _ => s
  | .nowhere => default

def left : Places → Places
  | .node _ p _ => p
  | .nowhere => .nowhere

def right : Places → Places
  | .node _ _ p => p
  | .nowhere => .nowhere

/-- The parts of a list, each with its places. -/
def spread {α κ : Type} (f : Places → κ → α) (p : Places) : List κ → List α
  | [] => []
  | k :: ks => f p.left k :: spread f p.right ks

theorem exists_mem_spread {α κ : Type} (f : Places → κ → α) {ks : List κ} {k : κ}
    (hk : k ∈ ks) (p : Places) : ∃ q, f q k ∈ p.spread f ks := by
  induction ks generalizing p with
  | nil => cases hk
  | cons l ks ih =>
    rcases List.mem_cons.mp hk with rfl | hk
    · exact ⟨p.left, List.mem_cons_self⟩
    · obtain ⟨q, hq⟩ := ih hk p.right
      exact ⟨q, List.mem_cons_of_mem _ hq⟩

/-- Parts that each have places have them together. -/
theorem exists_spread {α κ : Type} {f : Places → κ → α} {g : α → Option κ}
    (h : ∀ a k, g a = some k → ∃ p, a = f p k) {as : List α} {ks : List κ}
    (has : as.mapM g = some ks) : ∃ p : Places, as = p.spread f ks := by
  induction as generalizing ks with
  | nil =>
    obtain rfl : [] = ks := by simpa using has
    exact ⟨.nowhere, rfl⟩
  | cons a as ih =>
    rw [List.mapM_cons] at has
    simp only [Option.bind_eq_bind, Option.bind_eq_some_iff, Option.pure_def,
      Option.some.injEq] at has
    obtain ⟨k, hk, ks, hks, rfl⟩ := has
    obtain ⟨p, rfl⟩ := h a k hk
    obtain ⟨q, rfl⟩ := ih hks
    exact ⟨.node default p q, rfl⟩

end Places

/-- Names that are applied to each other. -/
inductive Form where
  | name (n : String)
  | app (f a : Form)
deriving DecidableEq

/-- An equation: its patterns, which are names applied to names, and what it is equal to. -/
structure Equation where
  patterns : List (String × List String)
  rhs : Form
deriving DecidableEq

/-- A function between natural numbers, by its parameters and its equations. -/
structure Equations where
  name : GlobalName
  params : List Variable
  equations : List Equation
deriving DecidableEq

namespace Form

/-- The form as an expression at given places. -/
def written (p : Places) : Form → Expr
  | .name n => .name p.span n
  | .app f a => .app p.span (f.written p.left) .explicit (a.written p.right)

/-- The form of an expression that is made of names and explicit applications. -/
def ofExpr? : Expr → Option Form
  | .name _ n => some (.name n)
  | .app _ f .explicit a => do return .app (← ofExpr? f) (← ofExpr? a)
  | _ => none

/-- An expression that is a form is written as this form, with the places at which its parts stand.
-/
theorem exists_written {x : Expr} {k : Form} (h : ofExpr? x = some k) : ∃ p, x = k.written p := by
  induction k generalizing x with
  | name n =>
    cases x
    case name s m =>
      obtain rfl : m = n := by simpa [ofExpr?] using h
      exact ⟨.node s .nowhere .nowhere, rfl⟩
    case app s f info a => cases info <;> simp [ofExpr?, Option.bind_eq_some_iff] at h
    all_goals simp [ofExpr?] at h
  | app f a ihf iha =>
    cases x
    case app s g info b =>
      cases info
      case explicit =>
        simp only [ofExpr?, Option.bind_eq_bind, Option.bind_eq_some_iff, Option.pure_def,
          Option.some.injEq, app.injEq] at h
        obtain ⟨g', hg, b', hb, rfl, rfl⟩ := h
        obtain ⟨p, rfl⟩ := ihf hg
        obtain ⟨q, rfl⟩ := iha hb
        exact ⟨.node s p q, rfl⟩
      all_goals simp [ofExpr?] at h
    all_goals simp [ofExpr?] at h

end Form

namespace Equation

def plain? : Pattern → Option String
  | .name _ n [] => some n
  | _ => none

def pattern? : Pattern → Option (String × List String)
  | .name _ n ps => do return (n, ← ps.mapM plain?)
  | _ => none

def ofClause? (c : Clause Expr) :
    Option Equation := do return ⟨← c.patterns.mapM pattern?, ← Form.ofExpr? (← c.rhs)⟩

/-- The pattern as it is written, at the given places. -/
def writtenPattern (p : Places) (k : String × List String) : Pattern :=
  .name p.span k.1 (p.left.spread (fun p n => .name p.span n []) k.2)

/-- The equation as a clause at given places. -/
def written (p : Places) (k : Equation) : Clause Expr :=
  ⟨p.span, p.left.spread writtenPattern k.patterns, some (k.rhs.written p.right)⟩

theorem exists_plain {x : Pattern} {n : String} (h : plain? x = some n) :
    ∃ p : Places, x = .name p.span n [] := by
  cases x
  case name s m ps =>
    cases ps with
    | nil =>
      obtain rfl : m = n := by simpa [plain?] using h
      exact ⟨.node s .nowhere .nowhere, rfl⟩
    | cons p ps => simp [plain?] at h
  all_goals simp [plain?] at h

/-- A pattern that is a name applied to names is written as such, with the places of the names. -/
theorem exists_pattern {x : Pattern} {k : String × List String} (h : pattern? x = some k) :
    ∃ p, x = writtenPattern p k := by
  cases x
  case name s n ps =>
    simp only [pattern?, Option.bind_eq_bind, Option.bind_eq_some_iff, Option.pure_def,
      Option.some.injEq] at h
    obtain ⟨ns, hns, rfl⟩ := h
    obtain ⟨p, rfl⟩ := Places.exists_spread (fun _ _ => exists_plain) hns
    exact ⟨.node s p .nowhere, rfl⟩
  all_goals simp [pattern?] at h

theorem exists_written {c : Clause Expr} {k : Equation} (h : ofClause? c = some k) :
    ∃ p, c = k.written p := by
  obtain ⟨s, ps, rhs⟩ := c
  simp only [ofClause?, Option.bind_eq_bind, Option.bind_eq_some_iff, Option.pure_def,
    Option.some.injEq] at h
  obtain ⟨qs, hqs, x, rfl, y, hy, rfl⟩ := h
  obtain ⟨p, rfl⟩ := Places.exists_spread (fun _ _ => exists_pattern) hqs
  obtain ⟨q, rfl⟩ := Form.exists_written hy
  exact ⟨.node s p q, rfl⟩

end Equation

namespace Equations

def isNat (x : Expr) : Bool := Form.ofExpr? x = some (.name "Nat")

def param? (p : Param Expr) : Option Variable :=
  if p.info = .explicit ∧ isNat p.type then some p.var else none

/-- The equations of a declaration that is a function on natural numbers given by clauses. -/
def ofDecl? (d : Decl) : Option Equations :=
  match d.body with
  | .func (some t) (.clauses cs) =>
    if isNat t then do return ⟨d.name, ← d.tele.mapM param?, ← cs.mapM Equation.ofClause?⟩ else none
  | _ => none

def writtenParam (p : Places) (v : Variable) : Param Expr :=
  { var := v, info := .explicit, type := .name p.span "Nat" }

/-- The function as a declaration at given places. -/
def written (p : Places) (k : Equations) : Decl :=
  ⟨p.span, k.name, p.left.left.spread writtenParam k.params,
    .func (some (.name p.left.span "Nat")) (.clauses (p.right.spread Equation.written k.equations))⟩

theorem exists_nat {x : Expr} (h : isNat x = true) : ∃ p : Places, x = .name p.span "Nat" :=
  Form.exists_written (of_decide_eq_true h)

theorem exists_param {x : Param Expr} {v : Variable} (h : param? x = some v) :
    ∃ p, x = writtenParam p v := by
  obtain ⟨⟨w, info⟩, type⟩ := x
  simp only [param?, Option.ite_none_right_eq_some, Option.some.injEq] at h
  obtain ⟨⟨rfl, hnat⟩, rfl⟩ := h
  obtain ⟨p, rfl⟩ := exists_nat hnat
  exact ⟨p, rfl⟩

/-- A declaration that is given by equations is written as these, with the places at which their
parts stand. -/
theorem exists_written {d : Decl} {k : Equations} (h : ofDecl? d = some k) :
    ∃ p, d = k.written p := by
  obtain ⟨s, n, tele, body⟩ := d
  unfold ofDecl? at h
  split at h
  case h_2 => cases h
  case h_1 t cs hbody =>
    simp only at hbody
    subst hbody
    simp only [Option.ite_none_right_eq_some, Option.bind_eq_bind, Option.bind_eq_some_iff,
      Option.pure_def, Option.some.injEq] at h
    obtain ⟨hnat, vs, hvs, ks, hks, rfl⟩ := h
    obtain ⟨p, rfl⟩ := exists_nat hnat
    obtain ⟨q, rfl⟩ := Places.exists_spread (fun _ _ => exists_param) hvs
    obtain ⟨r, rfl⟩ := Places.exists_spread (fun _ _ => Equation.exists_written) hks
    exact ⟨.node s (.node p.span q .nowhere) r, rfl⟩

end Equations

namespace Prelude

open Primitive (globalName)

/-- The sum, by recursion on the first number. -/
def plusEquations : Equations where
  name := globalName "plus"
  params := [⟨"m", 1⟩, ⟨"n", 2⟩]
  equations := [
    ⟨[("zero", []), ("n", [])], .name "n"⟩,
    ⟨[("suc", ["m"]), ("n", [])],
      .app (.name "suc") (.app (.app (.name "plus") (.name "m")) (.name "n"))⟩]

/-- The product, by recursion on the first number. -/
def mulEquations : Equations where
  name := globalName "mul"
  params := [⟨"m", 3⟩, ⟨"n", 4⟩]
  equations := [
    ⟨[("zero", []), ("n", [])], .name "zero"⟩,
    ⟨[("suc", ["m"]), ("n", [])],
      .app (.app (.name "plus") (.name "n")) (.app (.app (.name "mul") (.name "m")) (.name "n"))⟩]

/-- The predecessor. -/
def predEquations : Equations where
  name := globalName "pred"
  params := [⟨"n", 5⟩]
  equations := [⟨[("zero", [])], .name "zero"⟩, ⟨[("suc", ["n"])], .name "n"⟩]

/-- The difference. The second number is looked at first. -/
def minusEquations : Equations where
  name := globalName "minus"
  params := [⟨"m", 6⟩, ⟨"n", 7⟩]
  equations := [
    ⟨[("m", []), ("zero", [])], .name "m"⟩,
    ⟨[("zero", []), ("suc", ["n"])], .name "zero"⟩,
    ⟨[("suc", ["m"]), ("suc", ["n"])], .app (.app (.name "minus") (.name "m")) (.name "n")⟩]

/-- Reads the tree of a module. -/
def readTree (name : String) : Except Position (Tree Rule) → Except Error Module
  | .error p => .error (.located (.malformed none) p.point)
  | .ok t =>
    let ((imports, decls), s) := (Reader.file name t).run {}
    match s.refusal with
    | some (reason, span) => .error (.located (.malformed (some reason)) span)
    | none => .ok { name, imports, decls, variableCount := s.next }

theorem read_eq_readTree (name text : String) :
    Module.read name text = readTree name (grammar.parseThen .file text.toList) := by
  unfold Module.read
  rw [Grammar.parse_eq_parseThen]
  cases grammar.parseThen .file text.toList <;> rfl

/-- The name of a module, the number of its variables, the names that it introduces and its first
functions. -/
def outline (m : Except Error Module) :
    Option (String × ℕ × List GlobalName × List (Option Equations)) :=
  m.toOption.map fun m => (m.name, m.variableCount, m.decls.flatMap (·.names),
    (m.decls.take 4).map Equations.ofDecl?)

/-- The names that the text of the prelude introduces. -/
def declared : List GlobalName :=
  ["plus", "mul", "pred", "minus", "Eq", "idp", "pmap"].map globalName

set_option maxRecDepth 100000 in
/-- What is read of the text of the prelude, as far as it is needed: the first four declarations are
given by equations. -/
theorem outline_text : outline (Module.read source.name text) =
    some (Primitive.preludeName, 25, declared,
    [some plusEquations, some mulEquations, some predEquations, some minusEquations]) := by
  -- The characters of each line are taken from its literal, since decoding the bytes of the text
  -- would take long.
  rw [read_eq_readTree, text, lines]
  simp only [String.toList_append, String.toList_intercalate, List.map_cons, List.map_nil,
    -String.reduceToList]
  repeat rw [String.toList_ofList]
  decide +kernel

/-- The text of the prelude can be read. -/
theorem exists_read : ∃ m, Module.read source.name text = .ok m := by
  have houtline := outline_text
  cases hread : Module.read source.name text with
  | ok m => exact ⟨m, rfl⟩
  | error err =>
    rw [hread] at houtline
    cases houtline

/-- The functions on natural numbers are the first declarations that are read. -/
theorem decls_of_read {m : Module} (h : Module.read source.name text = .ok m) :
    m.name = Primitive.preludeName ∧ m.variableCount = 25 ∧ m.decls.flatMap (·.names) = declared ∧
      ∃ p q r s ds, m.decls = plusEquations.written p :: mulEquations.written q ::
        predEquations.written r :: minusEquations.written s :: ds := by
  have houtline := outline_text
  rw [h] at houtline
  obtain ⟨hname, hrest⟩ := Prod.mk.inj (Option.some.inj houtline)
  obtain ⟨hcount, hrest⟩ := Prod.mk.inj hrest
  obtain ⟨hnames, hforms⟩ := Prod.mk.inj hrest
  refine ⟨hname, hcount, hnames, ?_⟩
  generalize m.decls = decls at hforms ⊢
  rcases decls with _ | ⟨d₁, _ | ⟨d₂, _ | ⟨d₃, _ | ⟨d₄, ds⟩⟩⟩⟩
  case cons.cons.cons.cons =>
    obtain ⟨h₁, h₂, h₃, h₄⟩ : Equations.ofDecl? d₁ = some plusEquations ∧
        Equations.ofDecl? d₂ = some mulEquations ∧
        Equations.ofDecl? d₃ = some predEquations ∧ Equations.ofDecl? d₄ = some minusEquations := by
          simpa using hforms
    obtain ⟨p, rfl⟩ := Equations.exists_written h₁
    obtain ⟨q, rfl⟩ := Equations.exists_written h₂
    obtain ⟨r, rfl⟩ := Equations.exists_written h₃
    obtain ⟨s, rfl⟩ := Equations.exists_written h₄
    exact ⟨p, q, r, s, ds, rfl⟩
  all_goals simp at hforms

end Prelude

end LeveledTypes
