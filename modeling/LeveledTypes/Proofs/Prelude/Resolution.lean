import LeveledTypes.Proofs.Prelude.Reading
import LeveledTypes.Proofs.Resolution.Lexical
import LeveledTypes.Proofs.Surface.Names

/-!
# The functions of the prelude as they are resolved

Within the prelude the short name of a global stands for that global. Where the names of a function
are in scope, its declaration is resolved: names in patterns become constructors or new variables,
which are counted on from those that the reader made, and the other names become these variables or
globals.
-/
namespace LeveledTypes
open Surface
open Primitive (globalName)

namespace Form

/-- The names in a form. -/
def names : Form → List String
  | .name n => [n]
  | .app f a => f.names ++ a.names

/-- The form as an expression where local binders and globals are told apart. -/
def resolved (Γ : List Variable) (p : Places) : Form → Expr
  | .name n =>
    match Resolver.innermost Γ n with
    | some v => .localVar p.span v
    | none => .globalRef p.span (globalName n)
  | .app f a => .app p.span (f.resolved Γ p.left) .explicit (a.resolved Γ p.right)

end Form

namespace Equation

/-- The names that patterns bind, where some names are constructors. -/
def bound (cs : List String) (ps : List (String × List String)) : List String :=
  ps.flatMap fun (n, ns) => if n ∈ cs then ns else [n]

/-- Names that are bound as variables, numbered from left to right. -/
def resolvedVars (p : Places) (i : ℕ) : List String → List Pattern
  | [] => []
  | n :: ns => .var p.left.span ⟨n, i⟩ :: resolvedVars p.right (i + 1) ns

/-- Patterns in which the given names are constructors and all others variables. -/
def resolvedPatterns (cs : List String) (p : Places) (i : ℕ) :
    List (String × List String) → List Pattern
  | [] => []
  | (n, ns) :: ps =>
    if n ∈ cs then
      .con p.left.span (globalName n) (resolvedVars p.left.left i ns) :: resolvedPatterns cs p.right
        (i + ns.length) ps
    else .var p.left.span ⟨n, i⟩ :: resolvedPatterns cs p.right (i + 1) ps

/-- The clause whose names have been resolved; its binders have identities from a number on. -/
def resolved (cs : List String) (p : Places) (i : ℕ) (k : Equation) : Clause Expr :=
  ⟨p.span, resolvedPatterns cs p.left i k.patterns,
    some (k.rhs.resolved (Resolver.numbered i (bound cs k.patterns)).reverse p.right)⟩

/-- The patterns are constructors applied to binders, all different, and the other names are those
of globals. -/
structure Scoped (ks cs : List String) (k : Equation) : Prop where
  plain : ∀ p ∈ k.patterns, (p.1 ∈ cs ∨ p.2 = []) ∧ ∀ n ∈ p.2, n ∉ cs
  nodup : (bound cs k.patterns).Nodup
  known : ∀ n ∈ k.rhs.names, n ∈ bound cs k.patterns ∧ n ≠ Variable.anonymousName ∨ n ∈ ks

instance (ks cs : List String) (k : Equation) : Decidable (k.Scoped ks cs) :=
  decidable_of_iff ((∀ p ∈ k.patterns, (p.1 ∈ cs ∨ p.2 = []) ∧ ∀ n ∈ p.2, n ∉ cs) ∧
    (bound cs k.patterns).Nodup ∧
    ∀ n ∈ k.rhs.names, n ∈ bound cs k.patterns ∧ n ≠ Variable.anonymousName ∨ n ∈ ks)
    ⟨fun h => ⟨h.1, h.2.1, h.2.2⟩, fun h => ⟨h.plain, h.nodup, h.known⟩⟩

/-- The clauses whose names have been resolved; numbers go on from one to the next. -/
def resolvedAll (cs : List String) (p : Places) (i : ℕ) : List Equation → List (Clause Expr)
  | [] => []
  | k :: ks => k.resolved cs p.left i :: resolvedAll cs p.right
    (i + (bound cs k.patterns).length) ks

end Equation

namespace Equations

def resolvedParam (p : Places) (v : Variable) : Param Expr :=
  { var := v, info := .explicit, type := .globalRef p.span (globalName "Nat") }

/-- The declaration whose names have been resolved. -/
def resolved (cs : List String) (p : Places) (i : ℕ) (k : Equations) : Decl :=
  ⟨p.span, k.name, p.left.left.spread resolvedParam k.params,
    .func (some (.globalRef p.left.span (globalName "Nat")))
      (.clauses (Equation.resolvedAll cs p.right i k.equations))⟩

/-- The names of the function are in scope. -/
structure Scoped (ks cs : List String) (k : Equations) : Prop where
  nat : "Nat" ∈ ks
  params : "Nat" ∉ k.params.map (·.name)
  equations : ∀ e ∈ k.equations, e.Scoped ks cs

end Equations

namespace Resolver

/-- Within the prelude the globals of the prelude are known by their short names. -/
structure Knows (r : Resolver) (ks cs : List String) : Prop where
  module : r.module = Primitive.preludeName
  globals : ∀ k, r.scope.globals.getD k [] = if k ∈ ks then [globalName k] else []
  ctors : ∀ k, r.scope.ctors.contains (globalName k) = decide (k ∈ cs)
  plain : ∀ k ∈ ks, ':' ∉ k.toList
  subset : cs ⊆ ks

variable {r : Resolver} {ks cs : List String}

theorem Knows.candidates (h : r.Knows ks cs) (k : String) :
    r.candidates k = if k ∈ ks then [globalName k] else [] := by
  rw [Resolver.candidates, h.globals]
  by_cases hk : k ∈ ks
  · have hmodule : (globalName k).module = r.module := by
      rw [h.module]
      exact GlobalName.IsOwn.module_eq ⟨k, rfl, h.plain k hk⟩
    simp [hk, hmodule]
  · simp [hk]

theorem Knows.ctor? (h : r.Knows ks cs) (k : String) :
    r.ctor? k = if k ∈ cs then some (globalName k) else none := by
  rw [Resolver.ctor?, h.candidates]
  by_cases hk : k ∈ ks
  · simp [hk, h.ctors]
  · have hcs : k ∉ cs := fun hcs => hk (h.subset hcs)
    simp [hk, hcs]

section Forms

/-- A form has no faults if each of its names is bound around it or is a known global. -/
theorem Knows.faults_written (h : r.Knows ks cs) {Γ : List Variable} {k : Form}
    (hk : ∀ n ∈ k.names, n ∈ Γ.map (·.name) ∧ n ≠ Variable.anonymousName ∨ n ∈ ks) (p : Places) :
    faults r ∅ (Γ.map (·.name)) (k.written p) = [] := by
  induction k generalizing p with
  | name n =>
    unfold Form.written faults
    split
    case isTrue => rfl
    case isFalse hlocal =>
      have hn := (hk n (by simp [Form.names])).resolve_left fun hn => hlocal (.inl hn)
      rw [globalFaults, h.candidates, if_pos hn]
  | app f a ihf iha =>
    unfold Form.written faults
    rw [ihf fun n hn => hk n (List.mem_append_left _ hn),
      iha fun n hn => hk n (List.mem_append_right _ hn)]
    rfl

/-- A form resolves to names of variables and globals, and uses up no number, since it binds
nothing. -/
theorem Knows.resolved_written (h : r.Knows ks cs) {Γ : List Variable} {k : Form}
    (hk : ∀ n ∈ k.names, n ∈ Γ.map (·.name) ∧ n ≠ Variable.anonymousName ∨ n ∈ ks)
    (p : Places) (i : ℕ) :
    resolved r ∅ Γ i (k.written p) = k.resolved Γ p ∧ after r i (k.written p) = i := by
  induction k generalizing p i with
  | name n =>
    refine ⟨?_, rfl⟩
    unfold Form.written resolved Form.resolved
    have hlocal := isLocal_iff ∅ Γ n
    have hlookup : local? ∅ Γ n = innermost Γ n := by simp [local?]
    rw [hlookup] at hlocal ⊢
    cases hn : innermost Γ n with
    | some v => rfl
    | none =>
      rw [hn] at hlocal
      have hks := (hk n (by simp [Form.names])).resolve_left fun hn => by
        simpa using hlocal.mp (.inl hn)
      rw [h.candidates, if_pos hks]
  | app f a ihf iha =>
    obtain ⟨hf, hafterf⟩ := ihf (fun n hn => hk n (List.mem_append_left _ hn)) p.left i
    obtain ⟨ha, haftera⟩ := iha (fun n hn => hk n (List.mem_append_right _ hn)) p.right i
    constructor
    · rw [Form.written, resolved, hf, hafterf, ha, Form.resolved]
    · rw [Form.written, after, hafterf, haftera]

end Forms

section Patterns

theorem Knows.newNames_var (h : r.Knows ks cs) {n : String} (hn : n ∉ cs) (span : Span) :
    newNames r (.name span n []) = [n] := by
  simp [newNames, h.ctor?, hn]

theorem Knows.patternFaults_var (h : r.Knows ks cs) {n : String} {ms : List String} (hn : n ∉ cs)
    (hms : n ∉ ms) (span : Span) : patternFaults r ms (.name span n []) = [] := by
  unfold patternFaults
  rw [h.ctor?, if_neg hn]
  exact if_neg hms

theorem Knows.newNames_vars (h : r.Knows ks cs) {ns : List String}
    (hns : ∀ n ∈ ns, n ∉ cs) (p : Places) :
    newNamesAll r (p.spread (fun p n => .name p.span n []) ns) = ns := by
  induction ns generalizing p with
  | nil => rfl
  | cons n ns ih =>
    obtain ⟨hn, hns⟩ := List.forall_mem_cons.mp hns
    rw [Places.spread, newNamesAll, h.newNames_var hn, ih hns, List.singleton_append]

theorem Knows.resolvedPatterns_vars (h : r.Knows ks cs) {ns : List String} (hns : ∀ n ∈ ns, n ∉ cs)
    (p : Places) (i : ℕ) :
    resolvedPatterns r i (p.spread (fun p n => .name p.span n []) ns) =
      Equation.resolvedVars p i ns := by
  induction ns generalizing p i with
  | nil => rfl
  | cons n ns ih =>
    obtain ⟨hn, hns⟩ := List.forall_mem_cons.mp hns
    rw [Places.spread, resolvedPatterns, h.newNames_var hn, resolvedPattern, h.ctor?, if_neg hn,
      List.length_singleton, ih hns, Equation.resolvedVars]

theorem Knows.patternsFaults_vars (h : r.Knows ks cs) {ns ms : List String} (hns : ∀ n ∈ ns, n ∉ cs)
    (hnodup : (ms ++ ns).Nodup) (p : Places) :
    patternsFaults r ms (p.spread (fun p n => .name p.span n []) ns) = [] := by
  induction ns generalizing p ms with
  | nil => rfl
  | cons n ns ih =>
    obtain ⟨hn, hns⟩ := List.forall_mem_cons.mp hns
    have hms : n ∉ ms := fun hmem => List.disjoint_of_nodup_append hnodup hmem List.mem_cons_self
    rw [Places.spread, patternsFaults, h.patternFaults_var hn hms, h.newNames_var hn,
      ih hns (by simpa using hnodup), List.append_nil]

/-- The names that a pattern of an equation binds. -/
theorem Knows.newNames_written (h : r.Knows ks cs) {q : String × List String}
    (hq : q.1 ∈ cs ∨ q.2 = []) (hns : ∀ n ∈ q.2, n ∉ cs) (p : Places) :
    newNames r (Equation.writtenPattern p q) = if q.1 ∈ cs then q.2 else [q.1] := by
  unfold Equation.writtenPattern
  by_cases hcs : q.1 ∈ cs
  · rw [newNames, h.ctor?, if_pos hcs, if_pos hcs]
    exact h.newNames_vars hns _
  · rw [hq.resolve_left hcs, if_neg hcs]
    exact h.newNames_var hcs _

theorem Knows.newNamesAll_written (h : r.Knows ks cs) {qs : List (String × List String)}
    (hqs : ∀ q ∈ qs, (q.1 ∈ cs ∨ q.2 = []) ∧ ∀ n ∈ q.2, n ∉ cs) (p : Places) :
    newNamesAll r (p.spread Equation.writtenPattern qs) = Equation.bound cs qs := by
  induction qs generalizing p with
  | nil => rfl
  | cons q qs ih =>
    obtain ⟨⟨hq, hns⟩, hqs⟩ := List.forall_mem_cons.mp hqs
    rw [Places.spread, newNamesAll, h.newNames_written hq hns, ih hqs]
    rfl

/-- A name in a pattern is a constructor if the scope has it as one, else it is a new variable. The
numbers go up from left to right. -/
theorem Knows.resolvedPatterns_written (h : r.Knows ks cs) {qs : List (String × List String)}
    (hqs : ∀ q ∈ qs, (q.1 ∈ cs ∨ q.2 = []) ∧ ∀ n ∈ q.2, n ∉ cs) (p : Places) (i : ℕ) :
    resolvedPatterns r i (p.spread Equation.writtenPattern qs) =
      Equation.resolvedPatterns cs p i qs := by
  induction qs generalizing p i with
  | nil => rfl
  | cons q qs ih =>
    obtain ⟨⟨hq, hns⟩, hqs⟩ := List.forall_mem_cons.mp hqs
    rw [Places.spread, resolvedPatterns, h.newNames_written hq hns, ih hqs, Equation.writtenPattern,
      resolvedPattern, h.ctor?, Equation.resolvedPatterns]
    by_cases hcs : q.1 ∈ cs
    · rw [if_pos hcs, if_pos hcs, if_pos hcs, h.resolvedPatterns_vars hns]
    · rw [if_neg hcs, if_neg hcs, if_neg hcs, List.length_singleton]

/-- Patterns have no faults if no name is bound twice and only constructors have arguments. -/
theorem Knows.patternsFaults_written (h : r.Knows ks cs) {qs : List (String × List String)}
    {ms : List String} (hqs : ∀ q ∈ qs, (q.1 ∈ cs ∨ q.2 = []) ∧ ∀ n ∈ q.2, n ∉ cs)
    (hnodup : (ms ++ Equation.bound cs qs).Nodup) (p : Places) :
    patternsFaults r ms (p.spread Equation.writtenPattern qs) = [] := by
  induction qs generalizing p ms with
  | nil => rfl
  | cons q qs ih =>
    obtain ⟨⟨hq, hns⟩, hqs⟩ := List.forall_mem_cons.mp hqs
    have hbound : Equation.bound cs (q :: qs) = (if q.1 ∈ cs then q.2 else [q.1]) ++
        Equation.bound cs qs := List.flatMap_cons
    rw [hbound, ← List.append_assoc] at hnodup
    have hfaults : patternFaults r ms (Equation.writtenPattern p.left q) = [] := by
      have hfirst := hnodup.of_append_left
      unfold Equation.writtenPattern
      by_cases hcs : q.1 ∈ cs
      · rw [if_pos hcs] at hfirst
        unfold patternFaults
        rw [h.ctor?, if_pos hcs]
        exact h.patternsFaults_vars hns hfirst _
      · rw [if_neg hcs] at hfirst
        rw [hq.resolve_left hcs]
        exact h.patternFaults_var hcs
          (fun hmem => List.disjoint_of_nodup_append hfirst hmem List.mem_cons_self) _
    rw [Places.spread, patternsFaults, hfaults, h.newNames_written hq hns, ih hqs hnodup,
      List.append_nil]

end Patterns

section Clauses

/-- The names of equations whose names are in scope are resolved. -/
theorem Knows.clauses_written (h : r.Knows ks cs) {es : List Equation}
    (hes : ∀ e ∈ es, e.Scoped ks cs) (p : Places) (i : ℕ) :
    r.clauses (p.spread Equation.written es) ⟨∅, i⟩ =
      .ok (Equation.resolvedAll cs p i es) ⟨∅, i +
        (es.map fun e => (Equation.bound cs e.patterns).length).sum⟩ := by
  have hspec : faultsClauses r ∅ [] (p.spread Equation.written es) = [] ∧
      resolvedClauses r ∅ [] i (p.spread Equation.written es) = Equation.resolvedAll cs p i es ∧
      afterClauses r i (p.spread Equation.written es) =
        i + (es.map fun e => (Equation.bound cs e.patterns).length).sum := by
    induction es generalizing p i with
    | nil => exact ⟨rfl, rfl, rfl⟩
    | cons e es ih =>
      obtain ⟨he, hes⟩ := List.forall_mem_cons.mp hes
      have hnames := h.newNamesAll_written he.plain p.left.left
      have hrhs : ∀ n ∈ e.rhs.names,
          n ∈ (numbered i (Equation.bound cs e.patterns)).reverse.map (·.name) ∧
          n ≠ Variable.anonymousName ∨ n ∈ ks := by
        rw [List.map_reverse, map_name_numbered]
        simpa using he.known
      obtain ⟨hresolved, hafter⟩ :=
        h.resolved_written hrhs p.left.right (i + (Equation.bound cs e.patterns).length)
      have hfaults := h.faults_written hrhs p.left.right
      rw [List.map_reverse, map_name_numbered] at hfaults
      obtain ⟨ihfaults, ihresolved, ihafter⟩ :=
        ih hes p.right (i + (Equation.bound cs e.patterns).length)
      rw [Places.spread, Equation.written]
      refine ⟨?_, ?_, ?_⟩
      · rw [faultsClauses, h.patternsFaults_written he.plain (by simpa using he.nodup), hnames,
          faultsOption, List.append_nil, hfaults, ihfaults]
        rfl
      · rw [resolvedClauses, h.resolvedPatterns_written he.plain, hnames, resolvedOption,
          List.append_nil, hresolved, afterOption, hafter, ihresolved]
        rfl
      · rw [afterClauses, hnames, afterOption, hafter, ihafter, List.map_cons, List.sum_cons,
          Nat.add_assoc]
  obtain ⟨hfaults, hresolved, hafter⟩ := hspec
  have hends := clauses_ends r ∅ [] i (p.spread Equation.written es)
  unfold Ends at hends
  rw [List.map_nil, hfaults, hresolved, hafter] at hends
  exact hends

end Clauses

section Declarations

theorem Knows.expr_nat (h : r.Knows ks cs) (hnat : "Nat" ∈ ks) {Γ : List Variable}
    (hΓ : "Nat" ∉ Γ.map (·.name)) (p : Places) (i : ℕ) :
    r.expr (.name p.span "Nat") ⟨enter ∅ Γ, i⟩ = .ok (.globalRef p.span (globalName "Nat"))
      ⟨enter ∅ Γ, i⟩ := by
  have hnone : (enter ∅ Γ)["Nat"]? = none := by
    rw [getElem?_enter, local?, innermost_eq_none hΓ]
    simp
  rw [expr_of_global (s := ⟨enter ∅ Γ, i⟩) hnone, Resolver.global, h.candidates, if_pos hnat]
  rfl

/-- The parameters of a function are resolved to variables, all of the type of natural numbers. -/
theorem Knows.tele_written (h : r.Knows ks cs) (hnat : "Nat" ∈ ks) {vs Γ : List Variable}
    (hvs : "Nat" ∉ (vs.reverse ++ Γ).map (·.name)) (p : Places) (i : ℕ) :
    r.tele (p.spread Equations.writtenParam vs) ⟨enter ∅ Γ, i⟩ =
      .ok (p.spread Equations.resolvedParam vs) ⟨enter ∅ (vs.reverse ++ Γ), i⟩ := by
  induction vs generalizing Γ p with
  | nil => rfl
  | cons v vs ih =>
    rw [List.reverse_cons, List.append_assoc, List.singleton_append] at hvs ⊢
    have hΓ : "Nat" ∉ Γ.map (·.name) := fun hmem => hvs (by simp_all)
    let inner : State := ⟨enter ∅ (v :: Γ), i⟩
    refine (bind_of_ok (h.expr_nat hnat hΓ p.left i)).trans ?_
    exact (bind_of_ok (t := inner) rfl).trans ((bind_of_ok (ih hvs p.right)).trans rfl)

/-- If each local variable is an explicit parameter, none is left. -/
theorem hideMatched_eq_empty {tele : Telescope Expr} {ls : Locals}
    (h : ∀ n v, ls[n]? = some v → ∃ p ∈ tele, p.isExplicit ∧ p.var = v ∧ v.name = n) :
    hideMatched tele ls = ∅ := by
  induction tele generalizing ls with
  | nil =>
    refine Std.ExtHashMap.ext_getElem? fun n => ?_
    cases hn : ls[n]? with
    | none => simpa [hideMatched] using hn
    | some v => simpa using h n v hn
  | cons p tele ih =>
    have hstep : hideMatched (p :: tele) ls =
        hideMatched tele (if p.isExplicit ∧
          ls[p.var.name]?.any p.var.same then ls.erase p.var.name else ls) := rfl
    rw [hstep]
    refine ih fun n v hv => ?_
    by_cases hp : p.isExplicit ∧ ls[p.var.name]?.any p.var.same
    · rw [if_pos hp, Std.ExtHashMap.getElem?_erase] at hv
      obtain ⟨hne, hn⟩ : p.var.name ≠ n ∧ ls[n]? = some v := by simpa using hv
      obtain ⟨q, hq, hexplicit, hqv, hvn⟩ := h n v hn
      rcases List.mem_cons.mp hq with rfl | hq
      · exact absurd (hqv ▸ hvn) hne
      · exact ⟨q, hq, hexplicit, hqv, hvn⟩
    · rw [if_neg hp] at hv
      obtain ⟨q, hq, hexplicit, hqv, hvn⟩ := h n v hv
      rcases List.mem_cons.mp hq with rfl | hq
      · subst hqv
        exact absurd ⟨hexplicit, by simp [hvn, hv, Variable.same]⟩ hp
      · exact ⟨q, hq, hexplicit, hqv, hvn⟩

/-- Parameters are local variables until clauses match them. -/
theorem hideMatched_resolved (p : Places) (vs : List Variable) :
    hideMatched (p.spread Equations.resolvedParam vs) (enter ∅ vs.reverse) = ∅ := by
  refine hideMatched_eq_empty fun n v hv => ?_
  have hinner : innermost vs.reverse n = some v := by simpa [getElem?_enter, local?] using hv
  have hmem : v ∈ vs := List.mem_reverse.mp (List.mem_of_find?_eq_some hinner)
  have hname := List.find?_some hinner
  rw [Bool.and_eq_true, beq_iff_eq] at hname
  obtain ⟨q, hq⟩ := Places.exists_mem_spread Equations.resolvedParam hmem p
  exact ⟨_, hq, rfl, rfl, hname.2⟩

/-- Functions whose names are in scope are resolved. -/
theorem Knows.decl_written (h : r.Knows ks cs) {k : Equations} (hk : k.Scoped ks cs)
    (p : Places) (i : ℕ) : saving (r.decl (k.written p)) ⟨∅, i⟩ =
      .ok (k.resolved cs p i) ⟨∅, i +
        (k.equations.map fun e => (Equation.bound cs e.patterns).length).sum⟩ := by
  have hparams : "Nat" ∉ (k.params.reverse ++ ([] : List Variable)).map (·.name) := by
    simpa using hk.params
  have htele := h.tele_written hk.nat hparams p.left.left i
  have hnat := h.expr_nat hk.nat hparams p.left i
  rw [List.append_nil] at htele hnat
  have htype : r.exprOption (some (.name p.left.span "Nat")) ⟨enter ∅ k.params.reverse, i⟩ =
      .ok (some (.globalRef p.left.span (globalName "Nat"))) ⟨enter ∅ k.params.reverse, i⟩ :=
        (bind_of_ok hnat).trans rfl
  have hclauses := h.clauses_written hk.equations p.right i
  have hhide : modifyLocals (hideMatched (p.left.left.spread Equations.resolvedParam k.params))
      ⟨enter ∅ k.params.reverse, i⟩ = .ok () ⟨∅, i⟩ := by
    change EStateM.Result.ok () (State.mk (hideMatched _ _) i) = _
    rw [hideMatched_resolved]
  have hdecl : r.decl (k.written p) ⟨∅, i⟩ =
      .ok (k.resolved cs p i) ⟨∅, i +
        (k.equations.map fun e => (Equation.bound cs e.patterns).length).sum⟩ := by
    refine (bind_of_ok htele).trans ((bind_of_ok htype).trans ?_)
    exact (bind_of_ok hhide).trans ((bind_of_ok hclauses).trans rfl)
  rw [saving, hdecl]

end Declarations

theorem globalName_injective : Function.Injective globalName := by
  intro k m h
  have htext := congrArg (fun n => n.text.toList) h
  simp only [globalName, GlobalName.qualified, String.toList_append] at htext
  exact String.toList_inj.mp (List.append_cancel_left htext)

/-- A new global of the prelude becomes known. -/
theorem Knows.declare (h : r.Knows ks cs) {k : String} (hk : k ∉ ks) (hplain : ':' ∉ k.toList)
    (isCtor : Bool) :
    Knows { r with scope := r.scope.declare (globalName k) isCtor } (k :: ks)
      (if isCtor then k :: cs else cs) where
  module := h.module
  globals m := by
    have hshort : (globalName k).short = k := GlobalName.short_qualified hplain
    have hnone : r.scope.globals.getD (globalName k).short [] = [] := by
      rw [hshort, h.globals, if_neg hk]
    simp only [Scope.declare, hnone, List.contains_nil, Bool.false_eq_true, if_false,
      List.nil_append, List.mem_cons]
    rw [hshort, Std.HashMap.getD_insert, h.globals]
    by_cases hm : k = m
    · simp [hm]
    · simp [hm, Ne.symm hm]
  ctors m := by
    have hinj : (globalName k == globalName m) = decide (m = k) := by
      simp [beq_eq_decide, globalName_injective.eq_iff, eq_comm]
    cases isCtor
    · exact h.ctors m
    · simp [Scope.declare, Std.HashSet.contains_insert, hinj, h.ctors]
  plain := List.forall_mem_cons.mpr ⟨hplain, h.plain⟩
  subset := by
    split
    · exact List.cons_subset_cons _ h.subset
    · exact fun c hc => List.mem_cons_of_mem _ (h.subset hc)

/-- Imported definitions become known, if their names are new. -/
theorem Knows.importAll (h : r.Knows ks cs) {ds : List Definition} (js : List (String × Bool))
    (hds : ds.map (fun d => (d.name, Scope.isConstructor d)) = js.map fun j =>
      (globalName j.1, j.2))
    (hnew : (ks.reverse ++ js.map (·.1)).Nodup) (hplain : ∀ j ∈ js, ':' ∉ j.1.toList) :
    Knows { r with scope := r.scope.importAll ds } (js.foldl (fun ks j => j.1 :: ks) ks) 
      (js.foldl (fun cs j => if j.2 then j.1 :: cs else cs) cs) := by
  induction js generalizing r ks cs ds with
  | nil => 
    obtain rfl := List.map_eq_nil_iff.mp hds
    exact h
  | cons j js ih =>
    obtain ⟨d, ds, rfl, hd, hds⟩ := List.map_eq_cons_iff.mp hds
    obtain ⟨hname, hctor⟩ := Prod.mk.inj hd
    obtain ⟨hj, hplain⟩ := List.forall_mem_cons.mp hplain
    have hk : j.1 ∉ ks := fun hk =>
      List.disjoint_of_nodup_append hnew (List.mem_reverse.mpr hk) List.mem_cons_self
    have hnext := h.declare hk hj (Scope.isConstructor d)
    rw [← hname] at hnext
    rw [List.foldl_cons, List.foldl_cons, ← hctor]
    exact ih (r := { r with scope := r.scope.declare d.name (Scope.isConstructor d) }) hnext hds
      (by simpa using hnew) hplain

/-- The short names of the primitives. -/
def primitiveNames : List String :=
  ["Nat", "zero", "suc", "Nat.rec", "I", "left", "right", "Path", "path", "at"].reverse

/-- The short names of the constructors among the primitives. -/
abbrev ctorNames : List String := ["suc", "zero"]

/-- The resolver of the prelude, before it has resolved anything. -/
def prelude : Resolver := ⟨Primitive.preludeName, Scope.importAll {} Primitive.definitions⟩

theorem knows_prelude : prelude.Knows primitiveNames ctorNames := by
  have hempty : Knows ⟨Primitive.preludeName, {}⟩ [] [] :=
    ⟨rfl, fun k => by simp, fun k => by simp, by simp, List.nil_subset _⟩
  exact hempty.importAll (primitiveNames.reverse.map fun n => (n, ctorNames.contains n)) rfl
    (by decide) (by decide)

/-- A function of the prelude is resolved, and known from then on. -/
theorem Knows.decls_cons (h : r.Knows ks cs) {k : Equations} {n : String}
    (hname : k.name = globalName n) (hn : n ∉ ks) (hplain : ':' ∉ n.toList)
    (hk : k.Scoped (n :: ks) cs) (own : List GlobalName) (hown : globalName n ∉ own) (p : Places)
    {i j : ℕ} (hj : i + (k.equations.map fun e => (Equation.bound cs e.patterns).length).sum = j)
    (ds : List Decl) : ∃ r' : Resolver, r'.Knows (n :: ks) cs ∧
      r.decls own ⟨∅, i⟩ (k.written p :: ds) = .ok (k.resolved cs p i) :: r'.decls
        (globalName n :: own) ⟨∅, j⟩ ds := by
  have hnext := h.declare hn hplain false
  rw [if_neg Bool.false_ne_true] at hnext
  have hnames : (k.written p).names = [globalName n] := by
    rw [← hname]
    rfl
  have hscope : r.scope.declareDecl (k.written p) = r.scope.declare (globalName n) false := by
    rw [← hname]
    rfl
  have hintroduce : introduce own [globalName n] = (none, globalName n :: own) := by
    simp [introduce, hown]
  refine ⟨_, hnext, ?_⟩
  rw [decls, hnames, hintroduce]
  simp only [hscope, hnext.decl_written hk, hj]

end Resolver

end LeveledTypes
