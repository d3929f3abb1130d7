import LeveledTypes.Proofs.Ensures
import LeveledTypes.Scope
import Mathlib.Tactic

/-!
# Lexical scoping

What a name stands for depends on the binders around it and on nothing that has been resolved
before: the innermost binder of the name, else the local variable that it stood for outside, else
the only global that it can be. The map of local variables, which is changed at each binder and
changed back, comes to this, and is the same after a run as before, whether the run fails or not.
-/
namespace LeveledTypes.Resolver

open Surface

section Names

/-- The innermost binder of a name, where the innermost of the binders around it comes first. -/
def innermost (Γ : List Variable) (n : String) : Option Variable :=
  Γ.find? fun v => v.isNamed && v.name == n

theorem innermost_eq_none {Γ : List Variable} {n : String} (h : n ∉ Γ.map (·.name)) :
    innermost Γ n = none := by
  refine List.find?_eq_none.mpr fun v hv hn => h (List.mem_map.mpr ⟨v, hv, ?_⟩)
  simp only [Bool.and_eq_true, beq_iff_eq] at hn
  exact hn.2

/-- The local variable that a name stands for: its innermost binder, else what it stands for outside
of all binders. -/
def local? (ls : Locals) (Γ : List Variable) (n : String) : Option Variable :=
  (innermost Γ n).or ls[n]?

/-- The variables of the given names that are made one after the other. -/
def numbered (i : ℕ) : List String → List Variable
  | [] => []
  | n :: ns => ⟨n, i⟩ :: numbered (i + 1) ns

/-- Whether one of the binders around a place has a name, or it stands for a local variable outside
of them. -/
def IsLocal (ls : Locals) (ns : List String) (n : String) : Prop :=
  n ∈ ns ∧ n ≠ Variable.anonymousName ∨ n ∈ ls

instance (ls : Locals) (ns : List String) (n : String) : Decidable (IsLocal ls ns n) :=
  inferInstanceAs (Decidable (_ ∨ _))

/-- What is wrong with a name that stands for no local variable: there is no global that it can be,
or several. -/
def globalFaults (r : Resolver) (span : Span) (n : String) : List Error :=
  match r.candidates n with
  | [_] => []
  | [] => [.located (.unresolvedName n) span]
  | gs =>
    [.located (.duplicateName (n ++ " (from " ++ ", ".intercalate (gs.map (·.module)) ++ ")")) span]

/-- A global of the module itself comes before those it imports. -/
theorem candidates_cases (r : Resolver) (n : String) :
    (∃ own ∈ r.scope.globals.getD n [], own.module = r.module ∧ r.candidates n = [own]) ∨
      (∀ g ∈ r.scope.globals.getD n [], g.module ≠ r.module) ∧
      r.candidates n = r.scope.globals.getD n [] := by
  unfold candidates
  dsimp only
  split
  case h_1 own hown =>
    exact .inl ⟨own, List.mem_of_find?_eq_some hown, by simpa using List.find?_some hown, rfl⟩
  case h_2 hown => exact .inr ⟨fun g hg => by simpa using List.find?_eq_none.mp hown g hg, rfl⟩

theorem isSome_ctor?_iff {r : Resolver} {n : String} :
    (r.ctor? n).isSome ↔ ∃ g ∈ r.candidates n, r.scope.ctors.contains g := List.find?_isSome

end Names

section Patterns

mutual

/-- The names of the new variables that a pattern binds, from left to right: those that are not
visible constructors. -/
def newNames (r : Resolver) : Pattern → List String
  | .name _ n args =>
    if (r.ctor? n).isSome then newNamesAll r args else if args.isEmpty then [n] else []
  | .con _ _ args => newNamesAll r args
  | .var _ _ | .num _ _ | .absurd _ => []

def newNamesAll (r : Resolver) : List Pattern → List String
  | [] => []
  | p :: ps => newNames r p ++ newNamesAll r ps

end

mutual

/-- A pattern whose names are constructors or new variables, the first of which has the given
number. -/
def resolvedPattern (r : Resolver) (i : ℕ) : Pattern → Pattern
  | .name span n args =>
    match r.ctor? n with
    | some c => .con span c (resolvedPatterns r i args)
    | none => .var span ⟨n, i⟩
  | .con span c args => .con span c (resolvedPatterns r i args)
  | .var span v => .var span v
  | .num span n => .num span n
  | .absurd span => .absurd span

/-- The patterns that these resolve to, where each starts with the number that the one before it has
left. -/
def resolvedPatterns (r : Resolver) (i : ℕ) : List Pattern → List Pattern
  | [] => []
  | p :: ps => resolvedPattern r i p :: resolvedPatterns r (i + (newNames r p).length) ps

end

mutual

/-- What is wrong with a pattern, where some names have been bound before: a name that is bound
again, or one that is applied and no constructor. -/
def patternFaults (r : Resolver) (bound : List String) : Pattern → List Error
  | .name span n args =>
    match r.ctor? n, args with
    | some _, args => patternsFaults r bound args
    | none, [] => if n ∈ bound then [.located (.duplicateName n) span] else []
    | none, _ :: _ => [.located (.unresolvedName n) span]
  | .con _ _ args => patternsFaults r bound args
  | .var _ _ | .num _ _ | .absurd _ => []

/-- What is wrong with patterns, where names that are bound in one of them may not be bound again in
those after it. -/
def patternsFaults (r : Resolver) (bound : List String) : List Pattern → List Error
  | [] => []
  | p :: ps => patternFaults r bound p ++ patternsFaults r (bound ++ newNames r p) ps

end

end Patterns

section Expressions

mutual

/-- The number that comes after those of the variables that an expression binds in patterns, the
first of which has the given number. -/
def after (r : Resolver) (i : ℕ) : Expr → ℕ
  | .pi _ _ a b | .lam _ _ a b | .sigma _ _ a b | .app _ a _ b | .pair _ a b =>
    after r (after r i a) b
  | .letIn _ _ t a b => after r (after r (afterOption r i t) a) b
  | .proj _ a _ => after r i a
  | .case _ a _ t cs => afterClauses r (afterOption r (after r i a) t) cs
  | .new _ c is => afterImpls r (after r i c) is
  | .name _ _ | .localVar _ _ | .globalRef _ _ | .univ _ _ _ | .num _ _ | .hole _ | .goal _ => i

def afterOption (r : Resolver) (i : ℕ) : Option Expr → ℕ
  | some e => after r i e
  | none => i

/-- The number after the variables of all clauses. -/
def afterClauses (r : Resolver) (i : ℕ) : List (Clause Expr) → ℕ
  | [] => i
  | ⟨_, ps, e⟩ :: cs => afterClauses r (afterOption r (i + (newNamesAll r ps).length) e) cs

def afterImpls (r : Resolver) (i : ℕ) : List (Implementation Expr) → ℕ
  | [] => i
  | ⟨_, _, e⟩ :: is => afterImpls r (after r i e) is

end

mutual

/-- An expression with every name replaced by what it stands for within the given binders, the
innermost of which comes first. A name is left as it is if there is no global that it can be, or
several. The first new variable of the patterns has the given number. -/
def resolved (r : Resolver) (ls : Locals) (Γ : List Variable) (i : ℕ) : Expr → Expr
  | .name span n =>
    match local? ls Γ n, r.candidates n with
    | some v, _ => .localVar span v
    | none, [g] => .globalRef span g
    | none, _ => .name span n
  | .pi span x a b => .pi span x (resolved r ls Γ i a) (resolved r ls (x.var :: Γ) (after r i a) b)
  | .lam span x a b => .lam span x (resolved r ls Γ i a)
    (resolved r ls (x.var :: Γ) (after r i a) b)
  | .sigma span x a b => .sigma span x (resolved r ls Γ i a)
    (resolved r ls (x.var :: Γ) (after r i a) b)
  | .app span f info a => .app span (resolved r ls Γ i f) info (resolved r ls Γ (after r i f) a)
  | .letIn span v t a b =>
    .letIn span v (resolvedOption r ls Γ i t) (resolved r ls Γ (afterOption r i t) a)
      (resolved r ls (v :: Γ) (after r (afterOption r i t) a) b)
  | .pair span a b => .pair span (resolved r ls Γ i a) (resolved r ls Γ (after r i a) b)
  | .proj span a s => .proj span (resolved r ls Γ i a) s
  | .case span a v t cs =>
    .case span (resolved r ls Γ i a) v (resolvedOption r ls (v :: Γ) (after r i a) t)
      (resolvedClauses r ls Γ (afterOption r (after r i a) t) cs)
  | .new span c is => .new span (resolved r ls Γ i c) (resolvedImpls r ls Γ (after r i c) is)
  | .localVar span v => .localVar span v
  | .globalRef span n => .globalRef span n
  | .univ span p h => .univ span p h
  | .num span n => .num span n
  | .hole span => .hole span
  | .goal span => .goal span

def resolvedOption (r : Resolver) (ls : Locals) (Γ : List Variable) (i : ℕ) :
    Option Expr → Option Expr
  | some e => some (resolved r ls Γ i e)
  | none => none

/-- The clauses that these resolve to, each in the scope of its own patterns. -/
def resolvedClauses (r : Resolver) (ls : Locals) (Γ : List Variable) (i : ℕ) :
    List (Clause Expr) → List (Clause Expr)
  | [] => []
  | ⟨span, ps, e⟩ :: cs =>
    let vs := numbered i (newNamesAll r ps)
    ⟨span, resolvedPatterns r i ps, resolvedOption r ls (vs.reverse ++ Γ)
      (i + (newNamesAll r ps).length) e⟩ ::
      resolvedClauses r ls Γ (afterOption r (i + (newNamesAll r ps).length) e) cs

def resolvedImpls (r : Resolver) (ls : Locals) (Γ : List Variable) (i : ℕ) :
    List (Implementation Expr) → List (Implementation Expr)
  | [] => []
  | ⟨span, n, e⟩ :: is => ⟨span, n, resolved r ls Γ i e⟩ :: resolvedImpls r ls Γ (after r i e) is

end

mutual

/-- What is wrong with the names in an expression within binders of the given names, in the order of
the text. -/
def faults (r : Resolver) (ls : Locals) (ns : List String) : Expr → List Error
  | .name span n => if IsLocal ls ns n then [] else globalFaults r span n
  | .pi _ x a b | .lam _ x a b | .sigma _ x a b =>
    faults r ls ns a ++ faults r ls (x.var.name :: ns) b
  | .app _ a _ b | .pair _ a b => faults r ls ns a ++ faults r ls ns b
  | .letIn _ v t a b => faultsOption r ls ns t ++ (faults r ls ns a ++ faults r ls (v.name :: ns) b)
  | .proj _ a _ => faults r ls ns a
  | .case _ a v t cs => faults r ls ns a ++
    (faultsOption r ls (v.name :: ns) t ++ faultsClauses r ls ns cs)
  | .new _ c is => faults r ls ns c ++ faultsImpls r ls ns is
  | .localVar _ _ | .globalRef _ _ | .univ _ _ _ | .num _ _ | .hole _ | .goal _ => []

def faultsOption (r : Resolver) (ls : Locals) (ns : List String) : Option Expr → List Error
  | some e => faults r ls ns e
  | none => []

/-- What is wrong with clauses: first with the patterns of each, then with its right-hand side. -/
def faultsClauses (r : Resolver) (ls : Locals) (ns : List String) : List (Clause Expr) → List Error
  | [] => []
  | ⟨_, ps, e⟩ :: cs =>
    patternsFaults r [] ps ++
      (faultsOption r ls ((newNamesAll r ps).reverse ++ ns) e ++ faultsClauses r ls ns cs)

def faultsImpls (r : Resolver) (ls : Locals) (ns : List String) :
    List (Implementation Expr) → List Error
  | [] => []
  | ⟨_, _, e⟩ :: is => faults r ls ns e ++ faultsImpls r ls ns is

end

end Expressions

section Runs
variable {α β : Type} {s : State} {x : Resolve α} {f : α → Resolve β} {es es' : List Error} {a : α}
  {b : β} {j k : ℕ}

/-- A run ends with the first of some faults, or if there is none, with a value and with so many
variables made. Either way the local variables are as they were. -/
def Ends (x : Resolve α) (s : State) (es : List Error) (a : α) (n : ℕ) : Prop :=
  match es with
  | [] => x s = .ok a { s with next := n }
  | e :: _ => ∃ m, x s = .error e { s with next := m }

theorem Ends.pure : Ends (pure a) s [] a s.next := rfl

theorem Ends.fail (p : Problem) (span : Span) (n : ℕ) :
    Ends (Resolver.fail p span) s [.located p span] a n := ⟨s.next, rfl⟩

/-- The faults of two runs in a row are those of both, and the first of them ends the run. -/
theorem Ends.bind (hx : Ends x s es a j) (hf : Ends (f a) { s with next := j } es' b k) :
    Ends (x >>= f) s (es ++ es') b k := by
  cases es with
  | nil =>
    have hx : x s = .ok a { s with next := j } := hx
    unfold Ends at hf ⊢
    rwa [List.nil_append, bind_of_ok hx]
  | cons e es =>
    obtain ⟨m, hx⟩ := hx
    exact ⟨m, bind_of_error hx⟩

theorem Ends.map (hx : Ends x s es a j) (g : α → β) : Ends (do return g (← x)) s es (g a) j := by
  have h := hx.bind (b := g a) (f := fun a => Pure.pure (g a)) Ends.pure
  rwa [List.append_nil] at h

end Runs

section Locals

theorem getElem?_bind (ls : Locals) (v : Variable) (n : String) :
    (Resolver.bind ls v)[n]? = if v.isNamed && v.name == n then some v else ls[n]? := by
  unfold Resolver.bind
  cases v.isNamed with
  | true => simp [Std.ExtHashMap.getElem?_insert]
  | false => simp

/-- The local variables within some binders, the innermost of which comes first. -/
def enter (ls : Locals) (Γ : List Variable) : Locals := Γ.foldr (fun v ls => Resolver.bind ls v) ls

/-- Entering binders puts them in front of what a name stood for. -/
theorem getElem?_enter (ls : Locals) (Γ : List Variable) (n : String) :
    (enter ls Γ)[n]? = local? ls Γ n := by
  induction Γ with
  | nil => rfl
  | cons v Γ ih =>
    have hstep : enter ls (v :: Γ) = Resolver.bind (enter ls Γ) v := rfl
    rw [hstep, getElem?_bind, local?, innermost, List.find?_cons]
    split
    case isTrue h => simp [h]
    case isFalse h =>
      rw [ih, Bool.eq_false_iff.mpr h]
      rfl

theorem bindAll_enter (ls : Locals) (Γ vs : List Variable) :
    bindAll (enter ls Γ) vs = enter ls (vs.reverse ++ Γ) := by
  rw [enter, enter, List.foldr_append, List.foldr_reverse]
  rfl

theorem getElem?_putBack (ls : Locals) (m n : String) (o : Option Variable) :
    (putBack ls (m, o))[n]? = if m = n then o else ls[n]? := by
  cases o <;> simp [putBack, Std.ExtHashMap.getElem?_insert, Std.ExtHashMap.getElem?_erase]

/-- Putting back the old entries of some names restores the map at these names. -/
theorem getElem?_foldl_putBack (ls ls' : Locals) (ns : List String) (n : String) :
    ((ns.map fun n => (n, ls[n]?)).foldl putBack ls')[n]? = if n ∈ ns then ls[n]? else ls'[n]? := by
  induction ns generalizing ls' with
  | nil => rfl
  | cons m ns ih =>
    rw [List.map_cons, List.foldl_cons, ih, getElem?_putBack]
    by_cases h : m = n
    · subst h
      simp
    · simp [Ne.symm h, h]

/-- Names are given back what they stood for. -/
theorem foldl_putBack_bindAll (ls : Locals) (vs : List Variable) :
    (vs.map fun v => (v.name, ls[v.name]?)).reverse.foldl putBack (bindAll ls vs) = ls := by
  refine Std.ExtHashMap.ext_getElem? fun n => ?_
  have holds : (vs.map fun v => (v.name, ls[v.name]?)).reverse =
      (vs.map (·.name)).reverse.map fun n => (n, ls[n]?) := by
    rw [← List.map_reverse, ← List.map_reverse, List.map_map]
    rfl
  rw [holds, getElem?_foldl_putBack]
  split
  case isTrue => rfl
  case isFalse hn =>
    have hbind := bindAll_enter ls [] vs
    rw [List.append_nil] at hbind
    have hnone : innermost vs.reverse n = none := innermost_eq_none (by rwa [List.map_reverse])
    have hget := getElem?_enter ls vs.reverse n
    rw [local?, hnone, ← hbind] at hget
    exact hget

end Locals

section Binders
variable {α : Type} {s : State} {x : Resolve α} {es : List Error} {a : α} {j : ℕ}

/-- A run within binders leaves the local variables as they were outside. -/
theorem Ends.bodied {vs : List Variable}
    (hx : Ends x { s with locals := bindAll s.locals vs } es a j) :
    Ends (Resolver.bodied vs x) s es a j := by
  unfold Ends Resolver.bodied at *
  cases es with
  | nil =>
    simp only at hx ⊢
    rw [hx]
    simp only [foldl_putBack_bindAll]
  | cons e es =>
    obtain ⟨m, hx⟩ := hx
    simp only at hx ⊢
    rw [hx]
    exact ⟨m, by simp only [foldl_putBack_bindAll]⟩

theorem Ends.within {ls : Locals} {Γ : List Variable} {i : ℕ} (vs : List Variable)
    (hx : Ends x ⟨enter ls (vs.reverse ++ Γ), i⟩ es a j) :
    Ends (Resolver.bodied vs x) ⟨enter ls Γ, i⟩ es a j := by
  rw [← bindAll_enter] at hx
  exact .bodied hx

end Binders

section Results
variable {β : Type} {r : Resolver} {s : State} {ls : Locals}

theorem numbered_append (i : ℕ) (ns ms : List String) :
    numbered i (ns ++ ms) = numbered i ns ++ numbered (i + ns.length) ms := by
  induction ns generalizing i with
  | nil => rfl
  | cons n ns ih => simp [numbered, ih, Nat.add_right_comm, Nat.add_assoc]

theorem Ends.of_append_nil {x : Resolve (β × List Variable)} {b : β} {vs : List Variable}
    {es : List Error} {j : ℕ} (h : Ends x s es (b, vs) j) : Ends x s es (b, vs ++ []) j := by
  rwa [List.append_nil]

theorem map_name_numbered (i : ℕ) (ns : List String) : (numbered i ns).map (·.name) = ns := by
  induction ns generalizing i with
  | nil => rfl
  | cons n ns ih => simp [numbered, ih]

mutual

/-- Resolving a pattern makes its new names into variables, numbered in order, and fails with the
first fault. The induction is on the pattern. -/
theorem pattern_ends (r : Resolver) (s : State) (vs : List Variable) (p : Pattern) :
    Ends (r.pattern p vs) s (patternFaults r (vs.map (·.name)) p)
      (resolvedPattern r s.next p, vs ++ numbered s.next (newNames r p))
      (s.next + (newNames r p).length) := by
  cases p with
  | name span n args =>
    unfold Resolver.pattern patternFaults resolvedPattern newNames
    cases hctor : r.ctor? n with
    | some c => exact (patternAll_ends r s vs args).map fun p => (Pattern.con span c p.1, p.2)
    | none =>
      cases args with
      | cons p ps => exact .fail _ _ _
      | nil =>
        have hany : vs.any (·.name == n) = true ↔ n ∈ vs.map (·.name) := by simp
        simp only [hany]
        split
        case isTrue => exact ⟨s.next, rfl⟩
        case isFalse => rfl
  | con span c args =>
    unfold Resolver.pattern patternFaults resolvedPattern newNames
    exact (patternAll_ends r s vs args).map fun p => (Pattern.con span c p.1, p.2)
  | var span v => exact .of_append_nil .pure
  | num span n => exact .of_append_nil .pure
  | absurd span => exact .of_append_nil .pure

theorem patternAll_ends (r : Resolver) (s : State) (vs : List Variable) (ps : List Pattern) :
    Ends (r.patternAll ps vs) s (patternsFaults r (vs.map (·.name)) ps)
      (resolvedPatterns r s.next ps, vs ++ numbered s.next (newNamesAll r ps))
      (s.next + (newNamesAll r ps).length) := by
  cases ps with
  | nil => exact .of_append_nil .pure
  | cons p ps =>
    have hrest := patternAll_ends r { s with next := s.next + (newNames r p).length }
      (vs ++ numbered s.next (newNames r p)) ps
    rw [List.map_append, map_name_numbered] at hrest
    unfold patternsFaults resolvedPatterns newNamesAll
    rw [List.length_append, ← Nat.add_assoc, numbered_append, ← List.append_assoc]
    exact (pattern_ends r s vs p).bind (hrest.map fun q => (resolvedPattern r s.next p :: q.1, q.2))

end

/-- A name is local if and only if there is a local variable that it stands for. -/
theorem isLocal_iff (ls : Locals) (Γ : List Variable) (n : String) :
    IsLocal ls (Γ.map (·.name)) n ↔ (local? ls Γ n).isSome := by
  have hinner : (innermost Γ n).isSome ↔ n ∈ Γ.map (·.name) ∧ n ≠ Variable.anonymousName := by
    simp only [innermost, List.find?_isSome, List.mem_map, Variable.isNamed, Bool.and_eq_true,
      bne_iff_ne, beq_iff_eq]
    constructor
    · rintro ⟨v, hv, hnamed, rfl⟩
      exact ⟨⟨v, hv, rfl⟩, hnamed⟩
    · rintro ⟨⟨v, hv, rfl⟩, hnamed⟩
      exact ⟨v, hv, hnamed, rfl⟩
  rw [IsLocal, local?, Option.isSome_or, Bool.or_eq_true, hinner,
    Std.ExtHashMap.isSome_getElem?_eq_contains, Std.ExtHashMap.contains_iff_mem]

theorem expr_of_local {span : Span} {n : String} {v : Variable} (h : s.locals[n]? = some v) :
    r.expr (.name span n) s = .ok (.localVar span v) s := by
  have hget : (get : Resolve State) s = .ok s s := rfl
  unfold Resolver.expr
  rw [bind_of_ok hget, h]
  rfl

theorem expr_of_global {span : Span} {n : String} (h : s.locals[n]? = none) :
    r.expr (.name span n) s = (do return Expr.globalRef span (← r.global span n)) s := by
  have hget : (get : Resolve State) s = .ok s s := rfl
  unfold Resolver.expr
  rw [bind_of_ok hget, h]

/-- A name that is not local is looked up among the globals, and takes no number. -/
theorem name_ends (r : Resolver) (ls : Locals) (Γ : List Variable) (i : ℕ)
    (span : Span) (n : String) :
    Ends (r.expr (.name span n)) ⟨enter ls Γ, i⟩ (faults r ls (Γ.map (·.name)) (.name span n))
      (resolved r ls Γ i (.name span n)) i := by
  have hlocal := isLocal_iff ls Γ n
  have hget := getElem?_enter ls Γ n
  unfold faults resolved
  cases hv : local? ls Γ n with
  | some v =>
    rw [hv] at hlocal hget
    rw [if_pos (hlocal.mpr rfl)]
    exact expr_of_local (s := ⟨enter ls Γ, i⟩) hget
  | none =>
    rw [hv] at hlocal hget
    rw [if_neg fun h => by simpa using hlocal.mp h]
    unfold Ends
    rw [expr_of_global (s := ⟨enter ls Γ, i⟩) hget, globalFaults, Resolver.global]
    rcases r.candidates n with _ | ⟨g, _ | ⟨g', gs⟩⟩
    · exact ⟨i, rfl⟩
    · rfl
    · exact ⟨i, rfl⟩

mutual

/-- The induction is on the expression. Under a binder the map of local variables is the one for the
longer list of binders, and after it the one from before. -/
theorem expr_ends (r : Resolver) (ls : Locals) (Γ : List Variable) (i : ℕ) (e : Expr) :
    Ends (r.expr e) ⟨enter ls Γ, i⟩ (faults r ls (Γ.map (·.name)) e) (resolved r ls Γ i e)
      (after r i e) := by
  cases e with
  | name span n => exact name_ends r ls Γ i span n
  | pi span x a b =>
    exact (expr_ends r ls Γ i a).bind
      ((expr_ends r ls (x.var :: Γ) (after r i a) b).within [x.var] |>.map _)
  | lam span x a b =>
    exact (expr_ends r ls Γ i a).bind
      ((expr_ends r ls (x.var :: Γ) (after r i a) b).within [x.var] |>.map _)
  | sigma span x a b =>
    exact (expr_ends r ls Γ i a).bind
      ((expr_ends r ls (x.var :: Γ) (after r i a) b).within [x.var] |>.map _)
  | app span f info a => exact (expr_ends r ls Γ i f).bind ((expr_ends r ls Γ _ a).map _)
  | letIn span v t a b =>
    refine (exprOption_ends r ls Γ i t).bind ((expr_ends r ls Γ _ a).bind ?_)
    exact (expr_ends r ls (v :: Γ) _ b).within [v] |>.map _
  | pair span a b => exact (expr_ends r ls Γ i a).bind ((expr_ends r ls Γ _ b).map _)
  | proj span a side => exact (expr_ends r ls Γ i a).map _
  | case span a v t cs =>
    refine (expr_ends r ls Γ i a).bind (((exprOption_ends r ls (v :: Γ) _ t).within [v]).bind ?_)
    exact (clauses_ends r ls Γ _ cs).map _
  | new span c is => exact (expr_ends r ls Γ i c).bind ((impls_ends r ls Γ _ is).map _)
  | localVar span v => exact .pure
  | globalRef span n => exact .pure
  | univ span p h => exact .pure
  | num span n => exact .pure
  | hole span => exact .pure
  | goal span => exact .pure

theorem exprOption_ends (r : Resolver) (ls : Locals) (Γ : List Variable) (i : ℕ) (t : Option Expr) :
    Ends (r.exprOption t) ⟨enter ls Γ, i⟩ (faultsOption r ls (Γ.map (·.name)) t)
      (resolvedOption r ls Γ i t) (afterOption r i t) := by
  cases t with
  | none => exact .pure
  | some e => exact (expr_ends r ls Γ i e).map some

theorem clauses_ends (r : Resolver) (ls : Locals) (Γ : List Variable) (i : ℕ)
    (cs : List (Clause Expr)) :
    Ends (r.clauses cs) ⟨enter ls Γ, i⟩ (faultsClauses r ls (Γ.map (·.name)) cs)
      (resolvedClauses r ls Γ i cs) (afterClauses r i cs) := by
  cases cs with
  | nil => exact .pure
  | cons k cs =>
    obtain ⟨span, ps, e⟩ := k
    refine (patternAll_ends r ⟨enter ls Γ, i⟩ [] ps).bind ?_
    have hrhs := exprOption_ends r ls ((numbered i (newNamesAll r ps)).reverse ++ Γ)
      (i + (newNamesAll r ps).length) e
    rw [List.map_append, List.map_reverse, map_name_numbered] at hrhs
    exact (hrhs.within (numbered i (newNamesAll r ps))).bind ((clauses_ends r ls Γ _ cs).map _)

theorem impls_ends (r : Resolver) (ls : Locals) (Γ : List Variable) (i : ℕ)
    (is : List (Implementation Expr)) :
    Ends (r.impls is) ⟨enter ls Γ, i⟩ (faultsImpls r ls (Γ.map (·.name)) is)
      (resolvedImpls r ls Γ i is) (afterImpls r i is) := by
  cases is with
  | nil => exact .pure
  | cons k is =>
    obtain ⟨span, n, e⟩ := k
    refine (expr_ends r ls Γ i e).bind ?_
    exact (impls_ends r ls Γ _ is).map _

end

/-- Names are resolved lexically, and the local variables are the same after a run as before:
without faults the run returns the expression with every name replaced by what it stands for, else
it fails with the first fault. -/
theorem expr_lexical (r : Resolver) (s : State) (e : Expr) :
    (faults r s.locals [] e = [] →
      r.expr e s = .ok (resolved r s.locals [] s.next e) { s with next := after r s.next e }) ∧
    ∀ err errs, faults r s.locals [] e = err :: errs →
      ∃ n, r.expr e s = .error err { s with next := n } := by
  have hends : Ends (r.expr e) s (faults r s.locals [] e) (resolved r s.locals [] s.next e)
      (after r s.next e) :=
    expr_ends r s.locals [] s.next e
  unfold Ends at hends
  constructor
  · intro hnone
    rwa [hnone] at hends
  · intro err errs hsome
    rwa [hsome] at hends

end Results

end LeveledTypes.Resolver
