import LeveledTypes.Proofs.Matched
import LeveledTypes.Proofs.Resolution.Lexical
import LeveledTypes.Proofs.Surface.Names

/-!
# The order of imports

The globals that a module sees under a short name are kept in the order in which they came into
scope. A name in an expression has to stand for one of them only, so that the order is of no
account: a name that several modules have is an error. But a name in a pattern stands for the first
constructor among them. So the declarations of a module are resolved alike whatever the order of its
imports is, as long as no name in a pattern can be two constructors.
-/
namespace LeveledTypes

open Surface

/-- An error without the text of a duplicate name, which lists modules in the order in which they
came into scope. -/
def Error.unlisted : Error → Error
  | .located (.duplicateName _) span => .located (.duplicateName "") span
  | e => e

namespace Surface

section PatternNames

mutual

/-- The names in a pattern that are not resolved yet. -/
def Pattern.names : Pattern → List String
  | .name _ n ps => n :: Pattern.namesAll ps
  | .con _ _ ps => Pattern.namesAll ps
  | .var _ _ | .num _ _ | .absurd _ => []

def Pattern.namesAll : List Pattern → List String
  | [] => []
  | p :: ps => p.names ++ Pattern.namesAll ps

end

namespace Expr

mutual

/-- The names in the patterns of an expression. -/
def patternNames : Expr → List String
  | .pi _ _ a b | .lam _ _ a b | .sigma _ _ a b | .app _ a _ b | .pair _ a b =>
    patternNames a ++ patternNames b
  | .letIn _ _ t a b => patternNamesOption t ++ (patternNames a ++ patternNames b)
  | .proj _ a _ => patternNames a
  | .case _ a _ t cs => patternNames a ++ (patternNamesOption t ++ patternNamesClauses cs)
  | .new _ c is => patternNames c ++ patternNamesImpls is
  | .name _ _ | .localVar _ _ | .globalRef _ _ | .univ _ _ _ | .num _ _ | .hole _ | .goal _ => []

def patternNamesOption : Option Expr → List String
  | some e => patternNames e
  | none => []

def patternNamesClauses : List (Clause Expr) → List String
  | [] => []
  | ⟨_, ps, e⟩ :: cs => Pattern.namesAll ps ++ (patternNamesOption e ++ patternNamesClauses cs)

def patternNamesImpls : List (Implementation Expr) → List String
  | [] => []
  | ⟨_, _, e⟩ :: is => patternNames e ++ patternNamesImpls is

end

def patternNamesTele (tele : Telescope Expr) : List String := tele.flatMap (·.type.patternNames)

end Expr

def CtorDecl.patternNames (c : CtorDecl) : List String :=
  Pattern.namesAll (c.patterns.getD []) ++ Expr.patternNamesTele c.tele

def FieldDecl.patternNames (f : FieldDecl) : List String :=
  f.type.patternNames ++ Expr.patternNamesOption f.default

/-- The names in the patterns of a declaration. -/
def Decl.patternNames (d : Decl) : List String :=
  Expr.patternNamesTele d.tele ++ match d.body with
    | .func t (.expr e) => Expr.patternNamesOption t ++ e.patternNames
    | .func t (.clauses cs) => Expr.patternNamesOption t ++ Expr.patternNamesClauses cs
    | .data u cs => Expr.patternNamesOption u ++ cs.flatMap CtorDecl.patternNames
    | .cls ss fs => ss.flatMap Expr.patternNames ++ fs.flatMap FieldDecl.patternNames
    | .inst c is => c.patternNames ++ Expr.patternNamesImpls is

end PatternNames

end Surface

namespace Scope

section Contents
variable {n : String} {g k : GlobalName} {isCtor : Bool} {ds : List Definition}

/-- A global stands behind those that came into scope under its short name before, and stands there
once. -/
theorem getD_declare (s : Scope) (k : GlobalName) (isCtor : Bool) (n : String) :
    (s.declare k isCtor).globals.getD n [] =
      if k.short = n ∧ k ∉ s.globals.getD n [] then s.globals.getD n [] ++
        [k] else s.globals.getD n [] := by
  unfold declare
  by_cases hn : k.short = n
  · subst hn
    by_cases hk : k ∈ s.globals.getD k.short []
    · simp [hk]
    · simp [hk]
  · by_cases hk : k ∈ s.globals.getD k.short []
    · simp [hn, hk]
    · simp [hn, hk, Std.HashMap.getD_insert]

theorem mem_declare {s : Scope} :
    g ∈ (s.declare k isCtor).globals.getD n [] ↔ g ∈ s.globals.getD n [] ∨ g = k ∧ k.short = n := by
  rw [getD_declare]
  split
  case isTrue h => simp [h.1]
  case isFalse h =>
    refine ⟨.inl, fun hg => hg.elim id ?_⟩
    rintro ⟨rfl, hshort⟩
    exact not_not.mp fun hmem => h ⟨hshort, hmem⟩

theorem nodup_declare {s : Scope} (h : ∀ n, (s.globals.getD n []).Nodup) (n : String) :
    ((s.declare k isCtor).globals.getD n []).Nodup := by
  rw [getD_declare]
  split
  case isTrue hk => exact (h n).append (List.nodup_singleton k) (List.disjoint_singleton.mpr hk.2)
  case isFalse => exact h n

theorem contains_declare (s : Scope) (k : GlobalName) (isCtor : Bool) (g : GlobalName) :
    (s.declare k isCtor).ctors.contains g = (isCtor && k == g || s.ctors.contains g) := by
  cases isCtor <;> simp [declare, Std.HashSet.contains_insert]

/-- A short name comes to stand for the imported globals that have it, besides what it stood for. -/
theorem mem_importAll {s : Scope} :
    g ∈ (s.importAll ds).globals.getD n [] ↔ g ∈ s.globals.getD n [] ∨ g.short = n ∧
    ∃ d ∈ ds, d.name = g := by
  induction ds generalizing s with
  | nil => simp [importAll]
  | cons d ds ih =>
    have hstep : s.importAll (d :: ds) = (s.declare d.name (isConstructor d)).importAll ds := rfl
    rw [hstep, ih, mem_declare, or_assoc]
    refine or_congr_right ⟨?_, ?_⟩
    · rintro (⟨rfl, hshort⟩ | ⟨hshort, e, he, rfl⟩)
      · exact ⟨hshort, d, List.mem_cons_self, rfl⟩
      · exact ⟨hshort, e, List.mem_cons_of_mem _ he, rfl⟩
    · rintro ⟨hshort, e, he, rfl⟩
      rcases List.mem_cons.mp he with rfl | he
      · exact .inl ⟨rfl, hshort⟩
      · exact .inr ⟨hshort, e, he, rfl⟩

theorem nodup_importAll {s : Scope} (h : ∀ n, (s.globals.getD n []).Nodup) (n : String) :
    ((s.importAll ds).globals.getD n []).Nodup := by
  induction ds generalizing s with
  | nil => exact h n
  | cons d ds ih => exact ih (nodup_declare h)

/-- The constructors in scope are those that were imported. -/
theorem contains_importAll {s : Scope} :
    (s.importAll ds).ctors.contains g ↔ s.ctors.contains g ∨ ∃ d ∈ ds, isConstructor d ∧
    d.name = g := by
  induction ds generalizing s with
  | nil => simp [importAll]
  | cons d ds ih =>
    have hstep : s.importAll (d :: ds) = (s.declare d.name (isConstructor d)).importAll ds := rfl
    rw [hstep, ih, contains_declare, Bool.or_eq_true, Bool.and_eq_true, beq_iff_eq,
      List.exists_mem_cons_iff]
    tauto

end Contents

end Scope

namespace Resolver

section Candidates

/-- Two resolvers of a module see the same globals, which may have come into scope in different
orders. -/
structure Alike (r r' : Resolver) : Prop where
  module : r.module = r'.module
  globals : ∀ n, (r.scope.globals.getD n []).Perm (r'.scope.globals.getD n [])
  ctors : ∀ g, r.scope.ctors.contains g = r'.scope.ctors.contains g
  named : ∀ n, ∀ g ∈ r.scope.globals.getD n [], g.short = n ∧ ∃ module, g.IsOwn module

/-- A name can be at most one constructor. -/
def Clear (r : Resolver) (n : String) : Prop :=
  ∀ g ∈ r.candidates n, ∀ g' ∈ r.candidates n, r.scope.ctors.contains g →
    r.scope.ctors.contains g' → g = g'

/-- The order is of no account to a search that can find one element only. -/
theorem find?_eq_of_perm {α : Type} {p : α → Bool} {as bs : List α} (h : as.Perm bs)
    (hone : ∀ a ∈ as, ∀ b ∈ as, p a → p b → a = b) : as.find? p = bs.find? p := by
  cases has : as.find? p with
  | none =>
    rw [List.find?_eq_none] at has
    exact (List.find?_eq_none.mpr fun b hb => has b (h.mem_iff.mpr hb)).symm
  | some a =>
    have ha := List.mem_of_find?_eq_some has
    cases hbs : bs.find? p with
    | none => exact absurd (List.find?_some has) (List.find?_eq_none.mp hbs a (h.mem_iff.mp ha))
    | some b =>
      have hb := h.mem_iff.mpr (List.mem_of_find?_eq_some hbs)
      exact congrArg some (hone a ha b hb (List.find?_some has) (List.find?_some hbs))

namespace Alike
variable {r r' : Resolver}

/-- Both scopes have the same candidates for a name, in some order. -/
theorem candidates (h : r.Alike r') (n : String) : (r.candidates n).Perm (r'.candidates n) := by
  have hown : (r.scope.globals.getD n []).find? (fun g => g.module == r.module) =
      (r'.scope.globals.getD n []).find? fun g => g.module == r'.module := by
    rw [← h.module]
    refine find?_eq_of_perm (h.globals n) fun g hg g' hg' hmodule hmodule' => ?_
    obtain ⟨hshort, m, hm⟩ := h.named n g hg
    obtain ⟨hshort', m', hm'⟩ := h.named n g' hg'
    rw [hm.module_eq, beq_iff_eq] at hmodule
    rw [hm'.module_eq, beq_iff_eq] at hmodule'
    exact hm.eq_of_short_eq (hmodule ▸ hmodule' ▸ hm') (hshort.trans hshort'.symm)
  simp only [Resolver.candidates, hown]
  split
  · exact .refl _
  · exact h.globals n

theorem ctor? (h : r.Alike r') {n : String} (hn : r.Clear n) : r.ctor? n = r'.ctor? n := by
  simp only [Resolver.ctor?, ← h.ctors]
  exact find?_eq_of_perm (h.candidates n) hn

/-- A global of the module itself is entered under its name on both sides. -/
theorem declare (h : r.Alike r') {k : GlobalName} (hk : ∃ module, k.IsOwn module) (isCtor : Bool) :
    Alike { r with scope := r.scope.declare k isCtor }
      { r' with scope := r'.scope.declare k isCtor } where
  module := h.module
  globals n := by
    have hmem := (h.globals n).mem_iff (a := k)
    simp only [Scope.getD_declare, hmem]
    split
    · exact (h.globals n).append_right [k]
    · exact h.globals n
  ctors g := by simp only [Scope.contains_declare, h.ctors g]
  named n g hg := by
    rcases Scope.mem_declare.mp hg with hg | ⟨rfl, hshort⟩
    · exact h.named n g hg
    · exact ⟨hshort, hk⟩

/-- The names of a declaration are declared one after the other. -/
theorem declareDecl (h : r.Alike r') {d : Decl} (hd : ∀ n ∈ d.names, ∃ module, n.IsOwn module) :
    Alike { r with scope := r.scope.declareDecl d }
      { r' with scope := r'.scope.declareDecl d } := by
  have hnames (isCtor : Bool) {ns : List GlobalName}
      (hns : ∀ n ∈ ns, ∃ module, n.IsOwn module) {s s' : Scope}
      (hs : Alike { r with scope := s } { r' with scope := s' }) :
      Alike { r with scope := ns.foldl (fun s n => s.declare n isCtor) s }
        { r' with scope := ns.foldl (fun s n => s.declare n isCtor) s' } := by
    induction ns generalizing s s' with
    | nil => exact hs
    | cons n ns ih =>
      obtain ⟨hn, hns⟩ := List.forall_mem_cons.mp hns
      exact ih hns (hs.declare hn isCtor)
  exact hnames _ (fun n hn => hd n (List.mem_of_mem_tail hn))
    (h.declare (hd d.name List.mem_cons_self) false)

end Alike

/-- The order of the imports is of no account for what a module sees. -/
theorem alike_importAll (module : String) {ds ds' : List Definition} (hds : ∀ d, d ∈ ds ↔ d ∈ ds')
    (hnames : ∀ d ∈ ds, ∃ module, d.name.IsOwn module) :
    Alike ⟨module, Scope.importAll {} ds⟩ ⟨module, Scope.importAll {} ds'⟩ where
  module := rfl
  globals n := by
    refine (List.perm_ext_iff_of_nodup (Scope.nodup_importAll (by simp) n)
      (Scope.nodup_importAll (by simp) n)).mpr fun g => ?_
    rw [Scope.mem_importAll, Scope.mem_importAll]
    simp only [hds]
  ctors g := by
    rw [Bool.eq_iff_iff, Scope.contains_importAll, Scope.contains_importAll]
    simp only [hds]
  named n g hg := by
    rcases Scope.mem_importAll.mp hg with hg | ⟨hshort, d, hd, rfl⟩
    · simp at hg
    · exact ⟨hshort, hnames d hd⟩

end Candidates

section Runs
variable {α β : Type} {x y : Resolve α} {f g : α → Resolve β}

/-- Two runs from the same state end alike: in the same state with the same result, or with the same
error up to how a duplicate name is listed. -/
abbrev Agree (x y : Resolve α) : Prop := Matched (fun e : Error => some e.unlisted) Eq Eq x y

theorem Agree.refl (x : Resolve α) : Agree x x := by
  rintro s _ rfl
  cases x s with
  | ok a t => exact .ok rfl rfl
  | error e t => exact .error rfl rfl

theorem Agree.bind (hx : Agree x y) (hf : ∀ a, Agree (f a) (g a)) : Agree (x >>= f) (y >>= g) := by
  refine Matched.bind hx ?_
  rintro a _ rfl
  exact hf a

theorem Agree.fail_bind {p : Problem} {span : Span} :
    Agree (Resolver.fail p span >>= f) (Resolver.fail p span >>= g) := by
  rintro s _ rfl
  exact .error rfl rfl

/-- Binders are entered and left on both sides alike, whatever happens in between. -/
theorem Agree.bodied (h : Agree x y) (vs : List Variable) :
    Agree (Resolver.bodied vs x) (Resolver.bodied vs y) := by
  rintro s _ rfl
  have hend := h { s with locals := bindAll s.locals vs } _ rfl
  unfold Resolver.bodied
  dsimp only
  generalize x _ = a, y _ = b at hend ⊢
  cases hend with
  | ok hab hst =>
    subst hab hst
    exact .ok rfl rfl
  | error he hst =>
    subst hst
    exact .error he rfl
  | left h => cases h
  | right h => cases h

/-- The local variables are put back on both sides, after an error too. -/
theorem Agree.saving (h : Agree x y) : Agree (Resolver.saving x) (Resolver.saving y) := by
  rintro s _ rfl
  have hend := h s s rfl
  unfold Resolver.saving
  generalize x s = a, y s = b at hend ⊢
  cases hend with
  | ok hab hst =>
    subst hab hst
    exact .ok rfl rfl
  | error he hst =>
    subst hst
    exact .error he rfl
  | left h => cases h
  | right h => cases h

theorem Agree.mapM {f g : α → Resolve β} {as : List α} (h : ∀ a ∈ as, Agree (f a) (g a)) :
    Agree (as.mapM f) (as.mapM g) := by
  induction as with
  | nil => exact .refl _
  | cons a as ih =>
    obtain ⟨ha, has⟩ := List.forall_mem_cons.mp h
    rw [List.mapM_cons, List.mapM_cons]
    exact ha.bind fun _ => (ih has).bind fun _ => .refl _

end Runs

section Expressions
variable {r r' : Resolver}

/-- A name resolves if there is one candidate. Of several only the list in the message depends on
the order. -/
theorem global_agree (h : r.Alike r') (span : Span) (n : String) :
    Agree (r.global span n) (r'.global span n) := by
  have hperm := h.candidates n
  unfold Resolver.global
  rcases hgs : r.candidates n with _ | ⟨g, _ | ⟨g', gs⟩⟩
  · rw [hgs, List.nil_perm] at hperm
    rw [hperm]
    exact .refl _
  · rw [hgs, List.singleton_perm] at hperm
    rw [hperm]
    exact .refl _
  · rw [hgs] at hperm
    rcases hgs' : r'.candidates n with _ | ⟨k, _ | ⟨k', ks⟩⟩
    · simpa [hgs'] using hperm.length_eq
    · simpa [hgs'] using hperm.length_eq
    · exact .throw rfl

mutual

/-- The first constructor among the candidates is the only one, so that the order is of no account.
The induction is on the pattern. -/
theorem pattern_agree (h : r.Alike r') (vs : List Variable) (p : Pattern)
    (hp : ∀ n ∈ p.names, r.Clear n) : Agree (r.pattern p vs) (r'.pattern p vs) := by
  cases p with
  | name span n args =>
    obtain ⟨hn, hargs⟩ := List.forall_mem_cons.mp hp
    unfold Resolver.pattern
    rw [← h.ctor? hn]
    cases r.ctor? n with
    | some c => exact (patternAll_agree h vs args hargs).bind fun _ => .refl _
    | none => cases args <;> exact .refl _
  | con span c args => exact (patternAll_agree h vs args hp).bind fun _ => .refl _
  | var span v => exact .refl _
  | num span n => exact .refl _
  | absurd span => exact .refl _

theorem patternAll_agree (h : r.Alike r') (vs : List Variable) (ps : List Pattern)
    (hps : ∀ n ∈ Pattern.namesAll ps, r.Clear n) :
    Agree (r.patternAll ps vs) (r'.patternAll ps vs) := by
  cases ps with
  | nil => exact .refl _
  | cons p ps =>
    obtain ⟨hp, hps⟩ := List.forall_mem_append.mp hps
    exact (pattern_agree h vs p hp).bind fun q =>
      (patternAll_agree h q.2 ps hps).bind fun _ => .refl _

end

mutual

/-- The induction is on the expression. -/
theorem expr_agree (h : r.Alike r') (e : Expr) (he : ∀ n ∈ e.patternNames, r.Clear n) :
    Agree (r.expr e) (r'.expr e) := by
  cases e with
  | name span n =>
    refine (Agree.refl get).bind fun s => ?_
    cases s.locals[n]? with
    | some v => exact .refl _
    | none => exact (global_agree h span n).bind fun _ => .refl _
  | pi span x a b =>
    obtain ⟨ha, hb⟩ := List.forall_mem_append.mp he
    exact (expr_agree h a ha).bind fun _ => ((expr_agree h b hb).bodied _).bind fun _ => .refl _
  | lam span x a b =>
    obtain ⟨ha, hb⟩ := List.forall_mem_append.mp he
    exact (expr_agree h a ha).bind fun _ => ((expr_agree h b hb).bodied _).bind fun _ => .refl _
  | sigma span x a b =>
    obtain ⟨ha, hb⟩ := List.forall_mem_append.mp he
    exact (expr_agree h a ha).bind fun _ => ((expr_agree h b hb).bodied _).bind fun _ => .refl _
  | app span f info a =>
    obtain ⟨hf, ha⟩ := List.forall_mem_append.mp he
    exact (expr_agree h f hf).bind fun _ => (expr_agree h a ha).bind fun _ => .refl _
  | letIn span v t a b =>
    obtain ⟨ht, hab⟩ := List.forall_mem_append.mp he
    obtain ⟨ha, hb⟩ := List.forall_mem_append.mp hab
    refine (exprOption_agree h t ht).bind fun _ => (expr_agree h a ha).bind fun _ => ?_
    exact ((expr_agree h b hb).bodied _).bind fun _ => .refl _
  | pair span a b =>
    obtain ⟨ha, hb⟩ := List.forall_mem_append.mp he
    exact (expr_agree h a ha).bind fun _ => (expr_agree h b hb).bind fun _ => .refl _
  | proj span a side => exact (expr_agree h a he).bind fun _ => .refl _
  | case span a v t cs =>
    obtain ⟨ha, htcs⟩ := List.forall_mem_append.mp he
    obtain ⟨ht, hcs⟩ := List.forall_mem_append.mp htcs
    refine (expr_agree h a ha).bind fun _ => ((exprOption_agree h t ht).bodied _).bind fun _ => ?_
    exact (clauses_agree h cs hcs).bind fun _ => .refl _
  | new span c is =>
    obtain ⟨hc, his⟩ := List.forall_mem_append.mp he
    exact (expr_agree h c hc).bind fun _ => (impls_agree h is his).bind fun _ => .refl _
  | localVar span v => exact .refl _
  | globalRef span n => exact .refl _
  | univ span p h => exact .refl _
  | num span n => exact .refl _
  | hole span => exact .refl _
  | goal span => exact .refl _

theorem exprOption_agree (h : r.Alike r') (t : Option Expr)
    (ht : ∀ n ∈ Expr.patternNamesOption t, r.Clear n) :
    Agree (r.exprOption t) (r'.exprOption t) := by
  cases t with
  | none => exact .refl _
  | some e => exact (expr_agree h e ht).bind fun _ => .refl _

theorem clauses_agree (h : r.Alike r') (cs : List (Clause Expr))
    (hcs : ∀ n ∈ Expr.patternNamesClauses cs, r.Clear n) :
    Agree (r.clauses cs) (r'.clauses cs) := by
  cases cs with
  | nil => exact .refl _
  | cons c cs =>
    obtain ⟨span, ps, e⟩ := c
    obtain ⟨hps, hrest⟩ := List.forall_mem_append.mp hcs
    obtain ⟨he, hcs⟩ := List.forall_mem_append.mp hrest
    refine (patternAll_agree h [] ps hps).bind fun q =>
      ((exprOption_agree h e he).bodied q.2).bind fun _ => ?_
    exact (clauses_agree h cs hcs).bind fun _ => .refl _

theorem impls_agree (h : r.Alike r') (is : List (Implementation Expr))
    (his : ∀ n ∈ Expr.patternNamesImpls is, r.Clear n) : Agree (r.impls is) (r'.impls is) := by
  cases is with
  | nil => exact .refl _
  | cons i is =>
    obtain ⟨span, n, e⟩ := i
    obtain ⟨he, his⟩ := List.forall_mem_append.mp his
    exact (expr_agree h e he).bind fun _ => (impls_agree h is his).bind fun _ => .refl _

end

end Expressions

section Declarations
variable {r r' : Resolver}

theorem tele_agree (h : r.Alike r') (tele : Telescope Expr)
    (htele : ∀ n ∈ Expr.patternNamesTele tele, r.Clear n) : Agree (r.tele tele) (r'.tele tele) := by
  induction tele with
  | nil => exact .refl _
  | cons p tele ih =>
    rw [Expr.patternNamesTele, List.flatMap_cons] at htele
    obtain ⟨hp, htele⟩ := List.forall_mem_append.mp htele
    exact (expr_agree h p.type hp).bind fun _ => (Agree.refl _).bind fun _ =>
      (ih htele).bind fun _ => .refl _

/-- The index patterns are resolved before the fields, which see their variables. -/
theorem ctorDecl_agree (h : r.Alike r') (params : Telescope Expr) (c : CtorDecl)
    (hc : ∀ n ∈ c.patternNames, r.Clear n) :
    Agree (r.ctorDecl params c) (r'.ctorDecl params c) := by
  obtain ⟨hps, htele⟩ := List.forall_mem_append.mp hc
  refine Agree.saving ?_
  unfold guardedCtor
  cases hpatterns : c.patterns with
  | none => exact (tele_agree h c.tele htele).bind fun _ => .refl _
  | some ps =>
    rw [hpatterns] at hps
    by_cases hlength : ps.length ≠ params.length
    · simp only [if_pos hlength]
      exact .fail_bind
    · simp only [if_neg hlength]
      refine (Agree.refl _).bind fun _ => (patternAll_agree h [] ps hps).bind fun _ =>
        (Agree.refl _).bind fun _ => ?_
      exact (tele_agree h c.tele htele).bind fun _ => .refl _

theorem fields_agree (h : r.Alike r') (fs : List FieldDecl)
    (hfs : ∀ n ∈ fs.flatMap FieldDecl.patternNames, r.Clear n) :
    Agree (r.fields fs) (r'.fields fs) := by
  induction fs with
  | nil => exact .refl _
  | cons f fs ih =>
    rw [List.flatMap_cons] at hfs
    obtain ⟨hf, hfs⟩ := List.forall_mem_append.mp hfs
    obtain ⟨htype, hdefault⟩ := List.forall_mem_append.mp hf
    refine (expr_agree h f.type htype).bind fun _ =>
      (exprOption_agree h f.default hdefault).bind fun _ => ?_
    exact (Agree.refl _).bind fun _ => (ih hfs).bind fun _ => .refl _

/-- The parameters are resolved one after the other, and then the body. One case for each kind of
declaration. -/
theorem decl_agree (h : r.Alike r') (d : Decl) (hd : ∀ n ∈ d.patternNames, r.Clear n) :
    Agree (r.decl d) (r'.decl d) := by
  obtain ⟨htele, hbody⟩ := List.forall_mem_append.mp hd
  refine (tele_agree h d.tele htele).bind fun tele => ?_
  cases hkind : d.body with
  | func t body =>
    cases body with
    | expr e =>
      rw [hkind] at hbody
      obtain ⟨ht, he⟩ := List.forall_mem_append.mp hbody
      exact (exprOption_agree h t ht).bind fun _ => (expr_agree h e he).bind fun _ => .refl _
    | clauses cs =>
      rw [hkind] at hbody
      obtain ⟨ht, hcs⟩ := List.forall_mem_append.mp hbody
      refine (exprOption_agree h t ht).bind fun _ => (Agree.refl _).bind fun _ => ?_
      exact (clauses_agree h cs hcs).bind fun _ => .refl _
  | data u cs =>
    rw [hkind] at hbody
    obtain ⟨hu, hcs⟩ := List.forall_mem_append.mp hbody
    refine (exprOption_agree h u hu).bind fun _ => (Agree.mapM fun c hc => ?_).bind fun _ => .refl _
    exact ctorDecl_agree h tele c fun n hn => hcs n (List.mem_flatMap.mpr ⟨c, hc, hn⟩)
  | cls ss fs =>
    rw [hkind] at hbody
    obtain ⟨hss, hfs⟩ := List.forall_mem_append.mp hbody
    refine (Agree.mapM fun e he => ?_).bind fun _ => (fields_agree h fs hfs).bind fun _ => .refl _
    exact expr_agree h e fun n hn => hss n (List.mem_flatMap.mpr ⟨e, he, hn⟩)
  | inst c is =>
    rw [hkind] at hbody
    obtain ⟨hc, his⟩ := List.forall_mem_append.mp hbody
    exact (expr_agree h c hc).bind fun _ => (impls_agree h is his).bind fun _ => .refl _

/-- No name in a pattern of the declarations can be two constructors, given what is in scope where
it stands. -/
def Unambiguous (r : Resolver) : List GlobalName → List Decl → Prop
  | _, [] => True
  | own, d :: ds =>
    match introduce own d.names with
    | (some _, own) => Unambiguous r own ds
    | (none, own) =>
      let r := { r with scope := r.scope.declareDecl d }
      (∀ n ∈ d.patternNames, r.Clear n) ∧ Unambiguous r own ds

/-- A declaration sees the names declared before it, so the scopes stay alike from one declaration
to the next. Errors are compared without their lists. -/
theorem decls_agree (h : r.Alike r') {own : List GlobalName} {ds : List Decl} (s : State)
    (hnames : ∀ d ∈ ds, ∀ n ∈ d.names, ∃ module, n.IsOwn module) (hclear : r.Unambiguous own ds) :
    (r.decls own s ds).map (·.mapError Error.unlisted) =
    (r'.decls own s ds).map (·.mapError Error.unlisted) := by
  induction ds generalizing r r' own s with
  | nil => rfl
  | cons d ds ih =>
    obtain ⟨hd, hnames⟩ := List.forall_mem_cons.mp hnames
    unfold Unambiguous at hclear
    unfold decls
    rcases hintroduce : introduce own d.names with ⟨_ | n, own'⟩ <;> dsimp only
    · rw [hintroduce] at hclear
      have halike := h.declareDecl hd
      have hend := (decl_agree halike d hclear.1).saving s s rfl
      generalize saving (decl ⟨r.module, r.scope.declareDecl d⟩ d) s = a,
        saving (decl ⟨r'.module, r'.scope.declareDecl d⟩ d) s = b at hend ⊢
      cases hend with
      | ok hab hst =>
        subst hab hst
        simp only [List.map_cons, ih halike _ hnames hclear.2]
      | @error e e' _ _ he hst =>
        subst hst
        have hsame : (Except.error e : Except Error Decl).mapError Error.unlisted =
            (Except.error e').mapError Error.unlisted :=
          congrArg Except.error (Option.some.inj he)
        simp only [List.map_cons, hsame, ih halike _ hnames hclear.2]
      | left h => cases h
      | right h => cases h
    · rw [hintroduce] at hclear
      simp only [List.map_cons, ih h s hnames hclear]

end Declarations

section Imported
variable {r : Resolver} {ds : List Definition}

/-- The constructors in scope are imported ones, or the module's own. -/
structure Imports (r : Resolver) (ds : List Definition) : Prop where
  short : ∀ n, ∀ g ∈ r.scope.globals.getD n [], g.short = n
  ctors : ∀ g, r.scope.ctors.contains g → g.module = r.module ∨
    ∃ d ∈ ds, Scope.isConstructor d ∧ d.name = g

/-- A name can be several constructors only if these are imported. -/
theorem Imports.clear (h : r.Imports ds) {n : String}
    (hone : ∀ d ∈ ds, ∀ d' ∈ ds, Scope.isConstructor d →
    Scope.isConstructor d' → d.name.short = n → d'.name.short = n → d.name = d'.name) :
    r.Clear n := by
  intro g hg g' hg' hctor hctor'
  rcases candidates_cases r n with ⟨own, -, -, hown⟩ | ⟨hforeign, hall⟩
  · rw [hown, List.mem_singleton] at hg hg'
    rw [hg, hg']
  · rw [hall] at hg hg'
    obtain ⟨d, hd, hdctor, rfl⟩ := (h.ctors g hctor).resolve_left (hforeign g hg)
    obtain ⟨d', hd', hdctor', rfl⟩ := (h.ctors g' hctor').resolve_left (hforeign g' hg')
    exact hone d hd d' hd' hdctor hdctor' (h.short n _ hg) (h.short n _ hg')

theorem Imports.declare (h : r.Imports ds) {k : GlobalName} (hk : k.IsOwn r.module)
    (isCtor : Bool) : Imports { r with scope := r.scope.declare k isCtor } ds where
  short n g hg := by
    rcases Scope.mem_declare.mp hg with hg | ⟨rfl, hshort⟩
    · exact h.short n g hg
    · exact hshort
  ctors g hg := by
    rw [Scope.contains_declare, Bool.or_eq_true, Bool.and_eq_true, beq_iff_eq] at hg
    rcases hg with ⟨-, rfl⟩ | hg
    · exact .inl hk.module_eq
    · exact h.ctors g hg

theorem Imports.declareDecl (h : r.Imports ds) {d : Decl} (hd : ∀ n ∈ d.names, n.IsOwn r.module) :
    Imports { r with scope := r.scope.declareDecl d } ds := by
  have hnames (isCtor : Bool) {ns : List GlobalName} (hns : ∀ n ∈ ns, n.IsOwn r.module) {s : Scope}
      (hs : Imports { r with scope := s } ds) :
      Imports { r with scope := ns.foldl (fun s n => s.declare n isCtor) s } ds := by
    induction ns generalizing s with
    | nil => exact hs
    | cons n ns ih =>
      obtain ⟨hn, hns⟩ := List.forall_mem_cons.mp hns
      exact ih hns (hs.declare hn isCtor)
  exact hnames _ (fun n hn => hd n (List.mem_of_mem_tail hn))
    (h.declare (hd d.name List.mem_cons_self) false)

theorem imports_importAll (module : String) (ds : List Definition) :
    Imports ⟨module, Scope.importAll {} ds⟩ ds where
  short n g hg := by
    rcases Scope.mem_importAll.mp hg with hg | ⟨hshort, -⟩
    · simp at hg
    · exact hshort
  ctors g hg := .inr ((Scope.contains_importAll.mp hg).resolve_left (by simp))

/-- It is enough that no name in a pattern is that of two imported constructors. -/
theorem Imports.unambiguous (h : r.Imports ds) {own : List GlobalName} {decls : List Decl}
    (hnames : ∀ d ∈ decls, ∀ n ∈ d.names, n.IsOwn r.module)
    (hone : ∀ k ∈ decls, ∀ n ∈ k.patternNames, ∀ d ∈ ds, ∀ d' ∈ ds, Scope.isConstructor d →
      Scope.isConstructor d' →
      d.name.short = n → d'.name.short = n → d.name = d'.name) : r.Unambiguous own decls := by
  induction decls generalizing r own with
  | nil => trivial
  | cons k decls ih =>
    obtain ⟨hk, hnames⟩ := List.forall_mem_cons.mp hnames
    obtain ⟨hkone, hone⟩ := List.forall_mem_cons.mp hone
    unfold Unambiguous
    rcases introduce own k.names with ⟨_ | n, own'⟩
    · have hnext := h.declareDecl hk
      exact ⟨fun n hn => hnext.clear (hkone n hn), ih hnext hnames hone⟩
    · exact ih h hnames hone

end Imported

section Orders

/-- A name that can be several globals is an error where it is no local variable, whichever of them
came first. -/
theorem expr_of_ambiguous {r : Resolver} {n : String} {g g' : GlobalName} (hg : g ∈ r.candidates n)
    (hg' : g' ∈ r.candidates n) (hne : g ≠ g') (span : Span) {s : State}
    (hs : s.locals[n]? = none) :
    ∃ text, r.expr (.name span n) s = .error (.located (.duplicateName text) span) s := by
  rw [expr_of_global hs, Resolver.global]
  generalize r.candidates n = gs at hg hg' ⊢
  rcases gs with _ | ⟨k, _ | ⟨k', ks⟩⟩
  · cases hg
  · exact absurd ((List.mem_singleton.mp hg).trans (List.mem_singleton.mp hg').symm) hne
  · exact ⟨_, rfl⟩

/-- A name in a pattern that can be one constructor only is that constructor. -/
theorem ctor?_of_clear {r : Resolver} {n : String} {c : GlobalName} (h : r.Clear n)
    (hc : c ∈ r.candidates n) (hctor : r.scope.ctors.contains c) : r.ctor? n = some c := by
  obtain ⟨g, hg⟩ := Option.isSome_iff_exists.mp (isSome_ctor?_iff.mpr ⟨c, hc, hctor⟩)
  rw [hg, h g (List.mem_of_find?_eq_some hg) c hc (List.find?_some hg) hctor]

/-- Whatever the order of its imports is, the declarations of a module are resolved to the same, or
fail with the same error at the same place, as long as no name in a pattern can be two constructors.
A name in an expression that can be two globals is always an error. -/
theorem resolve_reordered (m : Surface.Module) (ds ds' : List Definition) :
    ((∀ d, d ∈ ds ↔ d ∈ ds') →
      (∀ d ∈ ds, ∃ module, d.name.IsOwn module) → (∀ d ∈ m.decls, ∀ n ∈ d.names, n.IsOwn m.name) →
      Unambiguous ⟨m.name, Scope.importAll {} ds⟩ [] m.decls →
      (m.resolve (Scope.importAll {} ds)).map (·.mapError Error.unlisted) =
        (m.resolve (Scope.importAll {} ds')).map (·.mapError Error.unlisted)) ∧
    (∀ {r : Resolver} {n : String} {g g' : GlobalName}, g ∈ r.candidates n →
      g' ∈ r.candidates n → g ≠ g' → ∀ (span : Span) {s : State}, s.locals[n]? = none →
        ∃ text, r.expr (.name span n) s = .error (.located (.duplicateName text) span) s) ∧
    ∀ {r : Resolver} {n : String} {c : GlobalName}, r.Clear n → c ∈ r.candidates n →
      r.scope.ctors.contains c → r.ctor? n = some c := by
  refine ⟨fun hds hnames hown hclear => ?_, expr_of_ambiguous, ctor?_of_clear⟩
  exact decls_agree (alike_importAll m.name hds hnames) _
    (fun d hd n hn => ⟨m.name, hown d hd n hn⟩) hclear

/-- A function without a body, as two modules may have it. -/
def sampleFunction (module : String) : Definition :=
  { (default : Definition) with name := .qualified module "f", body := .pending }

/-- The constructors of the natural numbers, and a function of two modules. -/
def sampleImports : List Definition := [
  { (default : Definition) with name := .qualified "nat" "zero", body := .primitive .zero },
  { (default : Definition) with name := .qualified "nat" "suc", body := .primitive .succ },
  sampleFunction "a", sampleFunction "b"]

/-- A function whose clauses match numbers and mention the function of the other modules. -/
def sampleModule : Surface.Module where
  name := "m"
  imports := []
  decls := [⟨default, .qualified "m" "g", [], .func none (.clauses [
    ⟨default, [.name default "zero" []], some (.name default "f")⟩,
    ⟨default, [.name default "suc" [.name default "n" []]], some (.name default "n")⟩])⟩]
  variableCount := 0

/-- The module uses constructors of one imported module in its patterns, and mentions a name that
two others have, which is an error in either order. -/
theorem resolve_reordered_sample :
    (sampleModule.resolve (Scope.importAll {} sampleImports)).map (·.mapError Error.unlisted) =
      (sampleModule.resolve (Scope.importAll {} sampleImports.reverse)).map
        (·.mapError Error.unlisted) := by
  have hnames : ∀ d ∈ sampleImports, ∃ module, d.name.IsOwn module := by
    simp only [sampleImports, sampleFunction, List.forall_mem_cons]
    exact ⟨⟨"nat", "zero", rfl, by decide⟩, ⟨"nat", "suc", rfl, by decide⟩,
      ⟨"a", "f", rfl, by decide⟩, ⟨"b", "f", rfl, by decide⟩, by simp⟩
  have hown : ∀ d ∈ sampleModule.decls, ∀ n ∈ d.names, n.IsOwn sampleModule.name := by
    simp only [sampleModule, Decl.names, List.forall_mem_cons]
    exact ⟨⟨⟨"g", rfl, by decide⟩, by simp⟩, by simp⟩
  exact (resolve_reordered _ _ _).1 (by simp) hnames hown
    ((imports_importAll _ _).unambiguous hown (by decide))

end Orders

end Resolver

end LeveledTypes
