import LeveledTypes.Proofs.Elaboration.Binding
import LeveledTypes.Proofs.Elaboration.Exhaustion
import LeveledTypes.Proofs.Elaboration.Expression
import LeveledTypes.Proofs.Elaboration.Failure

/-!
# The first clause that matches

A case tree made of clauses takes all values of its columns to the right-hand side of the first
clause that matches them. If the columns have populated types, a report of missing clauses means
that some values match no clause, and the clauses that are reported as redundant are those that are
the first to match no values.
-/
namespace LeveledTypes

open Surface

/-- The place of the first clause whose patterns match some values. -/
def firstMatch? (cs : List (Clause Expr)) (vs : List Term) : Option ℕ :=
  cs.findIdx? fun k => (Pattern.matchAll? k.patterns vs).isSome

namespace Elaborator
variable {env : Environment} {sol : ℕ → Option Term} {others : Term → Term → Prop}
  {check : Context → Expr → Term → Elab Term} {cs : List (Clause Expr)} {c inner : Context}
  {goal t u : Term} {ρ σ : ℕ → Term} {bs : List (Variable × Term)}

/-- The clauses before any column is split. -/
def rowsOf (cs : List (Clause Expr)) : List Row := cs.zipIdx.map fun (k, i) => ⟨i, k.patterns, []⟩

/-- The case tree comes to the right-hand side of a clause, which was elaborated to `u` in the
context `inner`. The variables of this context have the values that `σ` gives. -/
structure Reaches (check : Context → Expr → Term → Elab Term) (c : Context)
    (goal t : Term) (ρ : ℕ → Term) (k : Clause Expr) (bs : List (Variable × Term)) (inner : Context)
    (u : Term) (σ : ℕ → Term) : Prop where
  elaborated : ∃ x goal' s s', k.rhs = some x ∧ check inner x goal' s = .ok u s' ∧
    (goal'.inst σ).erase = (goal.inst ρ).erase
  reduces : Relation.ReflTransGen Term.Iota (t.inst ρ) (u.inst σ)
  outer : ∃ new : List Entry, inner.entries = new ++ c.entries ∧ (∀ x ∈ new, x.binder.var.id = 0) ∧
    ∀ i, σ (i + new.length) = ρ i
  binds : k.Fresh c → ∀ b ∈ bs, ∃ w type, inner.lookup? b.1 = some (w, type) ∧
    (w.inst σ).erase = b.2.erase

section Rows
variable {vs : List Term}

theorem find?_rowsOf (cs : List (Clause Expr)) (vs : List Term) : (rowsOf cs).find? (Matches vs) =
    (cs.zipIdx.find? fun (k, _) => (Pattern.matchAll? k.patterns vs).isSome).map fun (k, i) =>
      ⟨i, k.patterns, []⟩ :=
  List.find?_map

theorem selected?_rowsOf (cs : List (Clause Expr)) : selected? (rowsOf cs) = firstMatch? cs := by
  funext vs
  rw [selected?, find?_rowsOf, Option.map_map, firstMatch?, List.findIdx?_eq_fst_find?_zipIdx]
  rfl

theorem clause_of_find? {r : Row} (h : (rowsOf cs).find? (Matches vs) = some r) :
    firstMatch? cs vs = some r.index ∧ ∃ k, cs[r.index]? = some k ∧ r.patterns = k.patterns ∧
    r.bound = [] := by
  constructor
  · rw [← selected?_rowsOf, selected?, h]
    rfl
  · rw [find?_rowsOf] at h
    obtain ⟨⟨k, i⟩, hki, rfl⟩ := Option.map_eq_some_iff.mp h
    exact ⟨k, List.mem_zipIdx_iff_getElem?.mp (List.mem_of_find?_eq_some hki), rfl, rfl⟩

end Rows

section Runs
variable {e : Elaborator} {cols : List Column} {span : Span} {s s' : ElaborationState} {err : Error}

/-- The warnings about clauses that are not used. -/
def redundancies (cs : List (Clause Expr)) (used : List ℕ) : List Warning :=
  (cs.zipIdx.filter fun (_, i) => !used.contains i).map fun (k, _) => .redundantClause k.span

/-- The clauses must have a pattern for each column. -/
theorem lengths_eq_ok {f : Clause Expr → Elab (ForInStep PUnit)} {r : PUnit}
    (hf : ∀ k, f k = if k.patterns.length ≠ cols.length then do
        mismatch (counted cols.length "patterns") (counted k.patterns.length "patterns") k.span
        pure (ForInStep.yield PUnit.unit)
      else pure (ForInStep.yield PUnit.unit))
    (hr : forIn cs PUnit.unit (fun k _ => f k) s = .ok r s') :
    s' = s ∧ ∀ k ∈ cs, k.patterns.length = cols.length := by
  induction cs with
  | nil =>
    obtain ⟨-, rfl⟩ := EStateM.Result.ok.inj hr
    exact ⟨rfl, by simp⟩
  | cons k cs ih =>
    rw [List.forIn_cons] at hr
    obtain ⟨step, u, hk, hr⟩ := bind_eq_ok.mp hr
    rw [hf] at hk
    split at hk
    case isTrue =>
      obtain ⟨_, _, hfail, -⟩ := bind_eq_ok.mp hk
      contradiction
    case isFalse hlen =>
      obtain ⟨rfl, rfl⟩ := EStateM.Result.ok.inj hk
      obtain ⟨rfl, hcs⟩ := ih hr
      exact ⟨rfl, List.forall_mem_cons.mpr ⟨not_not.mp hlen, hcs⟩⟩

/-- The test of the numbers of patterns raises no error of the kind that is asked about. -/
theorem silent_lengths {f : Clause Expr → Elab (ForInStep PUnit)}
    (hf : ∀ k, f k = if k.patterns.length ≠ cols.length then do
        mismatch (counted cols.length "patterns") (counted k.patterns.length "patterns") k.span
        pure (ForInStep.yield PUnit.unit)
      else pure (ForInStep.yield PUnit.unit)) : Silent (forIn cs PUnit.unit fun k _ => f k) := by
  induction cs with
  | nil => exact .pure _
  | cons k cs ih =>
    rw [List.forIn_cons]
    refine .bind ?_ fun step => ?_
    · rw [hf]
      split
      · exact .bind silent_mismatch fun _ => .pure _
      · exact .pure _
    · cases step with
      | done => exact .pure _
      | yield => exact ih

/-- What a successful run of clauses consists of: every clause has as many patterns as there are
columns, and there are no clauses and a column without constructors, or a case split on the rows in
which nothing is missing. -/
theorem clauses_eq_ok (hr : e.clauses check c cs cols goal span s = .ok t s') :
    (∀ k ∈ cs, k.patterns.length = cols.length) ∧
      ((cs = [] ∧ ∃ x, e.emptyColumn? c span cols s = .ok (some x) s' ∧ t = x.term.emptyCase goal) ∨
      ∃ row rest gas coverage u, rowsOf cs = row :: rest ∧
        e.split check cs span gas c row rest cols goal s = .ok (t, coverage) u ∧
        coverage.missing = [] ∧
        s' = { u with warnings := u.warnings ++ redundancies cs coverage.used }) := by
  unfold clauses at hr
  replace hr := bind_eq_ok.mp hr
  obtain ⟨_, u, hloop, hr⟩ := hr
  obtain ⟨rfl, hlen⟩ := lengths_eq_ok (fun _ => rfl) hloop
  refine ⟨hlen, ?_⟩
  rw [← rowsOf] at hr
  cases hrows : rowsOf cs with
  | nil =>
    have hcs : cs = [] := by simpa [rowsOf] using hrows
    simp only [hrows] at hr
    obtain ⟨o, u, ho, hr⟩ := bind_eq_ok.mp hr
    cases o with
    | none => contradiction
    | some x =>
      obtain ⟨rfl, rfl⟩ := EStateM.Result.ok.inj hr
      exact .inl ⟨hcs, x, ho, rfl⟩
  | cons row rest =>
    simp only [hrows] at hr
    obtain ⟨⟨t', coverage⟩, u, hsplit, hr⟩ := bind_eq_ok.mp hr
    dsimp only at hr
    split at hr
    case isTrue =>
      obtain ⟨_, _, hfail, -⟩ := bind_eq_ok.mp hr
      contradiction
    case isFalse hmissing =>
      obtain ⟨rfl, rfl⟩ := EStateM.Result.ok.inj hr
      exact .inr ⟨row, rest, _, coverage, u, rfl, hsplit, by simpa using hmissing, rfl⟩

/-- Missing clauses are found when there are no clauses, and else while or after the case tree is
built. -/
theorem clauses_eq_error (hr : e.clauses check c cs cols goal span s = .error err s')
    (hkind : err.kind = .nonExhaustiveMatch) : (∀ k ∈ cs, k.patterns.length = cols.length) ∧
      (cs = [] ∨ ∃ row rest gas, rowsOf cs = row :: rest ∧
        (e.split check cs span gas c row rest cols goal s = .error err s' ∨ ∃ t coverage,
          e.split check cs span gas c row rest cols goal s = .ok (t, coverage) s' ∧
          coverage.missing ≠ [])) := by
  unfold clauses at hr
  replace hr := bind_eq_error.mp hr
  rcases hr with hr | ⟨_, u, hloop, hr⟩
  · exact absurd hkind (silent_lengths (fun _ => rfl) s err s' hr)
  obtain ⟨rfl, hlen⟩ := lengths_eq_ok (fun _ => rfl) hloop
  refine ⟨hlen, ?_⟩
  rw [← rowsOf] at hr
  cases hrows : rowsOf cs with
  | nil => exact .inl (by simpa [rowsOf] using hrows)
  | cons row rest =>
    simp only [hrows] at hr
    rcases bind_eq_error.mp hr with hr | ⟨⟨t, coverage⟩, u, hsplit, hr⟩
    · exact .inr ⟨row, rest, _, rfl, .inl hr⟩
    dsimp only at hr
    split at hr
    case isTrue hmissing =>
      rcases bind_eq_error.mp hr with hr | ⟨_, _, hfail, -⟩
      · obtain ⟨-, rfl⟩ := EStateM.Result.error.inj hr
        exact .inr ⟨row, rest, _, rfl, .inr ⟨t, coverage, hsplit, by simpa using hmissing⟩⟩
      · contradiction
    case isFalse => contradiction

/-- A column of an empty type has no values. -/
theorem frozen_emptyColumn? {store : Store} (henv : env.WellFormed)
    (hstore : store.Valid env.signature) (hc : c.Over env.signature)
    (hcols : ∀ x ∈ cols, x.Over env.signature) :
    Ensures (ElaborationState.Frozen e env store)
      (e.emptyColumn? c span cols) fun o => ∀ x, o = some x →
      x ∈ cols ∧ Splits env store.solution? c.locals x.type [] := by
  induction cols with
  | nil => exact .pure (by simp)
  | cons x xs ih =>
    obtain ⟨hx, hxs⟩ := List.forall_mem_cons.mp hcols
    have hheads : Ensures (ElaborationState.Frozen e env store) (e.heads? c x.type span) fun o =>
        ∀ hs, o = some hs → Splits env store.solution? c.locals x.type hs :=
      (frozen_heads? henv hstore hc hx.type).mono fun o ho hs h => (ho hs h).1
    unfold emptyColumn?
    refine .bind (.tryCatch hheads fun _ => .pure (by simp)) fun o ho => ?_
    split
    · refine .pure fun y hy => ?_
      obtain rfl := Option.some.inj hy
      exact ⟨by simp, ho [] rfl⟩
    · exact (ih hxs).mono fun o ho y hy => (ho y hy).imp_left (List.mem_cons_of_mem x)

/-- What is known of the clauses before any column is split. -/
theorem node_rowsOf (hc : c.Over env.signature) (hcols : ∀ x ∈ cols, x.Over env.signature)
    (hgoal : goal.Over env.signature ⊤) (hlen : ∀ k ∈ cs, k.patterns.length = cols.length) :
    Node env cs.length c (rowsOf cs) cols goal := by
  have hrow (r : Row) (hr : r ∈ rowsOf cs) : r.index < cs.length ∧ r.patterns.length = cols.length ∧
      r.bound = [] := by
    obtain ⟨⟨k, i⟩, hki, rfl⟩ := List.mem_map.mp hr
    have hk := List.mem_zipIdx_iff_getElem?.mp hki
    exact ⟨(List.getElem?_eq_some_iff.mp hk).1, hlen k (List.mem_of_getElem? hk), rfl⟩
  refine ⟨hc, hcols, hgoal, fun r hr => (hrow r hr).1, fun r hr => (hrow r hr).2.1,
    fun r hr b hb => ?_, fun r hr b hb => ?_⟩
  all_goals simp [(hrow r hr).2.2] at hb

end Runs

section Compilation
variable {e : Elaborator} {cols : List Column} {span : Span} {s s' : ElaborationState}
  {sol' : ℕ → Option Term} {ρ₀ : ℕ → Term} (henv : env.WellFormed) (hcheck : e.Checks env check)
  (hs : s.Follows e env sol) (hc : c.Over env.signature) (hcols : ∀ x ∈ cols, x.Over env.signature)
  (hgoal : goal.Over env.signature ⊤)

include henv hcheck hs hc hcols hgoal

/-- A case tree takes values of its columns to the first clause that matches them. -/
theorem reaches_of_clauses (hr : e.clauses check c cs cols goal span s = .ok t s')
    (hi : Instance s'.conversion.store.solution? c.locals sol' ρ)
    (hvalues : ∀ x ∈ cols, Value env sol' others (x.term.inst ρ) (x.type.inst ρ)) :
    ∃ n k bs inner u σ, firstMatch? cs (cols.map fun x => x.term.inst ρ) = some n ∧
      cs[n]? = some k ∧ Pattern.matchAll? k.patterns (cols.map fun x => x.term.inst ρ) = some bs ∧
      Reaches check c goal t ρ k bs inner u σ := by
  obtain ⟨hlen, ⟨-, x, hempty, -⟩ | ⟨row, rest, gas, coverage, v, hrows, hsplit, hmissing, rfl⟩⟩ :=
    clauses_eq_ok hr
  · obtain ⟨hfrozen, hcolumn⟩ := (frozen_emptyColumn? henv hs.conversion.valid hc hcols).ok
      ⟨hs.environment, rfl, hs.conversion.memo⟩ hempty
    obtain ⟨hx, hsplits⟩ := hcolumn x rfl
    rw [hfrozen.conversion.store] at hi
    obtain ⟨_, _, -, ⟨h, hh, -⟩, -⟩ := hsplits.fits henv hi (hvalues x hx)
    contradiction
  · have hnode := node_rowsOf hc hcols hgoal hlen
    rw [hrows] at hnode
    obtain ⟨r, bs, inner, u, σ, hfind, -, hbs, harrives⟩ :=
      arrives_of_split henv hcheck hnode hs hsplit hmissing hi hvalues
    rw [← hrows] at hfind
    obtain ⟨hfirst, k, hk, hpatterns, hbound⟩ := clause_of_find? hfind
    refine ⟨_, k, bs, inner, u, σ, hfirst, hk, hpatterns ▸ hbs, ?_, harrives.reaches,
      harrives.extends_context, ?_⟩
    · obtain ⟨k', x, goal', s, s', hk', hx, hrun, hgoal'⟩ := harrives.elaborated
      obtain rfl := Option.some.inj (hk.symm.trans hk')
      exact ⟨x, goal', s, s', hx, hrun, hgoal'⟩
    · exact harrives.lookup? hpatterns hbound

/-- The clauses that a case tree uses are those that some values of its columns select. -/
theorem mem_used_iff {row : Row} {rest : List Row} {gas : ℕ} {coverage : Coverage}
    (hlen : ∀ k ∈ cs, k.patterns.length = cols.length) (hrows : rowsOf cs = row :: rest)
    (hsplit : e.split check cs span gas c row rest cols goal s = .ok (t, coverage) s')
    (hmissing : coverage.missing = []) (hcolumns : c.Columns cols)
    (hi : Instance s'.conversion.store.solution? c.locals sol' ρ₀)
    (hpop : PopulatedColumns env sol' others cols ρ₀) (n : ℕ) :
    n ∈ coverage.used ↔ Selects env sol' others cols ρ₀ (firstMatch? cs) (some n) := by
  have hfill := Fillable.of_columns hcolumns hi.fits hpop
  have hnode := node_rowsOf hc hcols hgoal hlen
  rw [hrows] at hnode
  constructor
  · intro hn
    have hselects := (selects_of_split henv hcheck hnode hs hsplit hi.keeps hfill).1 n hn
    rwa [← hrows, selected?_rowsOf] at hselects
  · rintro ⟨ρ, hρ, hvalues, hfirst⟩
    obtain ⟨r, _, _, _, _, hfind, hused, -⟩ :=
      arrives_of_split henv hcheck hnode hs hsplit hmissing ⟨hi.keeps, hfill.fits ρ hρ⟩ hvalues
    rw [← hrows] at hfind
    obtain rfl := Option.some.inj ((clause_of_find? hfind).1.symm.trans hfirst)
    exact hused

/-- Missing clauses are reported only if they are missing in a right-hand side or some values match
no clause. -/
theorem unmatched_of_clauses {err : Error}
    (hr : e.clauses check c cs cols goal span s = .error err s')
    (hkind : err.kind = .nonExhaustiveMatch) : Raised e env check cs c s err ∨
      ∀ others sol' ρ₀, c.Columns cols → Instance s'.conversion.store.solution? c.locals sol' ρ₀ →
        PopulatedColumns env sol' others cols ρ₀ →
        Selects env sol' others cols ρ₀ (firstMatch? cs) none := by
  obtain ⟨hlen, rfl | ⟨row, rest, gas, hrows, hrun⟩⟩ := clauses_eq_error hr hkind
  · refine .inr fun others sol' ρ₀ hcolumns hi hpop => ?_
    obtain ⟨ρ, hρ, hvalues⟩ := (Fillable.of_columns hcolumns hi.fits hpop).exists_values
    exact ⟨ρ, hρ, hvalues, rfl⟩
  · have hnode := node_rowsOf hc hcols hgoal hlen
    rw [hrows] at hnode
    rcases hrun with hrun | ⟨t, coverage, hsplit, hmissing⟩
    · exact .inl (raised_of_split henv hcheck hnode hs hrun hkind)
    · refine .inr fun others sol' ρ₀ hcolumns hi hpop => ?_
      have hfill := Fillable.of_columns hcolumns hi.fits hpop
      have hselects := (selects_of_split henv hcheck hnode hs hsplit hi.keeps hfill).2 hmissing
      rwa [← hrows, selected?_rowsOf] at hselects

end Compilation

/-- Clauses are compiled into a case tree that takes all values of the columns to the right-hand
side of the first clause that matches them. For columns that are variables of the context and have
populated types, missing clauses are reported only if some values match no clause, or for a
right-hand side, and a clause is reported as redundant just if no values select it. -/
theorem firstMatch_of_clauses (e : Elaborator) (gas : ℕ) (cs : List (Clause Expr))
    (cols : List Column) (span : Span) (s : ElaborationState) (henv : env.WellFormed)
    (hs : s.Follows e env sol) (hc : c.Over env.signature)
    (hcols : ∀ x ∈ cols, x.Over env.signature) (hgoal : goal.Over env.signature ⊤) :
    match e.clauses (e.checkGas gas) c cs cols goal span s with
    | .ok t s' =>
      (∀ others sol' ρ, Instance s'.conversion.store.solution? c.locals sol' ρ →
        (∀ x ∈ cols, Value env sol' others (x.term.inst ρ) (x.type.inst ρ)) →
        ∃ n k bs inner u σ, firstMatch? cs (cols.map fun x => x.term.inst ρ) = some n ∧
          cs[n]? = some k ∧
          Pattern.matchAll? k.patterns (cols.map fun x => x.term.inst ρ) = some bs ∧
          Reaches (e.checkGas gas) c goal t ρ k bs inner u σ) ∧
      ∃ used u, (cs ≠ [] → ∃ row rest depth, rowsOf cs = row :: rest ∧
          e.split (e.checkGas gas) cs span depth c row rest cols goal s = .ok (t, ⟨used, []⟩) u) ∧
        s'.warnings = u.warnings ++ redundancies cs used ∧
        ∀ others sol' ρ₀, c.Columns cols → Instance s'.conversion.store.solution? c.locals sol' ρ₀ →
          PopulatedColumns env sol' others cols ρ₀ →
          ∀ n < cs.length, n ∈ used ↔ Selects env sol' others cols ρ₀ (firstMatch? cs) (some n)
    | .error err s' => err.kind = .nonExhaustiveMatch → Raised e env (e.checkGas gas) cs c s err ∨
        ∀ others sol' ρ₀, c.Columns cols → Instance s'.conversion.store.solution? c.locals sol' ρ₀ →
          PopulatedColumns env sol' others cols ρ₀ →
          Selects env sol' others cols ρ₀ (firstMatch? cs) none := by
  have hcheck : e.Checks env (e.checkGas gas) :=
    fun sol c x t hc ht => (keeps_gas henv gas).check c x t hc ht
  cases hr : e.clauses (e.checkGas gas) c cs cols goal span s with
  | error err s' => exact fun hkind => unmatched_of_clauses henv hcheck hs hc hcols hgoal hr hkind
  | ok t s' =>
    refine ⟨fun others sol' ρ hi hv => reaches_of_clauses henv hcheck hs hc hcols
      hgoal hr hi hv, ?_⟩
    obtain ⟨hlen, ⟨rfl, -⟩ | ⟨row, rest, depth, coverage, u, hrows, hsplit, hmissing, rfl⟩⟩ :=
      clauses_eq_ok hr
    · exact ⟨[], s', by simp, by simp [redundancies], by simp⟩
    · obtain ⟨used, missing⟩ := coverage
      subst hmissing
      refine ⟨used, u, fun _ => ⟨row, rest, depth, hrows, hsplit⟩, rfl,
        fun others sol' ρ₀ hcolumns hi hpop n _ => ?_⟩
      exact mem_used_iff henv hcheck hs hc hcols hgoal hlen hrows hsplit rfl hcolumns hi hpop n

section Examples

/-- A data type without constructors. -/
def emptyDefinition : Definition :=
  { span := default, name := ⟨"index::Empty"⟩, tele := [], type := .univ .params, body := .data [] }

def emptyType : Term := .data ⟨"index::Empty"⟩ .params []

/-- Elaboration where the only definition is the empty data type. -/
def withEmpty : Elaborator := ⟨({} : Registry).insert emptyDefinition, {}, []⟩

def emptyEnvironment : Environment := ⟨withEmpty.base, {}⟩

theorem get?_emptyEnvironment (n : GlobalName) :
    emptyEnvironment.get? n = if emptyDefinition.name = n then some emptyDefinition else none := by
  have hnone : ({} : Registry).get? n = none := by simp [Registry.get?]
  simp [Environment.get?, emptyEnvironment, withEmpty, Registry.get?_insert, hnone]

/-- The definitions of the empty type, of the numbers and of the function between them fit together.
-/
theorem wellFormed_emptyEnvironment : emptyEnvironment.WellFormed := by
  have hdefinition (n : GlobalName) (d : Definition) (hd : emptyEnvironment.get? n = some d) :
      d.name = n ∧ d = emptyDefinition := by
    rw [get?_emptyEnvironment] at hd
    split at hd
    case isTrue hn =>
      obtain rfl := Option.some.inj hd
      exact ⟨hn, rfl⟩
    case isFalse => contradiction
  refine ⟨fun n d _ hd => ?_, fun n d hd => (hdefinition n d hd).1, fun n d hd => ?_,
    fun n f hf => ?_⟩
  · obtain ⟨-, rfl⟩ := hdefinition n d hd
    trivial
  · obtain ⟨-, rfl⟩ := hdefinition n d hd
    exact emptyEnvironment.admits _
  · have hnone : emptyEnvironment.classFields n = [] := by
      rw [Environment.classFields, get?_emptyEnvironment]
      by_cases hn : emptyDefinition.name = n
      · rw [if_pos hn]
        rfl
      · rw [if_neg hn]
    simp [hnone] at hf

theorem follows_empty : ({} : ElaborationState).Follows withEmpty emptyEnvironment
    fun _ => none := by
  refine ⟨rfl, by simp, ⟨?_, ?_, ?_⟩, Memo.sound_empty⟩
  all_goals simp [Store.solution?]

/-- A variable of type `Nat` to be matched. -/
def numberContext : Context := ({} : Context).push ⟨⟨"n", 1⟩, .explicit⟩ .nat

/-- The clauses `0 => 0` and `suc m => m`. -/
def predecessorClauses : List (Clause Expr) :=
  [⟨default, [.num default 0], some (.num default 0)⟩,
   ⟨default, [.con default (Primitive.globalName "suc") [.var default ⟨"m", 2⟩]],
     some (.localVar default ⟨"m", 2⟩)⟩]

/-- The predecessor of a number, as a case tree. -/
def predecessorTree : Term := .case (.var 0) .nat [⟨.zero, [], .zero⟩, ⟨.succ, ["m"], .var 0⟩]

/-- All numbers are taken to the predecessor by the two clauses, both of which are used. -/
theorem firstMatch_of_clauses_predecessor :
    emptyEnvironment.WellFormed ∧
    ({} : ElaborationState).Follows withEmpty emptyEnvironment (fun _ => none) ∧
      numberContext.Over emptyEnvironment.signature ∧
      (∀ x ∈ [(⟨.var 0, .nat⟩ : Column)], x.Over emptyEnvironment.signature) ∧
      Term.nat.Over emptyEnvironment.signature ⊤ ∧
      withEmpty.clauses (withEmpty.checkGas 2) numberContext predecessorClauses
        [⟨.var 0, .nat⟩] .nat default {} = .ok predecessorTree {} ∧
      (∀ others sol ρ, Value emptyEnvironment sol others (ρ 0) .nat → ∃ n k bs inner u σ,
        firstMatch? predecessorClauses [ρ 0] = some n ∧ predecessorClauses[n]? = some k ∧
        Pattern.matchAll? k.patterns [ρ 0] = some bs ∧
        Reaches (withEmpty.checkGas 2) numberContext .nat predecessorTree ρ k bs inner u σ) ∧
      ∃ used earlier, ([] : List Warning) = earlier ++ redundancies predecessorClauses used ∧
        ∀ n < 2, n ∈ used ↔
        Selects emptyEnvironment (fun _ => none) (fun _ _ => False) [⟨.var 0, .nat⟩] .var
          (firstMatch? predecessorClauses) (some n) := by
  have hrun : withEmpty.clauses (withEmpty.checkGas 2) numberContext predecessorClauses
      [⟨.var 0, .nat⟩] .nat default {} =
    .ok predecessorTree {} := by rfl
  have hcontext : numberContext.Over emptyEnvironment.signature := Context.Over.empty.push trivial
  have hcols : ∀ x ∈ [(⟨.var 0, .nat⟩ : Column)], x.Over emptyEnvironment.signature := by
    intro x hx
    obtain rfl := List.mem_singleton.mp hx
    exact ⟨ENat.natCast_lt_top 0, trivial⟩
  have hgoal : Term.nat.Over emptyEnvironment.signature ⊤ := trivial
  have h := firstMatch_of_clauses withEmpty 2 predecessorClauses [⟨.var 0, .nat⟩] default
    {} wellFormed_emptyEnvironment follows_empty hcontext hcols hgoal
  rw [hrun] at h
  obtain ⟨hreaches, used, u, -, hwarnings, hused⟩ := h
  have hfits := Context.fits_locals (c := numberContext) (by simp [numberContext, Context.push])
  refine ⟨wellFormed_emptyEnvironment, follows_empty, hcontext, hcols, hgoal, hrun,
    fun others sol ρ hv => ?_, used, u.warnings, hwarnings, fun n hn => ?_⟩
  · exact hreaches others sol ρ ⟨by simp [Store.solution?], hfits ρ⟩ (by simpa using hv)
  · refine hused _ _ _ (Context.columns_push _ _ _) ⟨by simp [Store.solution?], hfits _⟩ ?_ n hn
    intro a x ρ hx _ _
    obtain rfl := List.mem_singleton.mp (List.mem_of_getElem? hx)
    exact populated_nat

/-- A clause with an absurd pattern for a column of the empty type. -/
def absurdClause : Clause Expr := ⟨default, [.absurd default], none⟩

def emptyContext : Context := ({} : Context).push ⟨⟨"x", 1⟩, .explicit⟩ emptyType

theorem heads?_emptyType {c : Context} {span : Span} :
    withEmpty.heads? c emptyType span {} = .ok (some []) {} := by
  unfold heads?
  have hwhnf : withEmpty.whnf c emptyType span {} = .ok emptyType {} := by rfl
  have henv : withEmpty.environment {} = .ok emptyEnvironment {} := rfl
  rw [bind_of_ok hwhnf]
  refine (bind_of_ok henv).trans ?_
  rw [get?_emptyEnvironment]
  rfl

/-- The absurd clause is needed for the clauses to be complete, so that there is no warning, and yet
it matches nothing. -/
theorem unwarned_absurdClause :
    emptyEnvironment.get? ⟨"index::Empty"⟩ = some emptyDefinition ∧
    emptyDefinition.body = .data [] ∧
      emptyContext.Columns [⟨.var 0, emptyType⟩] ∧
      withEmpty.clauses (withEmpty.checkGas 0) emptyContext [absurdClause]
        [⟨.var 0, emptyType⟩] .nat default {} =
        .ok ((Term.var 0).emptyCase .nat) {} ∧ ({} : ElaborationState).warnings = [] ∧
      ∀ sol others ρ, ¬Selects emptyEnvironment sol others [⟨.var 0, emptyType⟩] ρ
        (firstMatch? [absurdClause]) (some 0) := by
  have hget : emptyEnvironment.get? ⟨"index::Empty"⟩ = some emptyDefinition :=
    get?_emptyEnvironment _
  have hsplit : withEmpty.split (withEmpty.checkGas 0) [absurdClause] default 2 emptyContext
    ⟨0, [.absurd default], []⟩ [] [⟨.var 0, emptyType⟩] .nat {} =
      .ok ((Term.var 0).emptyCase .nat, ⟨[0], []⟩) {} :=
    (bind_of_ok heads?_emptyType).trans rfl
  refine ⟨hget, rfl, Context.columns_push _ _ _, (bind_of_ok hsplit).trans rfl, rfl, ?_⟩
  rintro sol others ρ₀ ⟨ρ, -, hvalues, -⟩
  have hvalue := hvalues ⟨.var 0, emptyType⟩ (by simp)
  have heval (sol' : ℕ → Option Term) (ρ : ℕ → Term) (_ : Instance sol [] sol' ρ) :
      Evaluates emptyEnvironment sol'
        (emptyType.inst ρ) (.data ⟨"index::Empty"⟩ .params (([] : List Term).map (Term.inst ρ))) :=
        .refl
  have hsplits : Splits emptyEnvironment sol [] emptyType [] := .data heval hget rfl .nil
  obtain ⟨_, _, -, ⟨h, hh, -⟩, -⟩ :=
    hsplits.fits wellFormed_emptyEnvironment ⟨fun _ _ => id, by simp [Locals.Fits]⟩ hvalue
  contradiction

end Examples

end Elaborator

end LeveledTypes
