import LeveledTypes.Elaboration.Basic
import LeveledTypes.Primitive
import LeveledTypes.Surface.Basic

/-!
# Pattern matching

Clauses are compiled into a case tree by splitting on the first column in which the first clause has
a constructor. The clauses that are still possible are specialized for each constructor of the type
of the column, and a clause all of whose remaining patterns are variables ends a branch. A
constructor that is guarded by index patterns takes part only if the arguments of the type match
them.
-/
namespace LeveledTypes

open Surface

/-- The column that patterns are matched against: a term and its type. -/
structure Column where
  term : Term
  type : Term
deriving Inhabited

/-- A clause that is still possible: its patterns, one for each column, and the variables bound so
far. -/
structure Row where
  index : Nat
  patterns : List Pattern
  bound : List (Variable × Alias) := []

/-- A constructor of the type of a column, with its arguments at the arguments of the type. -/
structure Head where
  head : BranchHead
  name : GlobalName
  args : Telescope Term
  /-- The universe and the parameters of the data type. -/
  universe? : Option (Universe × List Term) := none
deriving Inhabited

/-- What a case tree covers: the clauses that end a branch, and the constructors that no clause
covers. -/
structure Coverage where
  used : List Nat := []
  missing : List String := []

namespace Coverage

instance : Append Coverage := ⟨fun a b => ⟨a.used ++ b.used, a.missing ++ b.missing⟩⟩

end Coverage

namespace Surface.Pattern

def isVar : Pattern → Bool
  | .var _ _ => true
  | _ => false

mutual

/-- How often a pattern can be taken apart. -/
def weight : Pattern → Nat
  | .var _ _ => 0
  | .num _ n => n + 1
  | .con _ _ ps => weightAll ps + 1
  | .name _ _ _ | .absurd _ => 1

def weightAll : List Pattern → Nat
  | [] => 0
  | p :: ps => weight p + weightAll ps

end

/-- The variable that a pattern binds, if it has a name. -/
def bound? : Pattern → Option Variable
  | .var _ v => if v.isNamed then some v else none
  | _ => none

end Surface.Pattern

namespace Term

/-- The parameters at the start of a function type, up to a number. -/
def domains : Term → Nat → Telescope Term
  | .pi x a b, n + 1 => { toBinder := x, type := a } :: domains b n
  | _, _ => []

/-- A type as a function of the scrutinee: abstracted over it if it is a variable. -/
def motive (goal scrut : Term) : Term :=
  match scrut with
  | .var i => goal.abstractVar i
  | _ => goal.lift 1

/-- A type under the `k` variables of a branch, where the scrutinee, if it is a variable, is the
given constructor. -/
def refine (t scrut : Term) (k : Nat) (con : Term) : Term :=
  match scrut with
  | .var i => ((t.abstractVar i).shift k 1).subst con
  | _ => t.lift k

/-- The case split without branches. -/
def emptyCase (scrut goal : Term) : Term := .case scrut (goal.motive scrut) []

end Term

/-- The constructor applied to the variables of its branch. -/
def Head.term (h : Head) : Term :=
  match h.head with
  | .zero => .zero
  | .succ => .succ (.var 0)
  | .con c =>
    let k := h.args.length
    let (u, ps) := h.universe?.getD (.zero, [])
    .con c u (ps.map (·.lift k)) ((List.range k).reverse.map .var)

/-- The names of the variables of a branch, from the first clause that names them. -/
def Head.names (h : Head) (j : Nat) (rows : List Row) : List String :=
  let args := rows.findSome? fun r =>
    match r.patterns[j]? with
    | some (Pattern.con _ c ps) => if c = h.name then some ps else none
    | _ => none
  let named := (args.getD []).map fun p => p.bound?.map (·.name)
  h.args.zipIdx.map fun (a, i) => ((named[i]?).join).getD a.var.name

namespace Elaborator

/-- The number of patterns or arguments, in a message. -/
def counted (n : Nat) (what : String) : String := toString n ++ " " ++ what

/-- The patterns that a pattern contributes for a constructor, unless it cannot match it. -/
def specialize (p : Pattern) (h : Head) : Elab (Option (List Pattern)) :=
  match p with
  | .var span _ => return some (List.replicate h.args.length (.var span .anonymous))
  | .con span c ps => do
    if c ≠ h.name then return none
    let k := h.args.length
    if ps.length ≠ k then mismatch (counted k ("arguments to " ++ c.short)) (counted
      ps.length "arguments") span
    return some ps
  | .num span n =>
    match h.head, n with
    | .zero, 0 => return some []
    | .succ, n + 1 => return some [.num span n]
    | _, _ => return none
  | .name _ _ _ | .absurd _ => return none

/-- An argument that an index pattern does not match is another constructor, or it is an error. -/
def notMatched (c : Context) (data : GlobalName) (span : Span) (a : Term) :
    Elab (Option (List (Nat × Term))) := do
  match a with
  | .zero | .succ _ | .con _ _ _ _ => return none
  | a => mismatch ("a constructor in the index of " ++ data.short) (← shown c a) span

mutual

/-- Matches an index pattern against an argument of the type, and adds the values of the variables
to a list. -/
def matchIndex (e : Elaborator) (c : Context) (data : GlobalName) (span : Span) :
    Term → Term → List (Nat × Term) → Elab (Option (List (Nat × Term)))
  | .var i, a, out => return some ((i, a) :: out)
  | .zero, a, out => do
    match ← e.whnf c a span with
    | .zero => return some out
    | a => notMatched c data span a
  | .succ p, a, out => do
    match ← e.whnf c a span with
    | .succ a => e.matchIndex c data span p a out
    | a => notMatched c data span a
  | .con k _ _ ps, a, out => do
    match ← e.whnf c a span with
    | a@(.con m _ _ xs) =>
      if k = m then e.matchIndices c data span ps xs out else notMatched c data span a
    | a => notMatched c data span a
  | _, a, _ => do notMatched c data span (← e.whnf c a span)

/-- Matches index patterns with indices from left to right, and collects the values of the
variables. -/
def matchIndices (e : Elaborator) (c : Context) (data : GlobalName) (span : Span) :
    List Term → List Term → List (Nat × Term) → Elab (Option (List (Nat × Term)))
  | p :: ps, a :: as, out => do
    match ← e.matchIndex c data span p a out with
    | some out => e.matchIndices c data span ps as out
    | none => return none
  | _, _, out => return some out

end

/-- The values of the `n` pattern variables of a guarded constructor, unless it builds another
instance. -/
def indexValues (e : Elaborator) (c : Context) (data : GlobalName) (patterns args : List Term)
    (n : Nat) (span : Span) : Elab (Option (List Term)) := do
  match ← e.matchIndices c data span patterns args [] with
  | some out => return (List.range n).mapM fun k => out.lookup (n - 1 - k)
  | none => return none

/-- A constructor as a head, unless it does not build the instance of the data type. -/
def headOf (e : Elaborator) (c : Context) (data : GlobalName) (u : Universe)
    (args : List Term) (span : Span) (ctor : Definition) : Elab (Option Head) := do
  match ctor.body with
  | .constructor _ _ params patterns =>
    let n := min params ctor.tele.length
    let values ← match patterns with
      | none => pure (some args)
      | some ps => e.indexValues c data ps args n span
    return values.map fun values =>
      let fields := ctor.tele.drop n
      let type := ((Term.pis fields .nat).substLevels u).substAll values
      ⟨.con ctor.name, ctor.name, type.domains fields.length, some (u, values)⟩
  | _ => return none

/-- The constructors of a type, unless it cannot be split. -/
def heads? (e : Elaborator) (c : Context) (type : Term) (span : Span) :
    Elab (Option (List Head)) := do
  match ← e.whnf c type span with
  | .nat =>
    let n : Param Term := { Binder.named "n" with type := .nat }
    return some [⟨.zero, Primitive.globalName "zero", [], none⟩,
      ⟨.succ, Primitive.globalName "suc", [n], none⟩]
  | .data d u args =>
    let env ← e.environment
    match env.get? d with
    | some { body := .data ctors, .. } =>
      let hs ← (ctors.filterMap env.get?).mapM (e.headOf c d u args span)
      return some (hs.filterMap id)
    | _ => return none
  | _ => return none

mutual

/-- Elaborates a pattern that guards a constructor. Its variables become implicit entries of the
context, under which the index terms found so far are lifted; the new index term comes last. -/
def indexPattern (e : Elaborator) (c : Context) (type : Term) (acc : List Term) :
    Pattern → Elab (Context × List Term)
  | .var _ v => return (c.push ⟨v, .implicit⟩ type, acc.map (·.lift 1) ++ [.var 0])
  | .num span n => do
    e.unify c type .nat span
    return (c, acc ++ [.numeral n])
  | .con span n ps => do
    let head := ((← e.heads? c type span).getD []).find? fun h => h.name = n
    match head with
    | none => mismatch (← shown c type) n.short span
    | some h =>
      if ps.length ≠ h.args.length then
        mismatch (counted h.args.length ("arguments to " ++ n.short))
          (counted ps.length "arguments") span
      let (d, all) ← e.indexPatterns c.length acc.length c (h.args.map (·.type)) 0 acc ps
      let bound := d.length - c.length
      let xs := all.drop acc.length
      let t := match h.head, h.universe? with
        | .con n, some (u, params) => .con n u (params.map (·.lift bound)) xs
        | .succ, _ => .succ (xs.headD .zero)
        | _, _ => .zero
      return (d, all.take acc.length ++ [t])
  | p@(.absurd span) | p@(.name span _ _) => mismatch "an index pattern" p.render span

/-- Elaborates the arguments of a constructor pattern from the `a`-th on; `start` is the length of
the context and `mark` the number of index terms before the first of them. -/
def indexPatterns (e : Elaborator) (start mark : Nat) (c : Context) (types : List Term) (a : Nat)
    (acc : List Term) : List Pattern → Elab (Context × List Term)
  | [] => return (c, acc)
  | p :: ps =>
    match types with
    | [] => return (c, acc)
    | type :: types => do
      let type := (type.shift (c.length - start : Nat) a).substAll (acc.drop mark)
      let (c, acc) ← e.indexPattern c type acc p
      e.indexPatterns start mark c types (a + 1) acc ps

end

/-- Elaborates the patterns that guard a constructor against the parameters of the data type. -/
def guardPatterns (e : Elaborator) (c : Context) :
    List Pattern → Telescope Term → List Term → Elab (Context × List Term)
  | p :: ps, q :: tele, acc => do
    let (c, acc) ← e.indexPattern c (q.type.substAll acc) acc p
    e.guardPatterns c ps tele acc
  | _, _, acc => return (c, acc)

/-- Refuses a pattern that does not fit the constructors of its column. -/
def checkPattern (c : Context) (type : Term) (heads : List Head) : Pattern → Elab Unit
  | .absurd span => do mismatch "an empty type" (← shown c type) span
  | .con span n _ => do
    if !heads.any (·.name = n) then mismatch (← shown c type) n.short span
  | .num span _ => do
    if !heads.any (·.head = .zero) then mismatch (← shown c type) "Nat" span
  | .name span n _ => fail (.unresolvedName n) span
  | .var _ _ => return

/-- Specializes a clause for a constructor, whose variables are in the context already. -/
def specializeRow (c : Context) (j : Nat) (type : Term) (h : Head) (r : Row) :
    Elab (Option Row) := do
  match r.patterns[j]? with
  | none => return none
  | some p =>
    match ← specialize p h with
    | none => return none
    | some args =>
      let meaning := p.bound?.map fun v => (v, ⟨h.term, type.lift h.args.length, c.length⟩)
      return some { r with
        patterns := r.patterns.take j ++ args ++ r.patterns.drop (j + 1)
        bound := r.bound ++ meaning.toList }

/-- The columns of a branch: the arguments of the constructor take the place of the column that is
split. -/
def branchColumns (cols : List Column) (j : Nat) (scrut : Term) (h : Head) : List Column :=
  let k := h.args.length
  let refined (cols : List Column) : List Column :=
    cols.map fun x => ⟨x.term.lift k, x.type.refine scrut k h.term⟩
  let args : List Column := h.args.zipIdx.map fun (p, a) => ⟨.var (k - 1 - a), p.type.lift (k - a)⟩
  refined (cols.take j) ++ args ++ refined (cols.drop (j + 1))

/-- Ends a branch with the right-hand side of a clause, whose variables stand for the columns. -/
def leaf (check : Context → Expr → Term → Elab Term) (c : Context)
    (cs : List (Clause Expr)) (row : Row) (cols : List Column) (goal : Term) :
    Elab (Term × Coverage) := do
  match cs[row.index]? with
  | none => return (goal, {})
  | some clause =>
    match clause.rhs with
    | none => mismatch "an absurd pattern" "a clause without body" clause.span
    | some rhs =>
      let vars := (row.patterns.zip cols).filterMap fun (p, x) =>
        p.bound?.map fun v => (v, (⟨x.term, x.type, c.length⟩ : Alias))
      let inner := (row.bound ++ vars).foldl (fun c (v, a) => c.addAlias v a) c
      return (← check inner rhs goal, ⟨[row.index], []⟩)

/-- Compiles the clauses `row :: rows` into a case tree, given how to check a right-hand side. -/
def split (e : Elaborator) (check : Context → Expr → Term → Elab Term)
    (cs : List (Clause Expr)) (span : Span) :
    Nat → Context → Row → List Row → List Column → Term → Elab (Term × Coverage)
  | 0, _, _, _, _, _ => fail .nestingLimit span
  | gas + 1, c, row, rows, cols, goal => do
    let j := (row.patterns.findIdx? fun p => !p.isVar).getD row.patterns.length
    match row.patterns[j]?, cols[j]? with
    | some p, some col =>
      match ← e.heads? c col.type p.span with
      | none => mismatch "a data type" (← shown c col.type) p.span
      | some [] => return (col.term.emptyCase goal, ⟨[row.index], []⟩)
      | some heads =>
        (row :: rows).forM fun r => (r.patterns[j]?).toList.forM (checkPattern c col.type heads)
        let parts ← heads.mapM fun h => do
          let names := h.names j (row :: rows)
          let d := c.pushTele ((h.args.zip names).map fun (a, n) => { a with var := ⟨n, 0⟩ })
          match ← (row :: rows).filterMapM (specializeRow d j col.type h) with
          | [] => return (none, ⟨[], [h.name.short]⟩)
          | first :: others =>
            let k := h.args.length
            let (body, coverage) ← e.split check cs span gas d first others
                (branchColumns cols j col.term h)
              (goal.refine col.term k h.term)
            return (some ⟨h.head, names, body⟩, coverage)
        return (.case col.term (goal.motive col.term) (parts.filterMap (·.1)),
          parts.foldl (fun coverage p => coverage ++ p.2) {})
    | _, _ => leaf check c cs row cols goal

/-- The first column of an empty type. -/
def emptyColumn? (e : Elaborator) (c : Context) (span : Span) : List Column → Elab (Option Column)
  | [] => return none
  | x :: xs => do
    let heads ← try e.heads? c x.type span catch _ => pure none
    match heads with
    | some [] => return some x
    | _ => e.emptyColumn? c span xs

/-- Compiles clauses over columns into a case tree of type `goal`, and warns about clauses that no
value reaches. No clauses at all cover a column of an empty type. -/
def clauses (e : Elaborator) (check : Context → Expr → Term → Elab Term) (c : Context)
    (cs : List (Clause Expr)) (cols : List Column) (goal : Term) (span : Span) : Elab Term := do
  for k in cs do
    if k.patterns.length ≠ cols.length then
      mismatch (counted cols.length "patterns") (counted k.patterns.length "patterns") k.span
  match cs.zipIdx.map fun (k, i) => (⟨i, k.patterns, []⟩ : Row) with
  | [] =>
    match ← e.emptyColumn? c span cols with
    | some x => return x.term.emptyCase goal
    | none => fail (.missingClauses ["_"]) span
  | row :: rows =>
    let gas := (row :: rows).foldl (fun n r => n + Pattern.weightAll r.patterns) 1
    let (t, coverage) ← e.split check cs span gas c row rows cols goal
    if !coverage.missing.isEmpty then fail (.missingClauses coverage.missing) span
    let redundant := cs.zipIdx.filter fun (_, i) => !coverage.used.contains i
    modify fun s =>
      { s with warnings := s.warnings ++ redundant.map fun (k, _) => .redundantClause k.span }
    return t

end Elaborator

end LeveledTypes
