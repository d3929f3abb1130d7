import LeveledTypes.Proofs.Elaboration.Matching

/-!
# A split of clauses

Compiling clauses does one of three things: it ends a branch, it finds that a column has an empty
type, or it splits a column into the constructors of its type and goes on in a branch for each of
them. What is known of clauses, columns and context before a split is known in the branches.
-/
namespace LeveledTypes

open Surface

section Runs
variable {ε σ α β : Type}

/-- A run over a list whose steps leave the state as it is. -/
theorem runs_of_filterMapM {f : α → EStateM ε σ (Option β)} {as : List α} {bs : List β} {s t : σ}
    (hf : ∀ a o s t, f a s = .ok o t → t = s) (h : as.filterMapM f s = .ok bs t) :
    t = s ∧ ∃ os, bs = os.filterMap id ∧ List.Forall₂ (fun a o => f a s = .ok o s) as os := by
  induction as generalizing bs with
  | nil =>
    obtain ⟨rfl, rfl⟩ := EStateM.Result.ok.inj h
    exact ⟨rfl, [], rfl, .nil⟩
  | cons a as ih =>
    rw [List.filterMapM_cons] at h
    obtain ⟨o, u, ho, h⟩ := bind_eq_ok.mp h
    obtain rfl := hf a o s u ho
    cases o with
    | none =>
      obtain ⟨rfl, os, rfl, hos⟩ := ih h
      exact ⟨rfl, none :: os, rfl, .cons ho hos⟩
    | some b =>
      obtain ⟨bs', v, hbs, h⟩ := bind_eq_ok.mp h
      obtain ⟨rfl, rfl⟩ := EStateM.Result.ok.inj h
      obtain ⟨rfl, os, rfl, hos⟩ := ih hbs
      exact ⟨rfl, some b :: os, rfl, .cons ho hos⟩

end Runs

namespace ElaborationState

/-- What the state follows is followed by a later state too. -/
def Onward (e : Elaborator) (env : Environment) (s t : ElaborationState) : Prop :=
  ∀ sol, s.Follows e env sol → t.Follows e env sol

namespace Onward
variable {e : Elaborator} {env : Environment} {s t u : ElaborationState}

theorem refl (s : ElaborationState) : Onward e env s s := fun _ => id

theorem trans (h : Onward e env s t) (h' : Onward e env t u) : Onward e env s u :=
  fun sol hs => h' sol (h sol hs)

theorem of_keeps {α : Type} {x : Elab α} {a : α} {Q : α → Prop} (hx : ∀ sol, e.Keeps env sol x Q)
    (hr : x s = .ok a t) : Onward e env s t := fun sol hs => ((hx sol).ok hs hr).1

end Onward

variable {e : Elaborator} {env : Environment} {sol : ℕ → Option Term} {s t : ElaborationState}

/-- A state follows its own solutions of holes. -/
theorem Follows.self (h : s.Follows e env sol) : s.Follows e env s.conversion.store.solution? :=
  ⟨h.environment, fun _ _ => id, h.conversion.valid, h.conversion.memo⟩

theorem Follows.solutions (h : s.Follows e env sol) (hst : Onward e env s t) {m : ℕ} {a : Term}
    (ha : s.conversion.store.solution? m = some a) : t.conversion.store.solution? m = some a :=
  (hst _ h.self).conversion.keeps m a ha

end ElaborationState

/-- An instance over more solved holes is one over fewer. -/
theorem Instance.of_onward {e : Elaborator} {env : Environment} {sol sol' : ℕ → Option Term}
    {s t : ElaborationState} {L : Locals} {ρ : ℕ → Term}
    (h : Instance t.conversion.store.solution? L sol' ρ) (hs : s.Follows e env sol)
    (hst : ElaborationState.Onward e env s t) : Instance s.conversion.store.solution? L sol' ρ :=
  ⟨fun m a ha => h.keeps m a (hs.solutions hst ha), h.fits⟩

theorem Context.addAliases_eq (c : Context) (bs : List (Variable × Alias)) :
    bs.foldl (fun c (v, a) => c.addAlias v a) c =
      { c with aliases := bs.reverse ++ c.aliases } := by
  induction bs generalizing c with
  | nil => rfl
  | cons b bs ih =>
    rw [List.foldl_cons, ih]
    simp [Context.addAlias]

/-- The context of a branch. -/
def Head.context (h : Head) (c : Context) (names : List String) : Context :=
  c.pushTele ((h.args.zip names).map fun (a, n) => { a with var := ⟨n, 0⟩ })

namespace Head
variable {h : Head} {c : Context} {names : List String}

theorem entries_pushTele (c : Context) (tele : Telescope Term) :
    (c.pushTele tele).entries = tele.reverse.map
      (fun p => ⟨p.toBinder, p.type, none⟩) ++ c.entries := by
  induction tele generalizing c with
  | nil => rfl
  | cons p tele ih =>
    change ((c.push p.toBinder p.type).pushTele tele).entries = _
    simp [ih, Context.push]

theorem aliases_context : (h.context c names).aliases = c.aliases := by
  have htele (tele : Telescope Term) (c : Context) : (c.pushTele tele).aliases = c.aliases := by
    induction tele generalizing c with
    | nil => rfl
    | cons p tele ih => exact ih (c.push p.toBinder p.type)
  exact htele _ c

/-- The variables of a branch are mere names without values. -/
theorem entries_context (hnames : names.length = h.args.length) : ∃ new : List Entry,
    (h.context c names).entries = new ++ c.entries ∧ new.length = h.args.length ∧
      ∀ x ∈ new, x.binder.var.id = 0 ∧ x.value = none := by
  refine ⟨_, entries_pushTele c _, by simp [hnames], fun x hx => ?_⟩
  obtain ⟨p, hp, rfl⟩ := List.mem_map.mp hx
  obtain ⟨⟨a, n⟩, -, rfl⟩ := List.mem_map.mp (List.mem_reverse.mp hp)
  exact ⟨rfl, rfl⟩

theorem length_context (hnames : names.length = h.args.length) :
    (h.context c names).length = h.args.length + c.length := by
  obtain ⟨new, hnew, hlen, -⟩ := entries_context (c := c) hnames
  simp [Context.length, hnew, hlen]

theorem locals_context (hnames : names.length = h.args.length) :
    (h.context c names).locals = c.locals.under h.args.length := by
  obtain ⟨new, hnew, hlen, hvalue⟩ := entries_context (c := c) hnames
  have hnone : new.map (·.value) = List.replicate h.args.length none := by
    refine List.eq_replicate_iff.mpr ⟨by simp [hlen], fun v hv => ?_⟩
    obtain ⟨x, hx, rfl⟩ := List.mem_map.mp hv
    exact (hvalue x hx).2
  simp [Context.locals, hnew, hnone, Locals.under]

end Head

namespace Elaborator

/-- Elaboration of right-hand sides that leaves definitions and solutions alone. -/
def Checks (e : Elaborator) (env : Environment) (check : Context → Expr → Term → Elab Term) :
    Prop :=
  ∀ sol c x t, c.Over env.signature → t.Over env.signature ⊤ →
    e.Keeps env sol (check c x t) (·.Over env.signature ⊤)

section Rows
variable {p : Pattern} {h : Head} {c : Context} {j : ℕ} {type : Term} {r : Row}
  {s s' : ElaborationState}

/-- A pattern contributes a pattern for each argument of a constructor, and has the variables of
these and its own. -/
theorem specialize_eq_ok {S : Signature} {o : Option (List Pattern)}
    (harity : h.args.length = S.headArity h.head) (ho : specialize p h s = .ok o s') : s' = s ∧
    ∀ qs, o = some qs → qs.length = h.args.length ∧
      p.vars = p.bound?.toList ++ Pattern.varsAll qs := by
  cases p with
  | var span v =>
    obtain ⟨rfl, rfl⟩ := EStateM.Result.ok.inj ho
    simp [Pattern.vars, Pattern.varsAll_anonymous]
  | con span n ps =>
    by_cases hn : n = h.name
    · by_cases hlen : ps.length = h.args.length
      · have hrun : specialize (.con span n ps) h s = .ok (some ps) s := by
          simp only [specialize, hn, hlen, ne_eq, not_true, if_false]
          rfl
        obtain ⟨rfl, rfl⟩ := EStateM.Result.ok.inj (hrun.symm.trans ho)
        simp [Pattern.vars, Pattern.bound?, hlen]
      · simp only [specialize, hn, hlen, ne_eq, not_true, not_false_eq_true, if_false,
          if_true] at ho
        obtain ⟨_, _, hfail, -⟩ := bind_eq_ok.mp ho
        contradiction
    · have hrun : specialize (.con span n ps) h s = .ok none s := by
        simp only [specialize, hn, ne_eq, not_false_eq_true, if_true]
        rfl
      obtain ⟨rfl, rfl⟩ := EStateM.Result.ok.inj (hrun.symm.trans ho)
      simp
  | num span n =>
    obtain ⟨head, name, args, univ⟩ := h
    cases head <;> cases n <;> obtain ⟨rfl, rfl⟩ := EStateM.Result.ok.inj ho <;>
      simp_all [Signature.headArity, Pattern.vars, Pattern.varsAll, Pattern.bound?]
  | name span n ps =>
    obtain ⟨rfl, rfl⟩ := EStateM.Result.ok.inj ho
    simp
  | absurd span =>
    obtain ⟨rfl, rfl⟩ := EStateM.Result.ok.inj ho
    simp

/-- What is left of a clause in a branch. -/
structure RowSpecialized (c : Context) (j : ℕ) (type : Term) (h : Head) (r r' : Row) : Prop where
  index : r'.index = r.index
  length : j < r.patterns.length ∧ r'.patterns.length + 1 = r.patterns.length + h.args.length
  bound : ∃ p : Pattern, r'.bound = r.bound ++ p.bound?.toList.map
    (·, ⟨h.term, type.lift h.args.length, c.length⟩)
  vars : (r'.bound.map (·.1) ++ Pattern.varsAll r'.patterns).Perm
    (r.bound.map (·.1) ++ Pattern.varsAll r.patterns)

/-- Specializing a row leaves the state as it is, and the row that it gives has the patterns of the
arguments in place of the pattern. -/
theorem specializeRow_eq_ok {S : Signature} {o : Option Row}
    (harity : h.args.length = S.headArity h.head) (ho : specializeRow c j type h r s = .ok o s') :
    s' = s ∧ ∀ r', o = some r' → RowSpecialized c j type h r r' := by
  unfold specializeRow at ho
  cases hp : r.patterns[j]? with
  | none =>
    simp only [hp] at ho
    obtain ⟨rfl, rfl⟩ := EStateM.Result.ok.inj ho
    simp
  | some p =>
    simp only [hp] at ho
    obtain ⟨q, t, hq, ho⟩ := bind_eq_ok.mp ho
    obtain ⟨rfl, hqs⟩ := specialize_eq_ok harity hq
    cases q with
    | none =>
      obtain ⟨rfl, rfl⟩ := EStateM.Result.ok.inj ho
      simp
    | some qs =>
      obtain ⟨rfl, rfl⟩ := EStateM.Result.ok.inj ho
      obtain ⟨hlen, hvars⟩ := hqs qs rfl
      obtain ⟨hj, rfl⟩ := List.getElem?_eq_some_iff.mp hp
      have hpatterns : r.patterns = r.patterns.take j ++ r.patterns[j] :: r.patterns.drop
          (j + 1) := by simp
      refine ⟨rfl, fun r' hr' => ?_⟩
      obtain rfl := Option.some.inj hr'
      refine ⟨rfl, ⟨hj, by simp [hlen]; omega⟩,
        ⟨r.patterns[j], by cases r.patterns[j].bound? <;> rfl⟩, ?_⟩
      conv_rhs => rw [hpatterns]
      have hkeys (a : Alias) : (r.patterns[j].bound?.map (·, a)).toList.map (·.1) =
          r.patterns[j].bound?.toList := by
        cases r.patterns[j].bound? <;> rfl
      simp only [Pattern.varsAll_append, Pattern.varsAll, hvars, List.map_append, hkeys,
        List.append_assoc]
      exact (List.perm_append_comm_assoc _ _ _).append_left _

end Rows

/-- The clauses that are left in a branch. -/
def Specialized (d : Context) (j : ℕ) (type : Term) (h : Head) (rows rows' : List Row) : Prop :=
  ∃ os, rows' = os.filterMap id ∧
    List.Forall₂ (fun r o => ∃ s, specializeRow d j type h r s = .ok o s) rows os

theorem specialized_of_filterMapM {S : Signature} {d : Context} {j : ℕ} {type : Term} {h : Head}
    {rows rows' : List Row} {s s' : ElaborationState} (harity : h.args.length = S.headArity h.head)
    (hr : rows.filterMapM (specializeRow d j type h) s = .ok rows' s') : s' = s ∧
    Specialized d j type h rows rows' := by
  obtain ⟨rfl, os, rfl, hos⟩ :=
    runs_of_filterMapM (fun _ _ _ _ h => (specializeRow_eq_ok harity h).1) hr
  exact ⟨rfl, os, rfl, hos.imp fun _ _ h => ⟨_, h⟩⟩

theorem Specialized.exists_row {S : Signature} {d : Context} {j : ℕ} {type : Term} {h : Head}
    {rows rows' : List Row} (hs : Specialized d j type h rows rows')
    (harity : h.args.length = S.headArity h.head) {r' : Row} (hr' : r' ∈ rows') :
    ∃ r ∈ rows, RowSpecialized d j type h r r' := by
  obtain ⟨os, rfl, hos⟩ := hs
  obtain ⟨o, ho, rfl⟩ := List.mem_filterMap.mp hr'
  obtain ⟨r, hr, s, hrun⟩ := exists_mem_of_forall₂_right hos ho
  exact ⟨r, hr, (specializeRow_eq_ok harity hrun).2 r' rfl⟩

/-- What is known of some of the first `n` clauses over columns in a context. -/
structure Node (env : Environment) (n : ℕ) (c : Context) (rows : List Row) (cols : List Column)
    (goal : Term) : Prop where
  context : c.Over env.signature
  columns : ∀ x ∈ cols, x.Over env.signature
  goal : goal.Over env.signature ⊤
  index : ∀ r ∈ rows, r.index < n
  length : ∀ r ∈ rows, r.patterns.length = cols.length
  bound : ∀ r ∈ rows, OverBound env.signature r.bound
  depth : ∀ r ∈ rows, ∀ b ∈ r.bound, b.2.depth ≤ c.length

theorem length_branchColumns {cols : List Column} {j : ℕ} {scrut : Term} {h : Head}
    (hj : j < cols.length) : (branchColumns cols j scrut h).length + 1 = cols.length +
      h.args.length := by
  simp only [branchColumns, List.length_append, List.length_map, List.length_take,
    List.length_zipIdx, List.length_drop]
  omega

/-- The branch of a node of the case tree is a node: its columns are those of the arguments and the
others, over the context of the branch. -/
theorem Node.branch {env : Environment} {n j : ℕ} {c : Context} {rows rows' : List Row}
    {cols : List Column} {goal : Term} {h : Head} {col : Column} {names : List String}
    (hnode : Node env n c rows cols goal) (hh : h.Over env.signature)
    (hnames : names.length = h.args.length) (hcol : cols[j]? = some col)
    (hrows : Specialized (h.context c names) j col.type h rows rows') :
    Node env n (h.context c names) rows' (branchColumns cols j col.term h)
      (goal.refine col.term h.args.length h.term) := by
  have hx := hnode.columns col (List.mem_of_getElem? hcol)
  have hlength := Head.length_context (c := c) hnames
  refine ⟨hnode.context.pushArgs hh names, over_branchColumns hnode.columns hh,
    hnode.goal.refine hh.term, ?_, ?_, ?_, ?_⟩ <;>
    intro r' hr' <;> obtain ⟨r, hr, hspec⟩ := hrows.exists_row hh.arity hr'
  · rw [hspec.index]
    exact hnode.index r hr
  · have hlen := hnode.length r hr
    have hspecLength := hspec.length
    have hcolumns : (branchColumns cols j col.term h).length + 1 = cols.length + h.args.length :=
      length_branchColumns (hlen ▸ hspecLength.1)
    omega
  · obtain ⟨p, hp⟩ := hspec.bound
    rw [hp]
    intro b hb
    rcases List.mem_append.mp hb with hb | hb
    · exact hnode.bound r hr b hb
    · obtain ⟨v, -, rfl⟩ := List.mem_map.mp hb
      exact ⟨hh.term, (hx.type.lift _).top⟩
  · obtain ⟨p, hp⟩ := hspec.bound
    rw [hp]
    intro b hb
    rcases List.mem_append.mp hb with hb | hb
    · have := hnode.depth r hr b hb
      omega
    · obtain ⟨v, -, rfl⟩ := List.mem_map.mp hb
      exact le_rfl

section Split
variable (e : Elaborator) (env : Environment) (check : Context → Expr → Term → Elab Term)
  (cs : List (Clause Expr)) (span : Span) (gas : ℕ) (c : Context) (rows : List Row)
  (cols : List Column) (goal : Term)

/-- What is done for a constructor when column `j` is split. -/
def branchOf (j : ℕ) (col : Column) (h : Head) : Elab (Option (Branch Term) × Coverage) := do
  let names := h.names j rows
  match ← rows.filterMapM (specializeRow (h.context c names) j col.type h) with
  | [] => return (none, ⟨[], [h.name.short]⟩)
  | first :: others =>
    let (body, coverage) ← e.split check cs span gas (h.context c names) first others
        (branchColumns cols j col.term h)
      (goal.refine col.term h.args.length h.term)
    return (some ⟨h.head, names, body⟩, coverage)

/-- How the branch of a constructor comes about when column `j` is split. -/
inductive BranchRun (j : ℕ) (col : Column) (h : Head) (s : ElaborationState) :
    Option (Branch Term) × Coverage → ElaborationState → Prop
  | missing {names : List String} : names.length = h.args.length →
    Specialized (h.context c names) j col.type h rows [] →
      BranchRun j col h s (none, ⟨[], [h.name.short]⟩) s
  | covered {names : List String} {first : Row} {others : List Row} {body : Term}
    {coverage : Coverage}
      {t : ElaborationState} : names.length = h.args.length →
      Specialized (h.context c names) j col.type h rows (first :: others) →
      e.split check cs span gas (h.context c names) first others (branchColumns cols j col.term h)
        (goal.refine col.term h.args.length h.term) s = .ok (body, coverage) t →
      BranchRun j col h s (some ⟨h.head, names, body⟩, coverage) t

/-- The three ways in which clauses are compiled. -/
inductive Splitting (row : Row) (s s' : ElaborationState) : Term → Coverage → Prop
  | leaf {t : Term} {coverage : Coverage} : (∀ p ∈ row.patterns, p.isVar = true) →
      leaf check c cs row cols goal s = .ok (t, coverage) s' → Splitting row s s' t coverage
  | empty {j : ℕ} {col : Column} : cols[j]? = some col →
      Splits env s.conversion.store.solution? c.locals col.type [] →
      Splitting row s s' (col.term.emptyCase goal) ⟨[row.index], []⟩
  | split {j : ℕ} {col : Column} {hs : List Head} {parts : List (Option (Branch Term) × Coverage)} :
      cols[j]? = some col → Splits env s.conversion.store.solution? c.locals col.type hs →
      (∀ h ∈ hs, h.Over env.signature) →
      List.Forall₂ (fun h part => ∃ u v, ElaborationState.Onward e env s u ∧
        BranchRun e check cs span gas c rows cols goal j col h u part v ∧
        ElaborationState.Onward e env v s') hs parts →
      Splitting row s s' (.case col.term (goal.motive col.term) (parts.filterMap (·.1)))
        (parts.foldl (fun coverage p => coverage ++ p.2) {})

variable {e env check cs span gas c rows cols goal}

theorem onward_split {n : ℕ} {row : Row} {others : List Row} {r : Term × Coverage}
    {s s' : ElaborationState} (henv : env.WellFormed) (hcheck : e.Checks env check)
    (hnode : Node env n c (row :: others) cols goal)
    (hr : e.split check cs span gas c row others cols goal s = .ok r s') :
    ElaborationState.Onward e env s s' :=
  .of_keeps (fun sol => keeps_split henv (hcheck sol) hnode.context hnode.bound
    hnode.columns hnode.goal) hr

/-- The state of a branch goes on to the state that compiling it ends in. -/
theorem BranchRun.onward {n j : ℕ} {col : Column} {h : Head} {s s' : ElaborationState}
    {part : Option (Branch Term) × Coverage}
    (hrun : BranchRun e check cs span gas c rows cols goal j col h s part s')
    (henv : env.WellFormed) (hcheck : e.Checks env check) (hnode : Node env n c rows cols goal)
    (hh : h.Over env.signature) (hcol : cols[j]? = some col) :
    ElaborationState.Onward e env s s' := by
  cases hrun with
  | missing => exact .refl s
  | covered hnames hspec hsplit =>
    exact onward_split henv hcheck (hnode.branch hh hnames hcol hspec) hsplit

/-- A branch is made from specialized rows: there are none and a case is missing, or they are split
in turn. -/
theorem branchRun_of_branchOf {j : ℕ} {col : Column} {h : Head} {s s' : ElaborationState}
    {part : Option (Branch Term) × Coverage} (hh : h.Over env.signature)
    (hr : branchOf e check cs span gas c rows cols goal j col h s = .ok part s') :
    BranchRun e check cs span gas c rows cols goal j col h s part s' := by
  obtain ⟨rows', u, hrows, hr⟩ := bind_eq_ok.mp hr
  obtain ⟨rfl, hspec⟩ := specialized_of_filterMapM hh.arity hrows
  have hnames := h.length_names j rows
  cases rows' with
  | nil =>
    obtain ⟨rfl, rfl⟩ := EStateM.Result.ok.inj hr
    exact .missing hnames hspec
  | cons first others =>
    obtain ⟨⟨body, coverage⟩, t, hsplit, hr⟩ := bind_eq_ok.mp hr
    obtain ⟨rfl, rfl⟩ := EStateM.Result.ok.inj hr
    exact .covered hnames hspec hsplit

/-- What one step of the splitting does: it comes to a leaf, finds a column without constructors, or
splits a column and makes one branch for each constructor that can build it. -/
theorem splitting_of_split {row : Row} {others : List Row} {s s' : ElaborationState}
    {sol : ℕ → Option Term} {t : Term} {coverage : Coverage} (henv : env.WellFormed)
    (hcheck : e.Checks env check) (hnode : Node env cs.length c (row :: others) cols goal)
    (hs : s.Follows e env sol)
    (hr : e.split check cs span (gas + 1) c row others cols goal s = .ok (t, coverage) s') :
    Splitting e env check cs span gas c (row :: others) cols goal row s s' t coverage := by
  have hlen := hnode.length row (by simp)
  unfold split at hr
  extract_lets j at hr
  cases hp : row.patterns[j]? with
  | none =>
    simp only [hp] at hr
    refine .leaf (fun p hpat => ?_) hr
    have hle := List.getElem?_eq_none_iff.mp hp
    cases hfind : row.patterns.findIdx? fun p => !p.isVar with
    | none => simpa using List.findIdx?_eq_none_iff.mp hfind p hpat
    | some i =>
      have hi := (List.findIdx?_eq_some_iff_getElem.mp hfind).1
      simp only [j, hfind, Option.getD_some] at hle
      omega
  | some p =>
    have hj := (List.getElem?_eq_some_iff.mp hp).1
    obtain ⟨col, hcol⟩ : ∃ col, cols[j]? = some col :=
      ⟨cols[j], List.getElem?_eq_getElem (by omega)⟩
    have hx := hnode.columns col (List.mem_of_getElem? hcol)
    simp only [hp, hcol] at hr
    obtain ⟨o, s₁, ho, hr⟩ := bind_eq_ok.mp hr
    obtain ⟨-, hheads⟩ := (frozen_heads? henv hs.conversion.valid hnode.context hx.type).ok
      ⟨hs.environment, rfl, hs.conversion.memo⟩ ho
    have honward : ElaborationState.Onward e env s s₁ :=
      .of_keeps (fun sol => keeps_heads? henv hnode.context hx.type) ho
    cases o with
    | none =>
      obtain ⟨_, _, -, hr⟩ := bind_eq_ok.mp hr
      contradiction
    | some hs =>
      obtain ⟨hsplits, hover⟩ := hheads hs rfl
      cases hs with
      | nil =>
        obtain ⟨h, -⟩ := EStateM.Result.ok.inj hr
        obtain ⟨rfl, rfl⟩ := Prod.mk.inj h
        exact .empty hcol hsplits
      | cons h hs =>
        obtain ⟨_, s₂, hcheckRun, hr⟩ := bind_eq_ok.mp hr
        obtain ⟨parts, s₃, hparts, hr⟩ := bind_eq_ok.mp hr
        obtain ⟨heq, rfl⟩ := EStateM.Result.ok.inj hr
        obtain ⟨rfl, rfl⟩ := Prod.mk.inj heq
        have hbranch (h' : Head) (hh' : h' ∈ h :: hs) (u : ElaborationState)
            (part : Option (Branch Term) × Coverage) (v : ElaborationState)
            (hrun : branchOf e check cs span gas c (row :: others) cols goal j col h'
              u = .ok part v) :
            BranchRun e check cs span gas c (row :: others) cols goal j col h' u part v :=
          branchRun_of_branchOf (hover h' hh') hrun
        have hchecked : ElaborationState.Onward e env s₁ s₂ := by
          refine .of_keeps (Q := fun _ => True) (fun sol => ?_) hcheckRun
          exact .forM fun r _ => .forM fun p _ => keeps_checkPattern
        obtain ⟨-, hall⟩ := runs_of_mapM (R := ElaborationState.Onward e env) .refl
          (fun _ _ _ => .trans)
          (fun h' hh' u part v hrun =>
            ⟨(hbranch h' hh' u part v hrun).onward henv hcheck hnode (hover h' hh') hcol,
            hbranch h' hh' u part v hrun⟩) hparts
        refine .split hcol hsplits hover (hall.imp ?_)
        rintro h' part ⟨u, v, hu, hrun, hv⟩
        exact ⟨u, v, (honward.trans hchecked).trans hu, hrun, hv⟩

end Split

end Elaborator

end LeveledTypes
