import LeveledTypes.Proofs.Elaboration.Splitting

/-!
# How compiling clauses fails

Missing clauses are reported at the end of a compilation only, when the case tree is there. An error
of this kind while the tree is built comes from the right-hand side of a clause.
-/
namespace LeveledTypes

open Surface

section Runs
variable {ε σ α β : Type} {s t : σ} {err : ε}

/-- A run over a list fails at some member of the list. -/
theorem error_of_mapM {R : σ → σ → Prop} {f : α → EStateM ε σ β} {as : List α} (hrefl : ∀ s, R s s)
    (htrans : ∀ s t u, R s t → R t u → R s u) (hf : ∀ a ∈ as, ∀ s b t, f a s = .ok b t → R s t)
    (h : as.mapM f s = .error err t) : ∃ a ∈ as, ∃ u, R s u ∧ f a u = .error err t := by
  induction as generalizing s with
  | nil => contradiction
  | cons a as ih =>
    rw [List.mapM_cons] at h
    rcases bind_eq_error.mp h with h | ⟨b, u, hb, h⟩
    · exact ⟨a, by simp, s, hrefl s, h⟩
    rcases bind_eq_error.mp h with h | ⟨bs, v, -, h⟩
    · obtain ⟨a', ha', v, huv, hrun⟩ := ih (fun a ha => hf a (List.mem_cons_of_mem _ ha)) h
      exact ⟨a', List.mem_cons_of_mem _ ha', v, htrans _ _ _ (hf a (by simp) s b u hb) huv, hrun⟩
    · contradiction

end Runs

/-- A run that reports no missing clauses. -/
def Silent {α : Type} (x : Elab α) : Prop :=
  ∀ s err t, x s = .error err t → err.kind ≠ .nonExhaustiveMatch

namespace Silent
variable {α β : Type} {x : Elab α} {f : α → Elab β} {as : List α}

theorem pure (a : α) : Silent (pure a : Elab α) := by
  intro s err t h
  contradiction

theorem throw {err : Error} (h : err.kind ≠ .nonExhaustiveMatch) : Silent (throw err : Elab α) := by
  intro s err' t hr
  obtain ⟨rfl, rfl⟩ := EStateM.Result.error.inj hr
  exact h

theorem bind (hx : Silent x) (hf : ∀ a, Silent (f a)) : Silent (x >>= f) := by
  intro s err t h
  rcases bind_eq_error.mp h with h | ⟨a, u, -, h⟩
  · exact hx s err t h
  · exact hf a u err t h

theorem mapM (hf : ∀ a ∈ as, Silent (f a)) : Silent (as.mapM f) := by
  intro s err t h
  obtain ⟨a, ha, u, -, hrun⟩ :=
    error_of_mapM (R := fun _ _ => True) (fun _ => trivial) (fun _ _ _ _ _ => trivial)
    (fun _ _ _ _ _ _ => trivial) h
  exact hf a ha u err t hrun

theorem forM {g : α → Elab Unit} (hg : ∀ a ∈ as, Silent (g a)) : Silent (as.forM g) := by
  induction as with
  | nil => exact .pure _
  | cons a as ih =>
    obtain ⟨ha, has⟩ := List.forall_mem_cons.mp hg
    exact .bind ha fun _ => ih has

theorem filterMapM {g : α → Elab (Option β)} (hg : ∀ a ∈ as, Silent (g a)) :
    Silent (as.filterMapM g) := by
  induction as with
  | nil => exact .pure _
  | cons a as ih =>
    obtain ⟨ha, has⟩ := List.forall_mem_cons.mp hg
    rw [List.filterMapM_cons]
    refine .bind ha fun o => ?_
    cases o with
    | none => exact ih has
    | some b => exact .bind (ih has) fun bs => .pure _

end Silent

namespace Elaborator
variable {α : Type} {e : Elaborator} {c : Context} {span : Span}

section Heads
variable {data : GlobalName}

theorem silent_fail {p : Problem} (h : p.kind ≠ .nonExhaustiveMatch) :
    Silent (fail p span : Elab α) := .throw h

theorem silent_mismatch {expected actual : String} :
    Silent (mismatch expected actual span : Elab α) := by
  refine .throw ?_
  simp [Error.mismatch, Error.kind, Problem.kind]

theorem silent_environment : Silent e.environment :=
  .bind (fun _ _ _ h => by contradiction) fun _ => .pure _

theorem silent_shown {t : Term} : Silent (shown c t) :=
  .bind (.bind (fun _ _ _ h => by contradiction) fun _ => .pure _) fun _ => .pure _

/-- Reduction fails only if a limit is reached. -/
theorem silent_whnf {t : Term} : Silent (e.whnf c t span) := by
  refine .bind (.bind silent_environment fun _ => .pure _) fun k => ?_
  have hreduce (s s' : ConversionState) (err : Error) (h : k.whnf 0 t s = .error err s') :
      err.kind ≠ .nonExhaustiveMatch := by
    unfold Converter.whnf Converter.reduce at h
    dsimp only at h
    split at h
    case h_1 => contradiction
    case h_2 err' t' _ =>
      obtain ⟨rfl, -⟩ := EStateM.Result.error.inj h
      cases err' <;> simp [Interrupt.error, Error.kind, Problem.kind]
  intro s err s' h
  unfold converting at h
  dsimp only at h
  split at h
  case h_1 => contradiction
  case h_2 err' t' hrun =>
    obtain ⟨rfl, -⟩ := EStateM.Result.error.inj h
    exact hreduce _ _ _ hrun

theorem silent_notMatched {a : Term} : Silent (notMatched c data span a) := by
  unfold notMatched
  split
  case h_4 => exact .bind silent_shown fun _ => silent_mismatch
  all_goals exact .pure none

/-- No missing case is reported while lists of indices are matched, if none is while each index is.
-/
theorem silent_matchIndices {ps as : List Term} {out : List (ℕ × Term)}
    (hps : ∀ p ∈ ps, ∀ a out, Silent (e.matchIndex c data span p a out)) :
    Silent (e.matchIndices c data span ps as out) := by
  induction ps generalizing as out with
  | nil => exact .pure _
  | cons p ps ih =>
    obtain ⟨hp, hps⟩ := List.forall_mem_cons.mp hps
    cases as with
    | nil => exact .pure _
    | cons a as =>
      rw [matchIndices]
      refine .bind (hp a out) fun o => ?_
      cases o with
      | none => exact .pure _
      | some out => exact ih hps

/-- Matching an index reduces terms and comes to a result or to a limit. -/
theorem silent_matchIndex (p a : Term) (out : List (ℕ × Term)) :
    Silent (e.matchIndex c data span p a out) := by
  induction p generalizing a out with
  | var i => exact .pure _
  | zero =>
    rw [matchIndex]
    refine .bind silent_whnf fun t => ?_
    split
    · exact .pure _
    · exact silent_notMatched
  | succ p ih =>
    rw [matchIndex]
    refine .bind silent_whnf fun t => ?_
    split
    · exact ih _ _
    · exact silent_notMatched
  | con k u qs ps _ ihp =>
    rw [matchIndex]
    refine .bind silent_whnf fun t => ?_
    split
    · split
      · exact silent_matchIndices ihp
      · exact silent_notMatched
    · exact silent_notMatched
  | _ => exact .bind silent_whnf fun t => silent_notMatched

theorem silent_headOf {u : Universe} {args : List Term} {k : Definition} :
    Silent (e.headOf c data u args span k) := by
  have hvalues (ps : List Term) (n : ℕ) : Silent (e.indexValues c data ps args n span) := by
    refine .bind (silent_matchIndices fun p _ a out => silent_matchIndex p a out) fun o => ?_
    cases o <;> exact .pure _
  unfold headOf
  split
  case h_1 patterns _ =>
    cases patterns with
    | none => exact .bind (.pure _) fun _ => .pure _
    | some ps => exact .bind (hvalues ps _) fun _ => .pure _
  case h_2 => exact .pure none

theorem silent_heads? {type : Term} : Silent (e.heads? c type span) := by
  refine .bind silent_whnf fun t => ?_
  split
  case h_1 => exact .pure _
  case h_2 =>
    refine .bind silent_environment fun env => ?_
    split
    · exact .bind (.mapM fun k _ => silent_headOf) fun _ => .pure _
    · exact .pure none
  case h_3 => exact .pure none

end Heads

section Rows
variable {j : ℕ} {type : Term} {h : Head} {p : Pattern} {r : Row}

/-- What is wrong with a pattern is reported as an error of another kind. -/
theorem silent_checkPattern {hs : List Head} : Silent (checkPattern c type hs p) := by
  have hmismatch {t : Term} {actual : String} {span : Span} :
      Silent (do mismatch (← shown c t) actual span : Elab Unit) :=
    .bind silent_shown fun _ => silent_mismatch
  unfold checkPattern
  split
  case h_1 => exact .bind silent_shown fun _ => silent_mismatch
  case h_2 =>
    split
    · exact hmismatch
    · exact .pure _
  case h_3 =>
    split
    · exact hmismatch
    · exact .pure _
  case h_4 => exact silent_fail (by simp [Problem.kind])
  case h_5 => exact .pure _

/-- Specializing a row checks its pattern and reports no missing case. -/
theorem silent_specializeRow : Silent (specializeRow c j type h r) := by
  have hspecialize (p : Pattern) : Silent (specialize p h) := by
    unfold specialize
    split
    case h_2 =>
      split
      · exact .pure _
      · extract_lets k join
        split
        · exact .bind silent_mismatch fun _ => .pure _
        · exact .pure _
    case h_3 => split <;> exact .pure _
    all_goals exact .pure _
  unfold specializeRow
  split
  case h_1 => exact .pure none
  case h_2 p _ =>
    refine .bind (hspecialize p) fun o => ?_
    cases o <;> exact .pure _

end Rows

section Split
variable {env : Environment} {check : Context → Expr → Term → Elab Term}
  {cs : List (Clause Expr)} {goal : Term} {cols : List Column} {row : Row}
  {s s' : ElaborationState} {err : Error}

/-- Checking the right-hand side of a clause, in a context that has more variables, has ended in an
error. -/
def Raised (e : Elaborator) (env : Environment) (check : Context → Expr → Term → Elab Term)
    (cs : List (Clause Expr)) (c : Context) (s : ElaborationState) (err : Error) : Prop :=
  ∃ k ∈ cs, ∃ x, k.rhs = some x ∧ ∃ inner goal u v, (∃ new, inner.entries = new ++ c.entries) ∧
    ElaborationState.Onward e env s u ∧ check inner x goal u = .error err v

theorem Raised.of_onward {t : ElaborationState} (h : Raised e env check cs c t err)
    (hst : ElaborationState.Onward e env s t) : Raised e env check cs c s err := by
  obtain ⟨k, hk, x, hx, inner, goal, u, v, hnew, htu, hrun⟩ := h
  exact ⟨k, hk, x, hx, inner, goal, u, v, hnew, hst.trans htu, hrun⟩

theorem Raised.of_context {h : Head} {names : List String}
    (hr : Raised e env check cs (h.context c names) s err) (hnames : names.length = h.args.length) :
    Raised e env check cs c s err := by
  obtain ⟨args, hargs, -⟩ := Head.entries_context (c := c) hnames
  obtain ⟨k, hk, x, hx, inner, goal, u, v, ⟨new, hnew⟩, hsu, hrun⟩ := hr
  exact ⟨k, hk, x, hx, inner, goal, u, v,
    ⟨new ++ args, by rw [hnew, hargs, List.append_assoc]⟩, hsu, hrun⟩

/-- At a leaf a missing case can only come from the right-hand side of the clause. -/
theorem raised_of_leaf (hr : leaf check c cs row cols goal s = .error err s')
    (hkind : err.kind = .nonExhaustiveMatch) :
    Raised e env check cs c s err := by
  unfold leaf at hr
  cases hk : cs[row.index]? with
  | none =>
    simp only [hk] at hr
    contradiction
  | some k =>
    simp only [hk] at hr
    cases hx : k.rhs with
    | none =>
      simp only [hx] at hr
      exact absurd hkind (silent_mismatch s err s' hr)
    | some x =>
      simp only [hx] at hr
      rcases bind_eq_error.mp hr with hr | ⟨t, u, -, hr⟩
      · rw [Context.addAliases_eq] at hr
        exact ⟨k, List.mem_of_getElem? hk, x, hx, { c with aliases := _ }, goal, s, s',
          ⟨[], rfl⟩, .refl s, hr⟩
      · contradiction

/-- Missing clauses in the branch of a constructor are reported where its clauses are compiled. -/
theorem error_of_branchOf {S : Signature} {gas j : ℕ} {rows : List Row} {col : Column} {h : Head}
    (harity : h.args.length = S.headArity h.head)
    (hr : branchOf e check cs span gas c rows cols goal j col h s = .error err s')
    (hkind : err.kind = .nonExhaustiveMatch) :
    ∃ first others, Specialized (h.context c (h.names j rows)) j col.type h rows (first :: others) ∧
      e.split check cs span gas (h.context c (h.names j rows)) first others
        (branchColumns cols j col.term h)
        (goal.refine col.term h.args.length h.term) s = .error err s' := by
  rcases bind_eq_error.mp hr with hr | ⟨rows', u, hrows, hr⟩
  · exact absurd hkind (Silent.filterMapM (fun r _ => silent_specializeRow) s err s' hr)
  obtain ⟨rfl, hspec⟩ := specialized_of_filterMapM harity hrows
  cases rows' with
  | nil => contradiction
  | cons first others =>
    rcases bind_eq_error.mp hr with hr | ⟨_, _, -, hr⟩
    · exact ⟨first, others, hspec, hr⟩
    · contradiction

/-- While a case tree is built, missing clauses are reported for a right-hand side only. -/
theorem raised_of_split (henv : env.WellFormed) (hcheck : e.Checks env check) {gas n : ℕ}
    {rest : List Row} {sol : ℕ → Option Term} (hnode : Node env n c (row :: rest) cols goal)
    (hs : s.Follows e env sol)
    (hr : e.split check cs span gas c row rest cols goal s = .error err s')
    (hkind : err.kind = .nonExhaustiveMatch) :
    Raised e env check cs c s err := by
  induction gas generalizing c row rest cols goal s s' sol with
  | zero => exact absurd hkind (silent_fail (by simp [Problem.kind]) s err s' hr)
  | succ gas ih =>
    unfold split at hr
    extract_lets j at hr
    cases hp : row.patterns[j]? with
    | none =>
      simp only [hp] at hr
      exact raised_of_leaf hr hkind
    | some p =>
      cases hcol : cols[j]? with
      | none =>
        simp only [hp, hcol] at hr
        exact raised_of_leaf hr hkind
      | some col =>
        have hx := hnode.columns col (List.mem_of_getElem? hcol)
        simp only [hp, hcol] at hr
        rcases bind_eq_error.mp hr with hr | ⟨o, s₁, ho, hr⟩
        · exact absurd hkind (silent_heads? s err s' hr)
        cases o with
        | none =>
          exact absurd hkind (Silent.bind silent_shown (fun _ => silent_mismatch) s₁ err s' hr)
        | some heads =>
          cases heads with
          | nil => contradiction
          | cons h heads =>
            rcases bind_eq_error.mp hr with hr | ⟨_, s₂, hforM, hr⟩
            · exact absurd hkind (Silent.forM
                (fun r _ => Silent.forM fun p _ => silent_checkPattern) s₁ err s' hr)
            rcases bind_eq_error.mp hr with hr | ⟨parts, s₃, -, hr⟩
            · have hchecked : ElaborationState.Onward e env s s₂ := by
                refine .trans (.of_keeps (fun sol => keeps_heads? henv hnode.context hx.type) ho) ?_
                refine .of_keeps (Q := fun _ => True) (fun sol => ?_) hforM
                exact .forM fun r _ => .forM fun p _ => keeps_checkPattern
              have hover (h' : Head) (hh' : h' ∈ h :: heads) : h'.Over env.signature :=
                ((keeps_heads? henv hnode.context hx.type).ok hs ho).2 _ rfl h' hh'
              have honward (h' : Head) (hh' : h' ∈ h :: heads) (u : ElaborationState)
                  (part : Option (Branch Term) × Coverage) (v : ElaborationState)
                  (hrun : branchOf e check cs span gas c (row :: rest) cols goal j col h'
                    u = .ok part v) :
                  ElaborationState.Onward e env u v :=
                (branchRun_of_branchOf (hover h' hh') hrun).onward henv hcheck hnode
                  (hover h' hh') hcol
              obtain ⟨h', hh', u, hsu, hrun⟩ :=
                error_of_mapM (R := ElaborationState.Onward e env) .refl
                  (fun _ _ _ => .trans) honward hr
              refine Raised.of_onward ?_ (hchecked.trans hsu)
              obtain ⟨first, others, hspec, hsplit⟩ :=
                error_of_branchOf (hover h' hh').arity hrun hkind
              have hnames := h'.length_names j (row :: rest)
              have hbranch := hnode.branch (hover h' hh') hnames hcol hspec
              exact (ih hbranch (hsu sol (hchecked sol hs)) hsplit).of_context hnames
            · contradiction

end Split

end Elaborator

end LeveledTypes
