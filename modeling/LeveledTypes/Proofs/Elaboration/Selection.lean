import LeveledTypes.Proofs.Elaboration.Splitting

/-!
# The clause that a case tree selects

The values of the columns of a branch are those of the columns before the split, but for the
arguments of the constructor. A clause matches them if it matched before, so that the first clause
that matches stays the same down to the leaf. There its variables stand for what the patterns bind
them to.
-/
namespace LeveledTypes

open Surface

/-- A case split on a constructor goes on with the branch of the constructor. -/
inductive Term.Iota : Term → Term → Prop
  | iota {a m : Term} {bs : List (Branch Term)} {h : BranchHead} {xs : List Term}
    {b : Branch Term} :
      Reducer.constructor? a = some (h, xs) → bs.find? (fun b => b.head == h) = some b →
      Term.Iota (.case a m bs) (b.body.substAll xs)

namespace Term
variable {xs : List Term} {ρ : ℕ → Term}

theorem pushAll_add (xs : List Term) (ρ : ℕ → Term) (i : ℕ) :
    pushAll xs ρ (i + xs.length) = ρ i := by
  rw [pushAll_of_le (by omega), Nat.add_sub_cancel]

/-- An argument of a constructor is over the arguments before it. -/
theorem lift_inst_pushAll_take (t : Term) {a : ℕ} (ha : a ≤ xs.length) :
    (t.lift (xs.length - a)).inst (pushAll xs ρ) = t.inst (pushAll (xs.take a) ρ) := by
  rw [lift_eq_inst, inst_inst]
  congr 1
  funext i
  have hlen : (xs.take a).length = a := by simp; omega
  rw [inst]
  rcases lt_or_ge i a with h | h
  · rw [pushAll_of_lt (by omega), pushAll_of_lt (by omega), List.getElem_take]
    congr 1
    omega
  · rw [pushAll_of_le (by omega), pushAll_of_le (by omega)]
    congr 1
    omega

/-- Refining a type to a constructor does nothing to its instance if the scrutinee is this
constructor. -/
theorem erase_inst_refine {t scrut con : Term}
    (h : (scrut.inst ρ).erase = (con.inst (pushAll xs ρ)).erase) :
    ((t.refine scrut xs.length con).inst (pushAll xs ρ)).erase = (t.inst ρ).erase := by
  by_cases hv : ∃ i, scrut = .var i
  · obtain ⟨i, rfl⟩ := hv
    rw [refine_var, inst_inst]
    refine erase_inst_congr rfl fun n => ?_
    by_cases hn : n = i
    · subst hn
      simpa using h.symm
    · simp [hn, pushAll_add]
  · have hrefine : t.refine scrut xs.length con = t.lift xs.length := by
      cases scrut <;> simp_all [refine]
    rw [hrefine, lift_inst_pushAll]

end Term

theorem Locals.Fits.under {L : Locals} {ρ : ℕ → Term} (h : L.Fits ρ) (xs : List Term) :
    (L.under xs.length).Fits (Term.pushAll xs ρ) := by
  intro i v hv
  rcases lt_or_ge i xs.length with hi | hi
  · simp [Locals.under, List.getElem?_append_left, hi] at hv
  · obtain ⟨k, rfl⟩ := Nat.exists_eq_add_of_le' hi
    have hk : L[k]? = some (some v) := by
      simpa [Locals.under, List.getElem?_append_right] using hv
    rw [Term.pushAll_add, Nat.add_right_comm, ← Term.lift_lift, Term.lift_inst_pushAll]
    exact h k v hk

namespace Elaborator
variable {env : Environment} {sol : ℕ → Option Term} {others : Term → Term → Prop} {ρ : ℕ → Term}
  {xs : List Term}

section Columns
variable {cols : List Column} {j : ℕ} {h : Head}

/-- The terms of the columns of a branch stand for the values of the branch. -/
theorem map_inst_branchColumns (hlen : h.args.length = xs.length) (scrut : Term) :
    (branchColumns cols j scrut h).map (fun x => x.term.inst (Term.pushAll xs ρ)) =
      branchValues (cols.map fun x => x.term.inst ρ) j xs := by
  have hargs : (h.args.zipIdx.map fun q => Term.var (h.args.length - 1 - q.2)) =
      (List.range xs.length).reverse.map Term.var := by
    refine List.ext_getElem (by simp [hlen]) fun a ha ha' => ?_
    simp [hlen]
  have hvars : (h.args.zipIdx.map fun q =>
      (⟨.var (h.args.length - 1 - q.2), q.1.type.lift (h.args.length - q.2)⟩ : Column)).map
        (fun x => x.term.inst (Term.pushAll xs ρ)) = xs := by
    rw [List.map_map]
    have := congrArg (List.map (Term.inst (Term.pushAll xs ρ))) hargs
    rw [Term.map_inst_pushAll, List.map_map] at this
    exact this
  simp only [branchColumns, branchValues, List.map_append, hvars, List.map_map, List.map_take,
    List.map_drop]
  simp only [Function.comp_def, hlen, Term.lift_inst_pushAll]

/-- The values of the columns of a branch have the types of these columns. -/
theorem values_branchColumns {col : Column}
    (hcols : ∀ x ∈ cols, Value env sol others (x.term.inst ρ) (x.type.inst ρ))
    (hfits : h.Fits env sol others ρ (col.term.inst ρ) xs) : ∀ x ∈ branchColumns cols j col.term h,
      Value env sol others (x.term.inst (Term.pushAll xs ρ)) (x.type.inst (Term.pushAll xs ρ)) := by
  have hlen := hfits.length
  have hrefined (x : Column) (hx : x ∈ cols) :
      Value env sol others ((x.term.lift h.args.length).inst (Term.pushAll xs ρ))
      ((x.type.refine col.term h.args.length h.term).inst (Term.pushAll xs ρ)) := by
    rw [hlen, Term.lift_inst_pushAll]
    exact (hcols x hx).congr (Term.erase_inst_refine hfits.erase_eq).symm
  intro x hx
  simp only [branchColumns, List.mem_append, List.mem_map] at hx
  obtain (⟨x, hx, rfl⟩ | ⟨⟨p, a⟩, hp, rfl⟩) | ⟨x, hx, rfl⟩ := hx
  · exact hrefined x (List.mem_of_mem_take hx)
  · have hpa : h.args[a]? = some p := List.mem_zipIdx_iff_getElem?.mp hp
    have ha := (List.getElem?_eq_some_iff.mp hpa).1
    have hvar : (Term.var (h.args.length - 1 - a)).inst (Term.pushAll xs ρ) = xs[a] := by
      rw [Term.inst, Term.pushAll_of_lt (by omega)]
      congr 1
      omega
    rw [hvar, hlen, Term.lift_inst_pushAll_take _ (by omega)]
    exact hfits.args a p _ hpa (List.getElem?_eq_getElem (by omega))
  · exact hrefined x (List.mem_of_mem_drop hx)

end Columns

/-- The patterns of a clause match some values. -/
def Matches (vs : List Term) (r : Row) : Bool := (Pattern.matchAll? r.patterns vs).isSome

section Rows
variable {d : Context} {j : ℕ} {type v : Term} {h : Head} {rows rows' : List Row} {vs : List Term}

/-- What is left of a clause, with what is known of it at a value. -/
structure Continues (d : Context) (j : ℕ) (type : Term) (h : Head) (v : Term) (vs xs : List Term)
    (r r' : Row) : Prop where
  specialized : RowSpecialized d j type h r r'
  matching : ∃ p, RowContinues r r' p ⟨h.term, type.lift h.args.length, d.length⟩ v vs
    (branchValues vs j xs)

/-- The first clause that matches is the same before a split and in the branch. -/
theorem find?_branch {S : Signature} (hrows : Specialized d j type h rows rows')
    (harity : h.args.length = S.headArity h.head) (hv : h.Heads v xs)
    (hlen : ∀ r ∈ rows, r.patterns.length = vs.length) (hj : vs[j]? = some v) :
    (∀ r', rows'.find? (Matches (branchValues vs j xs)) = some r' →
      ∃ r, rows.find? (Matches vs) = some r ∧ Continues d j type h v vs xs r r') ∧
    (rows'.find? (Matches (branchValues vs j xs)) = none → rows.find? (Matches vs) = none) := by
  obtain ⟨os, rfl, hos⟩ := hrows
  induction hos with
  | nil => simp
  | @cons r o rows os hro hos ih =>
    obtain ⟨hr, hrows⟩ := List.forall_mem_cons.mp hlen
    obtain ⟨s, hrun⟩ := hro
    obtain ⟨ihsome, ihnone⟩ := ih hrows
    obtain ⟨-, ⟨rfl, hnone⟩ | ⟨r', p, rfl, -, hcontinues⟩⟩ :=
      continues_of_specializeRow hv hr hj hrun
    · have hmatch : Matches vs r = false := by simp [Matches, hnone]
      simp only [List.filterMap_cons, id, List.find?_cons, hmatch]
      exact ⟨ihsome, ihnone⟩
    · have hmatch : Matches vs r = Matches (branchValues vs j xs) r' := hcontinues.isSome
      have hcont : Continues d j type h v vs xs r r' :=
        ⟨(specializeRow_eq_ok harity hrun).2 r' rfl, p, hcontinues⟩
      simp only [List.filterMap_cons, id, List.find?_cons, hmatch]
      cases Matches (branchValues vs j xs) r' with
      | true => exact ⟨fun r'' hr'' => ⟨r, rfl, Option.some.inj hr'' ▸ hcont⟩, by simp⟩
      | false => exact ⟨ihsome, ihnone⟩

end Rows

/-- A right-hand side of a clause, elaborated to `u` in the context `inner`, is what a case tree
reaches at some values. The variables of the context between have the values that `σ` gives, and the
variables of the clause stand for the values that its patterns bind them to. -/
structure Arrives (check : Context → Expr → Term → Elab Term) (cs : List (Clause Expr))
    (c : Context) (goal t : Term) (ρ : ℕ → Term) (r : Row) (bs : List (Variable × Term))
    (inner : Context) (u : Term) (σ : ℕ → Term) : Prop where
  elaborated : ∃ k x goal' s s', cs[r.index]? = some k ∧ k.rhs = some x ∧
    check inner x goal' s = .ok u s' ∧ (goal'.inst σ).erase = (goal.inst ρ).erase
  reaches : Relation.ReflTransGen Term.Iota (t.inst ρ) (u.inst σ)
  extends_context : ∃ new : List Entry, inner.entries = new ++ c.entries ∧
    (∀ x ∈ new, x.binder.var.id = 0) ∧ ∀ i, σ (i + new.length) = ρ i
  binds : ∃ added, inner.aliases = added ++ c.aliases ∧
    (added.map (·.1)).Perm (r.bound.map (·.1) ++ Pattern.varsAll r.patterns) ∧
    (∀ b ∈ r.bound, b ∈ added) ∧
    ∀ b ∈ bs, ∃ a, (b.1, a) ∈ added ∧
      ((a.value.lift (inner.length - a.depth)).inst σ).erase = b.2.erase

section Leaf
variable {check : Context → Expr → Term → Elab Term} {cs : List (Clause Expr)} {c : Context}
  {cols : List Column} {goal t : Term} {row : Row} {s s' : ElaborationState} {coverage : Coverage}

/-- What the variables of a clause stand for where a branch ends: the columns. -/
def leafBindings (c : Context) (ps : List Pattern) (cols : List Column) : List (Variable × Alias) :=
  (ps.zip cols).filterMap fun (p, x) => p.bound?.map fun v => (v, ⟨x.term, x.type, c.length⟩)

/-- At a leaf every variable of the patterns is bound once, in order. -/
theorem map_fst_leafBindings {ps : List Pattern} (hvars : ∀ p ∈ ps, p.isVar = true)
    (hlen : ps.length = cols.length) : (leafBindings c ps cols).map (·.1) = Pattern.varsAll ps := by
  induction ps generalizing cols with
  | nil => rfl
  | cons p ps ih =>
    cases cols with
    | nil => simp at hlen
    | cons x cols =>
      obtain ⟨hp, hps⟩ := List.forall_mem_cons.mp hvars
      have hpvars : p.vars = p.bound?.toList := by
        cases p <;> simp_all [Pattern.isVar, Pattern.vars]
      have ih := ih hps (Nat.succ.inj hlen)
      rw [leafBindings] at ih
      rw [Pattern.varsAll, hpvars, leafBindings, List.zip_cons_cons]
      cases hb : p.bound? <;> simp [hb, ih]

/-- A clause all of whose patterns are variables matches, and its variables stand for the
columns. -/
theorem arrives_of_leaf (hvars : ∀ p ∈ row.patterns, p.isVar = true)
    (hlen : row.patterns.length = cols.length) (hindex : row.index < cs.length)
    (hr : leaf check c cs row cols goal s = .ok (t, coverage) s') (ρ : ℕ → Term) :
    coverage = ⟨[row.index], []⟩ ∧ ∃ bs inner u,
      Pattern.matchAll? row.patterns (cols.map fun x => x.term.inst ρ) = some bs ∧
      Arrives check cs c goal t ρ row bs inner u ρ := by
  have hk : cs[row.index]? = some cs[row.index] := List.getElem?_eq_getElem hindex
  generalize cs[row.index] = k at hk
  unfold leaf at hr
  simp only [hk] at hr
  cases hx : k.rhs with
  | none =>
    simp only [hx] at hr
    contradiction
  | some x =>
    simp only [hx] at hr
    obtain ⟨u, s₁, hcheck, hr⟩ := bind_eq_ok.mp hr
    obtain ⟨heq, rfl⟩ := EStateM.Result.ok.inj hr
    obtain ⟨rfl, rfl⟩ := Prod.mk.inj heq
    rw [Context.addAliases_eq] at hcheck
    refine ⟨rfl, _, _, u, Pattern.matchAll?_of_isVar (by simpa using hlen) hvars,
      ⟨k, x, goal, s, s₁, hk, hx, hcheck, rfl⟩, .refl, ⟨[], rfl, by simp, fun i => rfl⟩, ?_⟩
    refine ⟨(row.bound ++ leafBindings c row.patterns cols).reverse, rfl, ?_,
      fun b hb => by simp [hb], ?_⟩
    · rw [List.map_reverse, List.map_append, map_fst_leafBindings hvars hlen]
      exact List.reverse_perm _
    · intro b hb
      rw [List.zip_map_right, List.mem_flatMap] at hb
      obtain ⟨⟨p, v⟩, hpv, hb⟩ := hb
      obtain ⟨⟨q, y⟩, hqy, heq⟩ := List.mem_map.mp hpv
      obtain ⟨rfl, rfl⟩ := Prod.mk.inj heq
      obtain ⟨w, hw, rfl⟩ := List.mem_map.mp hb
      have hmem : (w, (⟨y.term, y.type, c.length⟩ : Alias)) ∈ leafBindings c row.patterns cols :=
        List.mem_filterMap.mpr ⟨(q, y), hqy,
          Option.map_eq_some_iff.mpr ⟨w, Option.mem_toList.mp hw, rfl⟩⟩
      refine ⟨⟨y.term, y.type, c.length⟩, by simp [hmem], ?_⟩
      simp [Context.length]

end Leaf

section Branch
variable {check : Context → Expr → Term → Elab Term} {cs : List (Clause Expr)}
  {c inner : Context} {col : Column} {goal m body u : Term} {σ : ℕ → Term} {h : Head}
  {names : List String} {branches : List (Branch Term)} {j : ℕ} {r r' : Row} {vs : List Term}
  {bs bs' : List (Variable × Term)}

/-- A row that is arrived at in a branch is arrived at in the case split: its patterns are those of
the row before it was specialized, and its bindings are the same values. -/
theorem Arrives.of_branch
    (ha : Arrives check cs (h.context c names) (goal.refine col.term h.args.length h.term) body
      (Term.pushAll xs ρ) r' bs' inner u σ)
    (hr : Continues (h.context c names) j col.type h (col.term.inst ρ) vs xs r r')
    (hfits : h.Fits env sol others ρ (col.term.inst ρ) xs) (hnames : names.length = h.args.length)
    (hbs : Pattern.matchAll? r.patterns vs = some bs)
    (hbs' : Pattern.matchAll? r'.patterns (branchValues vs j xs) = some bs')
    (hfind : branches.find? (fun b => b.head == h.head) = some ⟨h.head, names, body⟩) :
    Arrives check cs c goal (.case col.term m branches) ρ r bs inner u σ := by
  have hlen := hfits.length
  obtain ⟨hspec, p, hcont⟩ := hr
  obtain ⟨k, x, goal', s, s', hk, hx, hrun, hgoal⟩ := ha.elaborated
  obtain ⟨new, hnew, hid, hσ⟩ := ha.extends_context
  obtain ⟨added, hadded, hperm, hkept, hbinds⟩ := ha.binds
  obtain ⟨args, hargs, hargsLen, hargsId⟩ := Head.entries_context (c := c) hnames
  refine ⟨⟨k, x, goal', s, s', hspec.index ▸ hk, hx, hrun, ?_⟩, ?_, ?_, ?_⟩
  · rw [hgoal, hlen]
    exact Term.erase_inst_refine hfits.erase_eq
  · have hstep : Term.Iota ((Term.case col.term m branches).inst ρ)
        (body.inst (Term.pushAll xs ρ)) := by
      have hfind' : (branches.map fun b => { b with body := b.body.inst (Term.up b.arity ρ) }).find?
          (fun b => b.head == h.head) =
            some ⟨h.head, names, body.inst (Term.up names.length ρ)⟩ := by
        rw [List.find?_map]
        exact congrArg (Option.map _) hfind
      rw [Term.inst, Term.instBranches_eq_map, ← Term.inst_up_substAll, ← hlen, ← hnames]
      exact .iota hfits.constructor hfind'
    exact .head hstep ha.reaches
  · refine ⟨new ++ args, by rw [hnew, hargs, List.append_assoc], fun y hy => ?_, fun i => ?_⟩
    · exact (List.mem_append.mp hy).elim (hid y) fun hy => (hargsId y hy).1
    · rw [List.length_append, hargsLen, hlen, Nat.add_comm new.length, ← Nat.add_assoc, hσ,
        Term.pushAll_add]
  · refine ⟨added, by rw [hadded, Head.aliases_context], hperm.trans hspec.vars,
        fun b hb => hkept b ?_, fun b hb => ?_⟩
    · rw [hcont.bound]
      exact List.mem_append_left _ hb
    · rcases hcont.binds bs bs' hbs hbs' b hb with hb | hb
      · obtain ⟨w, hw, rfl⟩ := List.mem_map.mp hb
        refine ⟨⟨h.term, col.type.lift h.args.length, (h.context c names).length⟩, hkept _ ?_, ?_⟩
        · rw [hcont.bound]
          exact List.mem_append_right _ (List.mem_map_of_mem hw)
        · have hdepth : inner.length - (h.context c names).length = new.length := by
            simp [Context.length, hnew]
          have hvalue : (h.term.lift new.length).inst σ = h.term.inst (Term.pushAll xs ρ) := by
            rw [Term.lift_eq_inst, Term.inst_inst]
            simp only [Term.inst, hσ]
          rw [hdepth, hvalue]
          exact hfits.erase_eq.symm
      · exact hbinds b hb

end Branch

section Coverage

theorem used_foldl {α : Type} (parts : List (α × Coverage)) (coverage : Coverage) :
    (parts.foldl (fun coverage p => coverage ++ p.2) coverage).used = coverage.used ++ parts.flatMap
      (·.2.used) := by
  induction parts generalizing coverage with
  | nil => simp
  | cons p parts ih =>
    rw [List.foldl_cons, ih, List.flatMap_cons, ← List.append_assoc]
    rfl

theorem missing_foldl {α : Type} (parts : List (α × Coverage)) (coverage : Coverage) :
    (parts.foldl (fun coverage p => coverage ++ p.2) coverage).missing =
      coverage.missing ++ parts.flatMap (·.2.missing) := by
  induction parts generalizing coverage with
  | nil => simp
  | cons p parts ih =>
    rw [List.foldl_cons, ih, List.flatMap_cons, ← List.append_assoc]
    rfl

end Coverage

section Trees
variable {e : Elaborator} {check : Context → Expr → Term → Elab Term}
  {cs : List (Clause Expr)} {span : Span}

/-- If no constructor is left out, the case tree takes values of the columns to the first clause
that matches them. -/
theorem arrives_of_split (henv : env.WellFormed) (hcheck : e.Checks env check) {gas : ℕ}
    {c : Context} {row : Row} {rest : List Row} {cols : List Column} {goal t : Term}
    {s s' : ElaborationState} {sol sol' : ℕ → Option Term} {coverage : Coverage}
    (hnode : Node env cs.length c (row :: rest) cols goal) (hs : s.Follows e env sol)
    (hr : e.split check cs span gas c row rest cols goal s = .ok (t, coverage) s')
    (hmissing : coverage.missing = []) {ρ : ℕ → Term}
    (hi : Instance s'.conversion.store.solution? c.locals sol' ρ)
    (hcols : ∀ x ∈ cols, Value env sol' others (x.term.inst ρ) (x.type.inst ρ)) :
    ∃ r bs inner u σ, (row :: rest).find? (Matches (cols.map fun x => x.term.inst ρ)) = some r ∧
      r.index ∈ coverage.used ∧
      Pattern.matchAll? r.patterns (cols.map fun x => x.term.inst ρ) = some bs ∧
      Arrives check cs c goal t ρ r bs inner u σ := by
  induction gas generalizing c row rest cols goal s s' sol t coverage ρ with
  | zero => contradiction
  | succ gas ih =>
    have his := hi.of_onward hs (onward_split henv hcheck hnode hr)
    cases splitting_of_split henv hcheck hnode hs hr with
    | leaf hvars hleaf =>
      obtain ⟨rfl, bs, inner, u, hbs, harrives⟩ :=
        arrives_of_leaf hvars (hnode.length row (by simp)) (hnode.index row (by simp)) hleaf ρ
      exact ⟨row, bs, inner, u, ρ,
        List.find?_cons_of_pos (by simp [Matches, hbs]), by simp, hbs, harrives⟩
    | @empty j col hcol hsplits =>
      obtain ⟨_, _, -, ⟨h, hh, -⟩, -⟩ :=
        hsplits.fits henv his (hcols col (List.mem_of_getElem? hcol))
      contradiction
    | @split j col hs' parts hcol hsplits hover hparts =>
      obtain ⟨head, xs, -, ⟨h₀, hh₀, hhead₀⟩, hfits⟩ :=
        hsplits.fits henv his (hcols col (List.mem_of_getElem? hcol))
      have hnone (part : Option (Branch Term) × Coverage) (hpart : part ∈ parts) :
          part.2.missing = [] := by
        simp only [missing_foldl, List.nil_append, List.flatMap_eq_nil_iff] at hmissing
        exact hmissing part hpart
      -- The branch that is found is that of some constructor with the head of the value.
      obtain ⟨b, hb⟩ : ∃ b, (parts.filterMap (·.1)).find? (fun b => b.head == head) = some b := by
        obtain ⟨part, hpart, u, v, -, hrun, -⟩ := exists_mem_of_forall₂ hparts hh₀
        cases hrun with
        | missing => simpa using hnone _ hpart
        | covered =>
          refine Option.isSome_iff_exists.mp
            (List.find?_isSome.mpr ⟨_, List.mem_filterMap.mpr ⟨_, hpart, rfl⟩, ?_⟩)
          exact beq_iff_eq.mpr hhead₀
      obtain ⟨part, hpart, hpartb⟩ := List.mem_filterMap.mp (List.mem_of_find?_eq_some hb)
      obtain ⟨h, hh, u, v, hsu, hrun, hvs⟩ := exists_mem_of_forall₂_right hparts hpart
      cases hrun with
      | missing => contradiction
      | @covered names first others' body coverage' _ hnames hspec hsplit =>
        obtain rfl := Option.some.inj hpartb
        have hhead := List.find?_some hb
        obtain rfl : h.head = head := eq_of_beq hhead
        have hfits := hfits h hh rfl
        have hlen := hfits.length
        have hbranch := hnode.branch (hover h hh) hnames hcol hspec
        have hvFollows := (BranchRun.covered hnames hspec hsplit).onward henv hcheck hnode
          (hover h hh) hcol sol (hsu sol hs)
        have hiv := hi.of_onward hvFollows hvs
        obtain ⟨r', bs', inner, w, σ, hr', hused, hbs', harrives⟩ :=
          ih hbranch (hsu sol hs) hsplit (hnone _ hpart)
          ⟨hiv.keeps, by rw [Head.locals_context hnames, hlen]; exact hiv.fits.under xs⟩
            (values_branchColumns hcols hfits)
        rw [map_inst_branchColumns hlen] at hr' hbs'
        have hrows : ∀ r ∈ row :: rest, r.patterns.length =
            (cols.map fun x => x.term.inst ρ).length := by
          simpa using hnode.length
        obtain ⟨r, hr, hcont⟩ := (find?_branch hspec (hover h hh).arity hfits.toHeads hrows
          (by simp [hcol])).1 r' hr'
        have hmatches := List.find?_some hr
        obtain ⟨bs, hbs⟩ := Option.isSome_iff_exists.mp hmatches
        refine ⟨r, bs, inner, w, σ, hr, ?_, hbs, harrives.of_branch hcont hfits hnames hbs hbs' hb⟩
        rw [used_foldl, ← hcont.specialized.index]
        exact List.mem_append_right _ (List.mem_flatMap.mpr ⟨_, hpart, hused⟩)

end Trees

end Elaborator

end LeveledTypes
