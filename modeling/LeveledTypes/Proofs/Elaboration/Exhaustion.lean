import LeveledTypes.Elaboration.Declaration
import LeveledTypes.Proofs.Elaboration.Coverage

/-!
# The clauses that are used

The branches of a case tree over columns with populated types are all reached: each clause that ends
a branch is the first one to match some values of the columns, and where a constructor is left out
some values match no clause.
-/
namespace LeveledTypes

open Surface

namespace Context
variable {c : Context} {cols : List Column}

/-- The columns are variables of the context with their types, the outermost first. Neither they nor
the variables inside the first of them have values. -/
structure Columns (c : Context) (cols : List Column) : Prop where
  entries : ∀ x ∈ cols, ∃ i y, c.entries[i]? = some y ∧ x = ⟨.var i, y.type.lift (i + 1)⟩ ∧
    ∀ l ≤ i, ∀ z, c.entries[l]? = some z → z.value = none
  outward : cols.Pairwise fun x y => ∀ i l, x.term = .var i → y.term = .var l → l < i

/-- Variables without values can stand for anything. -/
theorem fits_locals (h : ∀ x ∈ c.entries, x.value = none) (ρ : ℕ → Term) : c.locals.Fits ρ := by
  intro i v hv
  obtain ⟨x, hx, hxv⟩ := List.mem_map.mp (List.mem_of_getElem? hv)
  simp [h x hx] at hxv

/-- A new variable is a column. -/
theorem columns_push (c : Context) (x : Binder) (type : Term) :
    (c.push x type).Columns [⟨.var 0, type.lift 1⟩] := by
  refine ⟨fun y hy => ⟨0, ⟨x, type, none⟩, rfl, by simpa using hy, fun l hl z hz => ?_⟩, by simp⟩
  obtain rfl := Nat.le_zero.mp hl
  obtain rfl := Option.some.inj hz
  rfl

/-- A telescope adds variables without values. -/
theorem value_of_tele {e : Elaborator} {ps : Telescope Expr} {d : Context} {tele : Telescope Term}
    {us : List Universe} {s s' : ElaborationState} (h : e.tele c ps s = .ok (d, tele, us) s')
    (hc : ∀ x ∈ c.entries, x.value = none) : ∀ x ∈ d.entries, x.value = none := by
  induction ps generalizing c tele us s with
  | nil =>
    obtain ⟨heq, rfl⟩ := EStateM.Result.ok.inj h
    obtain ⟨rfl, -⟩ := Prod.mk.inj heq
    exact hc
  | cons p ps ih =>
    obtain ⟨⟨type, u⟩, s₁, -, h⟩ := bind_eq_ok.mp h
    obtain ⟨⟨d', tele', us'⟩, s₂, hrest, h⟩ := bind_eq_ok.mp h
    obtain ⟨heq, rfl⟩ := EStateM.Result.ok.inj h
    obtain ⟨rfl, -⟩ := Prod.mk.inj heq
    exact ih hrest (List.forall_mem_cons.mpr ⟨rfl, hc⟩)

/-- The parameters of a function that its clauses match are columns. -/
theorem columns_of_tele {e : Elaborator} {ps : Telescope Expr} {tele : Telescope Term}
    {us : List Universe} {s s' : ElaborationState} (h : e.tele {} ps s = .ok (c, tele, us) s')
    (p : Entry × ℕ → Bool) :
    c.Columns ((c.entries.zipIdx.filter p).reverse.map fun (x, i) =>
      ⟨.var i, x.type.lift (i + 1)⟩) := by
  have hvalue := value_of_tele h (by simp)
  refine ⟨fun y hy => ?_, ?_⟩
  · obtain ⟨⟨x, i⟩, hxi, rfl⟩ := List.mem_map.mp hy
    have hx := List.mem_zipIdx_iff_getElem?.mp (List.mem_filter.mp (List.mem_reverse.mp hxi)).1
    exact ⟨i, x, hx, rfl, fun l _ z hz => hvalue z (List.mem_of_getElem? hz)⟩
  · have hindices : c.entries.zipIdx.Pairwise fun a b => a.2 < b.2 := by
      rw [List.pairwise_iff_getElem]
      intro i l hi hl hil
      simpa using hil
    rw [List.pairwise_map, List.pairwise_reverse]
    refine (hindices.filter p).imp fun {a b} hab i l hi hl => ?_
    rwa [← Term.var.inj hi, ← Term.var.inj hl]

end Context

theorem Term.erase_lift_inst_congr {t : Term} {n : ℕ} {ρ σ : ℕ → Term}
    (h : ∀ l ≥ n, (ρ l).erase = (σ l).erase) :
    ((t.lift n).inst ρ).erase = ((t.lift n).inst σ).erase := by
  rw [lift_eq_inst, inst_inst, inst_inst]
  exact erase_inst_congr rfl fun l => h (l + n) (Nat.le_add_left n l)

/-- The type of each column is populated, whatever the values of the columns before it are. -/
def PopulatedColumns (env : Environment) (sol : ℕ → Option Term) (others : Term → Term → Prop)
    (cols : List Column) (ρ₀ : ℕ → Term) : Prop :=
  ∀ (a : ℕ) x ρ, cols[a]? = some x → Agrees cols ρ₀ ρ → ValuedUpTo env sol others cols a ρ →
    Populated env sol others (x.type.inst ρ)

/-- Columns of a context can be given values one after the other, since the type of each is over the
variables before it. -/
theorem Fillable.of_columns {env : Environment} {sol : ℕ → Option Term}
    {others : Term → Term → Prop} {c : Context} {cols : List Column} {ρ₀ : ℕ → Term}
    (hcols : c.Columns cols) (hfits : c.locals.Fits ρ₀)
    (hpop : PopulatedColumns env sol others cols ρ₀) :
    Fillable env sol others c.locals cols ρ₀ := by
  have houtward {a b i l : ℕ} {x y : Column} (hx : cols[a]? = some x)
      (hy : cols[b]? = some y) (hab : a < b)
      (hi : x.term = .var i) (hl : y.term = .var l) : l < i := by
    obtain ⟨ha, rfl⟩ := List.getElem?_eq_some_iff.mp hx
    obtain ⟨hb, rfl⟩ := List.getElem?_eq_some_iff.mp hy
    exact List.pairwise_iff_getElem.mp hcols.outward a b ha hb hab i l hi hl
  refine ⟨fun x hx => ?_, fun a b x y hx hy hxy => ?_, fun ρ hρ i v hv => ?_, hpop,
    fun a x ρ σ hx hρ hσ hvρ hvσ heq => ?_⟩
  · obtain ⟨i, _, -, rfl, -⟩ := hcols.entries x hx
    exact ⟨i, rfl⟩
  · obtain ⟨i, _, -, hxi, -⟩ := hcols.entries x (List.mem_of_getElem? hx)
    have hi : x.term = .var i := congrArg Column.term hxi
    rcases lt_trichotomy a b with hab | hab | hab
    · exact absurd (houtward hx hy hab hi (hxy ▸ hi)) (lt_irrefl i)
    · exact hab
    · exact absurd (houtward hy hx hab (hxy ▸ hi) hi) (lt_irrefl i)
  · -- A variable that has a value is outside all columns.
    have houter (l : ℕ) (hl : l ≥ i) : ρ l = ρ₀ l := by
      refine hρ l fun x hx hxl => ?_
      obtain ⟨m, _, -, rfl, hnone⟩ := hcols.entries x hx
      obtain ⟨z, hz, hzv⟩ : ∃ z, c.entries[i]? = some z ∧ z.value = some v := by
        simpa [Context.locals] using hv
      have := hnone i (by rw [Term.var.inj hxl]; exact hl) z hz
      simp [this] at hzv
    rw [houter i le_rfl, hfits i v hv]
    exact Term.erase_lift_inst_congr fun l hl => by rw [houter l (by omega)]
  · obtain ⟨i, y, -, rfl, -⟩ := hcols.entries x (List.mem_of_getElem? hx)
    change ((y.type.lift (i + 1)).inst ρ).erase = ((y.type.lift (i + 1)).inst σ).erase
    refine Term.erase_lift_inst_congr fun l hl => ?_
    by_cases hcol : ∃ z ∈ cols, z.term = .var l
    · obtain ⟨z, hz, hzl⟩ := hcol
      obtain ⟨b, hb⟩ := List.getElem?_of_mem hz
      have hba : b < a := by
        by_contra hab
        rcases Nat.eq_or_lt_of_not_lt hab with rfl | hab
        · obtain rfl := Option.some.inj (hx.symm.trans hb)
          have := Term.var.inj hzl
          omega
        · have := houtward hx hb hab rfl hzl
          omega
      have := heq b hba z hb
      rwa [hzl] at this
    · push Not at hcol
      rw [hρ l hcol, hσ l hcol]

namespace Elaborator
variable {env : Environment} {sol sol' : ℕ → Option Term} {others : Term → Term → Prop} {L : Locals}
  {cols : List Column} {ρ₀ ρ : ℕ → Term}

/-- The place of the first clause that matches some values. -/
def selected? (rows : List Row) (vs : List Term) : Option ℕ :=
  (rows.find? (Matches vs)).map (·.index)

/-- There are values of the columns for which a choice among clauses has the given result. -/
def Selects (env : Environment) (sol : ℕ → Option Term) (others : Term → Term → Prop)
    (cols : List Column) (ρ₀ : ℕ → Term) (choice : List Term → Option ℕ) (o : Option ℕ) : Prop :=
  ∃ ρ, Agrees cols ρ₀ ρ ∧ (∀ x ∈ cols, Value env sol others (x.term.inst ρ) (x.type.inst ρ)) ∧
    choice (cols.map fun x => x.term.inst ρ) = o

section Branch
variable {d : Context} {j i : ℕ} {col : Column} {h : Head} {hs : List Head} {rows rows' : List Row}
  (hfill : Fillable env sol' others L cols ρ₀) (hcol : cols[j]? = some col) (hi : col.term = .var i)

include hfill hcol hi

/-- The values of the columns of a branch come from those before the split. -/
theorem map_inst_lowered : (branchColumns cols j col.term h).map (fun x => x.term.inst ρ) =
    branchValues (cols.map fun x => x.term.inst (lowered h i ρ)) j (inner h ρ) := by
  have hvalues : (branchColumns cols j col.term h).map
      (fun x => x.term.inst (Term.pushAll (inner h ρ) (outer h ρ))) =
      branchValues (cols.map fun x => x.term.inst (outer h ρ)) j (inner h ρ) :=
    map_inst_branchColumns (length_inner h ρ).symm col.term
  rw [pushAll_inner] at hvalues
  have hother {b : ℕ} {y : Column} (hy : cols[b]? = some y) (hb : b ≠ j) :
      y.term.inst (outer h ρ) = y.term.inst (lowered h i ρ) := by
    rw [← lift_inst_lowered hfill hcol hi hy hb, lift_inst_outer]
  rw [hvalues, branchValues, branchValues]
  simp only [← List.map_take, ← List.map_drop]
  congr 1
  · congr 1
    refine List.map_congr_left fun y hy => ?_
    obtain ⟨b, hb⟩ := List.getElem?_of_mem hy
    have hbj := (List.getElem?_eq_some_iff.mp hb).1
    rw [List.length_take] at hbj
    rw [List.getElem?_take_of_lt (by omega)] at hb
    exact hother hb (by omega)
  · refine List.map_congr_left fun y hy => ?_
    obtain ⟨b, hb⟩ := List.getElem?_of_mem hy
    rw [List.getElem?_drop] at hb
    exact hother hb (by omega)

/-- What values of the columns of a branch select, values of the columns before the split select as
well. -/
theorem Selects.of_branch {o : Option ℕ} (henv : env.WellFormed)
    (hsplits : Splits env sol L col.type hs) (hkeeps : ∀ m t, sol m = some t →
      sol' m = some t) (hh : h ∈ hs)
    (harity : h.args.length = env.signature.headArity h.head)
    (hlen : ∀ r ∈ rows, r.patterns.length = cols.length)
    (hrows : Specialized d j col.type h rows rows')
    (hselects : Selects env sol' others (branchColumns cols j col.term h) (branchBase h ρ₀)
      (selected? rows') o) :
    Selects env sol' others cols ρ₀ (selected? rows) o := by
  obtain ⟨ρ, hρ, hv, rfl⟩ := hselects
  have hvalue := value_lowered hfill hcol hi henv hsplits hkeeps hh hρ fun b _ y hy =>
    hv y (List.mem_of_getElem? hy)
  refine ⟨_, agrees_lowered hfill hcol hi hρ,
    values_lowered hfill hcol hi henv hsplits hkeeps hh hρ hv, ?_⟩
  have hlen' : ∀ r ∈ rows, r.patterns.length =
      (cols.map fun x => x.term.inst (lowered h i ρ)).length := by
    simpa using hlen
  obtain ⟨hsome, hnone⟩ := find?_branch hrows harity hvalue.2 hlen' (by simp [hcol])
  rw [map_inst_lowered hfill hcol hi, selected?, selected?]
  cases hfind : rows'.find?
    (Matches (branchValues (cols.map fun x => x.term.inst (lowered h i ρ)) j (inner h ρ))) with
  | none => rw [hnone hfind]
  | some r' =>
    obtain ⟨r, hr, hcont⟩ := hsome r' hfind
    rw [hr]
    exact congrArg some hcont.specialized.index.symm

end Branch

section Trees
variable {e : Elaborator} {check : Context → Expr → Term → Elab Term}
  {cs : List (Clause Expr)} {span : Span}

/-- A case tree over columns that have values uses only clauses that some values select, and a
constructor is left out only if some values select no clause. -/
theorem selects_of_split (henv : env.WellFormed) (hcheck : e.Checks env check) {gas : ℕ}
    {c : Context} {row : Row} {rest : List Row} {goal t : Term} {s s' : ElaborationState}
    {coverage : Coverage} (hnode : Node env cs.length c (row :: rest) cols goal)
    (hs : s.Follows e env sol)
    (hr : e.split check cs span gas c row rest cols goal s = .ok (t, coverage) s')
    (hkeeps : ∀ m a, s'.conversion.store.solution? m = some a → sol' m = some a)
    (hfill : Fillable env sol' others c.locals cols ρ₀) :
    (∀ n ∈ coverage.used, Selects env sol' others cols ρ₀ (selected? (row :: rest)) (some n)) ∧
      (coverage.missing ≠ [] → Selects env sol' others cols ρ₀ (selected? (row :: rest)) none) := by
  induction gas generalizing c row rest cols goal s s' sol t coverage ρ₀ with
  | zero => contradiction
  | succ gas ih =>
    have hkeeps' (m : ℕ) (a : Term) (ha : s.conversion.store.solution? m = some a) :
        sol' m = some a :=
      hkeeps m a (hs.solutions (onward_split henv hcheck hnode hr) ha)
    obtain ⟨ρ, hρ, hv⟩ := hfill.exists_values
    cases splitting_of_split henv hcheck hnode hs hr with
    | leaf hvars hleaf =>
      obtain ⟨rfl, bs, -, -, hbs, -⟩ :=
        arrives_of_leaf hvars (hnode.length row (by simp)) (hnode.index row (by simp)) hleaf ρ
      have hfind : selected? (row :: rest) (cols.map fun x => x.term.inst ρ) = some row.index := by
        simp [selected?, Matches, hbs]
      refine ⟨fun n hn => ⟨ρ, hρ, hv, ?_⟩, fun h => absurd rfl h⟩
      rw [hfind, List.mem_singleton.mp hn]
    | @empty j col hcol hsplits =>
      have hcolumn := hv col (List.mem_of_getElem? hcol)
      obtain ⟨_, _, -, ⟨h, hh, -⟩, -⟩ := hsplits.fits henv ⟨hkeeps', hfill.fits ρ hρ⟩ hcolumn
      contradiction
    | @split j col hs' parts hcol hsplits hover hparts =>
      obtain ⟨i, hi⟩ := hfill.vars col (List.mem_of_getElem? hcol)
      have hpart (part : Option (Branch Term) × Coverage) (hpart : part ∈ parts) :
          (∀ n ∈ part.2.used, Selects env sol' others cols ρ₀ (selected? (row :: rest)) (some n)) ∧
            (part.2.missing ≠ [] → Selects env sol' others cols ρ₀
              (selected? (row :: rest)) none) := by
        obtain ⟨h, hh, u, v, hsu, hrun, hvs⟩ := exists_mem_of_forall₂_right hparts hpart
        have hfill' := Fillable.branch hfill hcol hi henv hsplits hkeeps' hh
        have hselects {rows' : List Row} {names : List String} {o : Option ℕ}
            (hspec : Specialized (h.context c names) j col.type h (row :: rest) rows') :=
          Selects.of_branch hfill hcol hi (o := o) henv hsplits hkeeps' hh
            (hover h hh).arity hnode.length hspec
        cases hrun with
        | missing hnames hspec =>
          obtain ⟨ρ, hρ, hv⟩ := hfill'.exists_values
          exact ⟨by simp, fun _ => hselects hspec ⟨ρ, hρ, hv, rfl⟩⟩
        | covered hnames hspec hsplit =>
          have hbranch := hnode.branch (hover h hh) hnames hcol hspec
          have hvFollows := (BranchRun.covered hnames hspec hsplit).onward henv hcheck hnode
            (hover h hh) hcol sol (hsu sol hs)
          rw [← Head.locals_context hnames] at hfill'
          obtain ⟨hused, hmissing⟩ := ih hbranch (hsu sol hs) hsplit
            (fun m a ha => hkeeps m a (hvFollows.solutions hvs ha)) hfill'
          exact ⟨fun n hn => hselects hspec (hused n hn), fun h => hselects hspec (hmissing h)⟩
      rw [used_foldl, missing_foldl]
      constructor
      · intro n hn
        rw [List.nil_append] at hn
        obtain ⟨part, hmem, hn⟩ := List.mem_flatMap.mp hn
        exact (hpart part hmem).1 n hn
      · intro hmissing
        obtain ⟨part, hmem, hne⟩ : ∃ part ∈ parts, part.2.missing ≠ [] := by
          by_contra hall
          push Not at hall
          exact hmissing (by simpa using hall)
        exact (hpart part hmem).2 hne

end Trees

end Elaborator

end LeveledTypes
