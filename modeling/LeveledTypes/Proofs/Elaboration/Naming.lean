import LeveledTypes.Proofs.Archive.Entry
import LeveledTypes.Proofs.Elaboration.Declaration
import LeveledTypes.Session.Module

/-!
# What a module gives

The definitions of a module that has no errors have the names that its declarations introduce, in
the order of the text and each once. Their binders are mere names, so that they are stored without
loss.
-/
namespace LeveledTypes

open Surface

section NameOnly

theorem Binder.nameOnly_nameOnly (x : Binder) : x.nameOnly.nameOnly = x.nameOnly := rfl

theorem Term.nameOnly_nameOnly (t : Term) : t.nameOnly.nameOnly = t.nameOnly := by
  induction t <;> simp_all [Term.nameOnly, Binder.nameOnly_nameOnly]

theorem ClassField.nameOnly_nameOnly (f : ClassField) : f.nameOnly.nameOnly = f.nameOnly := by
  simp [ClassField.nameOnly, Term.nameOnly_nameOnly, Function.comp_def]

theorem Body.nameOnly_nameOnly (b : Body) :
    (b.mapTerms Term.nameOnly).mapTerms Term.nameOnly = b.mapTerms Term.nameOnly := by
  cases b <;> simp [Body.mapTerms, Term.nameOnly_nameOnly, Function.comp_def]

theorem Definition.nameOnly_nameOnly (d : Definition) : d.nameOnly.nameOnly = d.nameOnly := by
  simp [Definition.nameOnly, Term.nameOnly_nameOnly, Body.nameOnly_nameOnly,
    Binder.nameOnly_nameOnly, Function.comp_def]

/-- Sealing keeps the names of definitions. -/
theorem map_name_sealGroup (env : Environment) (source : String) (ds : List Definition) :
    (sealGroup env source ds).map (·.name) = ds.map (·.name) := by
  simp [sealGroup, Definition.withDeps, Definition.nameOnly, Function.comp_def]

theorem nameOnly_of_sealGroup {env : Environment} {source : String} {ds : List Definition}
    {d : Definition} (h : d ∈ sealGroup env source ds) : d.nameOnly = d := by
  obtain ⟨d', hd', rfl⟩ := List.mem_map.mp h
  obtain ⟨d, -, rfl⟩ := List.mem_map.mp hd'
  have hd := Definition.nameOnly_nameOnly d
  simpa [Definition.nameOnly, Definition.withDeps] using hd

end NameOnly

namespace Elaborator
variable {e : Elaborator} {d : Decl}

/-- All definitions that are returned have the given names, in order. -/
def Names (ns : List GlobalName) (x : Elab (List Definition)) : Prop :=
  Ensures (fun _ => True) x fun ds => ds.map (·.name) = ns

namespace Names
variable {ns : List GlobalName}

theorem bind {α : Type} {x : Elab α} {f : α → Elab (List Definition)} (h : ∀ a, Names ns (f a)) :
    Names ns (x >>= f) :=
  Ensures.bind (ensures_true x) fun a _ => h a

theorem pure {ds : List Definition} (h : ds.map (·.name) = ns) :
    Names ns (pure ds) := Ensures.pure h

theorem fail {p : Problem} {span : Span} : Names ns (fail p span) := Ensures.throw _

end Names

/-- A function brings its own name only. -/
theorem names_func {type : Option Expr} {body : FuncBody} :
    Names [d.name] (e.func d type body) := by
  refine .bind fun ⟨c, tele, us⟩ => ?_
  dsimp -zeta only
  extract_lets explicit join
  have hjoin (ret : Term) : Names [d.name] (join ret) := by
    refine .bind fun _ => ?_
    extract_lets join'
    have hjoin' (body : Term) : Names [d.name] (join' body) := by
      refine .bind fun _ => .bind fun s => .bind fun _ => ?_
      simp only
      split
      · exact .bind fun _ => .pure rfl
      · exact .bind fun _ => .pure rfl
      · exact .bind fun _ => .pure rfl
    split
    · exact .bind hjoin'
    · exact .bind hjoin'
  split
  · exact .bind fun _ => .bind hjoin
  · exact .bind hjoin

theorem names_inst {x : Expr} {is : List (Implementation Expr)} : Names [d.name] (e.inst d x is) :=
  .bind fun _ => .bind fun _ => .bind fun _ => .bind fun _ => .bind fun _ => .bind fun _ =>
    .bind fun _ => .pure rfl

theorem map_name_ctorDefinition (tele : Telescope Term) {ctors : List CtorDecl}
    {parts : List CtorParts} (hlength : ctors.length ≤ parts.length) :
    ((ctors.zip parts).zipIdx.map fun ((k, p), i) => ctorDefinition d tele k i p).map (·.name) =
      ctors.map (·.name) := by
  calc
    _ = ((((ctors.zip parts).zipIdx.map Prod.fst).map Prod.fst).map (·.name)) := by
      rw [List.map_map, List.map_map, List.map_map]
      rfl
    _ = ctors.map (·.name) := by rw [List.zipIdx_map_fst, List.map_fst_zip hlength]

/-- A data type brings its name and the names of its constructors, in the order of the declaration.
-/
theorem names_data {univ : Option Expr} {ctors : List CtorDecl} :
    Names (d.name :: ctors.map (·.name)) (e.data d univ ctors) := by
  refine .bind fun ⟨c, tele, us⟩ => ?_
  dsimp -zeta only
  extract_lets join
  have hjoin (u : Universe) : Names (d.name :: ctors.map (·.name)) (join u) := by
    refine .bind fun _ => Ensures.bind (.mapM (R := fun _ _ => True) fun k _ => ensures_true _)
      fun parts hparts => ?_
    refine Names.bind fun _ => .bind fun s => .bind fun _ => .pure ?_
    have hlength : ctors.length ≤ (parts.map (·.zonk s)).length := by
      rw [List.length_map, hparts.length_eq]
    rw [List.map_cons, map_name_ctorDefinition _ hlength]
  split
  · exact .bind hjoin
  · refine .bind fun ⟨t, u⟩ => .bind fun k => ?_
    split
    · exact .bind hjoin
    · exact .bind hjoin

theorem ensures_ownFields (c : Context) (fs : List FieldDecl) :
    Ensures (fun _ => True) (e.ownFields c fs) fun own => own.map (·.name) = fs.map (·.name) := by
  induction fs generalizing c with
  | nil => exact .pure rfl
  | cons f fs ih =>
    refine .bind (ensures_true _) fun ⟨type, u⟩ _ => .bind (ensures_true _) fun _ _ => ?_
    extract_lets join
    have hjoin (default : Option Term) : Ensures (fun _ => True) (join default) fun own =>
        own.map (·.name) = (f :: fs).map (·.name) :=
      .bind (ih _) fun own hown => .pure (by simp [hown])
    split
    · exact .bind (ensures_true _) fun default _ => hjoin default
    · exact .bind (ensures_true _) fun default _ => hjoin default

/-- Accessors are named after the fields that they belong to; inherited fields have none. -/
theorem map_name_accessor (tele : Telescope Term) {n : ℕ} {all : List ClassField}
    {fields : List FieldDecl} (hall : (all.drop n).map (·.name) = fields.map (·.name)) :
    (((all.zipIdx.drop n).zip fields).map fun ((f, i), k) => accessor d tele k.span i f).map
      (·.name) =
      fields.map (·.name) := by
  have hlength : (all.zipIdx.drop n).length ≤ fields.length := by
    simpa using (congrArg List.length hall).le
  calc
    _ = (((((all.zipIdx.drop n).zip fields).map Prod.fst).map Prod.fst).map (·.name)) := by
      rw [List.map_map, List.map_map, List.map_map]
      rfl
    _ = (all.drop n).map (·.name) := by
      rw [List.map_fst_zip hlength, List.map_drop, List.zipIdx_map_fst]
    _ = fields.map (·.name) := hall

theorem names_cls {supers : List Expr} {fields : List FieldDecl} :
    Names (d.name :: fields.map (·.name)) (e.cls d supers fields) := by
  refine .bind fun ⟨c, tele, us⟩ => .bind fun ⟨c', hidden⟩ => Ensures.bind
    (ensures_ownFields _ _) fun own hown => ?_
  refine Names.bind fun _ => .bind fun s => .bind fun _ => .pure ?_
  rw [List.map_cons, map_name_accessor]
  simpa [Function.comp_def] using hown

/-- A declaration gives definitions of the names that it introduces. -/
theorem names_decl : Names d.names (e.decl d) := by
  unfold decl Decl.names
  cases d.body with
  | func type body => exact names_func
  | data univ ctors => exact names_data
  | cls supers fields => exact names_cls
  | inst x is => exact names_inst

end Elaborator

namespace Resolver
variable {r : Resolver}

theorem ensures_true {α : Type} (x : Resolve α) : Ensures (fun _ => True) x fun _ => True := by
  intro s _
  split <;> trivial

theorem ensures_saving {α : Type} {x : Resolve α} {Q : α → Prop} (h : Ensures (fun _ => True) x Q) :
    Ensures (fun _ => True) (saving x) Q := by
  refine .of_forall fun s _ => ⟨fun a t hr => ?_, fun _ _ _ => trivial⟩
  unfold saving at hr
  cases hx : x s with
  | ok b t' =>
    rw [hx] at hr
    obtain ⟨rfl, -⟩ := EStateM.Result.ok.inj hr
    exact h.ok trivial hx
  | error e t' =>
    rw [hx] at hr
    cases hr

/-- Resolution does not change the name of a constructor. -/
theorem ensures_ctorDecl (params : Telescope Expr) (c : CtorDecl) :
    Ensures (fun _ => True) (r.ctorDecl params c) fun c' => c'.name = c.name := by
  refine ensures_saving ?_
  unfold guardedCtor
  split
  · exact .bind (ensures_true _) fun _ _ => .pure rfl
  · next ps _ =>
    extract_lets join count
    have hjoin (u : PUnit) : Ensures (fun _ => True) (join u) fun c' => c'.name = c.name :=
      .bind (ensures_true _) fun _ _ => .bind (ensures_true _) fun ⟨ps, vs⟩ _ => .bind
        (ensures_true _) fun _ _ =>
        .bind (ensures_true _) fun _ _ => .pure rfl
    split
    · exact .bind (ensures_true _) fun u _ => hjoin u
    · exact hjoin ⟨⟩

theorem ensures_fields (fs : List FieldDecl) :
    Ensures (fun _ => True) (r.fields fs) fun fs' => fs'.map (·.name) = fs.map (·.name) := by
  induction fs with
  | nil => exact .pure rfl
  | cons f fs ih =>
    refine .bind (ensures_true _) fun type _ => .bind (ensures_true _) fun default _ => ?_
    exact .bind (ensures_true _) fun _ _ => .bind ih fun fs' hfs' => .pure (by simp [hfs'])

/-- Resolution keeps the names that a declaration introduces. -/
theorem ensures_decl (d : Decl) :
    Ensures (fun _ => True) (r.decl d) fun d' => d'.names = d.names := by
  refine .bind (ensures_true _) fun tele _ => ?_
  extract_lets join
  have hjoin {body : DeclBody} (hbody : (⟨d.span, d.name, tele, body⟩ : Decl).names = d.names) :
      Ensures (fun _ => True) (join body) fun d' => d'.names = d.names := .pure hbody
  have hnames : d.names = (⟨d.span, d.name, tele, d.body⟩ : Decl).names := rfl
  cases hbody : d.body with
  | func type body =>
    refine .bind (ensures_true _) fun type _ => ?_
    cases body with
    | expr x => exact .bind (ensures_true _) fun _ _ => hjoin (by rw [hnames, hbody]; rfl)
    | clauses cs =>
      exact .bind (ensures_true _) fun _ _ => .bind (ensures_true _) fun _ _ => hjoin
        (by rw [hnames, hbody]; rfl)
  | data univ cs =>
    refine .bind (ensures_true _) fun univ _ => .bind (.mapM fun c _ => ensures_ctorDecl _ c)
      fun cs' hcs' => hjoin ?_
    have hcs : cs'.map (·.name) = cs.map (·.name) := by
      clear hbody hjoin
      induction hcs' with
      | nil => rfl
      | cons hc _ ih => rw [List.map_cons, List.map_cons, hc, ih]
    rw [hnames, hbody]
    simp [Decl.names, hcs]
  | cls supers fs =>
    refine .bind (ensures_true _) fun supers _ => .bind (ensures_fields _) fun fs' hfs' => hjoin ?_
    rw [hnames, hbody]
    simp [Decl.names, hfs']
  | inst c is =>
    exact .bind (ensures_true _) fun _ _ => .bind (ensures_true _) fun _ _ => hjoin
      (by rw [hnames, hbody]; rfl)

/-- Names that are introduced without a repetition are new, and are kept in front of the others. -/
theorem introduce_eq_none {own ns own' : List GlobalName} (h : introduce own ns = (none, own')) :
    own' = ns.reverse ++ own ∧ (own.Nodup → own'.Nodup) := by
  induction ns generalizing own with
  | nil =>
    obtain rfl : own = own' := by simpa [introduce] using h
    exact ⟨rfl, id⟩
  | cons n ns ih =>
    rw [introduce] at h
    split at h
    case isTrue => simp at h
    case isFalse hn =>
      obtain ⟨rfl, hnodup⟩ := ih h
      exact ⟨by simp, fun hown => hnodup (List.nodup_cons.mpr ⟨by simpa using hn, hown⟩)⟩

/-- Resolution answers every declaration, by a declaration or an error. -/
theorem length_decls {own : List GlobalName} {s : State} {ds : List Decl} :
    (r.decls own s ds).length = ds.length := by
  induction ds generalizing r own s with
  | nil => rfl
  | cons d ds ih =>
    rw [decls]
    split
    · simp [ih]
    · simp only
      split <;> simp [ih]

/-- If all declarations can be resolved, they introduce different names. -/
theorem nodup_of_decls {own : List GlobalName} {s : State} {ds ds' : List Decl} (hown : own.Nodup)
    (h : r.decls own s ds = ds'.map .ok) :
    ds'.map (·.names) = ds.map (·.names) ∧ (own ++ ds.flatMap (·.names)).Nodup := by
  induction ds generalizing r own s ds' with
  | nil =>
    obtain rfl : ds' = [] := by simpa [decls] using h.symm
    simpa using hown
  | cons d ds ih =>
    rw [decls] at h
    rcases hintro : introduce own d.names with ⟨found, own'⟩
    cases found with
    | some n =>
      cases ds' <;> simp [hintro] at h
    | none =>
      obtain ⟨hown', hnodup⟩ := introduce_eq_none hintro
      simp only [hintro] at h
      split at h
      case h_2 => cases ds' <;> simp at h
      case h_1 d' s' hd' =>
        cases ds' with
        | nil => simp at h
        | cons e ds' =>
          obtain ⟨hde, hrest⟩ := List.cons.inj h
          obtain rfl := Except.ok.inj hde
          have hnames : d'.names = d.names := ((ensures_saving (ensures_decl d)).ok trivial hd').2
          obtain ⟨hds, hrest⟩ := ih (hnodup hown) hrest
          refine ⟨by simp [hnames, hds], ?_⟩
          rw [hown'] at hrest
          refine (List.Perm.nodup_iff ?_).mp hrest
          rw [List.flatMap_cons, ← List.append_assoc]
          exact ((d.names.reverse_perm.append_right own).trans List.perm_append_comm).append_right _

/-- The names that a declaration introduces, if it could be resolved. -/
def resolvedNames : Except Error Decl → List GlobalName
  | .ok d => d.names
  | .error _ => []

/-- Declarations that can be resolved keep the names that they introduce. -/
theorem sublist_names_of_decls (own : List GlobalName) (s : State) (ds : List Decl) :
    List.Sublist ((r.decls own s ds).flatMap resolvedNames) (ds.flatMap (·.names)) := by
  induction ds generalizing r own s with
  | nil => exact List.Sublist.refl _
  | cons d ds ih =>
    rw [decls, List.flatMap_cons]
    split
    · exact (ih _ _).trans (List.sublist_append_right _ _)
    · simp only
      split
      · next hd =>
        have hnames : _ = d.names := ((ensures_saving (ensures_decl d)).ok trivial hd).2
        rw [List.flatMap_cons, resolvedNames, hnames]
        exact (ih _ _).append_left _
      · exact (ih _ _).trans (List.sublist_append_right _ _)

end Resolver

/-- A declaration that succeeds brings definitions of exactly its names, none of which mentions the
place of a variable. -/
theorem Progress.names_of_add {base : Registry} {limits : Limits} {text : String}
    {p : Progress} {d : Decl} {ks : List Definition} (h : (p.add base limits text d).1 = .ok ks) :
    ks.map (·.name) = d.names ∧ ∀ k ∈ ks, k.nameOnly = k := by
  unfold add at h
  split at h
  case h_1 => simp at h
  case h_2 =>
    simp only at h
    split at h
    case h_2 => simp at h
    case h_1 ds s hd =>
      obtain rfl := Except.ok.inj h
      refine ⟨?_, fun k hk => nameOnly_of_sealGroup hk⟩
      rw [map_name_sealGroup]
      exact (Elaborator.names_decl.ok trivial hd).2

namespace ModuleOutcome
variable {base : Registry} {limits : Limits} {text : String}

/-- Declarations that leave no error have all been resolved, and give definitions of the names that
they introduce. -/
theorem exists_definitions_of_foldl {ds : List (Except Error Decl × List GlobalName)}
    {acc : ModuleOutcome × Progress} (h : (ds.foldl (step base limits text) acc).1.errors = []) :
    ∃ (ds' : List Decl) (ks : List Definition), ds.map (·.1) = ds'.map .ok ∧
      (ds.foldl (step base limits text) acc).1.definitions = acc.1.definitions ++ ks ∧
      ks.map (·.name) = ds'.flatMap (·.names) ∧ acc.1.errors = [] ∧ ∀ k ∈ ks, k.nameOnly = k := by
  induction ds generalizing acc with
  | nil => exact ⟨[], [], rfl, by simp, rfl, h, by simp⟩
  | cons d ds ih =>
    obtain ⟨ds', ks, hds, hdefs, hnames, herrors, hks⟩ := ih h
    obtain ⟨out, progress⟩ := acc
    obtain ⟨d | d, ns⟩ := d
    · simp [step] at herrors
    · simp only [step] at herrors hdefs
      rcases hadd : (progress.add base limits text d).1 with e | ks₀
      · simp [hadd] at herrors
      · simp only [hadd] at herrors hdefs
        obtain ⟨hnames₀, hks₀⟩ := Progress.names_of_add hadd
        refine ⟨d :: ds', ks₀ ++ ks,
          by simp [hds], ?_, by simp [hnames₀, hnames], herrors, fun k hk => ?_⟩
        · rw [List.foldl_cons, ← List.append_assoc]
          simpa only [step, hadd] using hdefs
        · exact (List.mem_append.mp hk).elim (hks₀ k) (hks k)

variable (base limits text) in
/-- Declarations add definitions of names that they introduce, whether there are errors or not. -/
theorem exists_sublist_of_foldl (ds : List (Except Error Decl × List GlobalName))
    (acc : ModuleOutcome × Progress) :
    ∃ ks, (ds.foldl (step base limits text) acc).1.definitions = acc.1.definitions ++ ks ∧
      List.Sublist (ks.map (·.name)) ((ds.map (·.1)).flatMap Resolver.resolvedNames) := by
  induction ds generalizing acc with
  | nil => exact ⟨[], by simp, List.Sublist.refl _⟩
  | cons d ds ih =>
    obtain ⟨ks, hks, hnames⟩ := ih (step base limits text acc d)
    rw [List.foldl_cons, hks, List.map_cons, List.flatMap_cons]
    obtain ⟨out, progress⟩ := acc
    obtain ⟨err | d, ns⟩ := d
    · exact ⟨ks, rfl, hnames⟩
    · rcases hadd : progress.add base limits text d with ⟨err | ks₀, progress'⟩
      · exact ⟨ks, by simp [step, hadd], hnames.trans (List.sublist_append_right _ _)⟩
      · have hadd' : (progress.add base limits text d).1 = .ok ks₀ := by rw [hadd]
        refine ⟨ks₀ ++ ks, by simp [step, hadd], ?_⟩
        rw [List.map_append, (Progress.names_of_add hadd').1]
        exact hnames.append_left _

end ModuleOutcome

theorem map_fst_zip_resolve (m : Surface.Module) (scope : Scope) :
    ((m.resolve scope).zip (m.decls.map (·.names))).map (·.1) = m.resolve scope := by
  refine List.map_fst_zip ?_
  rw [List.length_map]
  exact Resolver.length_decls.le

/-- The definitions of a module have names that its declarations introduce, in the order of the
text. -/
theorem sublist_names_of_elaborateModule (base : Registry) (limits : Limits) (text : String)
    (m : Surface.Module) (visible : List GlobalName) :
    List.Sublist ((elaborateModule base limits text m visible).definitions.map (·.name))
      (m.decls.flatMap (·.names)) := by
  obtain ⟨ks, hks, hnames⟩ := ModuleOutcome.exists_sublist_of_foldl base limits text
    ((m.resolve (Scope.importAll {} (visible.filterMap base.get?))).zip (m.decls.map (·.names)))
    ({}, {})
  rw [map_fst_zip_resolve] at hnames
  unfold elaborateModule
  simp only [hks, List.nil_append]
  exact hnames.trans (Resolver.sublist_names_of_decls _ _ _)

/-- The definitions of a module without errors have the names that its declarations introduce. -/
theorem names_of_elaborateModule {base : Registry} {limits : Limits} {text : String}
    {m : Surface.Module} {visible : List GlobalName}
    (h : (elaborateModule base limits text m visible).errors = []) :
    (elaborateModule base limits text m visible).definitions.map (·.name) =
      m.decls.flatMap (·.names) ∧ (m.decls.flatMap (·.names)).Nodup ∧
      ∀ d ∈ (elaborateModule base limits text m visible).definitions, d.nameOnly = d := by
  unfold elaborateModule at h ⊢
  obtain ⟨ds', ks, hds, hdefs, hnames, -, hks⟩ := ModuleOutcome.exists_definitions_of_foldl h
  rw [map_fst_zip_resolve] at hds
  obtain ⟨hds', hnodup⟩ := Resolver.nodup_of_decls List.nodup_nil hds
  have hdecls : ds'.flatMap (·.names) = m.decls.flatMap (·.names) := by
    rw [List.flatMap_def, List.flatMap_def, hds']
  simp only [hdefs, List.nil_append]
  exact ⟨hnames.trans hdecls, by simpa using hnodup, hks⟩

end LeveledTypes
