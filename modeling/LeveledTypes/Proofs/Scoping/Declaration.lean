import LeveledTypes.Proofs.Elaboration.Declaration
import LeveledTypes.Proofs.Level.Completeness
import LeveledTypes.Proofs.Scoping.Instance

/-!
# Scoped declarations

Over scoped definitions, whatever kind of declaration is elaborated, no term of its definitions has
a variable that is not bound: the type of a parameter mentions the parameters before it, and the
type and the body of a definition mention its parameters.
-/
namespace LeveledTypes

open Surface

section Definitions
variable {A : Arities} {n : ℕ}

/-- The free variables are below a bound. -/
def Term.Below (n : ℕ) (t : Term) : Prop := t.anyVar (n ≤ ·) = false

theorem Term.Scoped.below {t : Term} (ht : t.Scoped A n) : t.Below n := ht.anyVarFrom

/-- A data type or a class is closed if its parameters are, however many it has. -/
theorem Term.below_of_args {t : Term} {args : List Term} (hvar : ∀ i, t ≠ .var i)
    (hparts : t.parts = args.map (0, ·)) (h : ∀ a ∈ args, a.Scoped A n) : t.Below n := by
  rw [Below, anyVar, anyVarFrom_eq_any_parts 0 hvar, hparts, List.any_eq_false]
  intro q hq
  obtain ⟨a, ha, rfl⟩ := List.mem_map.mp hq
  simpa [Below, anyVar] using (h a ha).below

/-- The types of parameters are closed but for the parameters before them. -/
theorem Term.ScopedTele.below {tele : Telescope Term} (h : ScopedTele A 0 tele) (i : ℕ)
    (p : Param Term) (hp : tele[i]? = some p) : p.type.Below i := by
  simpa using (scopedTele_iff.mp h i p hp).below

/-- A definition without a body yet. -/
theorem Environment.Scoped.announce {env : Environment} (henv : env.Scoped A) {d : Definition}
    (hbody : d.body = .pending) (htele : Term.ScopedTele A 0 d.tele)
    (htype : d.type.Scoped A d.tele.length) :
    (⟨env.base, env.own.insert d⟩ : Environment).Scoped A := by
  have hget {n : GlobalName} {k : Definition}
      (h : (⟨env.base, env.own.insert d⟩ : Environment).get? n = some k) :
      n = d.name ∧ k = d ∨ env.get? n = some k := by
    rw [Environment.get?, Registry.get?_insert] at h
    split at h
    case isTrue hn => exact .inl ⟨hn.symm, (Option.some.inj h).symm⟩
    case isFalse => exact .inr h
  refine ⟨fun n k h => ?_, fun n k h => ?_, fun n k h => ?_,
    fun n k cs h hk c hc l hl data index params hlbody => ?_⟩
  · obtain ⟨rfl, rfl⟩ | h := hget h
    · rfl
    · exact henv.name n k h
  · obtain ⟨-, rfl⟩ | h := hget h
    · exact ⟨by simpa using Term.scopedTele_iff.mp htele, htype, by simp [hbody, Body.Throughout]⟩
    · exact henv.terms n k h
  · obtain ⟨-, rfl⟩ | h := hget h
    · simp [Definition.Suits, hbody]
    · exact henv.suits n k h
  · obtain ⟨-, rfl⟩ | h := hget h
    · simp [hbody] at hk
    · obtain ⟨-, rfl⟩ | hl := hget hl
      · simp [hbody] at hlbody
      · exact henv.params n k cs h hk c hc l hl data index params hlbody

end Definitions

namespace Elaborator
variable {e : Elaborator} {A : Arities} {env : Environment} {c : Context} {d : Decl}

section Solving
variable (henv : env.Scoped A)

include henv

theorem scopes_round {force : Bool} : e.Scopes A env none (e.round force) fun _ => True := by
  refine .bind scopes_environment fun env' h => ?_
  subst h
  refine .bind (scopes_converting fun _ => Converter.scopes_retryConstraints henv) fun _ _ => ?_
  exact .bind (scopes_resolveObligations henv) fun _ _ => .pure trivial

theorem scopes_settle {force : Bool} : e.Scopes A env none (e.settle force) fun _ => True := by
  intro s hs
  induction s using settle.induct e force with
  | case1 s _ err t hr =>
    rw [settle_of_error hr]
    exact (scopes_round henv).error hs hr
  | case2 s before _ helped t hr hless ih =>
    rw [settle_of_ok hr, if_pos hless]
    exact ih ((scopes_round henv).ok hs hr).1
  | case3 s before _ helped t hr hless =>
    rw [settle_of_ok hr, if_neg hless]
    exact ⟨((scopes_round henv).ok hs hr).1, trivial⟩

theorem scopes_solveConstraints : e.Scopes A env none e.solveConstraints fun _ => True := by
  refine .bind (scopes_settle henv) fun _ _ => .bind (scopes_settle henv) fun _ _ =>
    .bind scopes_store fun s _ => ?_
  split
  · exact scopes_fail
  · exact .pure trivial

/-- Solving the levels leaves the holes as they are. -/
theorem scopes_solveAll : e.Scopes A env none e.solveAll fun _ => True := by
  refine .bind (P := fun _ => True)
    (.tryCatch (.bind (scopes_solveConstraints henv) fun _ _ => .pure trivial)
    fun _ => .pure trivial) fun solved _ => scopes_of_fixed fun os =>
      .bind scopes_store fun s hs => ?_
  refine .bind (P := fun _ => True) (fun t ht => ⟨ht, trivial⟩) fun t _ => ?_
  split
  · exact scopes_fail
  · split
    · exact .throw _
    · split
      case h_1 s' hs' =>
        obtain ⟨ps, qs, -, -, rfl⟩ := Store.solveLevels_eq_ok hs'
        refine scopes_modifyStore fun _ os' hos _ => ?_
        obtain rfl := hos os rfl
        exact ⟨⟨hs.solutions, hs.types, hs.constraints, hs.waiting⟩, trivial⟩
      case h_2 => exact .throw _

end Solving

theorem scopes_ensureSolved {fixed : Option (List Obligation)} {ts : List Term} :
    e.Scopes A env fixed (ensureSolved ts) fun _ => True := by
  refine .bind scopes_store fun s _ => ?_
  split
  · exact .pure trivial
  · split
    · exact .pure trivial
    · exact scopes_fail

section Telescopes
variable {tele : Telescope Term} {n : ℕ}

theorem scoped_zonkTele {os : List Obligation} {s : Store} (hs : s.Scoped A os)
    (htele : Term.ScopedTele A n tele) : Term.ScopedTele A n (zonkTele s tele) := by
  refine Term.scopedTele_iff.mpr fun i p hp => ?_
  obtain ⟨q, hq, rfl⟩ := Option.map_eq_some_iff.mp ((List.getElem?_map ..).symm.trans hp)
  exact hs.zonk (Term.scopedTele_iff.mp htele i q hq)

theorem scoped_implicitTele (htele : Term.ScopedTele A n tele) :
    Term.ScopedTele A n (implicitTele tele) := by
  refine Term.scopedTele_iff.mpr fun i p hp => ?_
  obtain ⟨q, hq, rfl⟩ := Option.map_eq_some_iff.mp ((List.getElem?_map ..).symm.trans hp)
  exact Term.scopedTele_iff.mp htele i q hq

@[simp] theorem length_zonkTele {s : Store} : (zonkTele s tele).length = tele.length :=
  List.length_map _

@[simp] theorem length_implicitTele : (implicitTele tele).length = tele.length := List.length_map _

/-- A context with parameters, and the parameters that it has beyond those of another one. -/
structure Extended (A : Arities) (c : Context) (tele : Telescope Term) (d : Context) : Prop where
  context : d.Scoped A
  params : Term.ScopedTele A c.length tele
  length : d.length = c.length + tele.length

theorem scopes_tele (henv : env.Scoped A) (hc : c.Scoped A) {ps : Telescope Expr} :
    e.Scopes A env none (e.tele c ps) fun r => Extended A c r.2.1 r.1 := by
  induction ps generalizing c with
  | nil => exact .pure ⟨hc, trivial, rfl⟩
  | cons p ps ih =>
    refine .bind (scopes_inferType henv (scopes_gas henv _) hc) fun (type, u) htype => ?_
    refine .bind (ih (hc.push htype)) fun (d, tele, us) ⟨hd, htele, hlength⟩ =>
      .pure ⟨hd, ⟨htype, htele⟩, ?_⟩
    simp only [Context.length_push] at hlength
    simp only [List.length_cons]
    omega

end Telescopes

/-- If a run from a scoped state returns a value, the value is as said. -/
def Yields {α : Type} (e : Elaborator) (A : Arities) (env : Environment) (x : Elab α)
    (Q : α → Prop) : Prop :=
  ∀ s a t, s.Scoped A e env none → x s = .ok a t → Q a

section Yields
variable {α β : Type} {x : Elab α} {f : α → Elab β} {P : α → Prop} {Q : β → Prop}

theorem Yields.of_scopes (h : e.Scopes A env none x P) : e.Yields A env x P :=
  fun _ _ _ hs hr => (h.ok hs hr).2

theorem Yields.bind (hx : e.Scopes A env none x P) (hf : ∀ a, P a → e.Yields A env (f a) Q) :
    e.Yields A env (x >>= f) Q := by
  intro s b t hs hr
  obtain ⟨a, u, hxu, hr⟩ := bind_eq_ok.mp hr
  obtain ⟨hu, ha⟩ := hx.ok hs hxu
  exact hf a ha u b t hu hr

/-- What follows runs over the definitions with the one that has no body yet. -/
theorem Yields.announce {g : Unit → Elab β} {span : Span} {name : GlobalName}
    {tele : Telescope Term} {type : Term} (henv : env.Scoped A) (htele : Term.ScopedTele A 0 tele)
    (htype : type.Scoped A tele.length) (hg : ∀ env', env'.Scoped A →
      e.Scopes A env' none (g ()) Q) :
    e.Yields A env (announce span name tele type >>= g) Q := by
  intro s b t hs hr
  obtain ⟨_, u, hu, hr⟩ := bind_eq_ok.mp hr
  obtain ⟨-, rfl⟩ := EStateM.Result.ok.inj hu
  let d : Definition := { span, name, tele, type, body := .pending }
  have hs' : ElaborationState.Scoped A e ⟨env.base, env.own.insert d⟩ none
      { s with own := s.own.insert d } :=
    ⟨by rw [← hs.environment], hs.conversion, hs.contexts, hs.among⟩
  exact ((hg _ (henv.announce rfl htele htype)).ok hs' hr).2

end Yields

section Kinds
variable (henv : env.Scoped A)

include henv

/-- How the elaboration of every declaration ends. -/
theorem scopes_finish {α : Type} {g : Store → List Term} {f : Store → Elab α} {Q : α → Prop}
    (hf : ∀ s : Store, s.Scoped A [] → e.Scopes A env none (f s) Q) :
    e.Scopes A env none (do e.solveAll; let s ← store; ensureSolved (g s); f s) Q :=
  .bind (scopes_solveAll henv) fun _ _ => .bind scopes_store fun s hs =>
    .bind scopes_ensureSolved fun _ _ => hf s hs

/-- The parameters, the type and the body of a function have no variables but the parameters, before
and after they are zonked. -/
theorem yields_func {type : Option Expr} {body : FuncBody} :
    e.Yields A env (e.func d type body) fun ds => ∀ k ∈ ds, k.Throughout Term.Below := by
  refine .bind (scopes_tele henv .empty) fun (c, tele, us) hc => ?_
  have hlength : c.length = tele.length := hc.length.trans (Nat.zero_add _)
  dsimp -zeta only
  extract_lets explicit join
  have hjoin {ret : Term} (hret : ret.Scoped A c.length) :
      e.Yields A env (join ret) fun ds => ∀ k ∈ ds, k.Throughout Term.Below := by
    refine .announce henv hc.params (hlength ▸ hret) fun env' henv' => ?_
    extract_lets join'
    have hjoin' {body : Term} (hbody : body.Scoped A c.length) :
        e.Scopes A env' none (join' body) fun ds => ∀ k ∈ ds, k.Throughout Term.Below := by
      refine scopes_finish henv' fun s hs => ?_
      have hzonk {t : Term} (ht : t.Scoped A c.length) :
          (s.zonk t).Below (zonkTele s tele).length := by
        rw [length_zonkTele, ← hlength]
        exact (hs.zonk ht).below
      have hpure (decreasing : Option ℕ) : ∀ k ∈ [(⟨d.span, d.name, zonkTele s tele, s.zonk ret,
          .func (s.zonk body) decreasing, [], default⟩ : Definition)], k.Throughout Term.Below := by
        simp only [List.mem_singleton, forall_eq]
        exact ⟨Term.ScopedTele.below (scoped_zonkTele hs hc.params), hzonk hret, hzonk hbody⟩
      split
      · exact .bind (.pure (P := fun _ => True) trivial) fun _ _ => .pure (hpure _)
      · exact .bind (.pure (P := fun _ => True) trivial) fun _ _ => .pure (hpure _)
      · exact .bind (P := fun _ => False) scopes_fail fun _ h => h.elim
    split
    · exact .bind ((scopes_gas henv' _).check _ _ _ hc.context hret) fun _ h => hjoin' h
    · refine .bind (scopes_clauses henv' (scopes_gas henv' _).check hc.context
        (fun x hx => ?_) hret) fun _ h => hjoin' h
      obtain ⟨⟨x, i⟩, hxi, rfl⟩ := List.mem_map.mp hx
      have hget := List.mem_zipIdx_iff_getElem?.mp (List.mem_filter.mp (List.mem_reverse.mp hxi)).1
      exact ⟨(List.getElem?_eq_some_iff.mp hget).1, (hc.context.entries.getElem? hget).1⟩
  split
  · exact .bind (scopes_inferType henv (scopes_gas henv _) hc.context) fun p hp =>
      .bind (.pure hp) fun _ h => hjoin h
  · exact .bind (scopes_freshType hc.context) fun _ h => hjoin h

/-- The type of an instance and the values of its fields have no variables but its parameters. -/
theorem yields_inst {x : Expr} {is : List (Implementation Expr)} :
    e.Yields A env (e.inst d x is) fun ds => ∀ k ∈ ds, k.Throughout Term.Below := by
  refine .of_scopes (.bind (scopes_tele henv .empty) fun (c, tele, us) hc => ?_)
  have hlength : c.length = tele.length := hc.length.trans (Nat.zero_add _)
  refine .bind (scopes_inferType henv (scopes_gas henv _) hc.context) fun (type, u) htype => ?_
  refine .bind (scopes_classType henv hc.context htype) fun k hk => ?_
  refine .bind (scopes_implementations henv (scopes_gas henv _) hc.context hk)
    fun values hvalues => ?_
  refine scopes_finish henv fun s hs => .pure ?_
  simp only [List.mem_singleton, forall_eq]
  have hzonk {t : Term} (ht : t.Scoped A c.length) : (s.zonk t).Below (zonkTele s tele).length := by
    rw [length_zonkTele, ← hlength]
    exact (hs.zonk ht).below
  exact ⟨Term.ScopedTele.below (scoped_zonkTele hs hc.params), hzonk hk,
    hzonk ⟨hk.2, Term.scopedAll_iff.mpr hvalues⟩⟩

end Kinds

section Constructors
variable {n : ℕ}

/-- The fields of a constructor are over the parameters of the data type. If it is guarded, its
index terms and its fields are over the variables of its patterns. -/
structure CtorParts.Scoped (A : Arities) (n : ℕ) (p : CtorParts) : Prop where
  free : p.guard? = none → Term.ScopedTele A n p.fields
  guarded : ∀ vars idx, p.guard? = some (vars, idx) →
    Term.ScopedTele A 0 vars ∧ (∀ t ∈ idx, t.Scoped A vars.length) ∧
    Term.ScopedTele A vars.length p.fields

/-- Solutions are closed, so that zonking keeps the parts of a constructor over their contexts. -/
theorem CtorParts.Scoped.zonk {p : CtorParts} (hp : p.Scoped A n) {s : Store} {os : List Obligation}
    (hs : s.Scoped A os) : (p.zonk s).Scoped A n := by
  obtain ⟨guard?, fields⟩ := p
  cases guard? with
  | none => exact ⟨fun _ => scoped_zonkTele hs (hp.free rfl), by simp [CtorParts.zonk]⟩
  | some guard =>
    obtain ⟨hvars, hidx, hfields⟩ := hp.guarded _ _ rfl
    refine ⟨by simp [CtorParts.zonk], ?_⟩
    rintro vars idx ⟨⟩
    rw [length_zonkTele]
    refine ⟨scoped_zonkTele hs hvars, fun t ht => ?_, scoped_zonkTele hs hfields⟩
    obtain ⟨u, hu, rfl⟩ := List.mem_map.mp ht
    exact hs.zonk (hidx u hu)

theorem scopes_ctorFields (henv : env.Scoped A) (hc : c.Scoped A) {k : CtorDecl} {u : Universe} :
    e.Scopes A env none (e.ctorFields c k u) (Term.ScopedTele A c.length) := by
  refine .bind (scopes_tele henv hc) fun (c', fields, us) h => ?_
  exact .bind (.forM fun _ _ => scopes_universeLe) fun _ _ => .pure h.params

theorem scopes_ctorParts (henv : env.Scoped A) (hc : c.Scoped A) {tele : Telescope Term}
    (htele : Term.ScopedTele A 0 tele) {k : CtorDecl} {u : Universe} :
    e.Scopes A env none (e.ctorParts c tele u k) (CtorParts.Scoped A c.length) := by
  unfold ctorParts
  split
  case h_1 =>
    exact .bind (scopes_ctorFields henv hc) fun fields h => .pure ⟨fun _ => h, by simp⟩
  case h_2 ps _ =>
    refine .bind (scopes_guardPatterns henv .empty htele (by simp)) fun (c', idx) ⟨hc', hidx⟩ => ?_
    refine .bind (scopes_ctorFields henv hc') fun fields hfields => .pure ⟨by simp, ?_⟩
    rintro vars idx' ⟨⟩
    rw [Context.length_tele]
    exact ⟨hc'.tele, hidx, hfields⟩

/-- A constructor has its parameters, or the variables of its patterns, before its fields. -/
theorem throughout_ctorDefinition {tele : Telescope Term} (htele : Term.ScopedTele A 0 tele)
    {k : CtorDecl} {index : ℕ} {p : CtorParts} (hp : p.Scoped A tele.length) :
    (ctorDefinition d tele k index p).Throughout Term.Below := by
  obtain ⟨guard?, fields⟩ := p
  have hdata {n : ℕ} {args : List Term} (h : ∀ a ∈ args, a.Scoped A n) :
      (Term.data d.name .params args).Below n :=
    Term.below_of_args (by simp) (by simp [Term.parts]) h
  cases guard? with
  | none =>
    have hfields : Term.ScopedTele A (0 + (implicitTele tele).length) fields := by
      simpa using hp.free rfl
    refine ⟨Term.ScopedTele.below (Term.scopedTele_append.mpr ⟨scoped_implicitTele htele, hfields⟩),
      hdata fun a ha => ?_, by simp [ctorDefinition, Body.Throughout]⟩
    obtain ⟨i, hi, rfl⟩ := List.mem_map.mp ha
    have hlt := List.mem_range.mp hi
    simp only [ctorDefinition, List.length_append, length_implicitTele, Term.Scoped]
    omega
  | some guard =>
    obtain ⟨vars, idx⟩ := guard
    obtain ⟨hvars, hidx, hfields⟩ := hp.guarded vars idx rfl
    refine ⟨Term.ScopedTele.below (Term.scopedTele_append.mpr ⟨hvars, by simpa using hfields⟩),
      hdata fun a ha => ?_, fun t ht => (hidx t ht).below⟩
    obtain ⟨t, ht, rfl⟩ := List.mem_map.mp ha
    simpa [ctorDefinition] using (hidx t ht).lift fields.length

end Constructors

/-- The constructors are elaborated in the context of the parameters, which become theirs. -/
theorem yields_data (henv : env.Scoped A) {univ : Option Expr} {ctors : List CtorDecl} :
    e.Yields A env (e.data d univ ctors) fun ds => ∀ k ∈ ds, k.Throughout Term.Below := by
  refine .bind (scopes_tele henv .empty) fun (c, tele, us) hc => ?_
  have hlength : c.length = tele.length := hc.length.trans (Nat.zero_add _)
  dsimp -zeta only
  extract_lets join
  have hjoin (u : Universe) : e.Yields A env (join u) fun ds => ∀ k ∈ ds,
      k.Throughout Term.Below := by
    refine .announce henv hc.params trivial fun env' henv' => ?_
    refine .bind (.mapM (R := fun _ p => CtorParts.Scoped A c.length p) fun k _ =>
      scopes_ctorParts henv' hc.context hc.params) fun parts hparts => ?_
    refine scopes_finish henv' fun s hs => .pure fun k hk => ?_
    have htele : Term.ScopedTele A 0 (zonkTele s tele) := scoped_zonkTele hs hc.params
    obtain rfl | hk := List.mem_cons.mp hk
    · exact ⟨htele.below, Term.Scoped.below (A := A) trivial, trivial⟩
    · obtain ⟨⟨⟨k, p⟩, i⟩, hp, rfl⟩ := List.mem_map.mp hk
      obtain ⟨q, hq, rfl⟩ := List.mem_map.mp (List.of_mem_zip (List.fst_mem_of_mem_zipIdx hp)).2
      obtain ⟨_, -, hscoped⟩ := exists_mem_of_forall₂_right hparts hq
      refine throughout_ctorDefinition htele ?_
      rw [length_zonkTele, ← hlength]
      exact hscoped.zonk hs
  split
  · exact .bind (.pure (P := fun _ => True) trivial) fun u _ => hjoin u
  · refine .bind (scopes_inferType henv (scopes_gas henv _) hc.context) fun (t, u) ht => ?_
    refine .bind (scopes_whnf henv hc.context ht) fun k _ => ?_
    split
    · exact .bind (.pure (P := fun _ => True) trivial) fun u _ => hjoin u
    · exact .bind (P := fun _ => True) scopes_fail fun u _ => hjoin u

section Classes
variable {n : ℕ}

/-- Each field of a class is over the fields before it. -/
def ScopedFields (A : Arities) (n : ℕ) (fs : List ClassField) : Prop :=
  ∀ (i : ℕ) f, fs[i]? = some f → f.type.Scoped A (n + i) ∧ ∀ t, f.default = some t →
    t.Scoped A (n + i)

theorem ScopedFields.nil : ScopedFields A n [] := by
  intro i f hf
  contradiction

theorem ScopedFields.cons {f : ClassField} {fs : List ClassField} (htype : f.type.Scoped A n)
    (hdefault : ∀ t, f.default = some t → t.Scoped A n) (hfs : ScopedFields A (n + 1) fs) :
    ScopedFields A n (f :: fs) := by
  rintro (_ | i) g hg
  · obtain rfl := Option.some.inj hg
    exact ⟨htype, hdefault⟩
  · have hadd : n + 1 + i = n + (i + 1) := by omega
    exact hadd ▸ hfs i g hg

theorem ScopedFields.append {fs gs : List ClassField} (hfs : ScopedFields A n fs)
    (hgs : ScopedFields A (n + fs.length) gs) : ScopedFields A n (fs ++ gs) := by
  intro i f hf
  rcases lt_or_ge i fs.length with h | h
  · exact hfs i f (by rwa [List.getElem?_append_left h] at hf)
  · rw [List.getElem?_append_right h] at hf
    have hadd : n + fs.length + (i - fs.length) = n + i := by omega
    exact hadd ▸ hgs _ f hf

theorem ScopedFields.zonk {fs : List ClassField} (hfs : ScopedFields A n fs) {s : Store}
    {os : List Obligation} (hs : s.Scoped A os) :
    ScopedFields A n (fs.map fun f =>
      { f with type := s.zonk f.type, default := f.default.map s.zonk }) := by
  intro i f hf
  obtain ⟨g, hg, rfl⟩ := Option.map_eq_some_iff.mp ((List.getElem?_map ..).symm.trans hf)
  obtain ⟨htype, hdefault⟩ := hfs i g hg
  refine ⟨hs.zonk htype, fun t ht => ?_⟩
  obtain ⟨u, hu, rfl⟩ := Option.map_eq_some_iff.mp ht
  exact hs.zonk (hdefault u hu)

/-- The context after the superclasses of a class has a variable for each of their fields. -/
theorem scopes_superFields (henv : env.Scoped A) (hc : c.Scoped A) {xs : List Expr} :
    e.Scopes A env none (e.superFields d c xs) fun r =>
      r.1.Scoped A ∧ r.1.length = c.length + r.2.length ∧ ScopedFields A c.length r.2 := by
  induction xs generalizing c with
  | nil => exact .pure ⟨hc, rfl, .nil⟩
  | cons x xs ih =>
    refine .bind (scopes_inferType henv (scopes_gas henv _) hc) fun (type, u) htype => ?_
    refine .bind (scopes_classType henv hc htype) fun cls _ => ?_
    refine .bind (ih (hc.push htype)) fun (c', fields) ⟨hc', hlength,
      hfields⟩ => .pure ⟨hc', ?_, ?_⟩
    · simp only [Context.length_push] at hlength
      simp only [List.length_cons]
      omega
    · exact .cons htype (by simp) hfields

/-- The type of a field is over the parameters and the fields before it. The induction is on the
fields. -/
theorem scopes_ownFields (henv : env.Scoped A) (hc : c.Scoped A) {fs : List FieldDecl} :
    e.Scopes A env none (e.ownFields c fs) (ScopedFields A c.length) := by
  induction fs generalizing c with
  | nil => exact .pure .nil
  | cons f fs ih =>
    refine .bind (scopes_inferType henv (scopes_gas henv _) hc) fun (type, u) htype => ?_
    refine .bind scopes_universeLe fun _ _ => ?_
    have hjoin {default : Option Term} (hdefault : ∀ t, default = some t → t.Scoped A c.length) :
        e.Scopes A env none (do
          return { name := f.name, type, default, superclass := none } ::
            (← e.ownFields (c.push ⟨f.var, .explicit⟩ type) fs)) (ScopedFields A c.length) :=
      .bind (ih (hc.push htype)) fun fields hfields => .pure (.cons htype hdefault hfields)
    split
    · refine .bind (P := fun o : Option Term => ∀ t, o = some t → t.Scoped A c.length) ?_
        fun _ h => hjoin h
      exact .map ((scopes_gas henv _).check _ _ _ hc htype) fun t ht => by simpa using ht
    · exact .bind (.pure (P := fun o : Option Term => ∀ t, o = some t → t.Scoped A c.length)
        (by simp)) fun _ h => hjoin h

/-- The accessor of a field has the parameters of the class and the instance. -/
theorem throughout_accessor {tele : Telescope Term} (htele : Term.ScopedTele A 0 tele) {span : Span}
    {i : ℕ} {f : ClassField} (hf : f.type.Scoped A (tele.length + i)) :
    (accessor d tele span i f).Throughout Term.Below := by
  refine ⟨fun j p hp => ?_, ?_, trivial⟩
  · rcases lt_or_ge j tele.length with h | h
    · refine (scoped_implicitTele htele).below j p ?_
      exact (List.getElem?_append_left (by rwa [length_implicitTele])).symm.trans hp
    · obtain ⟨rfl, rfl⟩ : j = tele.length ∧ p = _ := by
        have hlast := (List.getElem?_append_right (by rwa [length_implicitTele])).symm.trans hp
        rw [length_implicitTele, List.getElem?_singleton] at hlast
        split at hlast
        · exact ⟨by omega, (Option.some.inj hlast).symm⟩
        · contradiction
      exact Term.below_of_args (by simp) (by simp [Term.parts]) (Term.scoped_range (A := A) _)
  · have hlength : (accessor d tele span i f).tele.length = tele.length + 1 := by simp [accessor]
    rw [hlength]
    refine (Term.Scoped.substAll (hf.mono ?_) fun a ha => ?_).below
    · simp only [List.length_append, List.length_map, List.length_range]
      omega
    · rcases List.mem_append.mp ha with ha | ha
      · obtain ⟨k, hk, rfl⟩ := List.mem_map.mp ha
        rw [Term.Scoped]
        omega
      · obtain ⟨k, -, rfl⟩ := List.mem_map.mp ha
        exact Nat.succ_pos _

/-- The fields of the superclasses come first, then those that the class declares, each over those
before it. -/
theorem yields_cls (henv : env.Scoped A) {supers : List Expr} {fields : List FieldDecl} :
    e.Yields A env (e.cls d supers fields) fun ds => ∀ k ∈ ds, k.Throughout Term.Below := by
  refine .of_scopes (.bind (scopes_tele henv .empty) fun (c, tele, us) hc => ?_)
  have hlength : c.length = tele.length := hc.length.trans (Nat.zero_add _)
  refine .bind (scopes_superFields henv hc.context) fun (c', hidden) ⟨hc', hlength', hhidden⟩ => ?_
  refine .bind (scopes_ownFields henv hc') fun own hown => ?_
  refine scopes_finish henv fun s hs => .pure fun k hk => ?_
  have htele : Term.ScopedTele A 0 (zonkTele s tele) := scoped_zonkTele hs hc.params
  have hall := (hhidden.append (hlength' ▸ hown)).zonk hs
  rw [hlength, ← length_zonkTele (s := s)] at hall
  obtain rfl | hk := List.mem_cons.mp hk
  · refine ⟨htele.below, Term.Scoped.below (A := A) trivial, fun i f hf => ?_⟩
    obtain ⟨htype, hdefault⟩ := hall i f hf
    exact ⟨htype.below, fun t ht => (hdefault t ht).below⟩
  · obtain ⟨⟨⟨f, i⟩, k⟩, hp, rfl⟩ := List.mem_map.mp hk
    have hf := List.mem_zipIdx_iff_getElem?.mp (List.mem_of_mem_drop (List.of_mem_zip hp).1)
    exact throughout_accessor htele (hall i f hf).1

end Classes

/-- Over definitions that are closed and agree on how many arguments names stand for, no variable of
the definitions of a declaration is left unbound. -/
theorem variables_bound_of_decl {own : Registry} {memo : Memo} {warnings : List Warning}
    {ds : List Definition} {s : ElaborationState} (henv : (⟨e.base, own⟩ : Environment).Scoped A)
    (hmemo : memo.Scoped A) (h : e.decl d { own, conversion := { memo }, warnings } = .ok ds s) :
    ∀ k ∈ ds, k.Throughout Term.Below := by
  have hdecl : e.Yields A ⟨e.base, own⟩ (e.decl d) fun ds => ∀ k ∈ ds, k.Throughout Term.Below := by
    unfold decl
    split
    · exact yields_func henv
    · exact yields_data henv
    · exact yields_cls henv
    · exact yields_inst henv
  have hempty : Store.Scoped A [] {} := ⟨by simp [Store.solution?], by simp, by simp, by simp⟩
  exact hdecl { own, conversion := { memo }, warnings } ds s ⟨rfl,
    ⟨hempty, hmemo⟩, by simp, by simp⟩ h

section Examples

/-- The data type of `\data D | c`. -/
def pointType : Definition :=
  { span := default, name := ⟨"m::D"⟩, tele := [], type := .univ .params, body := .data [⟨"m::c"⟩] }

/-- The only constructor of the data type. -/
def pointConstructor : Definition :=
  { span := default, name := ⟨"m::c"⟩, tele := [], type := .data ⟨"m::D"⟩ .params []
    body := .constructor ⟨"m::D"⟩ 0 0 none }

/-- The branch of a case split on `c` that was made when `c` had an argument `A`, or that is made
for `c` as it is: the variables of the branch, and a type over them. -/
def chosenBranch (stale : Bool) : List String × Term :=
  if stale then (["A"], .var 0) else ([], .nat)

/-- A function type whose domain is the type of the branch. -/
def chosen (stale : Bool) : Term := .pi (Binder.named "x" .implicit) (chosenBranch stale).2 .nat

/-- The function type as the outcome of a case split on `c`. -/
def chosenType (stale : Bool) : Definition :=
  { span := default, name := ⟨"m::T"⟩, tele := [], type := .univ .params
    body := .func (.case (.con ⟨"m::c"⟩ .params [] []) (.univ .params)
      [⟨.con ⟨"m::c"⟩, (chosenBranch stale).1, chosen stale⟩]) none }

/-- The elaborator for a function over these three definitions. -/
def withChosen (stale : Bool) : Elaborator :=
  ⟨Registry.insertAll {} [pointType, pointConstructor, chosenType stale], {}, [⟨"k::f"⟩]⟩

/-- `\func f : T => 5` -/
def chosenFunction : Decl :=
  ⟨default, ⟨"k::f"⟩, [], .func (some (.globalRef default ⟨"m::T"⟩)) (.expr (.num default 5))⟩

/-- The registry of the example has three definitions. -/
theorem mem_of_get?_withChosen {stale : Bool} {n : GlobalName} {k : Definition}
    (h : (withChosen stale).base.get? n = some k) :
    k.name = n ∧ (k = pointType ∨ k = pointConstructor ∨ k = chosenType stale) := by
  simp only [withChosen, Registry.insertAll, List.foldl_cons, List.foldl_nil,
    Registry.get?_insert] at h
  split at h
  · obtain rfl := Option.some.inj h
    exact ⟨‹_›, .inr (.inr rfl)⟩
  · split at h
    · obtain rfl := Option.some.inj h
      exact ⟨‹_›, .inr (.inl rfl)⟩
    · split at h
      · obtain rfl := Option.some.inj h
        exact ⟨‹_›, .inl rfl⟩
      · simp [Registry.get?] at h

theorem get?_chosenType (stale : Bool) :
    (withChosen stale).base.get? ⟨"m::T"⟩ = some (chosenType stale) := by
  simp [withChosen, Registry.insertAll, Registry.get?_insert, chosenType]

section Run
variable (stale : Bool)

/-- The levels at which the type is mentioned. -/
def chosenUniverse : Universe := ⟨.hole 0, .hole 1⟩

def chosenStore : Store := { levelCount := 2, pLevels := [0], hLevels := [1] }

def chosenRef : Term := .ref ⟨"m::T"⟩ chosenUniverse

/-- The definitions of the module while the body of the function is elaborated. -/
def announced : Registry :=
  Registry.insert {}
    { span := default, name := ⟨"k::f"⟩, tele := [], type := chosenRef, body := .pending }

/-- The state in which the body of the function is elaborated, with what reduction remembers. -/
def announcedState (memo : Memo) : ElaborationState :=
  { own := announced, conversion := { store := chosenStore, memo } }

/-- What reduction remembers once the type has been unfolded. -/
def chosenMemo : Memo := Std.HashMap.insert {} chosenRef (chosen stale)

theorem get?_announced : (⟨(withChosen stale).base, announced⟩ : Environment).get? ⟨"m::T"⟩ =
    some (chosenType stale) := by
  rw [Environment.get?, get?_chosenType, announced, Registry.get?_insert]
  simp [Registry.get?]

/-- The mention of the type. -/
theorem inferType_chosenType : (withChosen stale).inferType {} (.globalRef default ⟨"m::T"⟩) {} =
    .ok (chosenRef, chosenUniverse) { conversion := { store := chosenStore } } := by
  have hget : (⟨(withChosen stale).base, {}⟩ : Environment).get? ⟨"m::T"⟩ =
      some (chosenType stale) := by
    rw [Environment.get?, get?_chosenType]
    simp [Registry.get?]
  have hglobal : (withChosen stale).global ⟨"m::T"⟩ default {} =
      .ok (chosenRef, .univ chosenUniverse) { conversion := { store := chosenStore } } := by
    have hfresh : freshUniverse {} = .ok chosenUniverse
        { conversion := { store := chosenStore } } := rfl
    have henvironment : (withChosen stale).environment { conversion := { store := chosenStore } } =
      .ok ⟨(withChosen stale).base, {}⟩ { conversion := { store := chosenStore } } := rfl
    refine (bind_of_ok hfresh).trans ((bind_of_ok henvironment).trans ?_)
    rw [hget]
    rfl
  have hinfer : (withChosen stale).recursion.infer {} (.globalRef default ⟨"m::T"⟩) {} =
      .ok ⟨chosenRef, .univ chosenUniverse⟩ { conversion := { store := chosenStore } } :=
    (bind_of_ok hglobal).trans rfl
  exact (bind_of_ok hinfer).trans rfl

/-- The type unfolds to the function type of the branch, whatever variables the branch has. -/
theorem whnfGas_chosenRef {r : Reducer} (hget : r.env.get? ⟨"m::T"⟩ = some (chosenType stale)) :
    r.whnfGas 0 unboundedGas chosenRef ⟨1000000, {}⟩ =
      .ok (chosen stale) ⟨999998, Std.HashMap.insert {} chosenRef (chosen stale)⟩ := by
  have hgas : unboundedGas = 999999999999999999 + 1 := rfl
  rw [hgas, Reducer.whnfGas, chosenRef, Reducer.whnfWith, Reducer.delta]
  simp only [hget]
  have hremembered : Reducer.remembered chosenRef ⟨1000000, {}⟩ = .ok none ⟨1000000, {}⟩ := by
    simp [Reducer.remembered]
  have hunfold : Reducer.unfold (r.whnfGas 0 999999999999999999) ⟨"m::T"⟩ chosenUniverse
      (.case (.con ⟨"m::c"⟩ .params [] []) (.univ .params)
        [⟨.con ⟨"m::c"⟩, (chosenBranch stale).1, chosen stale⟩]) []
      ⟨1000000, {}⟩ = .ok (some (chosen stale)) ⟨999998, Std.HashMap.insert {} chosenRef
        (chosen stale)⟩ := by
    refine (bind_of_ok hremembered).trans ?_
    cases stale <;> rfl
  refine (bind_of_ok hunfold).trans ?_
  cases stale <;> rfl

theorem whnf_chosenRef : (withChosen stale).whnf {} chosenRef default (announcedState {}) =
    .ok (chosen stale) (announcedState (chosenMemo stale)) :=
  whnf_eq_ok (whnfGas_chosenRef stale (get?_announced stale))

theorem check_chosenRef :
    (withChosen stale).check {} (.num default 5) chosenRef (announcedState {}) =
    .ok (.lam (Binder.named "x" .implicit) (chosenBranch stale).2 (.numeral 5))
      (announcedState (chosenMemo stale)) := by
  refine (bind_of_ok (whnf_chosenRef stale)).trans ?_
  cases stale <;> rfl

theorem announce_chosenRef :
    announce default ⟨"k::f"⟩ [] chosenRef { conversion := { store := chosenStore } } =
    .ok () (announcedState {}) := rfl

/-- The function gets the parameter that its type asks for. -/
theorem decl_chosenFunction : ∃ type s, (withChosen stale).decl chosenFunction {} =
    .ok [⟨default, ⟨"k::f"⟩, [], type,
      .func (.lam (Binder.named "x" .implicit) (chosenBranch stale).2 (.numeral 5)) none, [],
      default⟩] s := by
  obtain ⟨ps, hps⟩ := LevelGraph.solve_empty [0]
  obtain ⟨qs, hqs⟩ := LevelGraph.solve_empty [1]
  have hlevels : chosenStore.solveLevels = .ok { chosenStore with levelSolutions := qs ++ ps } := by
    change (do
      let ps ← LevelGraph.solve {} [0]
      let qs ← LevelGraph.solve {} [1]
      return { chosenStore with levelSolutions := qs ++ ps } : Except LevelError Store) = _
    rw [hps, hqs]
    rfl
  have htele : (withChosen stale).tele {} [] {} = .ok ({}, [], []) {} := rfl
  have hreturn (s : ElaborationState) : (pure chosenRef : Elab Term) s = .ok chosenRef s := rfl
  let solved : Store := { chosenStore with levelSolutions := qs ++ ps }
  refine ⟨solved.zonk chosenRef,
    { own := announced, conversion := { store := solved, memo := chosenMemo stale } }, ?_⟩
  change (withChosen stale).func chosenFunction (some (.globalRef default ⟨"m::T"⟩))
    (.expr (.num default 5)) {} = _
  refine (bind_of_ok htele).trans ((bind_of_ok (inferType_chosenType stale)).trans ?_)
  refine (bind_of_ok (hreturn _)).trans ((bind_of_ok announce_chosenRef).trans ?_)
  refine (bind_of_ok (check_chosenRef stale)).trans ?_
  refine (bind_of_ok (solveAll_of_idle rfl rfl rfl hlevels)).trans ?_
  cases stale <;> rfl

end Run

/-- The definitions that the function is elaborated over fit together if the branch is made for the
constructor as it is. -/
theorem scoped_withChosen :
    (⟨(withChosen false).base, {}⟩ : Environment).Scoped ⟨fun _ => 0, fun _ => 0, fun _ => 0⟩ := by
  have hmem {n : GlobalName} {k : Definition}
      (h : (⟨(withChosen false).base, {}⟩ : Environment).get? n = some k) :
      k.name = n ∧ (k = pointType ∨ k = pointConstructor ∨ k = chosenType false) := by
    refine mem_of_get?_withChosen (Eq.trans ?_ h)
    simp [Environment.get?, Registry.get?]
  refine ⟨fun n k h => (hmem h).1, fun n k h => ?_, fun n k h => ?_,
    fun n k cs h _ c _ l hl data index params hbody => ?_⟩
  · obtain ⟨-, rfl | rfl | rfl⟩ := hmem h
    · exact ⟨by simp [pointType], trivial, trivial⟩
    · exact ⟨by simp [pointConstructor], ⟨le_rfl, trivial⟩, fun _ h => nomatch h⟩
    · refine ⟨by simp [chosenType], trivial, ?_⟩
      simp [chosenType, Body.Throughout, chosen, chosenBranch, Branch.arity, Arities.branch]
  · obtain ⟨-, rfl | rfl | rfl⟩ := hmem h
    · rfl
    · rfl
    · trivial
  · obtain ⟨-, rfl | rfl | rfl⟩ := hmem hl
    · contradiction
    · obtain ⟨-, -, rfl, -⟩ := Body.constructor.inj hbody
      exact Nat.zero_le _
    · contradiction

/-- Over definitions that fit together the domain of the function is closed. -/
theorem variables_bound_of_decl_chosenFunction :
    (⟨(withChosen false).base, {}⟩ : Environment).Scoped ⟨fun _ => 0, fun _ => 0, fun _ => 0⟩ ∧
      Memo.Scoped ⟨fun _ => 0, fun _ => 0, fun _ => 0⟩ {} ∧
      ∃ ds s, (withChosen false).decl chosenFunction
        { own := {}, conversion := { memo := {} }, warnings := [] } = .ok ds s ∧
        ds ≠ [] ∧ ∀ k ∈ ds, k.Throughout Term.Below := by
  have hmemo : Memo.Scoped ⟨fun _ => 0, fun _ => 0, fun _ => 0⟩ {} := by
    intro k v h
    simp at h
  obtain ⟨type, s, h⟩ := decl_chosenFunction false
  exact ⟨scoped_withChosen, hmemo, _, s,
    h, by simp, variables_bound_of_decl scoped_withChosen hmemo h⟩

/-- All definitions that the function is elaborated over are closed, but a branch has a variable
that the constructor has no argument for. So the variable is left in the domain of the function,
where nothing binds it. -/
theorem unbound_variable_of_decl_chosenFunction :
    (∀ n k, (withChosen true).base.get? n = some k → k.name = n ∧ k.Throughout Term.Below) ∧
      ∃ ds s, (withChosen true).decl chosenFunction {} = .ok ds s ∧
        ∃ k ∈ ds, ¬k.Throughout Term.Below := by
  refine ⟨fun n k h => ?_, ?_⟩
  · obtain ⟨hname, rfl | rfl | rfl⟩ := mem_of_get?_withChosen h
    · exact ⟨hname, by simp [pointType], rfl, trivial⟩
    · exact ⟨hname, by simp [pointConstructor], rfl, fun _ h => nomatch h⟩
    · exact ⟨hname, by simp [chosenType], rfl, rfl⟩
  · obtain ⟨type, s, h⟩ := decl_chosenFunction true
    refine ⟨_, s, h, _, List.mem_singleton_self _, fun hk => ?_⟩
    have hbody : true = false := hk.body
    contradiction

end Examples

end Elaborator

end LeveledTypes
