import LeveledTypes.Proofs.Elaboration.Declaration
import LeveledTypes.Proofs.Likeness.Expression
import LeveledTypes.Proofs.Scoping.Declaration

/-!
# What a failing declaration leaves behind

A declaration is elaborated alike over two registries that hold the same. One that fails leaves the
registry as it was. Apart from its names, which later declarations must not mention, all that is
left of it is what reduction remembers.
-/
namespace LeveledTypes

open Surface

namespace Elaborator
variable {e : Elaborator} {I : Store → Prop} {R : ElaborationState → ElaborationState → Prop}
  {c : Context} {d : Decl}

variable (hR : e.Likeness I R)

include hR

theorem blind_ensureSolved {ts : List Term} : Blind R (ensureSolved ts) := by
  refine .bind (blind_store hR) fun s => ?_
  split
  · exact .pure _
  · split
    · exact .pure _
    · exact blind_fail

/-- What is being defined has one of the names of the declaration. -/
theorem blind_announce {span : Span} {name : GlobalName} {tele : Telescope Term} {type : Term}
    (hname : name ∈ e.current) : Blind R (announce span name tele type) :=
  .modify fun _ _ hs => hR.announced hs hname rfl

theorem blind_round {force : Bool} : Blind R (e.round force) := by
  refine twins_environment hR fun env env' henv => ?_
  rw [Converter.retryConstraints_equiv henv]
  refine .bind (blind_converting hR (Converter.stays_retryConstraints hR.stable)) fun _ => ?_
  exact .bind (blind_resolveObligations hR) fun _ => .pure _

/-- What helps in one state helps in the other, and as much is left to be found in both, so that the
rounds end together. The induction is on what is left. -/
theorem blind_settle {force : Bool} : Blind R (e.settle force) := by
  have hopen {s s' : ElaborationState} (hs : R s s') : s.open? = s'.open? := by
    rw [ElaborationState.open?, ElaborationState.open?, hR.conversion hs, hR.obligations hs]
  intro s s' hs
  induction s using settle.induct e force generalizing s' with
  | case1 s _ err t hr =>
    obtain ⟨t', hr', ht⟩ := (blind_round hR).exists_error hs hr
    rw [settle_of_error hr, settle_of_error hr']
    exact .error err ht
  | case2 s before _ helped t hr hless ih =>
    obtain ⟨t', hr', ht⟩ := (blind_round hR).exists_ok hs hr
    rw [settle_of_ok hr, settle_of_ok hr', ← hopen hs, ← hopen ht, if_pos hless, if_pos hless]
    exact ih t' ht
  | case3 s before _ helped t hr hless =>
    obtain ⟨t', hr', ht⟩ := (blind_round hR).exists_ok hs hr
    rw [settle_of_ok hr, settle_of_ok hr', ← hopen hs, ← hopen ht, if_neg hless, if_neg hless]
    exact .ok () ht

theorem blind_solveConstraints : Blind R e.solveConstraints := by
  refine .bind (blind_settle hR) fun _ => .bind (blind_settle hR) fun _ =>
    .bind (blind_store hR) fun s => ?_
  split
  · exact blind_fail
  · exact .pure _

/-- A fault of settling is caught on both sides or on neither, and the store, which the rest depends
on, is the same. -/
theorem blind_solveAll : Blind R e.solveAll := by
  refine .bind (.tryCatch (.bind (blind_solveConstraints hR) fun _ => .pure none) fun _ => .pure _)
    fun solved => ?_
  refine blind_store_bind hR fun s hs => twins_get fun t t' ht => ?_
  rw [hR.goals ht]
  split
  · exact blind_fail
  · split
    · exact .throw _
    · split
      case h_1 s' hs' =>
        obtain ⟨ps, qs, -, -, rfl⟩ := Store.solveLevels_eq_ok hs'
        exact blind_modifyStore hR fun _ _ => hR.stable.levelSolutions _ hs
      case h_2 => exact .throw _

/-- How the elaboration of every declaration ends. -/
theorem blind_finish {α : Type} {g : Store → List Term} {f : Store → Elab α}
    (hf : ∀ s, Blind R (f s)) : Blind R (do e.solveAll; let s ← store; ensureSolved (g s); f s) :=
  .bind (blind_solveAll hR) fun _ => .bind (blind_store hR) fun s =>
    .bind (blind_ensureSolved hR) fun _ => hf s

theorem blind_inferType' {x : Expr} : Blind R (e.inferType c x) :=
  blind_inferType hR (blind_recursion hR)

theorem blind_tele {ps : Telescope Expr} : Blind R (e.tele c ps) := by
  induction ps generalizing c with
  | nil => exact .pure _
  | cons p ps ih =>
    rw [tele]
    exact .bind (blind_inferType' hR) fun (type, u) => .bind ih fun (c, tele, us) => .pure _

/-- The function is announced on both sides, so that the body is elaborated in states that are alike
again. -/
theorem blind_func {type : Option Expr} {body : FuncBody} (hname : d.name ∈ e.current) :
    Blind R (e.func d type body) := by
  refine .bind (blind_tele hR) fun (c, tele, us) => ?_
  dsimp -zeta only
  extract_lets explicit join
  have hjoin (ret : Term) : Blind R (join ret) := by
    refine .bind (blind_announce hR hname) fun _ => ?_
    extract_lets join'
    have hjoin' (body : Term) : Blind R (join' body) := by
      refine blind_finish hR fun s => ?_
      split
      · exact .bind (.pure _) fun _ => .pure _
      · exact .bind (.pure _) fun _ => .pure _
      · exact .bind blind_fail fun _ => .pure _
    split
    · exact .bind ((blind_recursion hR).check _ _ _) hjoin'
    · exact .bind (blind_clauses hR (blind_recursion hR).check) hjoin'
  split
  · exact .bind (blind_inferType' hR) fun p => .bind (.pure _) hjoin
  · exact .bind (blind_freshType hR) hjoin

theorem blind_ctorFields {k : CtorDecl} {u : Universe} : Blind R (e.ctorFields c k u) :=
  .bind (blind_tele hR) fun (_, _, _) => .bind (.forM fun (_, _) => (blind_universeLe hR))
    fun _ => .pure _

theorem blind_ctorParts {tele : Telescope Term} {u : Universe} {k : CtorDecl} :
    Blind R (e.ctorParts c tele u k) := by
  unfold ctorParts
  split
  · exact .bind (blind_ctorFields hR) fun fields => .pure _
  · exact .bind (blind_guardPatterns hR) fun (c, idx) =>
      .bind (blind_ctorFields hR) fun fields => .pure _

/-- The data type is announced on both sides before its constructors are elaborated. -/
theorem blind_data {univ : Option Expr} {ctors : List CtorDecl} (hname : d.name ∈ e.current) :
    Blind R (e.data d univ ctors) := by
  refine .bind (blind_tele hR) fun (c, tele, us) => ?_
  dsimp -zeta only
  extract_lets join
  have hjoin (u : Universe) : Blind R (join u) :=
    .bind (blind_announce hR hname) fun _ => .bind (.mapM fun k => blind_ctorParts hR) fun parts =>
      blind_finish hR fun s => .pure _
  split
  · exact .bind (.pure _) hjoin
  · refine .bind (blind_inferType' hR) fun (t, _) => .bind (blind_whnf hR) fun t => ?_
    split
    · exact .bind (.pure _) hjoin
    · exact .bind blind_fail hjoin

theorem blind_superFields {xs : List Expr} : Blind R (e.superFields d c xs) := by
  induction xs generalizing c with
  | nil => exact .pure _
  | cons x xs ih =>
    rw [superFields]
    refine .bind (blind_inferType' hR) fun (type, _) => .bind (blind_classType hR) fun cls => ?_
    exact .bind ih fun (c, fields) => .pure _

theorem blind_ownFields {fs : List FieldDecl} : Blind R (e.ownFields c fs) := by
  induction fs generalizing c with
  | nil => exact .pure _
  | cons f fs ih =>
    rw [ownFields]
    refine .bind (blind_inferType' hR) fun (type, u) => .bind (blind_universeLe hR) fun _ => ?_
    split
    · exact .bind (.map ((blind_recursion hR).check _ _ _)) fun default =>
        .bind ih fun fields => .pure _
    · exact .bind (.pure _) fun default => .bind ih fun fields => .pure _

theorem blind_cls {supers : List Expr} {fields : List FieldDecl} :
    Blind R (e.cls d supers fields) :=
  .bind (blind_tele hR) fun (_, _, _) => .bind (blind_superFields hR) fun (_, _) =>
    .bind (blind_ownFields hR) fun _ => blind_finish hR fun _ => .pure _

theorem blind_inst {x : Expr} {is : List (Implementation Expr)} : Blind R (e.inst d x is) :=
  .bind (blind_tele hR) fun (_, _, _) => .bind (blind_inferType' hR) fun (_, _) =>
    .bind (blind_classType hR) fun _ => .bind
      (blind_implementations hR (blind_recursion hR)) fun _ =>
      blind_finish hR fun _ => .pure _

theorem blind_decl (hname : d.name ∈ e.current) : Blind R (e.decl d) := by
  unfold decl
  cases d.body with
  | func type body => exact blind_func hR hname
  | data univ ctors => exact blind_data hR hname
  | cls supers fields => exact blind_cls hR
  | inst x is => exact blind_inst hR

end Elaborator

theorem sealGroup_equiv {env env' : Environment} (h : env.Equiv env') (source : String)
    (ds : List Definition) : sealGroup env source ds = sealGroup env' source ds := by
  simp only [sealGroup, h.get?]

namespace Progress
variable {base : Registry} {limits : Limits} {text : String} {p q : Progress} {b d : Decl}
  {names : List GlobalName} {ds : List Definition} {s : ElaborationState} {err : Error}

/-- The state that the elaboration of the next declaration starts in. -/
def start (p : Progress) : ElaborationState :=
  { own := p.own, conversion := { memo := p.memo }, warnings := p.warnings }

section Add

/-- A declaration that mentions a failed one is not elaborated. -/
theorem add_of_some {g : GlobalName × Span}
    (h : (d.globals.find? fun g => p.failed.contains g.1) = some g) : p.add base limits text d =
      (.error (.located (.dependencyFailed d.name.short g.1.short) g.2), p.poison d.names) := by
  unfold add
  split
  case h_1 n span hsome =>
    obtain rfl := Option.some.inj (h.symm.trans hsome)
    rfl
  case h_2 hnone => exact absurd (h.symm.trans hnone) (Option.some_ne_none g)

/-- A declaration that succeeds is sealed, that is, given its dependencies and its digest, and
registered. -/
theorem add_of_ok (h : (d.globals.find? fun g => p.failed.contains g.1) = none)
    (hrun : Elaborator.decl ⟨base, limits, d.names⟩ d p.start = .ok ds s) :
    p.add base limits text d = (.ok (sealGroup ⟨base, s.own⟩ (d.source text) ds),
      ⟨s.own.insertAll (sealGroup ⟨base, s.own⟩ (d.source text) ds), s.conversion.memo, s.warnings,
        p.failed⟩) := by
  obtain ⟨own, memo, warnings, failed⟩ := p
  unfold add
  split
  case h_1 n span hsome => exact absurd (hsome.symm.trans h) (Option.some_ne_none _)
  case h_2 =>
    rw [start] at hrun
    simp only [hrun]

/-- After a failure what was announced is taken back, and the names are kept as those of a failed
declaration. -/
theorem add_of_error (h : (d.globals.find? fun g => p.failed.contains g.1) = none)
    (hrun : Elaborator.decl ⟨base, limits, d.names⟩ d p.start = .error err s) :
    p.add base limits text d = (.error err,
      ⟨s.own.eraseAll d.names, s.conversion.memo, s.warnings, p.failed ++ d.names⟩) := by
  obtain ⟨own, memo, warnings, failed⟩ := p
  unfold add
  split
  case h_1 n span hsome => exact absurd (hsome.symm.trans h) (Option.some_ne_none _)
  case h_2 =>
    rw [start] at hrun
    simp only [hrun]

end Add

/-- What some declarations of a module come to, one after the other. -/
def outcomes (base : Registry) (limits : Limits) (text : String) (p : Progress) :
    List Decl → List (Except Error (List Definition))
  | [] => []
  | d :: ds => (p.add base limits text d).1 ::
    (p.add base limits text d).2.outcomes base limits text ds

/-- The same has been brought and is remembered, and the same declarations have failed but for some
names. -/
structure Beside (names : List GlobalName) (p q : Progress) : Prop where
  own : p.own.Equiv q.own
  memo : p.memo = q.memo
  failed : ∀ n ∉ names, n ∈ p.failed ↔ n ∈ q.failed

section Beside

theorem find?_failed (h : p.Beside names q) (hd : ∀ g ∈ d.globals, g.1 ∉ names) :
    (d.globals.find? fun g => p.failed.contains g.1) = d.globals.find? fun g =>
      q.failed.contains g.1 := by
  refine List.find?_congr fun g hg => ?_
  rw [Bool.eq_iff_iff, List.contains_iff_mem, List.contains_iff_mem]
  exact h.failed g.1 (hd g hg)

theorem start_beside (hmemo : p.memo = q.memo) :
    p.start.Beside d.names p.own q.own q.start :=
  ⟨⟨[], by simp, rfl, rfl⟩, by rw [start, start, hmemo], rfl, rfl⟩

/-- A declaration that mentions none of the names comes to the same. -/
theorem add_beside (h : p.Beside names q) (hd : ∀ g ∈ d.globals, g.1 ∉ names) :
    (p.add base limits text d).1 = (q.add base limits text d).1 ∧
      (p.add base limits text d).2.Beside names (q.add base limits text d).2 := by
  have hfailed {n : GlobalName} (hn : n ∉ names) : n ∈ p.failed ++ d.names ↔
      n ∈ q.failed ++ d.names := by
    rw [List.mem_append, List.mem_append, h.failed n hn]
  have hfind := find?_failed h hd
  cases hp : d.globals.find? fun g => p.failed.contains g.1 with
  | some g =>
    rw [add_of_some hp, add_of_some (hfind.symm.trans hp)]
    exact ⟨rfl, h.own, h.memo, fun n => hfailed⟩
  | none =>
    have hq := hfind.symm.trans hp
    have hlike := Elaborator.likeness_beside (e := ⟨base, limits, d.names⟩) h.own
    have hdecl := Elaborator.blind_decl hlike (d := d) List.mem_cons_self
    cases hrun : Elaborator.decl ⟨base, limits, d.names⟩ d p.start with
    | ok ds s =>
      obtain ⟨t, hrun', hst⟩ := hdecl.exists_ok (start_beside h.memo) hrun
      have henv : (⟨base, s.own⟩ : Environment).Equiv ⟨base, t.own⟩ := hlike.environment hst
      rw [add_of_ok hp hrun, add_of_ok hq hrun', sealGroup_equiv henv]
      exact ⟨rfl, henv.own.insertAll _, congrArg ConversionState.memo hst.conversion, h.failed⟩
    | error err s =>
      obtain ⟨t, hrun', hst⟩ := hdecl.exists_error (start_beside h.memo) hrun
      have henv : (⟨base, s.own⟩ : Environment).Equiv ⟨base, t.own⟩ := hlike.environment hst
      rw [add_of_error hp hrun, add_of_error hq hrun']
      exact ⟨rfl, henv.own.eraseAll _, congrArg ConversionState.memo hst.conversion,
        fun n => hfailed⟩

/-- The declarations that mention none of the names have the same outcomes. -/
theorem outcomes_beside (h : p.Beside names q) {ds : List Decl}
    (hds : ∀ d ∈ ds, ∀ g ∈ d.globals, g.1 ∉ names) :
    p.outcomes base limits text ds = q.outcomes base limits text ds := by
  induction ds generalizing p q with
  | nil => rfl
  | cons d ds ih =>
    obtain ⟨hd, hds⟩ := List.forall_mem_cons.mp hds
    obtain ⟨hfst, hsnd⟩ : (p.add base limits text d).1 = (q.add base limits text d).1 ∧
        (p.add base limits text d).2.Beside names (q.add base limits text d).2 := add_beside h hd
    exact congrArg₂ List.cons hfst (ih hsnd hds)

end Beside

/-- What a failing declaration of new names has announced is taken out again. -/
theorem left_of_add_error (hnew : ∀ n ∈ b.names, p.own.get? n = none)
    (h : p.add base limits text b = (.error err, q)) :
    q.own.Equiv p.own ∧ q.failed = p.failed ++ b.names := by
  cases hp : b.globals.find? fun g => p.failed.contains g.1 with
  | some g =>
    rw [add_of_some hp] at h
    obtain ⟨-, rfl⟩ := Prod.mk.inj h
    exact ⟨.refl _, rfl⟩
  | none =>
    cases hrun : Elaborator.decl ⟨base, limits, b.names⟩ b p.start with
    | ok ds s =>
      rw [add_of_ok hp hrun] at h
      simp at h
    | error err' s =>
      rw [add_of_error hp hrun] at h
      obtain ⟨-, rfl⟩ := Prod.mk.inj h
      have hlike := Elaborator.likeness_beside (e := ⟨base, limits, b.names⟩) (.refl p.own)
      have hdecl := Elaborator.blind_decl hlike (d := b) List.mem_cons_self
      obtain ⟨t, -, hst⟩ := hdecl.exists_error (start_beside rfl) hrun
      obtain ⟨ds, hds, hs, -⟩ := hst.announced
      exact ⟨hs ▸ Registry.equiv_eraseAll_insertAll hds hnew, rfl⟩

/-- A failing declaration of new names leaves the registry as it was, and all that is left of it
apart from its names is what reduction remembers: declarations that do not mention these names come
to what they would come to without it, had the same been remembered. -/
theorem outcomes_of_add_error (hnew : ∀ n ∈ b.names, p.own.get? n = none)
    (h : p.add base limits text b = (.error err, q)) :
    q.own.Equiv p.own ∧ ∀ ds : List Decl, (∀ d ∈ ds, ∀ g ∈ d.globals, g.1 ∉ b.names) →
      q.outcomes base limits text ds = { p with memo := q.memo }.outcomes base limits text ds := by
  obtain ⟨hR, hfailed⟩ := left_of_add_error hnew h
  have hbeside : q.Beside b.names { p with memo := q.memo } := by
    refine ⟨hR, rfl, fun n hn => ?_⟩
    rw [hfailed, List.mem_append]
    exact or_iff_left hn
  exact ⟨hR, fun ds hds => outcomes_beside hbeside hds⟩

section Misused
open Elaborator

/-- `\func f : T => 5.1`, where `T` unfolds to a function type -/
def misused : Decl :=
  ⟨default, ⟨"k::f"⟩, [], .func (some (.globalRef default ⟨"m::T"⟩))
    (.expr (.proj default (.num default 5) .fst))⟩

/-- By the time that the projection is refused `f` has been announced, and the unfolding of `T` is
remembered. -/
theorem decl_misused : ∃ err, (withChosen false).decl misused ({} : Progress).start =
    .error err (announcedState (chosenMemo false)) := by
  have htele : (withChosen false).tele {} [] {} = .ok ({}, [], []) {} := rfl
  have hreturn (s : ElaborationState) : (pure chosenRef : Elab Term) s = .ok chosenRef s := rfl
  obtain ⟨err, hcheck⟩ : ∃ err,
      (withChosen false).check {} (.proj default (.num default 5) .fst) chosenRef
        (announcedState {}) = .error err (announcedState (chosenMemo false)) :=
    ⟨_, (bind_of_ok (whnf_chosenRef false)).trans rfl⟩
  refine ⟨err, ?_⟩
  change (withChosen false).func misused (some (.globalRef default ⟨"m::T"⟩))
    (.expr (.proj default (.num default 5) .fst)) {} = _
  refine (bind_of_ok htele).trans ((bind_of_ok (inferType_chosenType false)).trans ?_)
  exact (bind_of_ok (hreturn _)).trans
    ((bind_of_ok announce_chosenRef).trans (bind_of_error hcheck))

/-- All that is left of `f` is the unfolding of `T`. -/
theorem outcomes_of_add_error_misused : ∃ (err : Error) (q : Progress),
    (∀ n ∈ misused.names, ({} : Progress).own.get? n = none) ∧
    ({} : Progress).add (withChosen false).base {} "" misused = (.error err, q) ∧
    q.memo = chosenMemo false ∧ q.own.Equiv ({} : Progress).own ∧
    ∀ ds : List Decl, (∀ d ∈ ds, ∀ g ∈ d.globals, g.1 ∉ misused.names) →
      q.outcomes (withChosen false).base {} "" ds =
        { ({} : Progress) with memo := q.memo }.outcomes (withChosen false).base {} "" ds := by
  have hnew : ∀ n ∈ misused.names, ({} : Progress).own.get? n = none :=
    fun n _ => Registry.get?_empty n
  obtain ⟨err, hrun⟩ := decl_misused
  have hadd : ({} : Progress).add (withChosen false).base {} "" misused = (.error err,
      ⟨announced.eraseAll misused.names, chosenMemo false, [], misused.names⟩) :=
    add_of_error (s := announcedState (chosenMemo false)) rfl hrun
  exact ⟨err, _, hnew, hadd, rfl, outcomes_of_add_error hnew hadd⟩

end Misused

end Progress

end LeveledTypes
