import LeveledTypes.Elaboration.Instance
import LeveledTypes.Proofs.Conversion.Twins
import LeveledTypes.Proofs.Elaboration.State

/-!
# Elaboration of twins

The steps that instance search is made of do not look at the names of binders either, nor at
definitions of globals that nothing at hand names. From states that differ in names only, over two
such environments, they end alike.
-/
namespace LeveledTypes

/-- Two elaborators over definitions of the module each, which differ in the definitions of globals
that are not named. -/
structure Elaborator.Twins (G : GlobalName → Prop) (A : GlobalName → ℕ) (e e' : Elaborator)
    (own own' : Registry) : Prop where
  env : (⟨e.base, own⟩ : Environment).Twins G A ⟨e'.base, own'⟩
  classFields : ∀ n, (⟨e'.base, own'⟩ : Environment).classFields n =
    (⟨e.base, own⟩ : Environment).classFields n
  limits : e'.limits = e.limits
  current : e'.current = e.current
  over_types : ∀ n d, G n → (⟨e.base, own⟩ : Environment).get? n = some d →
    (Term.pis d.tele d.type).Over (.naming G A True) ⊤
  over_fields : ∀ n, ∀ f ∈ (⟨e.base, own⟩ : Environment).classFields n,
    f.type.Over (.naming G A True) ⊤

/-- Two states over the given definitions of the module that differ in names only. -/
structure ElaborationState.Twins (G : GlobalName → Prop) (A : GlobalName → ℕ) (e e' : Elaborator)
    (own own' : Registry) (s s' : ElaborationState) : Prop where
  own_left : s.own = own
  own_right : s'.own = own'
  conversion : s.conversion.Twins G A ⟨e.base, own⟩ ⟨e'.base, own'⟩ s'.conversion

/-- Two terms with their types that differ in names. -/
structure Typed.Twins (S : Signature) (x x' : Typed) : Prop where
  term : x.term.Twins S x'.term
  type : x.type.Twins S x'.type

/-- Two class types with parameters that differ in names. -/
structure ClassType.Twins (S : Signature) (c c' : ClassType) : Prop where
  name : c.name = c'.name
  univ : c.univ = c'.univ
  params : List.Forall₂ (Term.Twins S) c.params c'.params

theorem forall₂_flatten {α β : Type} {R : α → β → Prop} {xss : List (List α)} {yss : List (List β)}
    (h : List.Forall₂ (List.Forall₂ R) xss yss) : List.Forall₂ R xss.flatten yss.flatten := by
  induction h with
  | nil => exact .nil
  | cons hxs _ ih => exact List.rel_append hxs ih

section Terms
variable {G : GlobalName → Prop} {A : GlobalName → ℕ} {S : Signature} {t t' : Term}
  {c c' : ClassType} {s s' : Store}

theorem Term.Twins.map_anonymize {ts ts' : List Term} (h : List.Forall₂ (Term.Twins S) ts ts') :
    (∀ t ∈ ts, t.Over S ⊤) ∧ ts.map anonymize = ts'.map anonymize := by
  induction h with
  | nil => exact ⟨by simp, rfl⟩
  | cons ht _ ih =>
    exact ⟨List.forall_mem_cons.mpr ⟨ht.over_left, ih.1⟩, congrArg₂ List.cons ht.alike ih.2⟩

/-- Projections from twins are twins, and so are the types of these, which mention the projections
from the fields before. -/
theorem ClassType.Twins.fieldOf (h : c.Twins (.naming G A True) c')
    (ht : t.Twins (.naming G A True) t') (i : ℕ) {f : ClassField}
    (hf : f.type.Over (.naming G A True) ⊤) :
    (Elaborator.fieldOf c t i f).Twins (.naming G A True) (Elaborator.fieldOf c' t' i f) := by
  obtain ⟨hparams, halike⟩ := Term.Twins.map_anonymize h.params
  have hfield (j : ℕ) : (Term.field t c.name j).Twins (.naming G A True) (.field t' c'.name j) :=
    ⟨ht.over_left, by rw [Term.anonymize, ht.alike, h.name, Term.anonymize]⟩
  refine ⟨hfield i, ?_, ?_⟩
  · refine Term.Over.substAll
      ((hf.substLevels (Signature.admits_naming G A True c.univ)).mono le_top) ?_
    refine List.forall_mem_append.mpr ⟨hparams, List.forall_mem_map.mpr fun j _ =>
      (hfield j).over_left⟩
  · refine Term.substAll_alike (by rw [h.univ]) ?_
    rw [List.map_append, List.map_append, halike, List.map_map, List.map_map]
    exact congrArg _ (List.map_congr_left fun j _ => (hfield j).alike)

/-- Twins make holes of the same number, applied to the same variables. -/
theorem Store.Twins.fresh (h : s.Twins (.naming G A True) s') {ctx : Telescope Term}
    (hctx : ∀ p ∈ ctx, p.type.Over (.naming G A True) ⊤) (ht : t.Twins (.naming G A True) t')
    (kind : HoleKind) (span : Span) :
    (s.fresh ctx t kind span).1.Twins (.naming G A True) (s'.fresh ctx t' kind span).1 ∧
      (s.fresh ctx t kind span).2.Twins (.naming G A True) (s'.fresh ctx t' kind span).2 := by
  obtain ⟨hterm, hstore⟩ := Store.fresh_alike h.alike ht.alike ctx kind span
  refine ⟨⟨Store.over_fresh fun _ => trivial, congrArg Term.anonymize hterm⟩,
    ⟨fun m v hv => ?_, fun m k hk => ?_⟩, hstore⟩
  · exact h.over_left.solutions m v (Store.solution?_fresh.mp hv)
  · obtain hk | ⟨-, htype⟩ := Store.getElem?_fresh hk
    · exact h.over_left.types m k hk
    · exact htype ▸ Term.over_pis hctx ht.over_left

end Terms

namespace Elaborator.Twins
variable {G : GlobalName → Prop} {A : GlobalName → ℕ} {e e' : Elaborator} {own own' : Registry}
  {α β : Type} {c : Context} {span : Span} {t t' : Term}

/-- Two runs of elaboration that match. -/
abbrev Match (G : GlobalName → Prop) (A : GlobalName → ℕ) (e e' : Elaborator) (own own' : Registry)
    (V : α → β → Prop) (x : Elab α) (y : Elab β) : Prop :=
  Matched Error.outline? (ElaborationState.Twins G A e e' own own') V x y

theorem matched_fail {p p' : Problem} {V : α → β → Prop}
    (h : (Error.located p span).outline? = (Error.located p' span).outline?) :
    Match G A e e' own own' V (fail p span) (fail p' span) := .throw h

theorem matched_store : Match G A e e' own own' (Store.Twins (.naming G A True)) store store :=
  .get_bind fun _ _ hs => .pure hs.conversion.store

theorem matched_modifyStore {f : Store → α × Store} {g : Store → β × Store} {V : α → β → Prop}
    (h : ∀ s s', s.Twins (.naming G A True) s' → V (f s).1 (g s').1 ∧
      (f s).2.Twins (.naming G A True) (g s').2) :
    Match G A e e' own own' V (modifyStore f) (modifyStore g) := by
  intro s s' hs
  obtain ⟨hV, hstore⟩ := h _ _ hs.conversion.store
  exact .ok hV ⟨hs.own_left, hs.own_right, hstore, hs.conversion.memo, hs.conversion.memo_right⟩

theorem matched_fresh (hc : c.Over (.naming G A True)) (ht : t.Twins (.naming G A True) t')
    {kind : HoleKind} :
    Match G A e e' own own' (Term.Twins (.naming G A True)) (fresh c t kind span)
      (fresh c t' kind span) :=
  matched_modifyStore fun _ _ hs => hs.fresh hc.tele ht kind span

theorem matched_freshUniverse : Match G A e e' own own' Eq freshUniverse freshUniverse := by
  refine matched_modifyStore fun s s' hs => ?_
  obtain ⟨huniverse, hstore⟩ := Store.freshUniverse_alike hs.alike
  exact ⟨huniverse, ⟨hs.over_left.solutions, hs.over_left.types⟩, hstore⟩

theorem matched_shown : Match G A e e' own own' (fun _ _ => True) (shown c t) (shown c t') :=
  .bind matched_store fun _ _ _ => .pure trivial

/-- Runs of conversion that match over the two environments match as steps of elaboration. -/
theorem matched_converting {k k' : Converter} {f g : Convert α} {V : α → α → Prop}
    (hleft : k.env = ⟨e.base, own⟩) (hright : k'.env = ⟨e'.base, own'⟩)
    (hfg : Converter.Twins.Match G A k k' V f g) :
    Match G A e e' own own' V (converting f) (converting g) := by
  intro s s' hs
  have hrun := hfg s.conversion s'.conversion (hleft ▸ hright ▸ hs.conversion)
  unfold converting
  dsimp only
  generalize f s.conversion = a, g s'.conversion = b at hrun
  rw [hleft, hright] at hrun
  cases hrun with
  | ok hV hst => exact .ok hV ⟨hs.own_left, hs.own_right, hst⟩
  | error he hst => exact .error he ⟨hs.own_left, hs.own_right, hst⟩
  | left he => exact .left he
  | right he => exact .right he

section Runs
variable (h : e.Twins G A e' own own')

include h

theorem matched_environment_pure : Match G A e e' own own'
    (fun env env' => env = ⟨e.base, own⟩ ∧ env' = ⟨e'.base, own'⟩) e.environment
      e'.environment := by
  rintro s s' ⟨rfl, rfl, hs⟩
  exact .ok ⟨rfl, rfl⟩ ⟨rfl, rfl, hs⟩

theorem matched_environment {f g : Environment → Elab α} {V : α → α → Prop}
    (hfg : Match G A e e' own own' V (f ⟨e.base, own⟩) (g ⟨e'.base, own'⟩)) :
    Match G A e e' own own' V (e.environment >>= f) (e'.environment >>= g) := by
  rintro s s' ⟨rfl, rfl, hs⟩
  exact hfg s s' ⟨rfl, rfl, hs⟩

theorem matched_classFields {n n' : GlobalName} (hn : n = n') :
    Match G A e e' own own' (fun fs fs' => fs' = fs ∧ ∀ f ∈ fs, f.type.Over (.naming G A True) ⊤)
      (e.classFields n) (e'.classFields n') :=
  hn ▸ h.matched_environment (.pure ⟨h.classFields n, h.over_fields n⟩)

/-- A name that both environments know alike is mentioned alike. -/
theorem matched_global {n : GlobalName} (hn : G n) :
    Match G A e e' own own' (fun p p' => p.1.Twins (.naming G A True) p'.1 ∧
      p.2.Twins (.naming G A True) p'.2) (e.global n span) (e'.global n span) := by
  unfold global
  rw [h.current]
  split
  case' isTrue => refine .bind (V := (· = ·)) (.pure rfl) fun u u' hu => ?_
  case' isFalse => refine .bind matched_freshUniverse fun u u' hu => ?_
  -- Either way, the type of the global is looked up, at the same levels.
  all_goals
    subst hu
    refine h.matched_environment ?_
    rw [h.env.get? n hn]
    cases hd : (⟨e.base, own⟩ : Environment).get? n with
    | none => exact matched_fail rfl
    | some d =>
      have hadmits := Signature.admits_naming G A True u
      exact .pure ⟨.refl ⟨hn, hadmits⟩, .refl ((h.over_types n d hn hd).substLevels hadmits)⟩

variable (hc : c.Over (.naming G A True))

include hc

theorem matched_converter {f g : Converter → Elab α} {V : α → α → Prop}
    (hfg : ∀ k k', Converter.Twins G A k k' → k.env = ⟨e.base, own⟩ → k'.env = ⟨e'.base, own'⟩ →
      Match G A e e' own own' V (f k) (g k')) :
    Match G A e e' own own' V (e.converter c span >>= f) (e'.converter c span >>= g) := by
  rintro s s' ⟨rfl, rfl, hs⟩
  exact hfg ⟨⟨e.base, s.own⟩, c.locals, e.limits, span⟩ ⟨⟨e'.base, s'.own⟩, c.locals,
    e'.limits, span⟩ ⟨h.env, rfl, h.limits, rfl, hc.locals⟩ rfl rfl s s' ⟨rfl, rfl, hs⟩

theorem matched_whnf (ht : t.Twins (.naming G A True) t') :
    Match G A e e' own own' (Term.Twins (.naming G A True)) (e.whnf c t span)
      (e'.whnf c t' span) := by
  refine h.matched_converter hc fun k k' hk hleft hright => matched_converting hleft hright
    (hk.matched_whnf ht)

theorem matched_convert {l l' r r' : Term} {cmp : Comparison} (hl : l.Twins (.naming G A True) l')
    (hr : r.Twins (.naming G A True) r') :
    Match G A e e' own own' (fun _ _ => True) (e.convert c cmp l r span)
      (e'.convert c cmp l' r' span) := by
  refine h.matched_converter hc fun k k' hk hleft hright => ?_
  refine .tryCatch (matched_converting hleft hright (hk.matched_convert hl hr))
    (fun err s => ?_) fun err s => ?_
  all_goals split <;> exact ⟨_, rfl, rfl⟩

/-- Twins reduce to twins, which are both records of the same class or both no records. -/
theorem matched_classType (ht : t.Twins (.naming G A True) t') :
    Match G A e e' own own' (ClassType.Twins (.naming G A True)) (e.classType c t span)
      (e'.classType c t' span) := by
  refine .bind (h.matched_whnf hc ht) fun v v' hv => ?_
  obtain ⟨hover, halike⟩ := hv
  cases Term.alike halike
  case record n u ps ps' hps =>
    rw [Term.Over, Term.overAll_iff] at hover
    exact .pure ⟨rfl, rfl, Term.Twins.forall₂_of_map hover.2 hps⟩
  all_goals exact .bind matched_shown fun _ _ _ => .throw rfl

/-- Twins provide twins: both reduce to an instance of the same class or neither does, and in the
first case the superclass fields are twins. -/
theorem matched_provided {cls : GlobalName} {x x' : Typed}
    (hx : x.Twins (.naming G A True) x') (gas : ℕ) :
    Match G A e e' own own' (List.Forall₂ (Typed.Twins (.naming G A True)))
      (e.provided c cls span gas x) (e'.provided c cls span gas x') := by
  induction gas generalizing x x' with
  | zero => exact matched_fail rfl
  | succ gas ih =>
    unfold provided
    refine .bind (h.matched_whnf hc hx.type) fun v v' hv => ?_
    obtain ⟨hover, halike⟩ := hv
    cases Term.alike halike
    case record n u ps ps' hps =>
      rw [Term.Over, Term.overAll_iff] at hover
      dsimp only
      split
      · exact .pure (.cons hx .nil)
      · refine .bind (h.matched_classFields rfl) fun fs fs' ⟨hfs, hfields⟩ => ?_
        subst hfs
        have hsupers : List.Forall₂ (fun p q => p = q ∧ p.1 ∈ fs')
            (fs'.zipIdx.filter fun p => p.1.superclass.isSome).reverse
            (fs'.zipIdx.filter fun p => p.1.superclass.isSome).reverse :=
          List.forall₂_same.mpr fun p hp =>
            ⟨rfl, List.fst_mem_of_mem_zipIdx (List.mem_filter.mp (List.mem_reverse.mp hp)).1⟩
        refine .bind (.mapM hsupers fun p q ⟨hpq, hp⟩ => ?_) fun xss yss hss => .pure
          (forall₂_flatten hss)
        subst hpq
        have hclass : (⟨n, u, ps⟩ : ClassType).Twins (.naming G A True) ⟨n, u, ps'⟩ :=
          ⟨rfl, rfl, Term.Twins.forall₂_of_map hover.2 hps⟩
        exact ih (hclass.fieldOf hx.term p.2 (hfields p.1 hp))
    all_goals exact .pure .nil

/-- The contexts are the same, so that the same local variables are instances of the class. -/
theorem matched_localInstances {cls : GlobalName} :
    Match G A e e' own own' (List.Forall₂ (Typed.Twins (.naming G A True)))
      (e.localInstances c cls span) (e'.localInstances c cls span) := by
  unfold localInstances
  extract_lets params
  have hparams : List.Forall₂ (fun p q => p = q ∧ p.1 ∈ c.entries) params params :=
    List.forall₂_same.mpr fun p hp => ⟨rfl, List.fst_mem_of_mem_zipIdx (List.mem_filter.mp hp).1⟩
  refine .bind (.mapM hparams fun p q ⟨hpq, hp⟩ => ?_) fun xss yss hss =>
    .pure (forall₂_flatten hss)
  subst hpq
  have hvar : (Term.var p.2).Twins (.naming G A True) (.var p.2) := .refl (ENat.natCast_lt_top _)
  exact h.matched_provided hc ⟨hvar, .refl ((hc.types p.1 hp).lift (p.2 + 1)).top⟩ _

/-- Two candidates with types that differ in names only ask for as many holes. -/
theorem matched_applyToHoles {x x' : Typed} {pending pending' : List Typed}
    (hx : x.Twins (.naming G A True) x')
    (hpending : List.Forall₂ (Typed.Twins (.naming G A True)) pending pending') (gas : ℕ) :
    Match G A e e' own own'
      (fun p p' => p.1.Twins (.naming G A True) p'.1 ∧
        List.Forall₂ (Typed.Twins (.naming G A True)) p.2 p'.2)
      (e.applyToHoles c span gas x pending) (e'.applyToHoles c span gas x' pending') := by
  induction gas generalizing x x' pending pending' with
  | zero => exact matched_fail rfl
  | succ gas ih =>
    unfold applyToHoles
    refine .bind (h.matched_whnf hc hx.type) fun v v' hv => ?_
    obtain ⟨hover, halike⟩ := hv
    cases Term.alike halike
    case pi q q' dom cod dom' cod' hq hdom hcod =>
      have hdom : dom.Twins (.naming G A True) dom' := ⟨hover.1, hdom⟩
      have hnext (kind : HoleKind) {all all' : Term → List Typed}
          (hall : ∀ a a', a.Twins (.naming G A True) a' →
            List.Forall₂ (Typed.Twins (.naming G A True)) (all a) (all' a')) :
          Match G A e e' own own'
            (fun p p' => p.1.Twins (.naming G A True) p'.1 ∧
              List.Forall₂ (Typed.Twins (.naming G A True)) p.2 p'.2)
          (do
            let a ← fresh c dom kind span
            e.applyToHoles c span gas ⟨.app x.term a, cod.subst a⟩ (all a))
          (do
            let a ← fresh c dom' kind span
            e'.applyToHoles c span gas ⟨.app x'.term a, cod'.subst a⟩ (all' a)) := by
        refine .bind (matched_fresh hc hdom) fun a a' ha =>
          ih ⟨⟨⟨hx.term.over_left, ha.over_left⟩, ?_⟩, ?_⟩ (hall a a' ha)
        · simp only [Term.anonymize, hx.term.alike, ha.alike]
        · exact Term.Twins.subst ⟨hover.2, hcod⟩ ha
      dsimp only
      rw [hq]
      split
      · refine .bind (h.matched_classType hc hdom) fun cls cls' hcls =>
          .bind (.pure (congrArg HoleKind.inst hcls.name)) fun kind kind' hkind => ?_
        exact hkind ▸ hnext kind fun a a' ha => List.rel_append hpending (.cons ⟨ha, hdom⟩ .nil)
      · exact .bind (.pure rfl) fun kind kind' hkind => hkind ▸ hnext kind fun _ _ _ => hpending
    all_goals exact .pure ⟨hx, hpending⟩

theorem matched_followPath {x x' : Typed} (hx : x.Twins (.naming G A True) x')
    (path : SuperclassPath) :
    Match G A e e' own own' (Typed.Twins (.naming G A True)) (e.followPath c span x path)
      (e'.followPath c span x' path) := by
  refine .foldlM hx fun p y y' hy => .bind (h.matched_classType hc hy.type) fun cls cls' hcls => ?_
  refine .bind (h.matched_classFields hcls.name) fun fs fs' ⟨hfs, hover⟩ => ?_
  subst hfs
  cases hf : fs'[p.2]? with
  | none => exact .pure hy
  | some f => exact .pure (hcls.fieldOf hy.term p.2 (hover f (List.mem_of_getElem? hf)))

end Runs

end Elaborator.Twins

end LeveledTypes
