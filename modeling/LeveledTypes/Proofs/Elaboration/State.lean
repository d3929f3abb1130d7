import LeveledTypes.Elaboration.Basic
import LeveledTypes.Proofs.Conversion.Growth

/-!
# What elaboration leaves alone

Elaboration of expressions changes the store of holes as conversion does, and makes new holes. It
does not change the definitions of the module. All terms that it makes give constructors the
arguments that their definitions ask for.
-/
namespace LeveledTypes

namespace Environment

/-- All terms in which constructors have as many arguments as their definitions say. -/
def signature (env : Environment) : Signature where
  global _ := True
  hole _ := True
  first _ := True
  second _ := True
  arity n := match env.get? n with
    | some d => match d.body with
      | .constructor _ _ params _ => d.tele.length - params
      | _ => 0
    | none => 0
  paths := True
  record _ _ := True

/-- The definitions are closed, have constructors with the right numbers of arguments, and know
their names. -/
structure WellFormed (env : Environment) : Prop where
  bodies : env.Over env.signature
  name : ∀ n d, env.get? n = some d → d.name = n
  type : ∀ n d, env.get? n = some d → (Term.pis d.tele d.type).Over env.signature 0
  fields : ∀ n, ∀ f ∈ env.classFields n, f.type.Over env.signature ⊤ ∧ ∀ t, f.default = some t →
    t.Over env.signature ⊤

variable {env : Environment}

theorem admits (env : Environment) (u : Universe) : env.signature.Admits u :=
  ⟨fun _ _ => trivial, fun _ _ => trivial⟩

theorem arity_eq {n : GlobalName} {d : Definition} {data : GlobalName} {index params : ℕ}
    {patterns : Option (List Term)} (hd : env.get? n = some d)
    (hbody : d.body = .constructor data index params patterns) :
    env.signature.arity n = d.tele.length - params := by
  simp [signature, hd, hbody]

end Environment

section Contexts
variable {S : Signature}

/-- A context all of whose terms are over a signature. -/
structure Context.Over (S : Signature) (c : Context) : Prop where
  types : ∀ x ∈ c.entries, x.type.Over S ⊤
  values : ∀ x ∈ c.entries, ∀ v, x.value = some v → v.Over S ⊤
  aliases : ∀ a ∈ c.aliases, a.2.value.Over S ⊤ ∧ a.2.type.Over S ⊤

namespace Context.Over
variable {c : Context}

theorem empty : Context.Over S {} := ⟨by simp, by simp, by simp⟩

theorem push (hc : c.Over S) {x : Binder} {type : Term} {value : Option Term}
    (htype : type.Over S ⊤) (hvalue : ∀ v, value = some v → v.Over S ⊤ := by simp) :
    (c.push x type value).Over S :=
  ⟨List.forall_mem_cons.mpr ⟨htype, hc.types⟩,
    List.forall_mem_cons.mpr ⟨hvalue, hc.values⟩, hc.aliases⟩

theorem pushTele (hc : c.Over S) {tele : Telescope Term} (htele : ∀ p ∈ tele, p.type.Over S ⊤) :
    (c.pushTele tele).Over S := by
  induction tele generalizing c with
  | nil => exact hc
  | cons p tele ih =>
    obtain ⟨hp, htele⟩ := List.forall_mem_cons.mp htele
    exact ih (hc.push hp) htele

theorem addAlias (hc : c.Over S) {v : Variable} {a : Alias} (hvalue : a.value.Over S ⊤)
    (htype : a.type.Over S ⊤) : (c.addAlias v a).Over S :=
  ⟨hc.types, hc.values, List.forall_mem_cons.mpr ⟨⟨hvalue, htype⟩, hc.aliases⟩⟩

theorem locals (hc : c.Over S) : c.locals.Over S := by
  intro v hv
  obtain ⟨x, hx, hxv⟩ := List.mem_map.mp hv
  exact hc.values x hx v hxv

theorem tele (hc : c.Over S) : ∀ p ∈ c.tele, p.type.Over S ⊤ := by
  intro p hp
  obtain ⟨x, hx, rfl⟩ := List.mem_map.mp hp
  exact hc.types x (List.mem_reverse.mp hx)

theorem lookup? (hc : c.Over S) {v : Variable} {t type : Term} (h : c.lookup? v = some (t, type)) :
    t.Over S ⊤ ∧ type.Over S ⊤ := by
  unfold Context.lookup? at h
  split at h
  case h_1 i hi =>
    obtain ⟨x, hx, h⟩ := Option.map_eq_some_iff.mp h
    obtain ⟨rfl, rfl⟩ := Prod.mk.inj h
    exact ⟨ENat.natCast_lt_top i, ((hc.types x (List.mem_of_getElem? hx)).lift _).top⟩
  case h_2 =>
    obtain ⟨a, ha, h⟩ := Option.map_eq_some_iff.mp h
    obtain ⟨rfl, rfl⟩ := Prod.mk.inj h
    obtain ⟨hvalue, htype⟩ := hc.aliases a (List.mem_of_find?_eq_some ha)
    exact ⟨(hvalue.lift _).top, (htype.lift _).top⟩

end Context.Over

end Contexts

theorem Term.over_pis {S : Signature} {tele : Telescope Term} {t : Term}
    (htele : ∀ p ∈ tele, p.type.Over S ⊤) (ht : t.Over S ⊤) : (Term.pis tele t).Over S ⊤ := by
  induction tele with
  | nil => exact ht
  | cons p tele ih =>
    obtain ⟨hp, htele⟩ := List.forall_mem_cons.mp htele
    exact ⟨hp, ih htele⟩

/-- A state of an elaboration over the given definitions that has the given solutions of holes. -/
structure ElaborationState.Follows (e : Elaborator) (env : Environment) (sol : ℕ → Option Term)
    (s : ElaborationState) : Prop where
  environment : ⟨e.base, s.own⟩ = env
  conversion : s.conversion.Follows env.signature env sol

namespace Store
variable {S : Signature} {s : Store}

theorem getElem?_fresh {ctx : Telescope Term} {type : Term} {kind : HoleKind} {span : Span}
    {m : ℕ} {h : Hole} (hm : (s.fresh ctx type kind span).2.holes[m]? = some h) :
    s.holes[m]? = some h ∨ h.solution = none ∧ h.type = Term.pis ctx type := by
  rw [fresh, Array.getElem?_push] at hm
  split at hm
  · obtain rfl := Option.some.inj hm
    exact .inr ⟨rfl, rfl⟩
  · exact .inl hm

theorem solution?_fresh {ctx : Telescope Term} {type : Term} {kind : HoleKind} {span : Span}
    {m : ℕ} {t : Term} : (s.fresh ctx type kind span).2.solution? m = some t ↔
    s.solution? m = some t := by
  rw [solution?, solution?, fresh, Array.getElem?_push]
  split
  case isTrue h => simp [h]
  case isFalse => rfl

theorem Valid.fresh (hs : s.Valid S) {ctx : Telescope Term} {type : Term}
    {kind : HoleKind} {span : Span} (hctx : ∀ p ∈ ctx, p.type.Over S ⊤) (htype : type.Over S ⊤) :
    (s.fresh ctx type kind span).2.Valid S := by
  refine ⟨fun m t h => hs.solutions m t (solution?_fresh.mp h),
    fun m t h => hs.closed m t (solution?_fresh.mp h), fun m h hm => ?_⟩
  obtain hm | ⟨-, htype'⟩ := getElem?_fresh hm
  · exact hs.types m h hm
  · exact htype' ▸ Term.over_pis hctx htype

theorem over_fresh {ctx : Telescope Term} {type : Term} {kind : HoleKind} {span : Span}
    (hS : ∀ m, S.hole m) : (s.fresh ctx type kind span).1.Over S ⊤ := by
  refine Term.over_apps.mpr ⟨hS _, ?_⟩
  simp

end Store

namespace Elaborator

/-- Elaboration that leaves the definitions and the solutions of holes alone, however it ends, and
that returns what is said if it returns. -/
abbrev Keeps {α : Type} (e : Elaborator) (env : Environment) (sol : ℕ → Option Term) (x : Elab α)
    (Q : α → Prop) : Prop :=
  Ensures (ElaborationState.Follows e env sol) x Q

section Primitives
variable {α : Type} {e : Elaborator} {env : Environment} {sol : ℕ → Option Term} {c : Context}
  {t type : Term} {span : Span}

theorem keeps_fail {p : Problem} {Q : α → Prop} :
    e.Keeps env sol (fail p span : Elab α) Q := .throw _

theorem keeps_mismatch {expected actual : String} {Q : α → Prop} :
    e.Keeps env sol (mismatch expected actual span : Elab α) Q := .throw _

theorem keeps_environment : e.Keeps env sol e.environment (· = env) :=
  fun _ hs => ⟨hs, hs.environment⟩

theorem keeps_store : e.Keeps env sol store (·.Valid env.signature) :=
  fun _ hs => ⟨hs, hs.conversion.valid⟩

/-- A change of what is neither a definition nor a hole. -/
theorem keeps_modify {f : ElaborationState → ElaborationState}
    (h : ∀ s, (f s).own = s.own ∧ (f s).conversion = s.conversion) :
    e.Keeps env sol (modify f) fun _ => True := by
  intro s hs
  obtain ⟨hown, hconversion⟩ := h s
  exact ⟨⟨hown ▸ hs.environment, hconversion ▸ hs.conversion⟩, trivial⟩

theorem keeps_modifyStore {f : Store → α × Store} {Q : α → Prop}
    (h : ∀ s : Store, s.Valid env.signature → (f s).2.Valid env.signature ∧
      (∀ m t, s.solution? m = some t → (f s).2.solution? m = some t) ∧ Q (f s).1) :
    e.Keeps env sol (modifyStore f) Q := by
  intro s hs
  obtain ⟨hvalid, hkeeps, hQ⟩ := h s.conversion.store hs.conversion.valid
  exact ⟨⟨hs.environment, fun m t ht => hkeeps m t (hs.conversion.keeps m t ht), hvalid,
    hs.conversion.memo⟩, hQ⟩

/-- A run of conversion inside elaboration keeps what conversion keeps. The definitions of the
module are those from before, so that the environment does not change on the way. -/
theorem keeps_converting {f : Convert α} {Q : α → Prop}
    (hf : Ensures (ConversionState.Follows env.signature env sol) f Q) :
    e.Keeps env sol (converting f) Q := by
  intro s hs
  have hfs := hf s.conversion hs.conversion
  unfold converting
  dsimp only
  cases hr : f s.conversion with
  | ok a t =>
    simp only [hr] at hfs
    exact ⟨⟨hs.environment, hfs.1⟩, hfs.2⟩
  | error err t =>
    simp only [hr] at hfs
    exact ⟨hs.environment, hfs⟩

theorem keeps_converter :
    e.Keeps env sol (e.converter c span) fun k => k.env = env ∧ k.locals = c.locals :=
  .bind keeps_environment fun _ h => .pure ⟨h, rfl⟩

theorem keeps_shown : e.Keeps env sol (shown c t) fun _ => True :=
  .bind keeps_store fun _ _ => .pure trivial

theorem keeps_fresh {kind : HoleKind} (hc : c.Over env.signature)
    (htype : type.Over env.signature ⊤) :
    e.Keeps env sol (fresh c type kind span) (·.Over env.signature ⊤) :=
  keeps_modifyStore fun _ hs => ⟨hs.fresh hc.tele htype, fun _ _ => Store.solution?_fresh.mpr,
    Store.over_fresh fun _ => trivial⟩

theorem keeps_freshUniverse : e.Keeps env sol freshUniverse fun _ => True :=
  keeps_modifyStore fun _ hs => ⟨⟨hs.solutions, hs.closed, hs.types⟩, fun _ _ => id, trivial⟩

theorem keeps_freshType (hc : c.Over env.signature) :
    e.Keeps env sol (freshType c span) (·.Over env.signature ⊤) :=
  .bind keeps_freshUniverse fun u _ => keeps_fresh hc (env.admits u)

theorem keeps_goal (hc : c.Over env.signature) (htype : type.Over env.signature ⊤) :
    e.Keeps env sol (goal c type span) (·.Over env.signature ⊤) :=
  .bind (keeps_fresh hc htype) fun _ ht =>
    .bind (keeps_modify fun _ => ⟨rfl, rfl⟩) fun _ _ => .pure ht

/-- Comparing universes keeps the state over the signature, and reports the levels that cannot be.
-/
theorem keeps_universeLe {u v : Universe} :
    e.Keeps env sol (universeLe u v span) fun _ => True := by
  refine .bind (P := fun _ => True) (keeps_modifyStore fun s hs => ?_) fun err _ => ?_
  · have hholes := Converter.holes_addUniverse s .le u v span
    have hsolution : (s.addUniverse .le u v span).1.solution? = s.solution? := by
      funext m
      rw [Store.solution?, Store.solution?, hholes]
    exact ⟨⟨hsolution ▸ hs.solutions, hsolution ▸ hs.closed, hholes ▸ hs.types⟩,
      hsolution ▸ fun _ _ => id, trivial⟩
  · split
    · exact .pure trivial
    · exact .throw _

theorem keeps_maxUniverse {u v : Universe} :
    e.Keeps env sol (maxUniverse u v span) fun _ => True := by
  unfold maxUniverse
  split
  · exact .pure trivial
  · split
    · exact .pure trivial
    · refine .bind keeps_freshUniverse fun w _ => ?_
      exact .bind keeps_universeLe fun _ _ => .bind keeps_universeLe fun _ _ => .pure trivial

theorem keeps_localVar (hc : c.Over env.signature) {v : Variable} :
    e.Keeps env sol (localVar c v span) fun p => p.1.Over env.signature ⊤ ∧
    p.2.Over env.signature ⊤ := by
  unfold localVar
  split
  case h_1 r h => exact .pure (hc.lookup? h)
  case h_2 => exact keeps_fail

section WellFormed
variable (henv : env.WellFormed)

include henv

/-- The term and the type of a mentioned global are over the signature. -/
theorem keeps_global {n : GlobalName} :
    e.Keeps env sol (e.global n span) fun p => p.1.Over env.signature ⊤ ∧
    p.2.Over env.signature ⊤ := by
  have hjoin (u : Universe) : e.Keeps env sol (do
      match (← e.environment).get? n with
      | some d => return (Term.ref n u, d.fullType u)
      | none => fail (.unresolvedName n.short) span) fun p => p.1.Over env.signature ⊤ ∧
        p.2.Over env.signature ⊤ := by
    refine .bind keeps_environment fun env' h => ?_
    subst h
    split
    case h_1 d hd =>
      exact .pure ⟨⟨trivial, env'.admits u⟩, ((henv.type n d hd).substLevels (env'.admits u)).top⟩
    case h_2 => exact keeps_fail
  unfold global
  split
  · exact .bind (.pure (P := fun _ => True) trivial) fun u _ => hjoin u
  · exact .bind keeps_freshUniverse fun u _ => hjoin u

theorem keeps_whnf (hc : c.Over env.signature) (ht : t.Over env.signature ⊤) :
    e.Keeps env sol (e.whnf c t span) (·.Over env.signature ⊤) := by
  refine .bind keeps_converter fun k ⟨hk, hlocals⟩ => ?_
  subst hk
  exact keeps_converting (Converter.follows_whnf henv.bodies (hlocals ▸ hc.locals) ht)

theorem keeps_convert (hc : c.Over env.signature) {cmp : Comparison} {l r : Term}
    (hl : l.Over env.signature ⊤) (hr : r.Over env.signature ⊤) :
    e.Keeps env sol (e.convert c cmp l r span) fun _ => True := by
  refine .bind keeps_converter fun k ⟨hk, hlocals⟩ => ?_
  subst hk
  refine .tryCatch (keeps_converting ?_) fun err => ?_
  · exact Converter.follows_convertIn henv.bodies (hlocals ▸ hc.locals) k.env.admits _ hl hr
  · split
    · exact .bind keeps_shown fun _ _ => .bind keeps_shown fun _ _ => keeps_mismatch
    · exact .throw _

theorem keeps_classType (hc : c.Over env.signature) (htype : type.Over env.signature ⊤) :
    e.Keeps env sol (e.classType c type span) (·.term.Over env.signature ⊤) := by
  refine .bind (keeps_whnf henv hc htype) fun t ht => ?_
  split
  · exact .pure ht
  · exact .bind keeps_shown fun _ _ => keeps_mismatch

theorem keeps_implicitArg (hc : c.Over env.signature) (htype : type.Over env.signature ⊤)
    {info : BinderInfo} :
    e.Keeps env sol (e.implicitArg c type info span) (·.Over env.signature ⊤) := by
  unfold implicitArg
  split
  · exact keeps_fresh hc htype
  · refine .bind (keeps_classType henv hc htype) fun cls _ =>
      .bind (keeps_fresh hc htype) fun t ht => ?_
    exact .bind (keeps_modify fun _ => ⟨rfl, rfl⟩) fun _ _ => .pure ht

end WellFormed

/-- Head reduction during elaboration is head reduction over the present definitions and the present
store. -/
theorem whnf_eq_ok {s : ElaborationState} {t u : Term} {fuel : ℕ} {memo : Memo}
    (h : Reducer.whnf ⟨⟨e.base, s.own⟩, s.conversion.store, c.locals⟩ 0 t ⟨e.limits.reductionFuel,
      s.conversion.memo⟩ = .ok u ⟨fuel, memo⟩) :
    e.whnf c t span s = .ok u { s with conversion := { s.conversion with memo } } := by
  have hk : e.converter c span s = .ok ⟨⟨e.base, s.own⟩, c.locals, e.limits, span⟩ s := rfl
  have ht : Converter.whnf ⟨⟨e.base, s.own⟩, c.locals, e.limits, span⟩ 0 t s.conversion =
      .ok u { s.conversion with memo } :=
    Converter.whnf_eq_ok h
  refine (bind_of_ok hk).trans ?_
  simp only [converting, ht]

end Primitives

end Elaborator

end LeveledTypes
