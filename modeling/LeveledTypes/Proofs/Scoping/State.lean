import LeveledTypes.Proofs.Elaboration.State
import LeveledTypes.Proofs.Scoping.Conversion

/-!
# Scoped states of an elaboration

In a scoped context the type and the value of each variable are over the variables behind it, and a
pattern variable stands for a term of the context it was bound in. Elaboration in scoped contexts
keeps holes and constraints scoped, and makes terms over the variables of the context.
-/
namespace LeveledTypes

section Contexts
variable {A : Arities}

/-- The type and the value of each entry are over the entries behind it. -/
def ScopedEntries (A : Arities) : List Entry → Prop
  | [] => True
  | x :: xs => x.type.Scoped A xs.length ∧ (∀ v, x.value = some v → v.Scoped A xs.length) ∧
    ScopedEntries A xs

/-- A pattern variable stands for a term of the context it was bound in. -/
structure Alias.Scoped (A : Arities) (a : Alias) : Prop where
  value : a.value.Scoped A a.depth
  type : a.type.Scoped A a.depth

/-- A context whose entries are over those before them. -/
structure Context.Scoped (A : Arities) (c : Context) : Prop where
  entries : ScopedEntries A c.entries
  /-- The contexts that pattern variables were bound in are no longer than this one. -/
  aliases : ∀ a ∈ c.aliases, a.2.depth ≤ c.length ∧ a.2.Scoped A

/-- Type and value of an entry are over the entries before it, and are lifted over those from it on.
-/
theorem ScopedEntries.getElem? {xs : List Entry} (h : ScopedEntries A xs) {i : ℕ} {x : Entry}
    (hx : xs[i]? = some x) : (x.type.lift (i + 1)).Scoped A xs.length ∧ ∀ v, x.value = some v →
    (v.lift (i + 1)).Scoped A xs.length := by
  induction xs generalizing i with
  | nil => contradiction
  | cons y xs ih =>
    obtain ⟨htype, hvalue, hxs⟩ := h
    cases i with
    | zero =>
      obtain rfl := Option.some.inj hx
      exact ⟨htype.lift 1, fun v hv => (hvalue v hv).lift 1⟩
    | succ i =>
      obtain ⟨htype, hvalue⟩ := ih hxs hx
      refine ⟨?_, fun v hv => ?_⟩
      · rw [← Term.lift_lift]
        exact htype.lift 1
      · rw [← Term.lift_lift]
        exact (hvalue v hv).lift 1

theorem ScopedEntries.tele {xs : List Entry} (h : ScopedEntries A xs) :
    Term.ScopedTele A 0 (xs.reverse.map fun x => { toBinder := x.binder, type := x.type }) := by
  induction xs with
  | nil => trivial
  | cons x xs ih =>
    rw [List.reverse_cons, List.map_append, Term.scopedTele_append]
    refine ⟨ih h.2.2, ?_, trivial⟩
    simpa using h.1

namespace Context
variable {c : Context}

@[simp] theorem length_push (c : Context) (x : Binder) (type : Term) (value : Option Term) :
    (c.push x type value).length = c.length + 1 := rfl

@[simp] theorem length_addAlias (c : Context) (v : Variable) (a : Alias) :
    (c.addAlias v a).length = c.length := rfl

@[simp] theorem length_tele (c : Context) : c.tele.length = c.length := by simp [tele, length]

theorem length_pushTele (c : Context) (tele : Telescope Term) :
    (c.pushTele tele).length = c.length + tele.length := by
  induction tele generalizing c with
  | nil => rfl
  | cons p tele ih =>
    refine (ih (c.push p.toBinder p.type)).trans ?_
    rw [length_push, List.length_cons]
    omega

namespace Scoped

theorem empty : Context.Scoped A {} := ⟨trivial, by simp⟩

theorem push (hc : c.Scoped A) {x : Binder} {type : Term} {value : Option Term}
    (htype : type.Scoped A c.length)
    (hvalue : ∀ v, value = some v → v.Scoped A c.length := by simp) :
    (c.push x type value).Scoped A :=
  ⟨⟨htype, hvalue, hc.entries⟩,
    fun a ha => ⟨(hc.aliases a ha).1.trans (Nat.le_succ _), (hc.aliases a ha).2⟩⟩

theorem pushTele (hc : c.Scoped A) {tele : Telescope Term}
    (htele : Term.ScopedTele A c.length tele) : (c.pushTele tele).Scoped A := by
  induction tele generalizing c with
  | nil => exact hc
  | cons p tele ih => exact ih (hc.push htele.1) htele.2

theorem addAlias (hc : c.Scoped A) {v : Variable} {a : Alias} (ha : a.Scoped A)
    (hdepth : a.depth ≤ c.length) : (c.addAlias v a).Scoped A :=
  ⟨hc.entries, List.forall_mem_cons.mpr ⟨⟨hdepth, ha⟩, hc.aliases⟩⟩

theorem locals (hc : c.Scoped A) : c.locals.Scoped A c.length := by
  intro i v hi hv
  obtain ⟨x, hx, hxv⟩ := Option.map_eq_some_iff.mp ((List.getElem?_map ..).symm.trans hv)
  exact (hc.entries.getElem? hx).2 v hxv

theorem tele (hc : c.Scoped A) : Term.ScopedTele A 0 c.tele := hc.entries.tele

/-- A variable that is found has its value, or itself, with a type over the context. -/
theorem lookup? (hc : c.Scoped A) {v : Variable} {t type : Term}
    (h : c.lookup? v = some (t, type)) : t.Scoped A c.length ∧ type.Scoped A c.length := by
  unfold Context.lookup? at h
  split at h
  case h_1 i hi =>
    obtain ⟨x, hx, h⟩ := Option.map_eq_some_iff.mp h
    obtain ⟨rfl, rfl⟩ := Prod.mk.inj h
    exact ⟨(List.getElem?_eq_some_iff.mp hx).1, (hc.entries.getElem? hx).1⟩
  case h_2 =>
    obtain ⟨a, ha, h⟩ := Option.map_eq_some_iff.mp h
    obtain ⟨rfl, rfl⟩ := Prod.mk.inj h
    obtain ⟨hdepth, ha⟩ := hc.aliases a (List.mem_of_find?_eq_some ha)
    have hlift {t : Term} (ht : t.Scoped A a.2.depth) :
        (t.lift (c.length - a.2.depth)).Scoped A c.length := by
      have hadd : a.2.depth + (c.length - a.2.depth) = c.length := by omega
      simpa only [hadd] using ht.lift (c.length - a.2.depth)
    exact ⟨hlift ha.value, hlift ha.type⟩

end Scoped

end Context

end Contexts

/-- The fields of a class are over its parameters and the fields before them. -/
theorem Environment.Scoped.classFields {A : Arities} {env : Environment} (henv : env.Scoped A)
    {n : GlobalName} {i : ℕ} {f : ClassField} (hf : (env.classFields n)[i]? = some f) :
    f.type.Scoped A (A.record n + i) ∧ ∀ t, f.default = some t → t.Scoped A (A.record n + i) := by
  unfold Environment.classFields at hf
  split at hf
  case h_1 fs supers hd =>
    obtain rfl := henv.name n _ hd
    have hbody := (henv.terms _ _ hd).body i f hf
    have hsuits := henv.suits _ _ hd
    dsimp only [Definition.Suits] at hsuits
    exact hsuits ▸ hbody
  case h_2 => contradiction

namespace ClassType
variable {A : Arities} {n : ℕ} {cls : ClassType}

/-- The type of a field is over the parameters of the class and the fields before it, which are put
in. -/
theorem scoped_instantiate {fields : List Term} {t : Term} (hcls : cls.term.Scoped A n)
    (hfields : ∀ v ∈ fields, v.Scoped A n) (ht : t.Scoped A (A.record cls.name + fields.length)) :
    (cls.instantiate fields t).Scoped A n := by
  obtain ⟨hlength, hparams⟩ := hcls
  rw [Term.scopedAll_iff] at hparams
  refine Term.Scoped.substAll (ht.substLevels.mono ?_) fun a ha => ?_
  · rw [List.length_append]
    omega
  · rcases List.mem_append.mp ha with ha | ha
    · exact hparams a ha
    · exact hfields a ha

end ClassType

namespace Store
variable {A : Arities} {obligations : List Obligation} {s : Store} {c : Context} {type : Term}
  {kind : HoleKind} {span : Span}

theorem headHole?_fresh {ctx : Telescope Term} :
    (s.fresh ctx type kind span).1.headHole? = some s.holes.size := by
  rw [Term.headHole?, Term.head, Term.spine, fresh, Term.spineWith_apps]
  rfl

/-- A new hole has a closed type, and is applied to all variables of the context. -/
theorem Scoped.fresh (hs : s.Scoped A obligations) (hc : c.Scoped A)
    (htype : type.Scoped A c.length) : (s.fresh c.tele type kind span).2.Scoped A obligations := by
  refine ⟨fun m t h => hs.solutions m t (solution?_fresh.mp h), fun m h hm => ?_,
    hs.constraints, fun o ho => ?_⟩
  · obtain hm | ⟨-, htype'⟩ := getElem?_fresh hm
    · exact hs.types m h hm
    · rw [htype', Term.scoped_pis, Nat.zero_add, Context.length_tele]
      exact ⟨hc.tele, htype⟩
  · obtain ⟨h, hh, harity⟩ := hs.waiting o ho
    have hlt := (Array.getElem?_eq_some_iff.mp hh).1
    exact
      ⟨h, by rw [Store.fresh, Array.getElem?_push_lt hlt, ← hh, Array.getElem?_eq_getElem], harity⟩

theorem scoped_fresh : (s.fresh c.tele type kind span).1.Scoped A c.length := by
  refine Term.scoped_apps.mpr ⟨trivial, ?_⟩
  rw [Context.length_tele]
  exact Term.scoped_range c.length

end Store

/-- Fewer instance arguments need not wait. -/
theorem Store.Scoped.mono {A : Arities} {os os' : List Obligation} {s : Store} (hs : s.Scoped A os)
    (h : ∀ o ∈ os', o ∈ os) : s.Scoped A os' :=
  ⟨hs.solutions, hs.types, hs.constraints, fun o ho => hs.waiting o (h o ho)⟩

/-- A scoped state of an elaboration over the given definitions. The instance arguments that wait
may be among given ones, as they are while those are taken up. -/
structure ElaborationState.Scoped (A : Arities) (e : Elaborator) (env : Environment)
    (fixed : Option (List Obligation)) (s : ElaborationState) : Prop where
  environment : ⟨e.base, s.own⟩ = env
  conversion : s.conversion.Scoped A (fixed.getD s.obligations)
  contexts : ∀ o ∈ fixed.getD s.obligations, o.context.Scoped A
  among : ∀ o ∈ s.obligations, o ∈ fixed.getD s.obligations

namespace Elaborator

/-- Elaboration that keeps its state scoped, however it ends, and that returns what is said if it
returns. -/
abbrev Scopes {α : Type} (e : Elaborator) (A : Arities) (env : Environment)
    (fixed : Option (List Obligation)) (x : Elab α) (Q : α → Prop) : Prop :=
  Ensures (ElaborationState.Scoped A e env fixed) x Q

section Primitives
variable {α : Type} {e : Elaborator} {A : Arities} {env : Environment}
  {fixed : Option (List Obligation)} {c : Context} {t type : Term} {span : Span}

/-- What leaves any instance arguments as they wait may be run while no more than these do. -/
theorem scopes_of_fixed {x : Elab α} {Q : α → Prop} (h : ∀ os, e.Scopes A env (some os) x Q) :
    e.Scopes A env none x Q := by
  intro s hs
  have hback {t : ElaborationState} (ht : t.Scoped A e env (some s.obligations)) :
      t.Scoped A e env none :=
    ⟨ht.environment, ⟨ht.conversion.store.mono ht.among, ht.conversion.memo⟩,
      fun o ho => ht.contexts o (ht.among o ho), fun _ => id⟩
  have hx := h s.obligations s ⟨hs.environment, hs.conversion, hs.contexts, fun _ => id⟩
  split at hx
  case h_1 => exact hx.imp_left hback
  case h_2 => exact hback hx

theorem scopes_fail {p : Problem} {Q : α → Prop} :
    e.Scopes A env fixed (fail p span : Elab α) Q := .throw _

theorem scopes_mismatch {expected actual : String} {Q : α → Prop} :
    e.Scopes A env fixed (mismatch expected actual span : Elab α) Q := .throw _

theorem scopes_environment : e.Scopes A env fixed e.environment (· = env) :=
  fun _ hs => ⟨hs, hs.environment⟩

theorem scopes_store : e.Scopes A env fixed store (·.Scoped A (fixed.getD [])) := by
  refine fun s hs => ⟨hs, hs.conversion.store.mono ?_⟩
  cases fixed with
  | none => simp
  | some os => exact fun _ => id

/-- A change of what is neither a definition nor a hole nor an instance argument that waits. -/
theorem scopes_modify {f : ElaborationState → ElaborationState}
    (h : ∀ s, (f s).own = s.own ∧ (f s).conversion = s.conversion ∧
      (f s).obligations = s.obligations) :
    e.Scopes A env fixed (modify f) fun _ => True := by
  intro s hs
  obtain ⟨hown, hconversion, hobligations⟩ := h s
  refine ⟨⟨hown ▸ hs.environment, ?_, hobligations ▸ hs.contexts, hobligations ▸ hs.among⟩, trivial⟩
  rw [hconversion, hobligations]
  exact hs.conversion

theorem scopes_modifyStore {f : Store → α × Store} {Q : α → Prop}
    (h : ∀ (s : Store) (os : List Obligation), (∀ os', fixed = some os' → os = os') →
      s.Scoped A os → (f s).2.Scoped A os ∧ Q (f s).1) :
    e.Scopes A env fixed (modifyStore f) Q := by
  intro s hs
  obtain ⟨hstore, hQ⟩ := h s.conversion.store _ (fun os hos => by rw [hos]; rfl) hs.conversion.store
  exact ⟨⟨hs.environment, ⟨hstore, hs.conversion.memo⟩, hs.contexts, hs.among⟩, hQ⟩

/-- A run of conversion keeps the state scoped, for whatever obligations wait. -/
theorem scopes_converting {f : Convert α} {Q : α → Prop} (hf : ∀ os, Converter.Scopes A os f Q) :
    e.Scopes A env fixed (converting f) Q := by
  intro s hs
  have hfs := hf _ s.conversion hs.conversion
  unfold converting
  dsimp only
  cases hr : f s.conversion with
  | ok a t =>
    simp only [hr] at hfs
    exact ⟨⟨hs.environment, hfs.1, hs.contexts, hs.among⟩, hfs.2⟩
  | error err t =>
    simp only [hr] at hfs
    exact ⟨hs.environment, hfs, hs.contexts, hs.among⟩

theorem scopes_converter :
    e.Scopes A env fixed (e.converter c span) fun k => k.env = env ∧ k.locals = c.locals :=
  .bind scopes_environment fun _ h => .pure ⟨h, rfl⟩

theorem scopes_shown : e.Scopes A env fixed (shown c t) fun _ => True :=
  .bind scopes_store fun _ _ => .pure trivial

theorem scopes_fresh {kind : HoleKind} (hc : c.Scoped A) (htype : type.Scoped A c.length) :
    e.Scopes A env fixed (fresh c type kind span) (·.Scoped A c.length) :=
  scopes_modifyStore fun _ _ _ hs => ⟨hs.fresh hc htype, Store.scoped_fresh⟩

theorem scopes_freshUniverse : e.Scopes A env fixed freshUniverse fun _ => True :=
  scopes_modifyStore fun _ _ _ hs => ⟨⟨hs.solutions, hs.types, hs.constraints, hs.waiting⟩, trivial⟩

theorem scopes_freshType (hc : c.Scoped A) :
    e.Scopes A env fixed (freshType c span) (·.Scoped A c.length) :=
  .bind scopes_freshUniverse fun _ _ => scopes_fresh hc trivial

theorem scopes_goal (hc : c.Scoped A) (htype : type.Scoped A c.length) :
    e.Scopes A env fixed (goal c type span) (·.Scoped A c.length) :=
  .bind (scopes_fresh hc htype) fun _ ht => .bind (scopes_modify fun _ => ⟨rfl, rfl, rfl⟩)
    fun _ _ => .pure ht

theorem scopes_universeLe {u v : Universe} :
    e.Scopes A env fixed (universeLe u v span) fun _ => True := by
  refine .bind (P := fun _ => True)
    (scopes_modifyStore fun s _ _ hs => ⟨hs.addUniverse .le u v span, trivial⟩) fun err _ => ?_
  split
  · exact .pure trivial
  · exact .throw _

theorem scopes_maxUniverse {u v : Universe} :
    e.Scopes A env fixed (maxUniverse u v span) fun _ => True := by
  unfold maxUniverse
  split
  · exact .pure trivial
  · split
    · exact .pure trivial
    · refine .bind scopes_freshUniverse fun w _ => ?_
      exact .bind scopes_universeLe fun _ _ => .bind scopes_universeLe fun _ _ => .pure trivial

theorem scopes_localVar (hc : c.Scoped A) {v : Variable} :
    e.Scopes A env fixed (localVar c v span) fun p => p.1.Scoped A c.length ∧
    p.2.Scoped A c.length := by
  unfold localVar
  split
  case h_1 r h => exact .pure (hc.lookup? h)
  case h_2 => exact scopes_fail

section Definitions
variable (henv : env.Scoped A)

include henv

theorem scopes_global {n : GlobalName} :
    e.Scopes A env fixed (e.global n span) fun p => p.1.Scoped A 0 ∧ p.2.Scoped A 0 := by
  unfold global
  split
  case' isTrue => refine .bind (.pure (P := fun _ => True) trivial) fun u _ => ?_
  case' isFalse => refine .bind scopes_freshUniverse fun u _ => ?_
  all_goals
    refine .bind scopes_environment fun env' h => ?_
    subst h
    split
    case h_1 d hd => exact .pure ⟨trivial, (henv.terms n d hd).scoped_pis.substLevels⟩
    case h_2 => exact scopes_fail

theorem scopes_whnf (hc : c.Scoped A) (ht : t.Scoped A c.length) :
    e.Scopes A env fixed (e.whnf c t span) (·.Scoped A c.length) := by
  refine .bind scopes_converter fun k ⟨hk, hlocals⟩ => ?_
  subst hk
  exact scopes_converting fun _ => Converter.scopes_whnf (hlocals ▸ hc.locals) henv ht

theorem scopes_convert (hc : c.Scoped A) {cmp : Comparison} {l r : Term} (hl : l.Scoped A c.length)
    (hr : r.Scoped A c.length) : e.Scopes A env fixed (e.convert c cmp l r span) fun _ => True := by
  refine .bind scopes_converter fun k ⟨hk, hlocals⟩ => ?_
  subst hk
  refine .tryCatch (scopes_converting fun _ => Converter.scopes_convert henv
    (hlocals ▸ hc.locals) hl hr) fun err => ?_
  split
  · exact .bind scopes_shown fun _ _ => .bind scopes_shown fun _ _ => scopes_mismatch
  · exact .throw _

theorem scopes_classType (hc : c.Scoped A) (htype : type.Scoped A c.length) :
    e.Scopes A env fixed (e.classType c type span) (·.term.Scoped A c.length) := by
  refine .bind (scopes_whnf henv hc htype) fun t ht => ?_
  split
  · exact .pure ht
  · exact .bind scopes_shown fun _ _ => scopes_mismatch

/-- An instance argument that waits does so in the context its hole was made in. -/
theorem scopes_implicitArg (hc : c.Scoped A) (htype : type.Scoped A c.length) {info : BinderInfo} :
    e.Scopes A env none (e.implicitArg c type info span) (·.Scoped A c.length) := by
  unfold implicitArg
  split
  · exact scopes_fresh hc htype
  · refine .bind (scopes_classType henv hc htype) fun cls _ s hs => ?_
    let made := s.conversion.store.fresh c.tele type (.inst cls.name) span
    have hmade : made.2.Scoped A s.obligations := hs.conversion.store.fresh hc htype
    have hnew : ∀ o ∈ made.1.headHole?.toList.map fun m => (⟨m, c, span⟩ : Obligation),
        o.context.Scoped A ∧ ∃ h, made.2.holes[o.hole]? = some h ∧ h.arity ≤ o.context.length := by
      simp only [made, Store.headHole?_fresh, Option.toList_some, List.map_cons, List.map_nil,
        List.mem_singleton, forall_eq]
      exact ⟨hc, _, Array.getElem?_push_size, c.length_tele.le⟩
    have hterm : made.1.Scoped A c.length := Store.scoped_fresh
    refine ⟨⟨hs.environment, ⟨⟨hmade.solutions, hmade.types, hmade.constraints, fun o ho => ?_⟩,
      hs.conversion.memo⟩, fun o ho => ?_, by simp⟩, hterm⟩
    · exact (List.mem_append.mp ho).elim (hmade.waiting o) fun ho => (hnew o ho).2
    · exact (List.mem_append.mp ho).elim (hs.contexts o) fun ho => (hnew o ho).1

end Definitions

end Primitives

end Elaborator

end LeveledTypes
