import LeveledTypes.Proofs.Likeness.Declaration

/-!
# Universes of fields

What a store knows is never lost: elaboration keeps the solutions of holes and everything that is
asked of levels. So what was asked of the universe of a field when its type was elaborated holds
once the levels are solved: the fields of constructors are in universes below the one of the data
type, and the fields that a class declares are in universes below the one of the class. Nothing is
asked of the universes of superclasses.
-/
namespace LeveledTypes

open Surface

/-- What one store knows, the other knows too: solutions of holes, and what is asked of levels. -/
structure Store.Within (s t : Store) : Prop where
  solutions : ∀ m u, s.solution? m = some u → t.solution? m = some u
  first : ∀ ν, t.p.Satisfied ν → s.p.Satisfied ν
  second : ∀ ν, t.h.Satisfied ν → s.h.Satisfied ν

/-- Whatever levels satisfy the constraints of a store, they put one universe below another, at
every value of the level parameter. -/
structure Store.Bounds (s : Store) (u v : Universe) : Prop where
  first : ∀ k σ, s.p.Satisfied (LevelNode.eval k σ) → u.p.eval k σ ≤ v.p.eval k σ
  second : ∀ k σ, s.h.Satisfied (LevelNode.eval k σ) → u.h.eval k σ ≤ v.h.eval k σ

namespace Store
variable {s t r : Store} {u v : Universe} {span : Span}

namespace Within

@[refl] theorem refl (s : Store) : s.Within s := ⟨fun _ _ => id, fun _ => id, fun _ => id⟩

theorem trans (h : s.Within t) (h' : t.Within r) : s.Within r :=
  ⟨fun m u hm => h'.solutions m u (h.solutions m u hm), fun ν hν => h.first ν (h'.first ν hν),
    fun ν hν => h.second ν (h'.second ν hν)⟩

/-- What held of the levels before an equation of universes was added still holds after it. -/
theorem addUniverse (s : Store) (cmp : Comparison) (u v : Universe) (span : Span) :
    s.Within (s.addUniverse cmp u v span).1 := by
  have hweaker {g : LevelGraph} {l r : Level} {ν : LevelNode → ℕ∞}
      (h : (cmp.add g l r span).1.Satisfied ν) :
      g.Satisfied ν := by
    cases cmp with
    | eq => exact .of_addEq h
    | le => exact .of_addLe h
  have hadd : s.addUniverse cmp u v span = s.addUniverses cmp.add u v span := by cases cmp <;> rfl
  rw [hadd, addUniverses]
  split
  case h_1 p e hp =>
    obtain rfl : (cmp.add s.p u.p v.p span).1 = p := congrArg Prod.fst hp
    exact ⟨fun _ _ => id, fun ν => hweaker, fun _ => id⟩
  case h_2 p hp =>
    obtain rfl : (cmp.add s.p u.p v.p span).1 = p := congrArg Prod.fst hp
    exact ⟨fun _ _ => id, fun ν => hweaker, fun ν => hweaker⟩

end Within

/-- What a store knows stays known. -/
theorem stable_within (s : Store) : Stable s.Within where
  fresh ctx type kind span h :=
    ⟨fun m u hm => solution?_fresh.mpr (h.solutions m u hm), h.first, h.second⟩
  freshUniverse h := ⟨h.solutions, h.first, h.second⟩
  addUniverse cmp u v span h := h.trans (.addUniverse _ cmp u v span)
  assign {t r m} w ht hm h := by
    refine ⟨fun k u hk => ?_, h.first, h.second⟩
    have hne : m ≠ k := by
      rintro rfl
      simp [ht.solutions m u hk] at hm
    rw [solution?_assign, if_neg hne]
    exact h.solutions k u hk
  constraints _ h := ⟨h.solutions, h.first, h.second⟩
  levelSolutions _ h := ⟨h.solutions, h.first, h.second⟩

theorem Bounds.mono (h : s.Bounds u v) (hst : s.Within t) : t.Bounds u v :=
  ⟨fun k σ hσ => h.first k σ (hst.first _ hσ), fun k σ hσ => h.second k σ (hst.second _ hσ)⟩

theorem bounds_of_addUniverse (h : s.addUniverse .le u v span = (t, none)) : t.Bounds u v := by
  obtain ⟨p, q, hp, hq, rfl⟩ := addUniverse_eq_none h
  exact ⟨fun k σ hσ => ((Comparison.satisfied_add hp).mp hσ).2, fun k σ hσ =>
    ((Comparison.satisfied_add hq).mp hσ).2⟩

/-- The levels that are found put the universes in the order that the constraints ask for. -/
theorem Bounds.below (h : s.Bounds u v) (hs : s.KnowsLevels) (hsolve : s.solveLevels = .ok t) :
    t.toSolution.Below u v :=
  ⟨fun k => h.first k _ (satisfied_of_solveLevels hs hsolve k).1,
    fun k => h.second k _ (satisfied_of_solveLevels hs hsolve k).2⟩

end Store

/-- Nothing that was known in one state is lost in the other. -/
abbrev ElaborationState.Within (s t : ElaborationState) : Prop :=
  s.conversion.store.Within t.conversion.store

namespace Elaborator
variable {α : Type} {e : Elaborator} {s t : ElaborationState} {c c' : Context} {d : Decl}
  {u v : Universe} {span : Span}

section Runs

/-- Two copies of a state in which a store is known. -/
theorem likeness_within (e : Elaborator) (st : Store) :
    e.Likeness st.Within fun s s' => s = s' ∧ st.Within s.conversion.store :=
      likeness_self st.stable_within

theorem within_of_blind {x : Elab α} {a : α}
    (hx : Blind (fun r r' => r = r' ∧ s.conversion.store.Within r.conversion.store) x)
    (h : x s = .ok a t) : s.Within t := by
  obtain ⟨_, -, rfl, hst⟩ := hx.exists_ok ⟨rfl, .refl _⟩ h
  exact hst

/-- What an expression is elaborated to on the way from one state to another: a type and its
universe. -/
def Elaborates (e : Elaborator) (s t : ElaborationState) (c : Context) (x : Expr) (type : Term)
    (u : Universe) : Prop :=
  ∃ s' t', s.Within s' ∧ e.inferType c x s' = .ok (type, u) t' ∧ t'.Within t

theorem Elaborates.mono {s' t' : ElaborationState} {x : Expr} {type : Term}
    (h : e.Elaborates s t c x type u) (hs : s'.Within s) (ht : t.Within t') :
    e.Elaborates s' t' c x type u := by
  obtain ⟨r, r', hr, hrun, hr'⟩ := h
  exact ⟨r, r', hs.trans hr, hrun, hr'.trans ht⟩

theorem elaborates_of_inferType {x : Expr} {type : Term} (h : e.inferType c x s = .ok (type, u) t) :
    s.Within t ∧ e.Elaborates s t c x type u :=
  ⟨within_of_blind (blind_inferType' (likeness_within e _)) h, s, t, .refl _, h, .refl _⟩

/-- A comparison of universes that succeeds leaves its bounds in the graphs, to be met when the
levels are solved. -/
theorem bounds_of_universeLe (h : universeLe u v span s = .ok () t) :
    s.Within t ∧ t.conversion.store.Bounds u v := by
  refine ⟨within_of_blind (blind_universeLe (likeness_within default _)) h, ?_⟩
  obtain ⟨err, r, hr, h⟩ := bind_eq_ok.mp h
  cases err with
  | some err => contradiction
  | none =>
    obtain ⟨-, rfl⟩ := EStateM.Result.ok.inj h
    have hadd : (s.conversion.store.addUniverse .le u v span).2 = none :=
      (EStateM.Result.ok.inj hr).1
    obtain rfl := (EStateM.Result.ok.inj hr).2
    exact Store.bounds_of_addUniverse (Prod.ext rfl hadd)

/-- What one demand after the other asks for. -/
theorem bounds_of_forM {xs : List (Param Expr × Universe)}
    (h : (xs.forM fun (p, v) => universeLe v u p.type.span) s = .ok () t) :
    s.Within t ∧ ∀ x ∈ xs, t.conversion.store.Bounds x.2 u := by
  induction xs generalizing s with
  | nil =>
    obtain ⟨-, rfl⟩ := EStateM.Result.ok.inj h
    exact ⟨.refl _, by simp⟩
  | cons x xs ih =>
    obtain ⟨⟨⟩, r, hx, h⟩ := bind_eq_ok.mp h
    obtain ⟨hsr, hbound⟩ := bounds_of_universeLe hx
    obtain ⟨hrt, hall⟩ := ih h
    exact ⟨hsr.trans hrt, List.forall_mem_cons.mpr ⟨hbound.mono hrt, hall⟩⟩

end Runs

section Telescopes

theorem typesOf_append (tele tele' : Telescope Term) :
    typesOf (tele ++ tele') = typesOf tele ++ typesOf tele' :=
  List.map_append ..

theorem typesOf_take (tele : Telescope Term) (n : ℕ) : typesOf (tele.take n) =
    (typesOf tele).take n := List.map_take ..

@[simp] theorem length_typesOf (tele : Telescope Term) : (typesOf tele).length = tele.length :=
  List.length_map _

@[simp] theorem typesOf_empty : typesOf ({} : Context).tele = [] := rfl

theorem typesOf_zonkTele (st : Store) (tele : Telescope Term) :
    typesOf (zonkTele st tele) = (typesOf tele).map st.zonk := by
  simp only [typesOf, zonkTele, List.map_map]
  exact List.map_congr_left fun _ _ => rfl

theorem typesOf_push (c : Context) (x : Binder) (type : Term) :
    typesOf (c.push x type).tele = typesOf c.tele ++ [type] := by
  simp [typesOf, Context.tele, Context.push]

/-- The types of a telescope are elaborated one after the other, each after those before it. -/
theorem elaborates_of_tele {ps : Telescope Expr} {tele : Telescope Term} {us : List Universe}
    (h : e.tele c ps s = .ok (c', tele, us) t) :
    s.Within t ∧ typesOf c'.tele = typesOf c.tele ++ typesOf tele ∧ tele.length = ps.length ∧
    us.length = ps.length ∧
      ∀ (i : ℕ) (p : Param Expr) (q : Param Term) (v : Universe), ps[i]? = some p →
        tele[i]? = some q → us[i]? = some v →
        ∃ b, typesOf b.tele = typesOf c.tele ++ (typesOf tele).take i ∧
          e.Elaborates s t b p.type q.type v := by
  induction ps generalizing c s tele us with
  | nil =>
    obtain ⟨hr, rfl⟩ := EStateM.Result.ok.inj h
    obtain ⟨rfl, rfl, rfl⟩ := by simpa using hr
    exact ⟨.refl _, by simp [typesOf], rfl, rfl, by simp⟩
  | cons p ps ih =>
    rw [Elaborator.tele] at h
    obtain ⟨⟨type, u⟩, r, htype, h⟩ := bind_eq_ok.mp h
    obtain ⟨⟨b, rest, vs⟩, r', hrest, h⟩ := bind_eq_ok.mp h
    obtain ⟨hr, rfl⟩ := EStateM.Result.ok.inj h
    obtain ⟨rfl, rfl, rfl⟩ := by simpa using hr
    obtain ⟨hsr, helab⟩ := elaborates_of_inferType htype
    obtain ⟨hrt, htypes, hlength, hlength', hall⟩ := ih hrest
    rw [typesOf_push, List.append_assoc] at htypes
    refine ⟨hsr.trans hrt, htypes,
      by simp [hlength], by simp [hlength'], fun i p' q w hp hq hw => ?_⟩
    cases i with
    | zero =>
      obtain ⟨rfl, rfl, rfl⟩ : p = p' ∧ _ = q ∧ u = w :=
        ⟨Option.some.inj hp, Option.some.inj hq, Option.some.inj hw⟩
      exact ⟨c, by simp, helab.mono (.refl _) hrt⟩
    | succ i =>
      obtain ⟨b', hb', helab'⟩ := hall i p' q w hp hq hw
      rw [typesOf_push, List.append_assoc] at hb'
      exact ⟨b', hb', helab'.mono hsr (.refl _)⟩

end Telescopes

section Fields
variable {before : List Term} {type : Term}

/-- On the way from one state to another an expression is elaborated to a type after some others,
and its universe is asked to be below another one. -/
def Bounded (e : Elaborator) (s t : ElaborationState) (x : Expr) (before : List Term) (type : Term)
    (u : Universe) : Prop :=
  ∃ c v, typesOf c.tele = before ∧ e.Elaborates s t c x type v ∧ t.conversion.store.Bounds v u

/-- On the way from one state to another, at whose end the levels are solved, an expression is
elaborated to a type after some others. Its universe is below another one: whatever levels satisfy
what was asked of them, and so at the levels that were found, if no level hole was asked about that
the solver does not know. -/
def LivesBelow (e : Elaborator) (s t : ElaborationState) (x : Expr) (before : List Term)
    (type : Term) (u : Universe) : Prop :=
  ∃ c raw v, (typesOf c.tele).map t.conversion.store.zonk = before ∧
    t.conversion.store.zonk raw = type ∧
    e.Elaborates s t c x raw v ∧ t.conversion.store.Bounds v u ∧
    (t.conversion.store.KnowsLevels → t.conversion.store.toSolution.Below v u)

variable {s' t' : ElaborationState} {x : Expr}

theorem Bounded.mono (h : e.Bounded s t x before type u) (hs : s'.Within s) (ht : t.Within t') :
    e.Bounded s' t' x before type u := by
  obtain ⟨c, v, hc, helab, hbound⟩ := h
  exact ⟨c, v, hc, helab.mono hs ht, hbound.mono ht⟩

/-- What was asked of levels holds once they are solved. -/
theorem Bounded.livesBelow (h : e.Bounded s t x before type u) (hsolve : e.solveAll t = .ok () t') :
    e.LivesBelow s t' x (before.map t'.conversion.store.zonk)
      (t'.conversion.store.zonk type) u := by
  have ht := within_of_blind (blind_solveAll (likeness_within e _)) hsolve
  obtain ⟨c, v, rfl, helab, hbound⟩ := h.mono (.refl _) ht
  refine ⟨c, type, v, rfl, rfl, helab, hbound, fun hknows => ?_⟩
  obtain ⟨st, hst⟩ := exists_solveLevels_of_solveAll hsolve
  obtain ⟨ps, qs, -, -, heq⟩ := Store.solveLevels_eq_ok hst
  rw [heq] at hbound hknows
  exact Store.Bounds.below ⟨hbound.first, hbound.second⟩ ⟨hknows.first, hknows.second,
    hknows.disjoint⟩ hst

/-- The fields of a constructor are elaborated one after the other, each in the context of those
before it, and each in a universe that is compared with that of the data type. -/
theorem bounded_of_ctorFields {k : CtorDecl} {fields : Telescope Term}
    (h : e.ctorFields c k u s = .ok fields t) :
    s.Within t ∧ fields.length = k.tele.length ∧ ∀ (i : ℕ) (p : Param Expr) (q : Param Term),
      k.tele[i]? = some p →
      fields[i]? = some q → e.Bounded s t p.type
        (typesOf c.tele ++ (typesOf fields).take i) q.type u := by
  obtain ⟨⟨c', fields', us⟩, r, htele, h⟩ := bind_eq_ok.mp h
  obtain ⟨⟨⟩, r', hforM, h⟩ := bind_eq_ok.mp h
  obtain ⟨rfl, rfl⟩ := EStateM.Result.ok.inj h
  obtain ⟨hsr, -, hlength, hlength', hall⟩ := elaborates_of_tele htele
  obtain ⟨hrt, hbounds⟩ := bounds_of_forM hforM
  refine ⟨hsr.trans hrt, hlength, fun i p q hp hq => ?_⟩
  obtain ⟨v, hv⟩ : ∃ v, us[i]? = some v :=
    ⟨_, List.getElem?_eq_getElem (hlength' ▸ (List.getElem?_eq_some_iff.mp hp).1)⟩
  obtain ⟨b, hb, helab⟩ := hall i p q v hp hq hv
  have hmem : (p, v) ∈ k.tele.zip us :=
    List.mem_of_getElem? (List.getElem?_zip_eq_some.mpr ⟨hp, hv⟩)
  exact ⟨b, v, hb, helab.mono (.refl _) hrt, hbounds _ hmem⟩

/-- What the fields of a constructor come after: its pattern variables if it is guarded, or else the
parameters of the data type. -/
def CtorParts.params (p : CtorParts) (tele : Telescope Term) : Telescope Term :=
  (p.guard?.map (·.1)).getD tele

/-- Whether a constructor is guarded or not, the universes of its fields are asked to be below that
of the data type. -/
theorem bounded_of_ctorParts {tele : Telescope Term} {k : CtorDecl} {parts : CtorParts}
    (hc : typesOf c.tele = typesOf tele) (h : e.ctorParts c tele u k s = .ok parts t) :
    s.Within t ∧ parts.fields.length = k.tele.length ∧ ∀ (i : ℕ) (p : Param Expr) (q : Param Term),
      k.tele[i]? = some p → parts.fields[i]? = some q →
        e.Bounded s t p.type (typesOf (parts.params tele) ++
          (typesOf parts.fields).take i) q.type u := by
  cases hpatterns : k.patterns with
  | none =>
    simp only [ctorParts, hpatterns] at h
    obtain ⟨fields, r, hfields, h⟩ := bind_eq_ok.mp h
    obtain ⟨rfl, rfl⟩ := EStateM.Result.ok.inj h
    simpa [CtorParts.params, hc] using bounded_of_ctorFields hfields
  | some ps =>
    simp only [ctorParts, hpatterns] at h
    obtain ⟨⟨c', idx⟩, r, hguard, h⟩ := bind_eq_ok.mp h
    obtain ⟨fields, r', hfields, h⟩ := bind_eq_ok.mp h
    obtain ⟨rfl, rfl⟩ := EStateM.Result.ok.inj h
    have hsr := within_of_blind (blind_guardPatterns (likeness_within e _)) hguard
    obtain ⟨hrt, hlength, hall⟩ := bounded_of_ctorFields hfields
    exact ⟨hsr.trans hrt, hlength, fun i p q hp hq => (hall i p q hp hq).mono hsr (.refl _)⟩

/-- Every superclass adds one hidden field, and the context grows by the types of these. -/
theorem typesOf_superFields {xs : List Expr} {hidden : List ClassField}
    (h : e.superFields d c xs s = .ok (c', hidden) t) :
    s.Within t ∧ hidden.length = xs.length ∧
    typesOf c'.tele = typesOf c.tele ++ hidden.map (·.type) := by
  refine ⟨within_of_blind (blind_superFields (likeness_within e _)) h, ?_⟩
  induction xs generalizing c s t hidden with
  | nil =>
    obtain ⟨hr, -⟩ := EStateM.Result.ok.inj h
    obtain ⟨rfl, rfl⟩ := by simpa using hr
    simp
  | cons x xs ih =>
    rw [superFields] at h
    obtain ⟨⟨type, v⟩, r, -, h⟩ := bind_eq_ok.mp h
    obtain ⟨k, r', -, h⟩ := bind_eq_ok.mp h
    obtain ⟨⟨b, rest⟩, r'', hrest, h⟩ := bind_eq_ok.mp h
    obtain ⟨hr, -⟩ := EStateM.Result.ok.inj h
    obtain ⟨rfl, rfl⟩ := by simpa using hr
    obtain ⟨hlength, htypes⟩ := ih hrest
    exact ⟨by simp [hlength], by simp [htypes, typesOf_push]⟩

/-- The universes of the fields that a class declares are asked to be below that of the class. -/
theorem bounded_of_ownFields {fs : List FieldDecl} {own : List ClassField}
    (h : e.ownFields c fs s = .ok own t) :
    s.Within t ∧ own.length = fs.length ∧ ∀ (i : ℕ) (f : FieldDecl) (k : ClassField),
      fs[i]? = some f → own[i]? = some k → k.name = f.name ∧
        e.Bounded s t f.type (typesOf c.tele ++ (own.take i).map (·.type)) k.type .params := by
  induction fs generalizing c s own with
  | nil =>
    obtain ⟨rfl, rfl⟩ := EStateM.Result.ok.inj h
    exact ⟨.refl _, rfl, by simp⟩
  | cons f fs ih =>
    rw [ownFields] at h
    obtain ⟨⟨type, v⟩, r, htype, h⟩ := bind_eq_ok.mp h
    obtain ⟨⟨⟩, r₁, hle, h⟩ := bind_eq_ok.mp h
    obtain ⟨hsr, helab⟩ := elaborates_of_inferType htype
    obtain ⟨hr₁, hbound⟩ := bounds_of_universeLe hle
    have hrest (default : Elab (Option Term))
        (hdefault : Blind (fun s t => s = t ∧ r₁.Within s) default)
        (h : (default >>= fun default => do
          let rest ← e.ownFields (c.push ⟨f.var, .explicit⟩ type) fs
          return { name := f.name, type, default, superclass := none } :: rest) r₁ = .ok own t) :
        s.Within t ∧ own.length = fs.length + 1 ∧ ∀ (i : ℕ) (g : FieldDecl) (k : ClassField),
          (f :: fs)[i]? = some g → own[i]? = some k → k.name = g.name ∧
            e.Bounded s t g.type (typesOf c.tele ++ (own.take i).map (·.type)) k.type .params := by
      obtain ⟨a, r₂, ha, h⟩ := bind_eq_ok.mp h
      obtain ⟨rest, r₃, hrest, h⟩ := bind_eq_ok.mp h
      obtain ⟨rfl, rfl⟩ := EStateM.Result.ok.inj h
      obtain ⟨hr₂, hlength, hall⟩ := ih hrest
      have hr₁t : r₁.Within _ := (within_of_blind hdefault ha).trans hr₂
      refine ⟨hsr.trans (hr₁.trans hr₁t), by simp [hlength], fun i g k hg hk => ?_⟩
      cases i with
      | zero =>
        obtain ⟨rfl, rfl⟩ : f = g ∧ _ = k := ⟨Option.some.inj hg, Option.some.inj hk⟩
        exact ⟨rfl, c, v, by simp, helab.mono (.refl _) (hr₁.trans hr₁t), hbound.mono hr₁t⟩
      | succ i =>
        obtain ⟨hname, hbounded⟩ := hall i g k hg hk
        rw [typesOf_push, List.append_assoc] at hbounded
        exact ⟨hname, hbounded.mono (hsr.trans (hr₁.trans (within_of_blind hdefault ha))) (.refl _)⟩
    cases hdefault : f.default with
    | none =>
      simp only [hdefault] at h
      exact hrest _ (.pure none) h
    | some x =>
      simp only [hdefault] at h
      exact hrest _ (.map ((blind_recursion (likeness_within e _)).check c x type)) h

end Fields

section Declarations

/-- The fields of a constructor come after its parameters, and are in universes below the given
one. -/
def ConstructorBelow (e : Elaborator) (s t : ElaborationState) (u : Universe) (k : CtorDecl)
    (d : Definition) : Prop :=
  ∃ data index n patterns, d.name = k.name ∧ d.body = .constructor data index n patterns ∧
    d.tele.length = n + k.tele.length ∧ ∀ (i : ℕ) (p : Param Expr) (q : Param Term),
      k.tele[i]? = some p →
      d.tele[n + i]? = some q → e.LivesBelow s t p.type (typesOf (d.tele.take (n + i))) q.type u

/-- The fields of all constructors of a data type are in universes below that of the data type. The
fields that a class declares come after those that hold its superclasses, and are in universes below
that of the class. -/
def ContentsBelow (e : Elaborator) (s t : ElaborationState) (d : Decl) (ds : List Definition) :
    Prop :=
  match d.body with
  | .data _ ctors => ∃ (self : Definition) (ks : List Definition) (u : Universe), ds = self :: ks ∧
    self.name = d.name ∧
      self.type = .univ u ∧ List.Forall₂ (e.ConstructorBelow s t u) ctors ks
  | .cls supers fields => ∃ (self : Definition) (accessors : List Definition)
    (all : List ClassField)
      (names : List GlobalName), ds = self :: accessors ∧ self.name = d.name ∧
      self.type = .univ .params ∧
      self.body = .cls all names ∧ all.length = supers.length + fields.length ∧
      ∀ (i : ℕ) (f : FieldDecl) (k : ClassField), fields[i]? = some f →
        all[supers.length + i]? = some k → k.name = f.name ∧
          e.LivesBelow s t f.type (typesOf self.tele ++
            (all.take (supers.length + i)).map (·.type)) k.type .params
  | .func .. | .inst .. => True

theorem ctorDefinition_eq (d : Decl) (tele : Telescope Term) (k : CtorDecl) (index : ℕ)
    (p : CtorParts) : ∃ params : Telescope Term, typesOf params = typesOf (p.params tele) ∧
      (ctorDefinition d tele k index p).tele = params ++ p.fields ∧
      (ctorDefinition d tele k index p).body = .constructor d.name index params.length
        (p.guard?.map (·.2)) := by
  obtain ⟨guard?, fields⟩ := p
  cases guard? with
  | none => exact ⟨implicitTele tele, typesOf_implicitTele tele, rfl, rfl⟩
  | some guard => exact ⟨guard.1, rfl, rfl, rfl⟩

theorem typesOf_params_zonk (st : Store) (p : CtorParts) (tele : Telescope Term) :
    typesOf ((p.zonk st).params (zonkTele st tele)) = (typesOf (p.params tele)).map st.zonk := by
  obtain ⟨guard?, fields⟩ := p
  cases guard? with
  | none => exact typesOf_zonkTele st tele
  | some guard => exact typesOf_zonkTele st guard.1

/-- Only the fields that the class declares itself are compared with its universe. Those of the
superclasses are counted, since they come first. -/
theorem contentsBelow_of_cls {supers : List Expr} {fields : List FieldDecl} {ds : List Definition}
    (hbody : d.body = .cls supers fields) (h : e.cls d supers fields s = .ok ds t) :
    e.ContentsBelow s t d ds := by
  obtain ⟨⟨c, tele, us⟩, s₁, htele, h⟩ := bind_eq_ok.mp h
  obtain ⟨⟨c', hidden⟩, s₂, hhidden, h⟩ := bind_eq_ok.mp h
  obtain ⟨own, s₃, hown, h⟩ := bind_eq_ok.mp h
  obtain ⟨t', hsolve, -, h⟩ := finish_eq_ok h
  obtain ⟨rfl, rfl⟩ := EStateM.Result.ok.inj h
  obtain ⟨hs₁, htypes, -⟩ := elaborates_of_tele htele
  obtain ⟨hs₂, hlength, htypes'⟩ := typesOf_superFields hhidden
  obtain ⟨-, hlength', hall⟩ := bounded_of_ownFields hown
  rw [ContentsBelow, hbody]
  refine ⟨_, _, _, _, rfl, rfl, rfl, rfl, by simp [hlength, hlength'], fun i f k hf hk => ?_⟩
  rw [List.getElem?_map, ← hlength, List.getElem?_append_right (Nat.le_add_right ..),
    Nat.add_sub_cancel_left] at hk
  obtain ⟨k', hk', rfl⟩ := Option.map_eq_some_iff.mp hk
  obtain ⟨hname, hbounded⟩ := hall i f k' hf hk'
  refine ⟨hname, ?_⟩
  have hlives := (hbounded.mono (hs₁.trans hs₂) (.refl _)).livesBelow hsolve
  rw [← hlength, ← List.map_take, List.take_length_add_append]
  simpa [htypes, htypes', typesOf_zonkTele, Function.comp_def] using hlives

/-- What holds of the constructors of a data type and their parts holds of the definitions that are
made of them. -/
theorem forall₂_zipIdx {α β γ : Type} {P : α → β → Prop} {Q : α → γ → Prop}
    {f : (α × β) × ℕ → γ} {as : List α} {bs : List β} (h : List.Forall₂ P as bs)
    (hf : ∀ a b i, P a b → Q a (f ((a, b), i))) (n : ℕ) :
    List.Forall₂ Q as (((as.zip bs).zipIdx n).map f) := by
  induction h generalizing n with
  | nil => exact .nil
  | cons hab _ ih => exact .cons (hf _ _ _ hab) (ih (n + 1))

section Constructors
variable {tele : Telescope Term} {k : CtorDecl} {p : CtorParts} {s' t' : ElaborationState}

/-- The fields of a constructor are in universes below the given one. -/
def FieldsBelow (e : Elaborator) (s t : ElaborationState) (u : Universe)
    (tele : Telescope Term) (k : CtorDecl) (p : CtorParts) : Prop :=
  p.fields.length = k.tele.length ∧ ∀ (i : ℕ) (x : Param Expr) (q : Param Term),
    k.tele[i]? = some x →
    p.fields[i]? = some q → e.LivesBelow s t x.type
      (typesOf (p.params tele) ++ (typesOf p.fields).take i) q.type u

theorem fieldsBelow_zonk (hlength : p.fields.length = k.tele.length)
    (hfields : ∀ (i : ℕ) (x : Param Expr) (q : Param Term), k.tele[i]? = some x →
      p.fields[i]? = some q →
      e.Bounded s t x.type (typesOf (p.params tele) ++ (typesOf p.fields).take i) q.type u)
    (hsolve : e.solveAll t = .ok () t') :
    e.FieldsBelow s t' u (zonkTele t'.conversion.store tele) k (p.zonk t'.conversion.store) := by
  refine ⟨by simp [CtorParts.zonk, zonkTele, hlength], fun i x q hx hq => ?_⟩
  obtain ⟨q', hq', rfl⟩ := Option.map_eq_some_iff.mp (List.getElem?_map .. ▸ hq)
  have hlives := (hfields i x q' hx hq').livesBelow hsolve
  rw [List.map_append, ← typesOf_params_zonk, List.map_take] at hlives
  rw [CtorParts.zonk, typesOf_zonkTele]
  exact hlives

theorem constructorBelow_of_fieldsBelow {index : ℕ} (h : e.FieldsBelow s t u tele k p) :
    e.ConstructorBelow s t u k (ctorDefinition d tele k index p) := by
  obtain ⟨params, hparams, htele, hbody⟩ := ctorDefinition_eq d tele k index p
  refine ⟨_, _, _, _, rfl, hbody, by rw [htele, List.length_append, h.1], fun i x q hx hq => ?_⟩
  rw [htele, List.getElem?_append_right (Nat.le_add_right ..), Nat.add_sub_cancel_left] at hq
  rw [htele, List.take_length_add_append, typesOf_append, typesOf_take, hparams]
  exact h.2 i x q hx hq

end Constructors

/-- The constructors are elaborated with the universe of the data type at hand, whether it is given
or a fresh one. Solving and zonking come last, for the data type and its constructors alike. -/
theorem contentsBelow_of_data {univ : Option Expr} {ctors : List CtorDecl} {ds : List Definition}
    (hbody : d.body = .data univ ctors) (h : e.data d univ ctors s = .ok ds t) :
    e.ContentsBelow s t d ds := by
  obtain ⟨⟨c, tele, us⟩, s₁, htele, h⟩ := bind_eq_ok.mp h
  obtain ⟨hs₁, htypes, -⟩ := elaborates_of_tele htele
  dsimp -zeta only at h
  extract_lets join at h
  have hjoin (u : Universe) {r : ElaborationState} (hr : s.Within r) (h : join u r = .ok ds t) :
      e.ContentsBelow s t d ds := by
    obtain ⟨⟨⟩, r', hannounce, h⟩ := bind_eq_ok.mp h
    obtain ⟨-, rfl⟩ := EStateM.Result.ok.inj hannounce
    obtain ⟨parts, r'', hparts, h⟩ := bind_eq_ok.mp h
    obtain ⟨t', hsolve, -, h⟩ := finish_eq_ok h
    obtain ⟨rfl, rfl⟩ := EStateM.Result.ok.inj h
    obtain ⟨-, hall⟩ := runs_of_mapM (f := e.ctorParts c tele u) (R := ElaborationState.Within)
      (fun _ => .refl _) (fun _ _ _ h h' => h.trans h')
      (fun k _ s p t hp => bounded_of_ctorParts (by simpa using htypes) hp) hparts
    rw [ContentsBelow, hbody]
    have hparts' := List.forall₂_map_right_iff.mpr <|
      hall.imp fun k p ⟨s', t', hs', ⟨hlength, hfields⟩, ht'⟩ =>
      fieldsBelow_zonk hlength (fun i x q hx hq =>
        (hfields i x q hx hq).mono (hr.trans hs') ht') hsolve
    exact ⟨_, _, u, rfl, rfl, rfl,
      forall₂_zipIdx hparts' (fun k p i => constructorBelow_of_fieldsBelow) 0⟩
  cases univ with
  | none => exact hjoin _ hs₁ h
  | some x =>
    simp only at h
    obtain ⟨⟨type, v⟩, r, htype, h⟩ := bind_eq_ok.mp h
    obtain ⟨type', r', hwhnf, h⟩ := bind_eq_ok.mp h
    have hr' : s.Within r' := (hs₁.trans (elaborates_of_inferType htype).1).trans
      (within_of_blind (blind_whnf (likeness_within e _)) hwhnf)
    split at h
    case h_1 u => exact hjoin u hr' h
    case h_2 => contradiction

/-- The declared types of data types and classes bound their contents, but for the superclasses of a
class: however a declaration is accepted, all fields of constructors, guarded or not, and all fields
that a class declares are in universes below the declared one. -/
theorem contentsBelow_of_decl (s : ElaborationState) : match e.decl d s with
    | .ok ds t => e.ContentsBelow s t d ds
    | .error _ _ => True := by
  split
  case h_1 ds t hr =>
    cases hbody : d.body with
    | func => simp only [ContentsBelow, hbody]
    | data univ ctors =>
      simp only [decl, hbody] at hr
      exact contentsBelow_of_data hbody hr
    | cls supers fields =>
      simp only [decl, hbody] at hr
      exact contentsBelow_of_cls hbody hr
    | inst => simp only [ContentsBelow, hbody]
  case h_2 => trivial

end Declarations

end Elaborator

end LeveledTypes
