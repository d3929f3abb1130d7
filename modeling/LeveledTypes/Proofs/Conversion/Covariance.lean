import LeveledTypes.Proofs.Conversion.Blocked
import LeveledTypes.Proofs.Reduction.Instantiation

/-!
# Fields of data types at larger levels

Subtyping lets the levels of a data type grow whatever its constructors do with them. The type of a
field follows if the levels occur in it where subtyping lets them grow: in universes, in data and
class types, in the codomains of functions and in both parts of pairs. In the domain of a function
they are compared for equality, so that a field with a function on a universe of the declaration
does not follow.
-/
namespace LeveledTypes

namespace Level

/-- Levels without a variable, in their order. -/
inductive ConstLe : Level → Level → Prop
  | const {a b : ℕ} : a ≤ b → ConstLe (.const a) (.const b)
  | const_top {a : ℕ} : ConstLe (.const a) .top
  | top : ConstLe .top .top

/-- A level without a variable. -/
def IsConst (l : Level) : Prop := l.ConstLe l

variable {l r a b : Level}

theorem ConstLe.refl_left (h : l.ConstLe r) : l.IsConst := by
  cases h with
  | const | const_top => exact .const le_rfl
  | top => exact .top

theorem ConstLe.addLe (h : l.ConstLe r) (g : LevelGraph) (span : Span) :
    g.addLe l r span = (g, none) := by
  cases h with
  | const h => exact if_pos h
  | const_top | top => rfl

/-- An inequality of constants is decided when it is added. -/
theorem constLe_of_addLe (hl : l.IsConst) (hr : r.IsConst) {g g' : LevelGraph} {span : Span}
    (h : g.addLe l r span = (g', none)) : l.ConstLe r := by
  cases hl <;> cases hr
  case const.const a _ b _ =>
    refine .const (not_lt.mp fun hlt => ?_)
    have hconflict : g.addLe (.const a) (.const b) span =
        (g, some ⟨.unsatisfiable (.const a) (.const b), span⟩) :=
      if_neg (not_le.mpr hlt)
    exact absurd (congrArg Prod.snd (hconflict.symm.trans h)) (Option.some_ne_none _)
  case const.top => exact .const_top
  case top.const => exact absurd (congrArg Prod.snd h) (Option.some_ne_none _)
  case top.top => exact .top

theorem ConstLe.antisymm (h : l.ConstLe r) (h' : r.ConstLe l) : l = r := by
  cases h with
  | const hab =>
    cases h' with
    | const hba => exact congrArg Level.const (le_antisymm hab hba)
  | const_top => nomatch h'
  | top => rfl

theorem eq_of_addEq (hl : l.IsConst) (hr : r.IsConst) {g g' : LevelGraph} {span : Span}
    (h : g.addEq l r span = (g', none)) : l = r := by
  unfold LevelGraph.addEq at h
  split at h
  case h_1 hle => exact (constLe_of_addLe hl hr hle).antisymm (constLe_of_addLe hr hl h)
  case h_2 conflict hne => exact absurd h (hne g')

/-- A level without holes grows with the level parameter. -/
theorem ConstLe.subst (h : a.ConstLe b) (hl : l.hole? = none) :
    (l.subst .param a).ConstLe (l.subst .param b) := by
  cases l with
  | const n => exact .const le_rfl
  | top => exact .top
  | var v add floor =>
    cases v with
    | hole m => contradiction
    | param =>
      simp only [Level.subst, if_true]
      cases h with
      | const h => exact .const (by unfold boundedAdd; omega)
      | const_top => exact .const_top
      | top => exact .top

end Level

namespace Universe

/-- Both levels are without a variable, and in their order. -/
def ConstLe (u v : Universe) : Prop := u.p.ConstLe v.p ∧ u.h.ConstLe v.h

/-- Both levels are without a variable. -/
def IsConst (u : Universe) : Prop := u.p.IsConst ∧ u.h.IsConst

/-- No level of the universe has a hole. -/
def HoleFree (u : Universe) : Prop := u.p.hole? = none ∧ u.h.hole? = none

variable {s t u : Universe}

theorem ConstLe.refl_left (h : s.ConstLe t) : s.IsConst := ⟨h.1.refl_left, h.2.refl_left⟩

theorem ConstLe.subst (h : s.ConstLe t) (hu : u.HoleFree) : (u.subst s).ConstLe (u.subst t) :=
  ⟨h.1.subst hu.1, h.2.subst hu.2⟩

theorem IsConst.ne_params (h : s.IsConst) : s ≠ .params := by
  rintro rfl
  cases h.1

end Universe

namespace Environment

/-- A global with `k` parameters is a data type or a class. -/
inductive Former (env : Environment) (n : GlobalName) (k : ℕ) : Prop
  | data {d : Definition} {cs : List GlobalName} :
    env.get? n = some d → d.tele.length = k → d.body = .data cs → Former env n k
  | cls {d : Definition} {fs : List ClassField} {ss : List GlobalName} :
    env.get? n = some d → d.tele.length = k → d.body = .cls fs ss → Former env n k

/-- Field `j` of the constructor `k` of the data type `n`. -/
def field? (env : Environment) (n k : GlobalName) (j : ℕ) : Option (Param Term) :=
  match env.get? k with
  | some { tele, body := .constructor m _ params _, .. } =>
    if m = n then (tele.drop params)[j]? else none
  | _ => none

/-- The type of a field under the fields before it, at given levels and at values for what the
constructor takes before its fields: the parameters of the data type, or what the patterns of the
constructor bind. -/
def fieldType? (env : Environment) (n k : GlobalName) (j : ℕ) (u : Universe) (vs : List Term) :
    Option Term :=
  (env.field? n k j).map fun p =>
    (p.type.substLevels u).substAll (vs.map (·.lift j) ++ (List.range j).reverse.map .var)

end Environment

namespace Term

/-- A term that mentions no level parameter. -/
def LevelFree (t : Term) : Prop := ∀ u, t.substLevels u = t

/-- The types that grow with the levels of the declaration they stand in; the number bounds how deep
they nest. -/
inductive Covariant (env : Environment) : ℕ → Term → Prop
  | levelFree {k : ℕ} {t : Term} : t.LevelFree → Covariant env k t
  | univ {k : ℕ} {u : Universe} : u.HoleFree → Covariant env (k + 1) (.univ u)
  | former {k : ℕ} {n : GlobalName} {u : Universe} {ps : List Term} :
    env.Former n ps.length → u.HoleFree →
    (∀ p ∈ ps, p.LevelFree) → Covariant env (k + 1) ((ref n u).apps ps)
  | data {k : ℕ} {n : GlobalName} {u : Universe} {ps : List Term} :
    u.HoleFree → (∀ p ∈ ps, p.LevelFree) → Covariant env (k + 1) (.data n u ps)
  | record {k : ℕ} {n : GlobalName} {u : Universe} {ps : List Term} :
    u.HoleFree → (∀ p ∈ ps, p.LevelFree) → Covariant env (k + 1) (.record n u ps)
  | pi {k : ℕ} {x : Binder} {a b : Term} : a.LevelFree → Covariant env k b →
    Covariant env (k + 1) (.pi x a b)
  | sigma {k : ℕ} {x : Binder} {a b : Term} :
    Covariant env k a → Covariant env k b → Covariant env (k + 1) (.sigma x a b)

/-- The second type is the first one with larger levels where subtyping lets them grow. -/
inductive Grows (env : Environment) : ℕ → Term → Term → Prop
  | refl {k : ℕ} (t : Term) : Grows env k t t
  | univ {k : ℕ} {u v : Universe} : u.ConstLe v → Grows env (k + 1) (.univ u) (.univ v)
  | former {k : ℕ} {n : GlobalName} {u v : Universe} {ps : List Term} :
    env.Former n ps.length → u.ConstLe v → Grows env (k + 1) ((ref n u).apps ps) ((ref n v).apps ps)
  | data {k : ℕ} {n : GlobalName} {u v : Universe} {ps : List Term} :
    u.ConstLe v → Grows env (k + 1) (.data n u ps) (.data n v ps)
  | record {k : ℕ} {n : GlobalName} {u v : Universe} {ps : List Term} :
    u.ConstLe v → Grows env (k + 1) (.record n u ps) (.record n v ps)
  | pi {k : ℕ} {x : Binder} {a b d : Term} : Grows env k b d →
    Grows env (k + 1) (.pi x a b) (.pi x a d)
  | sigma {k : ℕ} {x : Binder} {a b c d : Term} :
    Grows env k a c → Grows env k b d → Grows env (k + 1) (.sigma x a b) (.sigma x c d)

variable {env : Environment} {s t : Universe}

theorem mapUniverses_apps (g : Universe → Universe) (f : Term) (as : List Term) :
    (f.apps as).mapUniverses g = (f.mapUniverses g).apps (as.map (mapUniverses g)) := by
  induction as generalizing f with
  | nil => rfl
  | cons a as ih => exact ih (.app f a)

/-- What mentions no level parameter is not changed by constant levels for it. -/
theorem LevelFree.mapUniverses {t : Term} (h : t.LevelFree) (hs : s.IsConst) :
    t.mapUniverses (·.subst s) = t := by
  have := h s
  rwa [substLevels, if_neg hs.ne_params] at this

theorem map_mapUniverses {ps : List Term} (h : ∀ p ∈ ps, p.LevelFree) (hs : s.IsConst) :
    ps.map (mapUniverses (·.subst s)) = ps :=
  (List.map_congr_left fun p hp => (h p hp).mapUniverses hs).trans (List.map_id ps)

/-- A covariant type grows with the levels that are put in, whatever is put for its variables. -/
theorem Covariant.grows {k : ℕ} {a : Term} (h : Covariant env k a) (hst : s.ConstLe t)
    (ht : t.IsConst) (σ : ℕ → Term) :
    Grows env k ((a.substLevels s).inst σ) ((a.substLevels t).inst σ) := by
  have hs : s.IsConst := hst.refl_left
  simp only [substLevels, if_neg hs.ne_params, if_neg ht.ne_params]
  have hunder (u : Universe) (b : Term) :
      b.replace (fun _ i => .var i) (·.subst u) 1 = b.mapUniverses (·.subst u) :=
    replace_add b 1 0
  induction h generalizing σ with
  | levelFree h =>
    rw [h.mapUniverses hs, h.mapUniverses ht]
    exact .refl _
  | univ hu => exact .univ (hst.subst hu)
  | @former k n u ps hn hu hps =>
    rw [mapUniverses_apps, mapUniverses_apps, map_mapUniverses hps hs, map_mapUniverses hps ht,
      inst_apps, inst_apps]
    exact .former (by simpa using hn) (hst.subst hu)
  | @data k n u ps hu hps =>
    have hdata {u' : Universe} (hu' : u'.IsConst) :
        (Term.data n u ps).mapUniverses (·.subst u') = .data n (u.subst u') ps :=
      congrArg (Term.data n (u.subst u')) ((replaceAll_eq_map _ _).trans (map_mapUniverses hps hu'))
    rw [hdata hs, hdata ht]
    exact .data (hst.subst hu)
  | @record k n u ps hu hps =>
    have hrecord {u' : Universe} (hu' : u'.IsConst) :
        (Term.record n u ps).mapUniverses (·.subst u') = .record n (u.subst u') ps :=
      congrArg (Term.record n (u.subst u'))
        ((replaceAll_eq_map _ _).trans (map_mapUniverses hps hu'))
    rw [hrecord hs, hrecord ht]
    exact .record (hst.subst hu)
  | @pi k x a b ha _ ih =>
    have hpi {u' : Universe} (hu' : u'.IsConst) :
        (Term.pi x a b).mapUniverses (·.subst u') = .pi x a (b.mapUniverses (·.subst u')) :=
      congrArg₂ (Term.pi x) (ha.mapUniverses hu') (hunder u' b)
    rw [hpi hs, hpi ht]
    exact .pi (ih (up 1 σ))
  | @sigma k x a b _ _ iha ihb =>
    have hsigma (u' : Universe) : (Term.sigma x a b).mapUniverses (·.subst u') =
        .sigma x (a.mapUniverses (·.subst u')) (b.mapUniverses (·.subst u')) :=
      congrArg (Term.sigma x (a.mapUniverses (·.subst u'))) (hunder u' b)
    rw [hsigma, hsigma]
    exact .sigma (iha σ) (ihb (up 1 σ))

end Term

namespace Converter
variable {c : Converter} {s : ConversionState} {binders room k : ℕ} {cmp : Comparison}
  {u v : Universe} {l r l' r' : Term} {conv : ℕ → Comparison → Term → Term → Convert Unit}

theorem addUniverse_of_constLe (h : u.ConstLe v) : c.addUniverse .le u v s = .ok () s := by
  simp only [addUniverse, Store.addUniverse, Store.addUniverses, h.1.addLe, h.2.addLe]

/-- Where both sides reduce to rigid terms nothing is solved and nothing deferred. -/
theorem convertWith_of_isRigid (hl : c.whnf binders l s = .ok l' s)
    (hr : c.whnf binders r s = .ok r' s) (hl' : l'.IsRigid) (hr' : r'.IsRigid) :
    c.convertWith binders conv cmp l r s = if l'.same r' then .ok
      () s else c.rigid conv cmp l' r' s := by
  rw [convertWith, bind_of_ok hl, bind_of_ok hr]
  split
  case isTrue => rfl
  case isFalse =>
    have hget : (get : Convert ConversionState) s = .ok s s := rfl
    refine (bind_of_ok hget).trans ?_
    simp only [hl'.headHole?_eq_none, hr'.headHole?_eq_none, Option.filter_none]
    cases hl' <;> cases hr' <;> rfl

theorem convertIn_of_same (h : l.same r = true) :
    c.convertIn room binders cmp l r s = .ok () s := by
  unfold convertIn
  rw [if_pos h]
  rfl

theorem all_self {eq : Term → Term → Convert Unit} (heq : ∀ t, eq t t s = .ok () s)
    (ps : List Term) : c.all eq ps ps s = .ok () s := by
  unfold all
  rw [if_neg (not_not.mpr rfl)]
  induction ps with
  | nil => rfl
  | cons p ps ih => exact (bind_of_ok (heq p)).trans ih

/-- A data type or a class with all its parameters takes its canonical form. -/
theorem whnf_former {n : GlobalName} {ps : List Term} (h : c.env.Former n ps.length) :
    (∀ u, c.whnf binders ((Term.ref n u).apps ps) s = .ok (.data n u ps) s) ∨
    ∀ u, c.whnf binders ((Term.ref n u).apps ps) s = .ok (.record n u ps) s := by
  have hdelta {d : Definition} {t : Term} {u : Universe} (hd : c.env.get? n = some d)
      (hlen : d.tele.length = ps.length)
      (ht : ∀ whnf : Term → Reduce Term,
        Reducer.delta ⟨c.env, s.store, c.locals⟩ whnf n u ps = whnf t)
      (htype : t.IsRigid) : c.whnf binders ((Term.ref n u).apps ps) s = .ok t s := by
    let r : Reducer := ⟨c.env, s.store, c.locals⟩
    have hgas : unboundedGas = 999999999999999998 + 2 := rfl
    have hrun : r.whnfGas binders unboundedGas
        ((Term.ref n u).apps ps) ⟨c.limits.reductionFuel, s.memo⟩ =
        .ok t ⟨c.limits.reductionFuel, s.memo⟩ := by
      rw [hgas, Reducer.whnfGas_apps_ref hd hlen, ht]
      exact Reducer.whnfGas_of_isRigid htype
    exact whnf_eq_ok hrun
  cases h with
  | @data d cs hd hlen hbody =>
    refine .inl fun u => hdelta hd hlen (fun whnf => ?_) .data
    simp only [Reducer.delta, hd, hlen, lt_irrefl, if_false, hbody, List.take_length,
      List.drop_length, Term.apps_nil]
  | @cls d fs ss hd hlen hbody =>
    refine .inr fun u => hdelta hd hlen (fun whnf => ?_) .record
    simp only [Reducer.delta, hd, hlen, lt_irrefl, if_false, hbody, List.take_length,
      List.drop_length, Term.apps_nil]

theorem convertIn_of_rigid (hl : c.whnf binders l s = .ok l' s) (hr : c.whnf binders r s = .ok r' s)
    (hl' : l'.IsRigid) (hr' : r'.IsRigid)
    (h : c.rigid (fun k => c.convertIn room (binders + k)) cmp l' r' s = .ok () s) :
    c.convertIn (room + 1) binders cmp l r s = .ok () s := by
  rw [convertIn]
  split
  case isTrue => rfl
  case isFalse =>
    rw [convertWith_of_isRigid hl hr hl' hr', h, ite_self]

/-- Subtyping accepts larger levels where it lets levels grow, and changes nothing. -/
theorem convertIn_of_grows (h : l.Grows c.env k r) (hroom : k ≤ room) :
    c.convertIn room binders .le l r s = .ok () s := by
  have hdata {n : GlobalName} {u v : Universe} {ps : List Term} {room binders : ℕ}
      (h : u.ConstLe v) :
      c.rigid (fun k => c.convertIn room (binders + k)) .le (.data n u ps)
        (.data n v ps) s = .ok () s := by
    rw [rigid, if_pos rfl, bind_of_ok (addUniverse_of_constLe h)]
    exact all_self (fun t => convertIn_of_same (Term.same_refl t)) ps
  have hrecord {n : GlobalName} {u v : Universe} {ps : List Term} {room binders : ℕ}
      (h : u.ConstLe v) :
      c.rigid (fun k => c.convertIn room (binders + k)) .le (.record n u ps)
        (.record n v ps) s = .ok () s := by
    rw [rigid, if_pos rfl, bind_of_ok (addUniverse_of_constLe h)]
    exact all_self (fun t => convertIn_of_same (Term.same_refl t)) ps
  induction h generalizing room binders with
  | refl t => exact convertIn_of_same (Term.same_refl t)
  | univ h =>
    obtain ⟨room, rfl⟩ := Nat.exists_eq_add_of_le' (Nat.zero_lt_of_lt hroom)
    exact convertIn_of_rigid (whnf_of_isRigid .univ) (whnf_of_isRigid .univ) .univ .univ
      (addUniverse_of_constLe h)
  | @former k n u v ps hn h =>
    obtain ⟨room, rfl⟩ := Nat.exists_eq_add_of_le' (Nat.zero_lt_of_lt hroom)
    obtain hwhnf | hwhnf := whnf_former hn
    · exact convertIn_of_rigid (hwhnf u) (hwhnf v) .data .data (hdata h)
    · exact convertIn_of_rigid (hwhnf u) (hwhnf v) .record .record (hrecord h)
  | data h =>
    obtain ⟨room, rfl⟩ := Nat.exists_eq_add_of_le' (Nat.zero_lt_of_lt hroom)
    exact convertIn_of_rigid (whnf_of_isRigid .data) (whnf_of_isRigid .data) .data .data (hdata h)
  | record h =>
    obtain ⟨room, rfl⟩ := Nat.exists_eq_add_of_le' (Nat.zero_lt_of_lt hroom)
    exact convertIn_of_rigid (whnf_of_isRigid .record)
      (whnf_of_isRigid .record) .record .record (hrecord h)
  | @pi k x a b d h ih =>
    obtain ⟨room, rfl⟩ := Nat.exists_eq_add_of_le' (Nat.zero_lt_of_lt hroom)
    refine convertIn_of_rigid (whnf_of_isRigid .pi) (whnf_of_isRigid .pi) .pi .pi ?_
    rw [rigid, if_pos rfl, bind_of_ok (convertIn_of_same (Term.same_refl a))]
    exact ih (Nat.le_of_succ_le_succ hroom)
  | @sigma k x a b a' b' _ _ iha ihb =>
    obtain ⟨room, rfl⟩ := Nat.exists_eq_add_of_le' (Nat.zero_lt_of_lt hroom)
    refine convertIn_of_rigid (whnf_of_isRigid .sigma) (whnf_of_isRigid .sigma) .sigma .sigma ?_
    rw [rigid, bind_of_ok (iha (Nat.le_of_succ_le_succ hroom))]
    exact ihb (Nat.le_of_succ_le_succ hroom)

theorem rigid_of_convertIn {s' : ConversionState} (hl : l.IsRigid) (hr : r.IsRigid)
    (hne : l.same r = false) (h : c.convertIn room binders cmp l r s = .ok () s') :
    ∃ room', c.rigid (fun k => c.convertIn room' (binders + k)) cmp l r s = .ok () s' := by
  cases room with
  | zero =>
    rw [convertIn, if_neg (by simp [hne])] at h
    contradiction
  | succ room =>
    rw [convertIn, if_neg (by simp [hne]), convertWith_of_isRigid (whnf_of_isRigid hl)
      (whnf_of_isRigid hr) hl hr,
      if_neg (by simp [hne])] at h
    exact ⟨room, h⟩

theorem add_of_addUniverse {s' : ConversionState} (h : c.addUniverse cmp u v s = .ok () s') :
    ∃ p q, cmp.add s.store.p u.p v.p c.span = (p, none) ∧
      cmp.add s.store.h u.h v.h c.span = (q, none) := by
  unfold addUniverse at h
  split at h
  case h_1 store hadd =>
    obtain ⟨p, q, hp, hq, -⟩ := Store.addUniverse_eq_none hadd
    exact ⟨p, q, hp, hq⟩
  case h_2 => contradiction

/-- The levels of two instances of a data type that are compared successfully are in their order. -/
theorem constLe_of_convert {n : GlobalName} {ps : List Term} {s' : ConversionState} (hu : u.IsConst)
    (hv : v.IsConst) (h : c.convert .le (.data n u ps) (.data n v ps) s = .ok () s') :
    u.ConstLe v := by
  cases hsame : (Term.data n u ps).same (.data n v ps) with
  | true =>
    obtain ⟨-, rfl, -⟩ := Term.data.inj (Term.same_iff.mp hsame)
    exact hu
  | false =>
    obtain ⟨room, h⟩ := rigid_of_convertIn .data .data hsame h
    rw [rigid, if_pos rfl] at h
    obtain ⟨_, _, hadd, -⟩ := bind_eq_ok.mp h
    obtain ⟨p, q, hp, hq⟩ := add_of_addUniverse hadd
    exact ⟨Level.constLe_of_addLe hu.1 hv.1 hp, Level.constLe_of_addLe hu.2 hv.2 hq⟩

/-- Functions on different universes are not compared successfully, whichever of them is the larger
one. -/
theorem eq_of_convert_pi {x y : Binder} {b d : Term} {s' : ConversionState} (hu : u.IsConst)
    (hv : v.IsConst) (h : c.convert cmp (.pi x (.univ u) b) (.pi y (.univ v) d) s = .ok () s') :
    u = v := by
  by_contra hne
  have hsame : (Term.univ u).same (.univ v) = false := by
    rw [← Bool.not_eq_true, Term.same_iff]
    simpa [Term.anonymize] using hne
  have hpi : (Term.pi x (.univ u) b).same (.pi y (.univ v) d) = false := by
    rw [← Bool.not_eq_true, Term.same_iff]
    simp [Term.anonymize, hne]
  obtain ⟨room, h⟩ := rigid_of_convertIn .pi .pi hpi h
  rw [rigid] at h
  split at h
  case isTrue =>
    obtain ⟨_, _, hdomain, -⟩ := bind_eq_ok.mp h
    obtain ⟨_, hrigid⟩ := rigid_of_convertIn .univ .univ hsame hdomain
    obtain ⟨p, q, hp, hq⟩ := add_of_addUniverse hrigid
    exact hne (congrArg₂ Universe.mk (Level.eq_of_addEq hu.1 hv.1 hp)
      (Level.eq_of_addEq hu.2 hv.2 hq))
  case isFalse => contradiction

/-- Subtyping between two instances of a data type carries over to the covariant fields of its
constructors, under the fields before them. It does not carry over to functions on a universe whose
levels are different in the two instances. -/
theorem convert_fields {n k : GlobalName} {j : ℕ} {t t' : Universe} {ps : List Term}
    {s s' : ConversionState} {p : Param Term} (ht : t.IsConst) (ht' : t'.IsConst)
    (hsub : c.convert .le (.data n t ps) (.data n t' ps) s = .ok () s')
    (hp : c.env.field? n k j = some p) (vs : List Term) :
    ∃ a b, c.env.fieldType? n k j t vs = some a ∧ c.env.fieldType? n k j t' vs = some b ∧
      (p.type.Covariant c.env c.limits.conversionDepth →
        ∀ s, Converter.convert { c with locals := c.locals.under j } .le a b s = .ok () s) ∧
      ∀ x u cod, p.type = .pi x (.univ u) cod → u.HoleFree → u.subst t ≠ u.subst t' →
        ∀ s s', Converter.convert { c with locals := c.locals.under j } .le a b s ≠ .ok () s' := by
  have hle : t.ConstLe t' := constLe_of_convert ht ht' hsub
  let args := vs.map (·.lift j) ++ (List.range j).reverse.map .var
  have htype (u : Universe) :
      c.env.fieldType? n k j u vs =
        some ((p.type.substLevels u).inst (Term.pushAll args .var)) := by
    rw [Environment.fieldType?, hp, Option.map_some, Term.substAll_eq_inst]
  refine ⟨_, _, htype t, htype t', fun hcov s => convertIn_of_grows
    (hcov.grows hle ht' _) le_rfl, ?_⟩
  intro x u cod hpi hu hne s s' h
  have hdomain {v : Universe} (hv : v.IsConst) :
      ((Term.pi x (.univ u) cod).substLevels v).inst (Term.pushAll args .var) = .pi x
        (.univ (u.subst v))
        ((cod.replace (fun _ i => .var i) (·.subst v) 1).inst
          (Term.up 1 (Term.pushAll args .var))) := by
    rw [Term.substLevels, if_neg hv.ne_params]
    rfl
  rw [hpi, hdomain ht, hdomain ht'] at h
  have hconst {v : Universe} (hv : v.IsConst) : (u.subst v).IsConst := Universe.ConstLe.subst hv hu
  exact hne (eq_of_convert_pi (hconst ht) (hconst ht') h)

section Example

def familyField : Param Term :=
  { Binder.named "f" with type := .pi (.named "x") (.var 0) (.univ .params) }

/-- A function on a universe, at the levels of the data type: the argument is in a contravariant
place. -/
def sinkField : Param Term :=
  { Binder.named "g" with type := .pi (.named "A") (.univ .params) .nat }

/-- A constructor with a type, a family of types on it, and a function on types. -/
def boxConstructor : Definition where
  span := default
  name := ⟨"index::box"⟩
  tele := [{ Binder.named "A" with type := .univ .params }, familyField, sinkField]
  type := .data ⟨"index::Box"⟩ .params []
  body := .constructor ⟨"index::Box"⟩ 0 0 none

def boxConverter : Converter := ⟨⟨{}, ({} : Registry).insert boxConstructor⟩, [], {}, default⟩

theorem field?_boxConverter (j : ℕ) :
    boxConverter.env.field? ⟨"index::Box"⟩ ⟨"index::box"⟩ j = boxConstructor.tele[j]? := by
  have hget : boxConverter.env.get? ⟨"index::box"⟩ = some boxConstructor := by
    rw [Environment.get?, boxConverter, Registry.get?_insert,
      if_pos (show boxConstructor.name = ⟨"index::box"⟩ from rfl), Option.some_or]
  rw [Environment.field?, hget]
  rfl

/-- The family of types is at the larger level what it is at the smaller one, the function on types
is not. -/
theorem convert_fields_box :
    let zero : Universe := .zero
    let one : Universe := ⟨.const 1, .const 1⟩
    let under (k : ℕ) : Converter := { boxConverter with locals := boxConverter.locals.under k }
    zero.IsConst ∧ one.IsConst ∧
    boxConverter.convert .le (.data ⟨"index::Box"⟩ zero []) (.data ⟨"index::Box"⟩ one [])
      {} = .ok () {} ∧
    boxConverter.env.field? ⟨"index::Box"⟩ ⟨"index::box"⟩ 1 = some familyField ∧
    boxConverter.env.field? ⟨"index::Box"⟩ ⟨"index::box"⟩ 2 = some sinkField ∧
    (under 1).convert .le (.pi (.named "x") (.var 0) (.univ zero))
    (.pi (.named "x") (.var 0) (.univ one)) {} = .ok () {} ∧
    ∀ s', (under 2).convert .le (.pi (.named "A") (.univ zero) .nat)
      (.pi (.named "A") (.univ one) .nat) {} ≠ .ok () s' := by
  intro zero one under
  have hzero : zero.IsConst := ⟨.const le_rfl, .const le_rfl⟩
  have hone : one.IsConst := ⟨.const le_rfl, .const le_rfl⟩
  have hle : zero.ConstLe one := ⟨.const zero_le_one, .const zero_le_one⟩
  have hsub : boxConverter.convert .le (.data ⟨"index::Box"⟩ zero []) (.data ⟨"index::Box"⟩ one [])
      {} = .ok () {} :=
    convertIn_of_grows (.data hle) (show 0 + 1 ≤ boxConverter.limits.conversionDepth by decide)
  have hfamily : boxConverter.env.field? ⟨"index::Box"⟩ ⟨"index::box"⟩ 1 = some familyField :=
    field?_boxConverter 1
  have hsink : boxConverter.env.field? ⟨"index::Box"⟩ ⟨"index::box"⟩ 2 = some sinkField :=
    field?_boxConverter 2
  refine ⟨hzero, hone, hsub, hfamily, hsink, ?_, ?_⟩
  · obtain ⟨a, b, ha, hb, hcov, -⟩ := convert_fields hzero hone hsub hfamily []
    rw [Environment.fieldType?, hfamily] at ha hb
    obtain rfl := Option.some.inj ha
    obtain rfl := Option.some.inj hb
    have hvar : (Term.var 0).LevelFree := fun u => by
      rw [Term.substLevels]
      split <;> rfl
    have hdepth : boxConverter.limits.conversionDepth = 510 + 2 := rfl
    exact hcov (hdepth ▸ .pi hvar (.univ ⟨rfl, rfl⟩)) {}
  · obtain ⟨a, b, ha, hb, -, hdomain⟩ := convert_fields hzero hone hsub hsink []
    rw [Environment.fieldType?, hsink] at ha hb
    obtain rfl := Option.some.inj ha
    obtain rfl := Option.some.inj hb
    exact hdomain (.named "A") .params .nat rfl ⟨rfl, rfl⟩ (by decide) {}

end Example

end Converter

end LeveledTypes
