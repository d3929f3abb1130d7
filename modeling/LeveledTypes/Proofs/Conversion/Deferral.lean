import LeveledTypes.Proofs.Conversion.Soundness

/-!
# Problems kept for later

A problem with an unsolved hole at a head that is no pattern is kept as a constraint. If the hole
heads the left side, the constraint stands for the problem itself. If it heads the right side only,
the constraint has its sides exchanged while the comparison stays, so that it stands for the
reversed problem. The two agree for equations, not for subtyping.
-/
namespace LeveledTypes.Converter
variable {S : Signature} {n : ℕ} {c : Converter} {s s' : ConversionState} {cmp : Comparison}
  {l r l' : Term} {m : ℕ} {k : Constraint}

section Solve
variable (henv : c.env.Over S) (hL : c.locals.Over S)

include henv hL

/-- A constraint that is kept when a hole could not be solved has the side with the hole on the
left. -/
theorem constraint_of_solve (hs : Sound S n c.env s) (hl : l.Over S ⊤) (hr : r.Over S ⊤)
    (h : c.solve 0 m cmp l r s = .ok () s')
    (hk : s'.store.constraints = s.store.constraints ++ [k]) :
    s'.store.holes = s.store.holes ∧ ∃ r', r'.Over S ⊤ ∧
      (∀ M : Solution, M.Extends S s.store → Conv S c.env M c.locals r r') ∧
      k = ⟨l, r', cmp, c.locals, c.span⟩ := by
  have hargs : ∀ a ∈ l.spine.2, a.Over S ⊤ := by
    rw [← Term.apps_spine l] at hl
    exact (Term.over_apps.mp hl).2
  -- A run that ends with keeping a constraint has kept no other one.
  have hdefer {r' : Term} {u : ConversionState} (hstore : u.store = s.store)
      (h : c.defer 0 cmp l r' u = .ok () s') :
      s'.store.holes = s.store.holes ∧ k = ⟨l, r', cmp, c.locals, c.span⟩ := by
    obtain ⟨-, rfl⟩ := EStateM.Result.ok.inj h
    rw [← hstore] at hk ⊢
    exact ⟨rfl, (List.singleton_inj.mp (List.append_cancel_left hk)).symm⟩
  unfold solve at h
  obtain ⟨o, t, ho, h⟩ := bind_eq_ok.mp h
  obtain ⟨hstore, ht, -⟩ := converts_patternVars henv hL hs hargs ho
  split at h
  case h_1 =>
    obtain ⟨hholes, hk⟩ := hdefer hstore h
    exact ⟨hholes, r, hr, fun M _ => .refl r, hk⟩
  case h_2 vars =>
    obtain ⟨_, _, hget, h⟩ := bind_eq_ok.mp h
    obtain ⟨rfl, rfl⟩ := EStateM.Result.ok.inj hget
    beta_reduce at h
    extract_lets arity rename assign at h
    have hassign {body : Term} {u : ConversionState} (hstore : u.store = s.store) :
        assign body u ≠ .ok () s' := by
      intro h
      obtain ⟨-, rfl⟩ := EStateM.Result.ok.inj h
      have hlen := congrArg List.length hk
      simp [Store.assign, hstore] at hlen
    clear_value assign rename arity
    have hrep (M : Solution) (hM : M.Extends S s.store) :
        Replaceable S c.env M r (t.store.zonk r) :=
      Store.replaceable_zonk ht.store.solutions (hstore ▸ hM) ht.store.levels hr
    have hzonk := (hrep ⟨s.store.solution?, 0, 0⟩ fun _ _ _ => id).1
    generalize t.store.zonk r = filled at h hrep hzonk
    split at h
    case isTrue =>
      obtain ⟨_, _, hfail, -⟩ := bind_eq_ok.mp h
      contradiction
    case isFalse =>
      cases hbody : rename filled with
      | some body =>
        simp only [hbody] at h
        exact absurd h (hassign hstore)
      | none =>
        simp only [hbody] at h
        obtain ⟨r', u, hnf, h⟩ := bind_eq_ok.mp h
        obtain ⟨hstore', -, hover, hconv⟩ := converts_nf henv hL ht hzonk hnf
        cases hbody : rename r' with
        | some body =>
          simp only [hbody] at h
          exact absurd h (hassign (hstore'.trans hstore))
        | none =>
          simp only [hbody] at h
          obtain ⟨hholes, hk⟩ := hdefer (hstore'.trans hstore) h
          refine ⟨hholes, r', hover, fun M hM => ?_, hk⟩
          have hnormal := hconv M (hstore ▸ hM)
          rw [Locals.under_zero] at hnormal
          exact ((hrep M hM).2 _).trans hnormal

end Solve

/-- The constraint stands for a comparison of two terms: it has the comparison and its context, and
in every solution of the store its sides are convertible to the terms. -/
structure StandsFor (S : Signature) (c : Converter) (s : Store) (cmp : Comparison) (l r : Term)
    (k : Constraint) : Prop where
  comparison : k.cmp = cmp
  locals : k.locals = c.locals
  span : k.span = c.span
  left : k.lhs.Over S ⊤
  right : k.rhs.Over S ⊤
  sides : ∀ M : Solution, M.Extends S s → Conv S c.env M c.locals l k.lhs ∧
    Conv S c.env M c.locals r k.rhs

theorem StandsFor.related_iff {M : Solution} {s : Store} (h : StandsFor S c s cmp l r k)
    (hM : M.Extends S s) :
    Related S c.env M k.cmp k.locals k.lhs k.rhs ↔ Related S c.env M cmp c.locals l r := by
  obtain ⟨hl, hr⟩ := h.sides M hM
  rw [h.comparison, h.locals]
  exact ⟨fun hk => .conv hl hk hr, fun hlr => .conv hl.symm hlr hr.symm⟩

section Run
variable (henv : c.env.Over S) (hL : c.locals.Over S) (hs : Sound S n c.env s) (hl : l.Over S ⊤)
  (hr : r.Over S ⊤) (hrun : c.convert cmp l r s = .ok () s')
  (hk : s'.store.constraints = s.store.constraints ++ [k])

include henv hL hs hl hr hrun hk

/-- A comparison that keeps a constraint because of a hole at a head: the constraint stands for the
comparison itself if the hole heads the left side, and for the reversed one if it heads the right
side only. -/
theorem standsFor_of_convert : ∃ l' t r' u, c.whnf 0 l s = .ok l' t ∧ c.whnf 0 r t = .ok r' u ∧
    (∀ m, l'.headHole? = some m → s.store.solution? m = none → k.lhs = l' ∧
      StandsFor S c s.store cmp l r k) ∧
    ∀ m, (∀ m', l'.headHole? = some m' → s.store.solution? m' ≠ none) → r'.headHole? = some m →
      s.store.solution? m = none → StandsFor S c s.store cmp r l k := by
  have hkept {v : ConversionState} (hv : v.store = s.store) : s' ≠ v := by
    rintro rfl
    simp [hv] at hk
  unfold convert convertIn at hrun
  split at hrun
  case isTrue => exact absurd (EStateM.Result.ok.inj hrun).2.symm (hkept rfl)
  case isFalse =>
    cases hroom : c.limits.conversionDepth with
    | zero =>
      simp only [hroom] at hrun
      contradiction
    | succ room =>
      simp only [hroom] at hrun
      unfold convertWith at hrun
      obtain ⟨l', t, hlt, hrun⟩ := bind_eq_ok.mp hrun
      obtain ⟨hstore, ht, hl', hll'⟩ := converts_whnf henv hL hs hl hlt
      obtain ⟨r', u, hru, hrun⟩ := bind_eq_ok.mp hrun
      obtain ⟨hstore', hu, hr', hrr'⟩ := converts_whnf henv hL ht hr hru
      rw [Locals.under_zero] at hll' hrr'
      rw [hstore] at hstore' hrr'
      refine ⟨l', t, r', u, hlt, hru, ?_⟩
      split at hrun
      case isTrue => exact absurd (EStateM.Result.ok.inj hrun).2.symm (hkept hstore')
      case isFalse =>
        obtain ⟨_, _, hget, hrun⟩ := bind_eq_ok.mp hrun
        obtain ⟨rfl, rfl⟩ := EStateM.Result.ok.inj hget
        beta_reduce at hrun
        rw [← hstore'] at hk ⊢
        rw [← hstore'] at hll' hrr'
        have hunsolved {a : Term} {m : ℕ} :
            a.headHole?.filter (fun m => (u.store.solution? m).isNone) = some m ↔
            a.headHole? = some m ∧ u.store.solution? m = none := by simp [Option.filter_eq_some_iff]
        refine ⟨fun m hm hnone => ?_, fun m hleft hm hnone => ?_⟩
        · simp only [hunsolved.mpr ⟨hm, hnone⟩] at hrun
          obtain ⟨-, r'', hr'', hconv, rfl⟩ := constraint_of_solve henv hL hu hl' hr' hrun hk
          exact ⟨rfl, rfl, rfl, rfl, hl', hr'',
            fun M hM => ⟨hll' M hM, (hrr' M hM).trans (hconv M hM)⟩⟩
        · have hnot : l'.headHole?.filter (fun m => (u.store.solution? m).isNone) = none := by
            by_contra hsome
            obtain ⟨m', hm'⟩ := Option.ne_none_iff_exists'.mp hsome
            exact hleft m' (hunsolved.mp hm').1 (hunsolved.mp hm').2
          simp only [hnot, hunsolved.mpr ⟨hm, hnone⟩] at hrun
          obtain ⟨-, l'', hl'', hconv, rfl⟩ := constraint_of_solve henv hL hu hr' hl' hrun hk
          exact ⟨rfl, rfl, rfl, hr', hl'', fun M hM => ⟨hrr' M hM, (hll' M hM).trans (hconv M hM)⟩⟩

end Run

/-- To take up the only constraint is to compare its sides. -/
theorem retryOnce_singleton {env : Environment} {limits : Limits} {t : ConversionState}
    (hpending : t.store.constraints = [k]) :
    retryOnce env limits t = Converter.convert ⟨env, k.locals, limits, k.span⟩ k.cmp k.lhs k.rhs
      { t with store := { t.store with constraints := [] } } := by
  have hget : (get : Convert ConversionState) t = .ok t t := rfl
  refine (bind_of_ok hget).trans
    ((bind_of_ok (t := { t with store := { t.store with constraints := [] } }) rfl).trans ?_)
  rw [hpending]
  exact congrFun (bind_pure_unit (x :=
    Converter.convert ⟨env, k.locals, limits, k.span⟩ k.cmp k.lhs k.rhs)) _

/-- Taking up a constraint that stands for a comparison of two terms, in a state that has more
solutions: if it succeeds without keeping a constraint, and the levels can be solved, then the terms
are related. -/
theorem StandsFor.related_of_retryOnce {s u : Store} {t t' : ConversionState} {limits : Limits}
    (henv : c.env.Over S) (hL : c.locals.Over S) (hk : StandsFor S c s cmp l r k)
    (ht : Sound S 0 c.env t) (hlater : ∀ m a, S.hole m → s.solution? m = some a →
      t.store.solution? m = some a)
    (hpending : t.store.constraints = [k]) (hrun : retryOnce c.env limits t = .ok () t')
    (hconstraints : t'.store.constraints = []) (hlevels : t'.store.solveLevels = .ok u) :
    Related S c.env u.toSolution cmp c.locals l r := by
  let d : Converter := ⟨c.env, k.locals, limits, k.span⟩
  have hd : d.locals.Over S := by
    change k.locals.Over S
    rwa [hk.locals]
  have hcleared : Sound S 0 d.env { t with store := { t.store with constraints := [] } } :=
    ⟨{ ht.store with constraints := le_rfl }, ht.memo⟩
  have hconvert := (retryOnce_singleton hpending).symm.trans hrun
  obtain ⟨ht', hM⟩ := compares_convertIn (c := d) henv hd limits.conversionDepth 0 k.cmp hk.left
    hk.right _ t' hcleared hconvert
  obtain ⟨hsolves, hrelated⟩ :=
    hM _ (Store.solves_of_solveLevels ht'.store (by simp [hconstraints]) hlevels)
  rw [Locals.under_zero] at hrelated
  exact (hk.related_iff fun m a hm ha => hsolves.holes m a hm (hlater m a hm ha)).mp hrelated

/-! ## The direction of a constraint -/

/-- The hole of types applied to `Nat`, which is no pattern. -/
def deferredLeft : Term := .app (.hole 0) .nat

def deferredRight : Term := .univ ⟨.const 1, .const 1⟩

/-- A solution of the hole. -/
def universeFamily : Term := .lam (.named "A") (.univ .zero) (.univ ⟨.hole 0, .hole 1⟩)

section Heads
variable {t : ConversionState} (henv : c.env.Over S) (hL : c.locals.Over S) (hs : Sound S n c.env s)
  (hl : l.Over S ⊤) (hr : r.Over S ⊤) (hrun : c.convert cmp l r s = .ok () s')
  (hk : s'.store.constraints = s.store.constraints ++ [k]) (hwhnf : c.whnf 0 l s = .ok l' t)

include henv hL hs hl hr hrun hk hwhnf

/-- A problem that is kept because an unsolved hole heads its left side keeps its direction. Under
all solutions found later, the constraint asks for what the problem asks for. To take it up is to
make the problem's own comparison, of the head normal form of the left side with the right side that
was kept: it comes to the same end and leaves the same edges between levels. If it succeeds, then
the terms are related as the problem says. -/
theorem direction_of_constraint_left (hm : l'.headHole? = some m)
    (hnone : s.store.solution? m = none) : (∀ M : Solution, M.Extends S s.store →
      (Related S c.env M k.cmp k.locals k.lhs k.rhs ↔ Related S c.env M cmp c.locals l r)) ∧
    (∀ limits t, t.store.constraints = [k] →
      retryOnce c.env limits t = Converter.convert ⟨c.env, c.locals, limits, c.span⟩
      cmp l' k.rhs { t with store := { t.store with constraints := [] } }) ∧
    ∀ limits t t' u, Sound S 0 c.env t →
      (∀ m a, S.hole m → s.store.solution? m = some a → t.store.solution? m = some a) →
      t.store.constraints = [k] →
      retryOnce c.env limits t = .ok () t' → t'.store.constraints = [] →
      t'.store.solveLevels = .ok u →
      Related S c.env u.toSolution cmp c.locals l r := by
  obtain ⟨_, _, r', u, hlt, -, hleft, -⟩ := standsFor_of_convert henv hL hs hl hr hrun hk
  obtain ⟨rfl, rfl⟩ := EStateM.Result.ok.inj (hwhnf.symm.trans hlt)
  obtain ⟨hlhs, hstands⟩ := hleft m hm hnone
  have hretry (limits : Limits) (t : ConversionState) (hpending : t.store.constraints = [k]) :
      retryOnce c.env limits t = Converter.convert ⟨c.env, c.locals, limits, c.span⟩ cmp l' k.rhs
        { t with store := { t.store with constraints := [] } } := by
    rw [retryOnce_singleton hpending, hstands.comparison, hstands.locals, hstands.span, hlhs]
  exact ⟨fun M hM => hstands.related_iff hM, hretry,
    fun limits t t' u ht hlater hpending hretry hnone hlevels =>
    hstands.related_of_retryOnce henv hL ht hlater hpending hretry hnone hlevels⟩

omit henv hL hs hl hr hrun hk hwhnf in
/-- The hole applied to a type is at most a universe. Later the hole is solved by a universe whose
levels are holes. -/
theorem direction_of_constraint_left_holeLeft :
    ∃ k t', holeConverter.env.Over holeSignature ∧ holeConverter.locals.Over holeSignature ∧
      Sound holeSignature 0 holeConverter.env { store := holeStore none {} {} } ∧
      deferredLeft.Over holeSignature ⊤ ∧ deferredRight.Over holeSignature ⊤ ∧
      holeConverter.convert .le deferredLeft deferredRight { store := holeStore none {} {} } =
        .ok () { store := { holeStore none {} {} with constraints := [k] } } ∧
      holeConverter.whnf 0 deferredLeft { store := holeStore none {} {} } =
        .ok deferredLeft { store := holeStore none {} {} } ∧
      deferredLeft.headHole? = some 0 ∧ (holeStore none {} {}).solution? 0 = none ∧
      retryOnce holeConverter.env {}
        { store := { holeStore (some universeFamily) {} {} with constraints := [k] } } = .ok () t' ∧
      ∃ u, t'.store.solveLevels = .ok u ∧
        Related holeSignature holeConverter.env u.toSolution .le holeConverter.locals deferredLeft
          deferredRight := by
  have henv : holeConverter.env.Over holeSignature := fun _ _ h => h.elim
  have hlocals : holeConverter.locals.Over holeSignature := by
    intro v hv
    obtain rfl : v = .nat := by simpa [holeConverter] using hv
    trivial
  have hs : Sound holeSignature 0 holeConverter.env { store := holeStore none {} {} } :=
    ⟨over_holeStore, Memo.sound_empty⟩
  have hleft : deferredLeft.Over holeSignature ⊤ := by simp [deferredLeft, holeSignature]
  have hright : deferredRight.Over holeSignature ⊤ := by
    simp [deferredRight, Signature.Admits, Level.hole?]
  have hfamily : universeFamily.Over holeSignature ⊤ := by
    simp [universeFamily, holeSignature, Signature.Admits, Universe.zero, Level.hole, Level.ofVar,
      Level.hole?]
  let k : Constraint := ⟨deferredLeft, deferredRight, .le, holeConverter.locals, default⟩
  let t : ConversionState :=
    { store := { holeStore (some universeFamily) {} {} with constraints := [k] } }
  let t' : ConversionState :=
    { store := holeStore (some universeFamily) (boundedHole 0) (boundedHole 1) }
  have hrun : holeConverter.convert .le deferredLeft deferredRight
      { store := holeStore none {} {} } =
    .ok () { store := { holeStore none {} {} with constraints := [k] } } := by rfl
  have hwhnf : holeConverter.whnf 0 deferredLeft { store := holeStore none {} {} } =
    .ok deferredLeft { store := holeStore none {} {} } := by rfl
  have hretry : retryOnce holeConverter.env {} t = .ok () t' := by rfl
  have hlevels : t'.store.solveLevels =
      .ok { t'.store with levelSolutions := [(1, .const 0), (0, .const 0)] } := by
    simp [t', Store.solveLevels, holeStore, solve_boundedHole, bind, Except.bind, pure, Except.pure]
  have hsolved : (holeStore (some universeFamily) {} {}).Over holeSignature 0 :=
    over_holeStore.assign (m := 0) hfamily
  have ht : Sound holeSignature 0 holeConverter.env t :=
    ⟨{ hsolved with constraints := Nat.zero_le _ }, Memo.sound_empty⟩
  have hlater : ∀ m a, holeSignature.hole m → (holeStore none {} {}).solution? m = some a →
      t.store.solution? m = some a := by
    rintro m a rfl ha
    simp [Store.solution?, holeStore] at ha
  refine ⟨k, t', henv, hlocals, hs, hleft, hright, hrun, hwhnf, rfl, rfl, hretry, _, hlevels, ?_⟩
  exact (direction_of_constraint_left henv hlocals hs hleft hright hrun rfl hwhnf rfl rfl).2.2
    {} t t' _ ht hlater rfl hretry
    rfl hlevels

/-- A problem that is kept because an unsolved hole heads its right side, and none its left side, is
turned round. -/
theorem direction_of_constraint_right {r' : Term} {u : ConversionState}
    (hwhnf' : c.whnf 0 r t = .ok r' u) (hleft : ∀ m, l'.headHole? = some m →
      s.store.solution? m ≠ none) (hm : r'.headHole? = some m)
    (hnone : s.store.solution? m = none) {M : Solution} (hM : M.Extends S s.store) :
    Related S c.env M k.cmp k.locals k.lhs k.rhs ↔ Related S c.env M cmp c.locals r l := by
  obtain ⟨_, _, _, _, hlt, hru, -, hright⟩ := standsFor_of_convert henv hL hs hl hr hrun hk
  obtain ⟨rfl, rfl⟩ := EStateM.Result.ok.inj (hwhnf.symm.trans hlt)
  obtain ⟨rfl, rfl⟩ := EStateM.Result.ok.inj (hwhnf'.symm.trans hru)
  exact (hright m hleft hm hnone).related_iff hM

end Heads

end LeveledTypes.Converter
