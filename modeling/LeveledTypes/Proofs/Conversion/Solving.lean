import LeveledTypes.Proofs.Conversion.Run

/-!
# Solving a hole

Solving a hole makes the term that the hole heads and the term it is compared with convertible,
under every solution of the store that comes out.
-/
namespace LeveledTypes

/-- A solution has the solutions of holes that a store has. -/
abbrev Solution.Extends (S : Signature) (M : Solution) (s : Store) : Prop :=
  ∀ m t, S.hole m → s.solution? m = some t → M.hole m = some t

namespace Converter
variable {S : Signature} {n : ℕ} {c : Converter} {binders : ℕ} {s s' : ConversionState}

section Reduce
variable {t t' : Term} {f : Reducer → Reduce Term}

/-- Reduction changes what is remembered only, and its outcome is convertible to the term. -/
theorem converts_reduce
    (hf : ∀ M : Solution, M.Extends S s.store →
      Reducer.Converts S M ⟨c.env, s.store, c.locals⟩ binders t (f ⟨c.env, s.store, c.locals⟩))
    (hs : Sound S n c.env s) (h : c.reduce f s = .ok t' s') :
    s'.store = s.store ∧ Sound S n c.env s' ∧ t'.Over S ⊤ ∧
      ∀ M : Solution, M.Extends S s.store → Conv S c.env M (c.locals.under binders) t t' := by
  obtain ⟨hstore, hmemo, hover, -⟩ :=
    reduce_eq_ok (hf ⟨s.store.solution?, 0, 0⟩ fun _ _ _ => id) hs.memo h
  refine ⟨hstore, ⟨hstore ▸ hs.store, hmemo⟩, hover, fun M hM => ?_⟩
  exact (reduce_eq_ok (hf M hM) hs.memo h).2.2.2

variable (henv : c.env.Over S) (hL : c.locals.Over S) (hs : Sound S n c.env s) (ht : t.Over S ⊤)

include henv hL hs ht

theorem converts_whnf (h : c.whnf binders t s = .ok t' s') :
    s'.store = s.store ∧ Sound S n c.env s' ∧ t'.Over S ⊤ ∧
      ∀ M : Solution, M.Extends S s.store → Conv S c.env M (c.locals.under binders) t t' :=
  converts_reduce (fun _ hM => Reducer.converts_whnfGas henv hs.store.solutions hM hL _ ht) hs h

theorem converts_nf (h : c.reduce (·.nf binders t) s = .ok t' s') :
    s'.store = s.store ∧ Sound S n c.env s' ∧ t'.Over S ⊤ ∧
      ∀ M : Solution, M.Extends S s.store → Conv S c.env M (c.locals.under binders) t t' :=
  converts_reduce (fun _ hM => Reducer.converts_nfGas henv hs.store.solutions hM hL _ ht) hs h

end Reduce

theorem hole_apps_of_headHole? {t : Term} {m : ℕ} (h : t.headHole? = some m) :
    (Term.hole m).apps t.spine.2 = t := by
  have hhead : t.spine.1 = .hole m := by
    unfold Term.headHole? Term.head at h
    split at h <;> simp_all
  rw [← hhead, Term.apps_spine]

section Solve
variable (henv : c.env.Over S) (hL : c.locals.Over S)

include henv hL

/-- The variables of a spine are convertible to its arguments. -/
theorem converts_patternVars {args : List Term} {vars : List ℕ} {o : Option (List ℕ)}
    (hs : Sound S n c.env s) (hargs : ∀ a ∈ args, a.Over S ⊤)
    (h : c.patternVars binders args vars s = .ok o s') :
    s'.store = s.store ∧ Sound S n c.env s' ∧ ∀ xs, o = some xs → ∃ ys, xs = vars ++ ys ∧
      ∀ M : Solution, M.Solves S n s.store →
        List.Forall₂ (fun a i => Conv S c.env M (c.locals.under binders) a (.var i)) args ys := by
  induction args generalizing vars s with
  | nil =>
    obtain ⟨rfl, rfl⟩ := EStateM.Result.ok.inj h
    exact ⟨rfl, hs, fun xs hxs => ⟨[], by simpa using hxs.symm, fun M _ => .nil⟩⟩
  | cons a args ih =>
    obtain ⟨ha, hargs⟩ := List.forall_mem_cons.mp hargs
    unfold patternVars at h
    extract_lets join at h
    obtain ⟨a', t, hstore, ht, hconv, h⟩ : ∃ a' t, t.store = s.store ∧ Sound S n c.env t ∧
        (∀ M : Solution, M.Extends S s.store → Conv S c.env M (c.locals.under binders) a a') ∧
        join a' t = .ok o s' := by
      split at h
      case h_1 => exact ⟨_, s, rfl, hs, fun M _ => .refl _, h⟩
      case h_2 =>
        obtain ⟨a', t, hat, h⟩ := bind_eq_ok.mp h
        obtain ⟨hstore, ht, -, hconv⟩ := converts_whnf henv hL hs ha hat
        exact ⟨a', t, hstore, ht, hconv, h⟩
    unfold join at h
    split at h
    case h_1 i =>
      split at h
      case isTrue =>
        obtain ⟨rfl, rfl⟩ := EStateM.Result.ok.inj h
        exact ⟨hstore, ht, by simp⟩
      case isFalse =>
        obtain ⟨hstore', hs', hvars⟩ := ih ht hargs h
        refine ⟨hstore'.trans hstore, hs', fun xs hxs => ?_⟩
        obtain ⟨ys, rfl, hys⟩ := hvars xs hxs
        exact ⟨i :: ys, by simp, fun M hM => .cons (hconv M hM.holes) (hys M (hstore ▸ hM))⟩
    case h_2 =>
      obtain ⟨rfl, rfl⟩ := EStateM.Result.ok.inj h
      exact ⟨hstore, ht, by simp⟩

/-- Solving a hole that has no solution yet. -/
theorem compares_solve {m : ℕ} {cmp : Comparison} {l r : Term} (hs : Sound S n c.env s)
    (hl : l.Over S ⊤) (hr : r.Over S ⊤) (hm : l.headHole? = some m)
    (hnone : s.store.solution? m = none) (h : c.solve binders m cmp l r s = .ok () s') :
    Sound S n c.env s' ∧ ∀ M : Solution, M.Solves S n s'.store →
      M.Solves S n s.store ∧ Conv S c.env M (c.locals.under binders) l r := by
  rw [← hole_apps_of_headHole? hm] at hl
  obtain ⟨hhole, hargs⟩ := Term.over_apps.mp hl
  unfold solve at h
  obtain ⟨o, t, ho, h⟩ := bind_eq_ok.mp h
  obtain ⟨hstore, ht, hvars⟩ := converts_patternVars henv hL hs hargs ho
  split at h
  case h_1 =>
    obtain ⟨hs', hM⟩ := compares_defer (R :=
      fun M => Conv S c.env M (c.locals.under binders) l r) t s' ht h
    exact ⟨hs', fun M hM' => hstore ▸ hM M hM'⟩
  case h_2 vars =>
    obtain ⟨ys, rfl, hvars⟩ := hvars vars rfl
    obtain ⟨_, _, hget, h⟩ := bind_eq_ok.mp h
    obtain ⟨rfl, rfl⟩ := EStateM.Result.ok.inj hget
    beta_reduce at h
    extract_lets arity rename assign at h
    have hname (t : Term) : rename t = t.renameFree? (patternName vars) := rfl
    have hmodify (body : Term) (u : ConversionState) : assign body u = .ok () { u with
      store := u.store.assign m (patternSolution (u.store.holeType m) body vars.length) } := rfl
    clear_value assign rename arity
    obtain ⟨hzonk, hconv⟩ : (t.store.zonk r).Over S ⊤ ∧ ∀ M : Solution, M.Solves S n s.store →
        Conv S c.env M (c.locals.under binders) r (t.store.zonk r) := by
      have hrep (M : Solution) (hM : ∀ m t', S.hole m → t.store.solution? m = some t' →
          M.hole m = some t') : Replaceable S c.env M r (t.store.zonk r) :=
        Store.replaceable_zonk ht.store.solutions hM ht.store.levels hr
      exact ⟨(hrep ⟨t.store.solution?, 0, 0⟩ fun _ _ _ => id).1, fun M hM =>
        (hrep M (hstore ▸ hM.holes)).2 _⟩
    generalize t.store.zonk r = r' at h hzonk hconv
    have hassign {r'' body : Term} {u : ConversionState} (hstore : u.store = s.store)
        (hu : Sound S n c.env u)
        (hover : r''.Over S ⊤) (hconv : ∀ M : Solution, M.Solves S n s.store →
          Conv S c.env M (c.locals.under binders) r r'') (hbody : rename r'' = some body)
        (h : assign body u = .ok () s') :
        Sound S n c.env s' ∧ ∀ M : Solution, M.Solves S n s'.store →
          M.Solves S n s.store ∧ Conv S c.env M (c.locals.under binders) l r := by
      rw [hmodify] at h
      obtain ⟨-, rfl⟩ := EStateM.Result.ok.inj h
      have htype := hu.store.holeType hhole
      have hrename := (hname r'').symm.trans hbody
      have hpattern := over_patternSolution htype (over_of_renameFree? hover hrename) vars.length
      refine ⟨⟨hu.store.assign hpattern, hu.memo⟩, fun M hM => ?_⟩
      obtain ⟨hM, hsol⟩ := Store.solves_assign hu.store hhole (hstore ▸ hnone) hM
      rw [hstore] at hM
      rw [← hole_apps_of_headHole? hm]
      exact ⟨hM, (conv_patternSolution hhole hsol (hvars M hM) htype hover hrename).trans
        (hconv M hM).symm⟩
    split at h
    case isTrue =>
      obtain ⟨_, _, hfail, -⟩ := bind_eq_ok.mp h
      contradiction
    case isFalse =>
      cases hbody : rename r' with
      | some body =>
        simp only [hbody] at h
        exact hassign hstore ht hzonk hconv hbody h
      | none =>
        simp only [hbody] at h
        obtain ⟨r'', u, hnf, h⟩ := bind_eq_ok.mp h
        obtain ⟨hstore', hu, hover, hconv'⟩ := converts_nf henv hL ht hzonk hnf
        have hstore'' := hstore'.trans hstore
        have hconv'' (M : Solution) (hM : M.Solves S n s.store) :=
          (hconv M hM).trans (hconv' M (hstore ▸ hM.holes))
        cases hbody : rename r'' with
        | some body =>
          simp only [hbody] at h
          exact hassign hstore'' hu hover hconv'' hbody h
        | none =>
          simp only [hbody] at h
          obtain ⟨hs', hM⟩ := compares_defer (R :=
            fun M => Conv S c.env M (c.locals.under binders) l r) u s' hu h
          exact ⟨hs', fun M hM' => hstore'' ▸ hM M hM'⟩

end Solve

end Converter

end LeveledTypes
