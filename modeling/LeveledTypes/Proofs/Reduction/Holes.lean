import LeveledTypes.Proofs.Conversion.Normal
import LeveledTypes.Proofs.Reduction.Whnf
import LeveledTypes.Proofs.Term.Filling

/-!
# The holes of normal forms

Over definitions and values of variables without holes, normal forms have the holes of the terms
they are of, and of the solutions of these. What is remembered has no holes at all.
-/
namespace LeveledTypes

namespace Term
variable {H : ℕ → Prop} {t : Term}

/-- All holes of a term satisfy a test. -/
abbrev HolesAmong (H : ℕ → Prop) (t : Term) : Prop := t.HolesIn H fun _ => True

/-- A term without holes. -/
abbrev Filled (t : Term) : Prop := t.HolesAmong fun _ => False

theorem holesAmong_iff : t.HolesAmong H ↔
    (∀ m, t = .hole m → H m) ∧ ∀ p ∈ t.parts, p.2.HolesAmong H := by
  rw [HolesAmong, holesIn_iff, RootIn]
  simp [Universe.HolesIn]

theorem HolesAmong.part (h : t.HolesAmong H) {p : ℕ × Term} (hp : p ∈ t.parts) : p.2.HolesAmong H :=
  (holesAmong_iff.mp h).2 p hp

theorem Filled.among (h : t.Filled) : t.HolesAmong H := h.mono (fun _ => False.elim) fun _ => id

theorem filled_of_hasHole (h : t.hasHole = false) : t.Filled := by
  refine holesIn_of_holes (fun m hm => ?_) fun _ _ => trivial
  have hhole : t.hasHole = true := hasHole_eq_true_iff.mpr ⟨m, mem_holes_iff.mp hm⟩
  simp [h] at hhole

theorem holesAmong_apps {args : List Term} :
    (t.apps args).HolesAmong H ↔ t.HolesAmong H ∧ ∀ a ∈ args, a.HolesAmong H := by
  induction args generalizing t with
  | nil => simp
  | cons a args ih =>
    rw [apps, List.foldl_cons, ← apps, ih, holesAmong_iff (t := .app t a)]
    simp [parts, and_assoc]

theorem HolesAmong.spine (h : t.HolesAmong H) :
    t.spine.1.HolesAmong H ∧ ∀ a ∈ t.spine.2, a.HolesAmong H := by
  rw [← holesAmong_apps, apps_spine]
  exact h

theorem HolesAmong.substLevels (h : t.HolesAmong H) (u : Universe) :
    (t.substLevels u).HolesAmong H := by
  unfold Term.substLevels
  split
  · exact h
  · exact h.replace (fun _ i => holesIn_var i) fun _ _ _ _ => trivial

end Term

/-- No term of a body has holes. -/
def Body.Filled : Body → Prop
  | .func b _ | .inst _ b => b.Filled
  | _ => True

/-- Functions and instances whose bodies have no holes. -/
def Environment.Filled (env : Environment) : Prop := ∀ n d, env.get? n = some d → d.body.Filled

/-- The values of a context have no holes. -/
def Locals.Filled (L : Locals) : Prop := ∀ v, some v ∈ L → v.Filled

/-- What is remembered has no holes. -/
def Memo.Filled (memo : Memo) : Prop := ∀ k v : Term, memo[k]? = some v → v.Filled

theorem Memo.Filled.insert {memo : Memo} (h : memo.Filled) {k v : Term} (hv : v.Filled) :
    Memo.Filled (memo.insert k v) := by
  intro k' v' hk'
  rw [Std.HashMap.getElem?_insert] at hk'
  split at hk'
  · exact Option.some.inj hk' ▸ hv
  · exact h k' v' hk'

namespace Reducer
variable {H : ℕ → Prop} {r : Reducer} {depth : ℕ} {t : Term}

/-- A run that remembers terms without holes only, and returns a term whose holes satisfy a test. -/
abbrev Fills (H : ℕ → Prop) (x : Reduce Term) : Prop :=
  Ensures (fun s => s.memo.Filled) x (·.HolesAmong H)

/-- A test that holds of the holes of solutions of holes that satisfy it. -/
def Inherited (sol : ℕ → Option Term) (H : ℕ → Prop) : Prop :=
  ∀ m s, H m → sol m = some s → s.HolesAmong H

theorem fills_step {x : Unit → Reduce Term} (hx : Fills H (x ())) : Fills H (step >>= x) :=
  .bind ensures_step fun _ _ => hx

theorem holesAmong_canonical {args : List Term} (p : Primitive)
    (hargs : ∀ a ∈ args, a.HolesAmong H) : (canonical p args).HolesAmong H := by
  have hzero : Term.zero.HolesAmong H := Term.holesAmong_iff.mpr (by simp [Term.parts])
  have harg (i : ℕ) : (args[i]?.getD .zero).HolesAmong H := by
    cases h : args[i]? with
    | none => exact hzero
    | some a => exact hargs a (List.mem_of_getElem? h)
  cases p <;> exact Term.holesAmong_iff.mpr (by simp [canonical, Term.parts, harg])

/-- The arguments of a constructor value have holes that the value has. -/
theorem holesAmong_constructor? {head : BranchHead} {args : List Term} (ht : t.HolesAmong H)
    (h : constructor? t = some (head, args)) : ∀ a ∈ args, a.HolesAmong H := by
  unfold constructor? at h
  split at h
  case h_1 =>
    obtain ⟨rfl, rfl⟩ := Prod.mk.inj (Option.some.inj h)
    exact fun a ha => ht.part (p := (0, a)) (by simp [Term.parts, ha])
  case h_2 =>
    obtain ⟨rfl, rfl⟩ := Prod.mk.inj (Option.some.inj h)
    exact List.forall_mem_nil _
  case h_3 a =>
    obtain ⟨rfl, rfl⟩ := Prod.mk.inj (Option.some.inj h)
    simpa using ht.part (p := (0, a)) (by simp [Term.parts])
  case h_4 => contradiction

section Round
variable {whnf : Term → Reduce Term} (henv : r.env.Filled) (hL : r.locals.Filled)
  (hw : ∀ H : ℕ → Prop, Inherited r.store.solution? H → ∀ t : Term, t.HolesAmong H →
    Fills H (whnf t))
  (hH : Inherited r.store.solution? H)

include hw hH

/-- What is remembered is the unfolding of an application without holes, which has none either. -/
theorem ensures_unfold_holesAmong {c : GlobalName} {u : Universe} {body : Term} {args : List Term}
    (hbody : body.Filled) (hargs : ∀ a ∈ args, a.HolesAmong H) :
    Ensures (fun s => s.memo.Filled) (unfold whnf c u body args) fun o => ∀ t, o = some t →
    t.HolesAmong H := by
  by_cases hkey : (((Term.ref c u).apps args).isClosed && !((Term.ref c u).apps args).hasHole) =
    true
  · have hfilled := (Term.holesAmong_apps.mp
      (Term.filled_of_hasHole (by simpa using (Bool.and_eq_true_iff.mp hkey).2))).2
    have hnone : Inherited r.store.solution? fun _ => False := fun _ _ => False.elim
    refine ensures_unfold (hw _ hnone _ ((hbody.substLevels u).substAll hfilled))
      ?known ?fresh ?insert
    case known =>
      rintro memo v hmemo - hv t ⟨⟩
      exact Term.Filled.among (hmemo _ v hv)
    case fresh =>
      intro v hv t ht
      exact (mem_unblocked?_iff.mp ht).2 ▸ Term.Filled.among hv
    case insert => exact fun memo v hmemo hv _ _ => hmemo.insert hv
  · have hbody := Term.Filled.among (H := H) hbody
    refine ensures_unfold (hw H hH _ ((Term.HolesAmong.substLevels hbody u).substAll hargs)) ?known'
      ?fresh' ?insert'
    case known' => exact fun _ _ _ hk => absurd hk hkey
    case fresh' =>
      intro v hv t ht
      exact (mem_unblocked?_iff.mp ht).2 ▸ hv
    case insert' => exact fun _ _ _ _ _ hk => absurd hk hkey

include henv

/-- Bodies have no holes, so that an unfolding has those of the arguments. A remembered outcome has
none at all. -/
theorem fills_delta {c : GlobalName} {u : Universe} {args : List Term}
    (hargs : ∀ a ∈ args, a.HolesAmong H) : Fills H (r.delta whnf c u args) := by
  have href : (Term.ref c u).HolesAmong H := Term.holesAmong_iff.mpr (by simp [Term.parts])
  unfold delta
  extract_lets folded
  have hfolded {args : List Term} (hargs : ∀ a ∈ args, a.HolesAmong H) :
      (folded args).HolesAmong H :=
    Term.holesAmong_apps.mpr ⟨href, hargs⟩
  split
  case h_1 => exact .pure (hfolded hargs)
  case h_2 d hd =>
    have hbody := henv c d hd
    extract_lets arity
    split
    case isTrue => exact .pure (hfolded hargs)
    case isFalse rest params hlen =>
      have hparams : ∀ a ∈ params, a.HolesAmong H := fun a ha => hargs a (List.mem_of_mem_take ha)
      have hrest : ∀ a ∈ rest, a.HolesAmong H := fun a ha => hargs a (List.mem_of_mem_drop ha)
      have hnext {t : Term} (ht : t.HolesAmong H) : Fills H (whnf (t.apps rest)) :=
        hw H hH _ (Term.holesAmong_apps.mpr ⟨ht, hrest⟩)
      have hpure {t : Term} (ht : t.HolesAmong H) : Fills H (pure (t.apps rest)) :=
        .pure (Term.holesAmong_apps.mpr ⟨ht, hrest⟩)
      split
      case h_1 p hb => exact hnext (holesAmong_canonical p hparams)
      case h_2 body decreasing hb =>
        rw [hb] at hbody
        refine .bind (ensures_unfold_holesAmong hw hH hbody hparams) fun o ho => ?_
        split
        case h_1 t => exact hnext (ho t rfl)
        case h_2 => exact hpure (hfolded hparams)
      case h_3 => exact hnext (Term.holesAmong_iff.mpr (by simpa [Term.parts] using hparams))
      case h_4 k patterns hb =>
        refine hnext (Term.holesAmong_iff.mpr ⟨by simp, fun q hq => ?_⟩)
        rw [Term.parts, List.mem_append, List.mem_map, List.mem_map] at hq
        obtain ⟨a, ha, rfl⟩ | ⟨a, ha, rfl⟩ := hq
        · exact hparams a (List.mem_of_mem_take ha)
        · exact hparams a (List.mem_of_mem_drop ha)
      case h_5 => exact hnext (Term.holesAmong_iff.mpr (by simpa [Term.parts] using hparams))
      case h_6 =>
        split
        case h_1 a ha => exact hnext (Term.holesIn_field (hparams a (List.mem_of_getLast? ha)))
        case h_2 => exact .pure (hfolded hparams)
      case h_7 body hb =>
        rw [hb] at hbody
        have hbody := Term.Filled.among (H := H) (t := body) hbody
        exact fills_step (hnext ((Term.HolesAmong.substLevels hbody u).substAll hparams))
      case h_8 => exact hpure (hfolded hparams)

/-- A global unfolds, an abstraction takes its arguments, and any other head keeps them. -/
theorem fills_applySpine {head : Term} {args : List Term} (hhead : head.HolesAmong H)
    (hargs : ∀ a ∈ args, a.HolesAmong H) : Fills H (r.applySpine whnf head args) := by
  unfold applySpine
  split
  case h_1 x d b a args =>
    obtain ⟨ha, hargs⟩ := List.forall_mem_cons.mp hargs
    have hb := hhead.part (p := (1, b)) (by simp [Term.parts])
    exact fills_step (hw H hH _ (Term.holesAmong_apps.mpr ⟨Term.HolesIn.subst hb ha, hargs⟩))
  case h_2 m =>
    split
    case h_1 t ht =>
      exact hw H hH _ (Term.holesAmong_apps.mpr
        ⟨hH m t ((Term.holesAmong_iff.mp hhead).1 m rfl) ht, hargs⟩)
    case h_2 => exact .pure (Term.holesAmong_apps.mpr ⟨hhead, hargs⟩)
  case h_3 => exact fills_delta henv hw hH hargs
  case h_4 => exact .pure (Term.holesAmong_apps.mpr ⟨hhead, hargs⟩)

include hL

/-- One round of head reduction. -/
theorem fills_whnfWith (ht : t.HolesAmong H) : Fills H (r.whnfWith depth whnf t) := by
  have hp := (Term.holesAmong_iff.mp ht).2
  unfold whnfWith
  split
  case h_1 i =>
    split
    case h_1 v hv =>
      obtain ⟨w, hw', rfl⟩ := localValue?_eq_some hv
      have hfilled := hL w (Locals.mem_under.mp (List.mem_of_getElem? hw'))
      exact hw H hH _ (Term.HolesIn.lift (Term.Filled.among hfilled) _)
    case h_2 => exact .pure ht
  case h_2 m =>
    split
    case h_1 s hs => exact hw H hH _ (hH m s ((Term.holesAmong_iff.mp ht).1 m rfl) hs)
    case h_2 => exact .pure ht
  case h_3 => exact fills_delta henv hw hH (List.forall_mem_nil _)
  case h_4 f a =>
    obtain ⟨hhead, hargs⟩ := ht.spine
    generalize (Term.app f a).spine = spine at hhead hargs ⊢
    obtain ⟨head, args⟩ := spine
    exact .bind (hw H hH head hhead) fun head' hhead' => fills_applySpine henv hw hH hhead' hargs
  case h_5 x s a b =>
    obtain ⟨-, ha, hb⟩ := by simpa [Term.parts] using hp
    exact fills_step (hw H hH _ (Term.HolesIn.subst hb ha))
  case h_6 a side =>
    have ha : a.HolesAmong H := by simpa [Term.parts] using hp
    refine .bind (hw H hH a ha) fun a' ha => ?_
    split
    case h_1 x y =>
      have hx := ha.part (p := (0, x)) (by simp [Term.parts])
      have hy := ha.part (p := (0, y)) (by simp [Term.parts])
      refine fills_step ?_
      cases side with
      | fst => exact hw H hH _ hx
      | snd => exact hw H hH _ hy
    case h_2 => exact .pure (Term.holesAmong_iff.mpr (by simpa [Term.parts] using ha))
  case h_7 a c i =>
    have ha : a.HolesAmong H := by simpa [Term.parts] using hp
    refine .bind (hw H hH a ha) fun a' ha => ?_
    split
    case h_1 n u ps fs =>
      split
      case h_1 f hf =>
        have hmem := List.mem_of_getElem? hf
        exact fills_step (hw H hH f (ha.part (p := (0, f)) (by simp [Term.parts, hmem])))
      case h_2 => exact .pure (Term.holesIn_field ha)
    case h_2 => exact .pure (Term.holesIn_field ha)
  case h_8 a m bs =>
    obtain ⟨ha, hm, hbs⟩ := by simpa [Term.parts] using hp
    refine .bind (hw H hH a ha) fun a' ha' => ?_
    have hcase : (Term.case a' m bs).HolesAmong H :=
      Term.holesAmong_iff.mpr (by simpa [Term.parts] using ⟨ha', hm, hbs⟩)
    split
    case h_1 head args hcon =>
      split
      case h_1 b hb =>
        have hbody : b.body.HolesAmong H := hbs b (List.mem_of_find?_eq_some hb)
        exact fills_step (hw H hH _ (hbody.substAll (holesAmong_constructor? ha' hcon)))
      case h_2 => exact .pure hcase
    case h_2 => exact .pure hcase
  case h_9 m z s n =>
    obtain ⟨hm, hz, hs, hn⟩ := by simpa [Term.parts] using hp
    refine .bind (hw H hH n hn) fun n' hn' => ?_
    split
    case h_1 => exact fills_step (hw H hH z hz)
    case h_2 k =>
      have hk := hn'.part (p := (0, k)) (by simp [Term.parts])
      have hrec : (Term.natRec m z s k).HolesAmong H :=
        Term.holesAmong_iff.mpr (by simpa [Term.parts] using ⟨hm, hz, hs, hk⟩)
      exact fills_step (hw H hH _ (Term.holesAmong_apps.mpr ⟨hs, by simpa using ⟨hk, hrec⟩⟩))
    case h_3 =>
      exact .pure (Term.holesAmong_iff.mpr (by simpa [Term.parts] using ⟨hm, hz, hs, hn'⟩))
  case h_10 l x p i =>
    obtain ⟨hl, hx, hp', hi⟩ := by simpa [Term.parts] using hp
    refine .bind (hw H hH i hi) fun i' hi' => ?_
    split
    case h_1 => exact hw H hH l hl
    case h_2 => exact hw H hH x hx
    case h_3 =>
      refine .bind (hw H hH p hp') fun p' hp' => ?_
      split
      case h_1 f =>
        have hf := hp'.part (p := (0, f)) (by simp [Term.parts])
        exact fills_step (hw H hH _
          (Term.holesAmong_iff.mpr (by simpa [Term.parts] using ⟨hf, hi'⟩)))
      case h_2 =>
        exact .pure (Term.holesAmong_iff.mpr (by simpa [Term.parts] using ⟨hl, hx, hp', hi'⟩))
  case h_11 => exact .pure ht

end Round

theorem fills_whnfGas (henv : r.env.Filled) (hL : r.locals.Filled)
    (hH : Inherited r.store.solution? H) (gas : ℕ) (ht : t.HolesAmong H) :
    Fills H (r.whnfGas depth gas t) := by
  induction gas generalizing H t with
  | zero => exact .throw _
  | succ gas ih => exact fills_whnfWith henv hL (fun H hH t ht => ih hH ht) hH ht

section Parts
variable {nf : ℕ → Term → Reduce Term} (hnf : ∀ (k : ℕ) (t : Term), t.HolesAmong H →
  Fills H (nf k t))

include hnf

theorem fills_nfHead (ht : t.HolesAmong H) : Fills H (nfHead (nf 0) t) := by
  induction t with
  | app f a ihf iha =>
    obtain ⟨hf, ha⟩ := by simpa [Term.parts] using (Term.holesAmong_iff.mp ht).2
    refine .bind (ihf hf) fun f' hf => .bind (hnf 0 a ha) fun a' ha => .pure
      (Term.holesAmong_iff.mpr ?_)
    simpa [Term.parts] using ⟨hf, ha⟩
  | ref c u => exact .pure ht
  | _ => exact hnf 0 _ ht

theorem ensures_nfAll_holesAmong {ts : List Term} (hts : ∀ t ∈ ts, t.HolesAmong H) :
    Ensures (fun s => s.memo.Filled) (ts.mapM (nf 0)) fun vs => ∀ v ∈ vs, v.HolesAmong H :=
  (Ensures.mapM fun t ht => hnf 0 t (hts t ht)).mono fun _ hvs =>
    forall_mem_of_forall₂ hvs fun _ _ h => h

theorem ensures_nfBranches_holesAmong {bs : List (Branch Term)}
    (hbs : ∀ b ∈ bs, b.body.HolesAmong H) :
    Ensures (fun s => s.memo.Filled)
      (bs.mapM fun b => do return { b with body := ← nf b.arity b.body })
      fun ds => ∀ d ∈ ds, d.body.HolesAmong H := by
  let R (_ d : Branch Term) : Prop := d.body.HolesAmong H
  refine (Ensures.mapM (R := R) fun b hb => ?_).mono fun ds hds =>
    forall_mem_of_forall₂ hds fun _ _ h => h
  exact .bind (hnf b.arity b.body (hbs b hb)) fun body hbody => .pure hbody

/-- One case for each form of terms: the parts have the holes of the term, and so have their normal
forms. -/
theorem fills_nfParts (ht : t.HolesAmong H) : Fills H (nfParts nf t) := by
  have hp := (Term.holesAmong_iff.mp ht).2
  -- The normal form has the same root, and normal forms of the parts.
  cases t with
  | lam x a b | pi x a b | sigma x a b =>
    obtain ⟨ha, hb⟩ := by simpa [Term.parts] using hp
    refine .bind (hnf 0 a ha) fun a' ha => .bind (hnf 1 b hb) fun b' hb => .pure
      (Term.holesAmong_iff.mpr ?_)
    simpa [Term.parts] using ⟨ha, hb⟩
  | app f a =>
    obtain ⟨hf, ha⟩ := by simpa [Term.parts] using hp
    refine .bind (fills_nfHead hnf hf) fun f' hf => .bind (hnf 0 a ha) fun a' ha => .pure
      (Term.holesAmong_iff.mpr ?_)
    simpa [Term.parts] using ⟨hf, ha⟩
  | pair a b =>
    obtain ⟨ha, hb⟩ := by simpa [Term.parts] using hp
    refine .bind (hnf 0 a ha) fun a' ha => .bind (hnf 0 b hb) fun b' hb => .pure
      (Term.holesAmong_iff.mpr ?_)
    simpa [Term.parts] using ⟨ha, hb⟩
  | proj a | field a | succ a | pathLam a =>
    refine .bind (hnf 0 a (by simpa [Term.parts] using hp)) fun a' ha => .pure
      (Term.holesAmong_iff.mpr ?_)
    simpa [Term.parts] using ha
  | data c u ps | record c u ps =>
    have hps : ∀ t ∈ ps, t.HolesAmong H := by simpa [Term.parts] using hp
    refine .bind (ensures_nfAll_holesAmong hnf hps) fun qs hqs => .pure (Term.holesAmong_iff.mpr ?_)
    simpa [Term.parts] using hqs
  | con c u ps xs | new c u ps xs =>
    have hps : ∀ t ∈ ps, t.HolesAmong H := fun t ht => hp (0, t) (by simp [Term.parts, ht])
    have hxs : ∀ t ∈ xs, t.HolesAmong H := fun t ht => hp (0, t) (by simp [Term.parts, ht])
    refine .bind (ensures_nfAll_holesAmong hnf hps) fun qs hqs => .bind
      (ensures_nfAll_holesAmong hnf hxs) fun ys hys =>
      .pure (Term.holesAmong_iff.mpr ⟨by simp, fun q hq => ?_⟩)
    rw [Term.parts, List.mem_append, List.mem_map, List.mem_map] at hq
    obtain ⟨a, ha, rfl⟩ | ⟨a, ha, rfl⟩ := hq
    · exact hqs a ha
    · exact hys a ha
  | case a m bs =>
    obtain ⟨ha, hm, hbs⟩ := by simpa [Term.parts] using hp
    refine .bind (hnf 0 a ha) fun a' ha => .bind (hnf 1 m hm) fun m' hm => ?_
    refine .bind (ensures_nfBranches_holesAmong hnf hbs) fun ds hds => .pure
      (Term.holesAmong_iff.mpr ?_)
    simpa [Term.parts] using ⟨ha, hm, hds⟩
  | natRec a b c d | «at» a b c d =>
    obtain ⟨ha, hb, hc, hd⟩ := by simpa [Term.parts] using hp
    refine .bind (hnf 0 a ha) fun a' ha => .bind (hnf 0 b hb) fun b' hb => .bind
      (hnf 0 c hc) fun c' hc => ?_
    refine .bind (hnf 0 d hd) fun d' hd => .pure (Term.holesAmong_iff.mpr ?_)
    simpa [Term.parts] using ⟨ha, hb, hc, hd⟩
  | path a x y =>
    obtain ⟨ha, hx, hy⟩ := by simpa [Term.parts] using hp
    refine .bind (hnf 0 a ha) fun a' ha => .bind (hnf 0 x hx) fun x' hx => .bind
      (hnf 0 y hy) fun y' hy =>
      .pure (Term.holesAmong_iff.mpr ?_)
    simpa [Term.parts] using ⟨ha, hx, hy⟩
  | _ => exact .pure ht

end Parts

theorem fills_nfGas (henv : r.env.Filled) (hL : r.locals.Filled)
    (hH : Inherited r.store.solution? H) (gas : ℕ) (ht : t.HolesAmong H) :
    Fills H (r.nfGas gas depth t) := by
  induction gas generalizing depth t with
  | zero => exact .throw _
  | succ gas ih =>
    exact .bind (fills_whnfGas henv hL hH gas ht) fun t' ht' => fills_nfParts
      (fun k t ht => ih ht) ht'

end Reducer

end LeveledTypes
