import LeveledTypes.Proofs.Reduction.Whnf
import LeveledTypes.Proofs.Scoping.Term

/-!
# Reduction of scoped terms

Over scoped definitions, normal forms of scoped terms are scoped below the same bound. What is
remembered of closed applications is closed.
-/
namespace LeveledTypes

/-- What holds of every term of a body under `n` parameters, each with the number of variables it
may mention: patterns of indices have the leading parameters of the constructor only, and a field of
a class has the fields before it. -/
def Body.Throughout (P : ℕ → Term → Prop) (n : ℕ) : Body → Prop
  | .func b _ | .inst _ b => P n b
  | .constructor _ _ k ps => ∀ p ∈ ps.getD [], P k p
  | .cls fs _ => ∀ (i : ℕ) f, fs[i]? = some f → P (n + i) f.type ∧
    ∀ t, f.default = some t → P (n + i) t
  | .data _ | .field _ _ | .primitive _ | .pending => True

/-- What holds of every term of a definition with the number of variables it may mention: the type
of a parameter has the parameters before it, the type and the body have all parameters. -/
structure Definition.Throughout (P : ℕ → Term → Prop) (d : Definition) : Prop where
  tele : ∀ (i : ℕ) p, d.tele[i]? = some p → P i p.type
  type : P d.tele.length d.type
  body : d.body.Throughout P d.tele.length

/-- Names stand for as many arguments as their definitions have. -/
def Definition.Suits (A : Arities) (d : Definition) : Prop :=
  match d.body with
  | .constructor _ _ k _ => A.con d.name = d.tele.length - k
  | .data _ => A.data d.name = d.tele.length
  | .cls _ _ => A.record d.name = d.tele.length
  | _ => True

/-- Definitions that are closed and agree on how many arguments names stand for. -/
structure Environment.Scoped (A : Arities) (env : Environment) : Prop where
  name : ∀ n d, env.get? n = some d → d.name = n
  terms : ∀ n d, env.get? n = some d → d.Throughout (Term.Scoped A)
  suits : ∀ n d, env.get? n = some d → d.Suits A
  /-- A constructor without index patterns takes no more than the parameters of the data type. -/
  params : ∀ n d cs, env.get? n = some d → d.body = .data cs → ∀ c ∈ cs, ∀ k, env.get? c = some k →
    ∀ data index params, k.body = .constructor data index params none → params ≤ d.tele.length

theorem Definition.Throughout.scoped_pis {A : Arities} {d : Definition}
    (h : d.Throughout (Term.Scoped A)) : (Term.pis d.tele d.type).Scoped A 0 :=
  Term.scoped_pis.mpr ⟨Term.scopedTele_iff.mpr (by simpa using h.tele), by simpa using h.type⟩

/-- The values of the `n` innermost variables of a context, each of which is over the variables
behind its own. -/
def Locals.Scoped (A : Arities) (n : ℕ) (L : Locals) : Prop :=
  ∀ (i : ℕ) v, i < n → L[i]? = some (some v) → (v.lift (i + 1)).Scoped A n

theorem Locals.scoped_zero {A : Arities} (L : Locals) : L.Scoped A 0 := by
  intro i v hi
  contradiction

theorem Locals.Scoped.under {A : Arities} {L : Locals} {n : ℕ} (hL : L.Scoped A n) (k : ℕ) :
    (L.under k).Scoped A (n + k) := by
  intro i v hi hv
  rcases lt_or_ge i k with h | h
  · simp [Locals.under, List.getElem?_append_left, h] at hv
  · obtain ⟨j, rfl⟩ := Nat.exists_eq_add_of_le' h
    rw [Locals.under, List.getElem?_append_right (by simp)] at hv
    rw [show j + k + 1 = j + 1 + k by omega, ← Term.lift_lift]
    exact (hL j v (by omega) (by simpa using hv)).lift k

/-- All remembered normal forms are closed. -/
def Memo.Scoped (A : Arities) (memo : Memo) : Prop :=
  ∀ (k v : Term), memo[k]? = some v → v.Scoped A 0

theorem Memo.Scoped.insert {A : Arities} {memo : Memo} (h : memo.Scoped A) {k v : Term}
    (hv : v.Scoped A 0) : Memo.Scoped A (memo.insert k v) := by
  intro k' v' hk'
  rw [Std.HashMap.getElem?_insert] at hk'
  split at hk'
  · exact Option.some.inj hk' ▸ hv
  · exact h k' v' hk'

namespace Reducer

/-- A run that keeps what is remembered closed, and returns a term scoped below a bound. -/
abbrev Scopes (A : Arities) (n : ℕ) (x : Reduce Term) : Prop :=
  Ensures (fun s => s.memo.Scoped A) x (·.Scoped A n)

variable {A : Arities} {n : ℕ} {r : Reducer} {depth : ℕ} {t : Term}

theorem scopes_step {x : Unit → Reduce Term} (hx : Scopes A n (x ())) : Scopes A n (step >>= x) :=
  .bind ensures_step fun _ _ => hx

theorem scoped_canonical {args : List Term} (p : Primitive) (hargs : ∀ a ∈ args, a.Scoped A n) :
    (canonical p args).Scoped A n := by
  have harg (i : ℕ) : (args[i]?.getD .zero).Scoped A n := by
    cases h : args[i]? with
    | none => trivial
    | some a => exact hargs a (List.mem_of_getElem? h)
  cases p <;> simp [canonical, harg]

/-- A constructor value over a context has as many arguments as branches for it bind, each over the
context. -/
theorem scoped_constructor? {head : BranchHead} {args : List Term} (ht : t.Scoped A n)
    (h : constructor? t = some (head, args)) : args.length = A.branch head ∧
    ∀ a ∈ args, a.Scoped A n := by
  unfold constructor? at h
  split at h
  case h_1 =>
    obtain ⟨rfl, rfl⟩ := Prod.mk.inj (Option.some.inj h)
    obtain ⟨hlen, -, hargs⟩ := ht
    exact ⟨hlen, Term.scopedAll_iff.mp hargs⟩
  case h_2 =>
    obtain ⟨rfl, rfl⟩ := Prod.mk.inj (Option.some.inj h)
    exact ⟨rfl, List.forall_mem_nil _⟩
  case h_3 =>
    obtain ⟨rfl, rfl⟩ := Prod.mk.inj (Option.some.inj h)
    exact ⟨rfl, by simpa using ht⟩
  case h_4 => contradiction

section Round
variable {whnf : Term → Reduce Term} (henv : r.env.Scoped A)
  (hsol : ∀ m t, r.store.solution? m = some t → t.Scoped A 0)
  (hw : ∀ (n : ℕ) (t : Term), (r.locals.under depth).Scoped A n → t.Scoped A n →
    Scopes A n (whnf t))
  (hL : (r.locals.under depth).Scoped A n)

include hw hL

/-- The unfolding of a function is remembered only if the application is closed, so that what is
remembered is, too. -/
theorem ensures_unfold_scoped {c : GlobalName} {u : Universe} {body : Term} {args : List Term}
    (hbody : body.Scoped A args.length) (hargs : ∀ a ∈ args, a.Scoped A n) :
    Ensures (fun s => s.memo.Scoped A) (unfold whnf c u body args) fun o => ∀ t, o = some t →
    t.Scoped A n := by
  have hunfold {k : ℕ} (hk : ∀ a ∈ args, a.Scoped A k) :
      ((body.substLevels u).substAll args).Scoped A k :=
    (hbody.substLevels.mono (Nat.le_add_left _ _)).substAll hk
  obtain ⟨m, hm, hlocals, hargs, hzero⟩ : ∃ m ≤ n, (r.locals.under depth).Scoped A m ∧
      (∀ a ∈ args, a.Scoped A m) ∧
      ((((Term.ref c u).apps args).isClosed && !((Term.ref c u).apps args).hasHole) =
        true → m = 0) := by
    by_cases h : (((Term.ref c u).apps args).isClosed && !((Term.ref c u).apps args).hasHole) = true
    · have hkey : ((Term.ref c u).apps args).Scoped A n := Term.scoped_apps.mpr ⟨trivial, hargs⟩
      have hclosed := (Term.scoped_apps.mp (hkey.of_isClosed (Bool.and_eq_true_iff.mp h).1)).2
      exact ⟨0, Nat.zero_le n, Locals.scoped_zero _, hclosed, fun _ => rfl⟩
    · exact ⟨n, le_rfl, hL, hargs, fun hkey => absurd hkey h⟩
  refine ensures_unfold (hw m _ hlocals (hunfold hargs)) ?known ?fresh ?insert
  case known =>
    rintro memo v hmemo - hv t ⟨⟩
    exact (hmemo _ v hv).closed
  case fresh =>
    intro v hv t ht
    exact (mem_unblocked?_iff.mp ht).2 ▸ hv.mono hm
  case insert => exact fun memo v hmemo hv _ hk => hmemo.insert (hzero hk ▸ hv)

include henv

/-- The body of a definition has no variables but the parameters, so that an unfolding has those of
the arguments. One case for each kind of body. -/
theorem scopes_delta {c : GlobalName} {u : Universe} {args : List Term}
    (hargs : ∀ a ∈ args, a.Scoped A n) : Scopes A n (r.delta whnf c u args) := by
  unfold delta
  extract_lets folded
  have hfolded {args : List Term} (hargs : ∀ a ∈ args, a.Scoped A n) : (folded args).Scoped A n :=
    Term.scoped_apps.mpr ⟨trivial, hargs⟩
  split
  case h_1 => exact .pure (hfolded hargs)
  case h_2 d hd =>
    obtain rfl := henv.name c d hd
    have hterms := henv.terms _ d hd
    have hsuits := henv.suits _ d hd
    extract_lets arity
    split
    case isTrue => exact .pure (hfolded hargs)
    case isFalse rest params hlen =>
      have hparams : ∀ a ∈ params, a.Scoped A n := fun a ha => hargs a (List.mem_of_mem_take ha)
      have hlength : params.length = d.tele.length := List.length_take_of_le (by omega)
      have hnext {t : Term} (ht : t.Scoped A n) : Scopes A n (whnf (t.apps rest)) :=
        hw n _ hL (Term.scoped_apps.mpr ⟨ht, fun a ha => hargs a (List.mem_of_mem_drop ha)⟩)
      have hpure {t : Term} (ht : t.Scoped A n) : Scopes A n (pure (t.apps rest)) :=
        .pure (Term.scoped_apps.mpr ⟨ht, fun a ha => hargs a (List.mem_of_mem_drop ha)⟩)
      unfold Definition.Suits at hsuits
      have hbody := hterms.body
      split
      case h_1 p hb => exact hnext (scoped_canonical p hparams)
      case h_2 body decreasing hb =>
        rw [hb] at hbody
        refine .bind (ensures_unfold_scoped hw hL (hlength ▸ hbody) hparams) fun o ho => ?_
        split
        case h_1 t => exact hnext (ho t rfl)
        case h_2 => exact hpure (hfolded hparams)
      case h_3 hb =>
        simp only [hb] at hsuits
        exact hnext ⟨by omega, Term.scopedAll_iff.mpr hparams⟩
      case h_4 k patterns hb =>
        simp only [hb] at hsuits
        refine hnext
          ⟨by simp; omega, Term.scopedAll_iff.mpr fun a ha => ?_,
              Term.scopedAll_iff.mpr fun a ha => ?_⟩
        · exact hparams a (List.mem_of_mem_take ha)
        · exact hparams a (List.mem_of_mem_drop ha)
      case h_5 hb =>
        simp only [hb] at hsuits
        exact hnext ⟨by omega, Term.scopedAll_iff.mpr hparams⟩
      case h_6 i hb =>
        split
        case h_1 a ha => exact hnext (hparams a (List.mem_of_getLast? ha))
        case h_2 => exact .pure (hfolded hparams)
      case h_7 body hb =>
        rw [hb] at hbody
        have hbody : body.Scoped A d.tele.length := hbody
        exact scopes_step (hnext ((hbody.substLevels.mono (by omega)).substAll hparams))
      case h_8 => exact hpure (hfolded hparams)

include hsol

theorem scopes_applySpine {head : Term} {args : List Term} (hhead : head.Scoped A n)
    (hargs : ∀ a ∈ args, a.Scoped A n) : Scopes A n (r.applySpine whnf head args) := by
  unfold applySpine
  split
  case h_1 x d b a args =>
    obtain ⟨ha, hargs⟩ := List.forall_mem_cons.mp hargs
    exact scopes_step (hw n _ hL (Term.scoped_apps.mpr ⟨Term.Scoped.subst hhead.2 ha, hargs⟩))
  case h_2 m =>
    split
    case h_1 t ht => exact hw n _ hL (Term.scoped_apps.mpr ⟨(hsol m t ht).closed, hargs⟩)
    case h_2 => exact .pure (Term.scoped_apps.mpr ⟨trivial, hargs⟩)
  case h_3 => exact scopes_delta henv hw hL hargs
  case h_4 => exact .pure (Term.scoped_apps.mpr ⟨hhead, hargs⟩)

/-- One round of head reduction. -/
theorem scopes_whnfWith (ht : t.Scoped A n) : Scopes A n (r.whnfWith depth whnf t) := by
  unfold whnfWith
  split
  case h_1 i =>
    split
    case h_1 v hv =>
      obtain ⟨w, hw', rfl⟩ := localValue?_eq_some hv
      exact hw n _ hL (hL i w ht hw')
    case h_2 => exact .pure ht
  case h_2 m =>
    split
    case h_1 s hs => exact hw n _ hL (hsol m s hs).closed
    case h_2 => exact .pure ht
  case h_3 => exact scopes_delta henv hw hL (List.forall_mem_nil _)
  case h_4 f a =>
    obtain ⟨hhead, hargs⟩ := ht.spine
    generalize (Term.app f a).spine = spine at hhead hargs ⊢
    obtain ⟨head, args⟩ := spine
    exact .bind (hw n head hL hhead) fun head' hhead' =>
      scopes_applySpine henv hsol hw hL hhead' hargs
  case h_5 => exact scopes_step (hw n _ hL (Term.Scoped.subst ht.2.2 ht.2.1))
  case h_6 a side =>
    refine .bind (hw n a hL ht) fun a' ha => ?_
    split
    case h_1 =>
      refine scopes_step ?_
      cases side with
      | fst => exact hw n _ hL ha.1
      | snd => exact hw n _ hL ha.2
    case h_2 => exact .pure ha
  case h_7 a c i =>
    refine .bind (hw n a hL ht) fun a' ha => ?_
    split
    case h_1 fs =>
      split
      case h_1 f hf =>
        exact scopes_step (hw n f hL (Term.scopedAll_iff.mp ha.2 f (List.mem_of_getElem? hf)))
      case h_2 => exact .pure ha
    case h_2 => exact .pure ha
  case h_8 a m bs =>
    obtain ⟨harity, ha, hm, hbs⟩ := ht
    refine .bind (hw n a hL ha) fun a' ha' => ?_
    have hcase : (Term.case a' m bs).Scoped A n := ⟨harity, ha', hm, hbs⟩
    split
    case h_1 head args hcon =>
      obtain ⟨hlength, hargs⟩ := scoped_constructor? ha' hcon
      split
      case h_1 b hb =>
        have hbody := Term.scopedBranches_iff.mp hbs b (List.mem_of_find?_eq_some hb)
        have hhead : b.head = head := by simpa using List.find?_some hb
        rw [harity b (List.mem_of_find?_eq_some hb), hhead, ← hlength] at hbody
        exact scopes_step (hw n _ hL (hbody.substAll hargs))
      case h_2 => exact .pure hcase
    case h_2 => exact .pure hcase
  case h_9 m z s k =>
    obtain ⟨hm, hz, hs, hk⟩ := ht
    refine .bind (hw n k hL hk) fun k' hk' => ?_
    split
    case h_1 => exact scopes_step (hw n z hL hz)
    case h_2 j => exact scopes_step (hw n _ hL (Term.scoped_apps.mpr ⟨hs, by simp_all⟩))
    case h_3 => exact .pure ⟨hm, hz, hs, hk'⟩
  case h_10 l x p i =>
    obtain ⟨hl, hx, hp, hi⟩ := ht
    refine .bind (hw n i hL hi) fun i' hi' => ?_
    split
    case h_1 => exact hw n l hL hl
    case h_2 => exact hw n x hL hx
    case h_3 =>
      refine .bind (hw n p hL hp) fun p' hp' => ?_
      split
      case h_1 f => exact scopes_step (hw n _ hL ⟨hp', hi'⟩)
      case h_2 => exact .pure ⟨hl, hx, hp', hi'⟩
  case h_11 => exact .pure ht

end Round

section Normal
variable (henv : r.env.Scoped A) (hsol : ∀ m t, r.store.solution? m = some t → t.Scoped A 0)

include henv hsol

theorem scopes_whnfGas (gas : ℕ) (hL : (r.locals.under depth).Scoped A n) (ht : t.Scoped A n) :
    Scopes A n (r.whnfGas depth gas t) := by
  induction gas generalizing n t with
  | zero => exact .throw _
  | succ gas ih => exact scopes_whnfWith henv hsol (fun n t hL ht => ih hL ht) hL ht

end Normal

section Parts
variable {nf : ℕ → Term → Reduce Term} (hnf : ∀ (k : ℕ) (t : Term), t.Scoped A (n + k) →
  Scopes A (n + k) (nf k t))

include hnf

theorem scopes_nfHead (ht : t.Scoped A n) : Scopes A n (nfHead (nf 0) t) := by
  induction t with
  | app f a ihf iha =>
    exact .bind (ihf ht.1) fun f' hf => .bind (hnf 0 a ht.2) fun a' ha => .pure ⟨hf, ha⟩
  | ref c u => exact .pure trivial
  | _ => exact hnf 0 _ ht

theorem ensures_nfAll_scoped {ts : List Term} (hts : ∀ t ∈ ts, t.Scoped A n) :
    Ensures (fun s => s.memo.Scoped A) (ts.mapM (nf 0)) fun vs => (∀ v ∈ vs, v.Scoped A n) ∧
    vs.length = ts.length := by
  refine (Ensures.mapM fun t ht => hnf 0 t (hts t ht)).mono fun vs hvs => ?_
  exact ⟨forall_mem_of_forall₂ hvs fun _ _ h => h, hvs.length_eq.symm⟩

theorem ensures_nfBranches_scoped {bs : List (Branch Term)}
    (hbs : ∀ b ∈ bs, b.body.Scoped A (n + b.arity)) (harity : ∀ b ∈ bs, b.arity = A.branch b.head) :
    Ensures (fun s => s.memo.Scoped A)
      (bs.mapM fun b => do return { b with body := ← nf b.arity b.body }) fun ds =>
        (∀ d ∈ ds, d.arity = A.branch d.head) ∧ ∀ d ∈ ds, d.body.Scoped A (n + d.arity) := by
  let R (b d : Branch Term) : Prop := d.arity = A.branch d.head ∧ d.body.Scoped A (n + d.arity)
  refine (Ensures.mapM (R := R) fun b hb => ?_).mono fun ds hds => ?_
  · exact .bind (hnf b.arity b.body (hbs b hb)) fun body hbody => .pure ⟨harity b hb, hbody⟩
  · exact ⟨forall_mem_of_forall₂ hds fun _ _ h => h.1, forall_mem_of_forall₂ hds fun _ _ h => h.2⟩

/-- One case for each form of terms; the parts under a binder are over the longer context. -/
theorem scopes_nfParts (ht : t.Scoped A n) : Scopes A n (nfParts nf t) := by
  cases t with
  | lam x a b | pi x a b | sigma x a b =>
    exact .bind (hnf 0 a ht.1) fun a' ha => .bind (hnf 1 b ht.2) fun b' hb => .pure ⟨ha, hb⟩
  | app f a =>
    exact .bind (scopes_nfHead hnf ht.1) fun f' hf => .bind
      (hnf 0 a ht.2) fun a' ha => .pure ⟨hf, ha⟩
  | pair a b =>
    exact .bind (hnf 0 a ht.1) fun a' ha => .bind (hnf 0 b ht.2) fun b' hb => .pure ⟨ha, hb⟩
  | proj a | field a | succ a | pathLam a => exact .bind (hnf 0 a ht) fun a' ha => .pure ha
  | data c u ps | record c u ps =>
    rw [Term.Scoped, Term.scopedAll_iff] at ht
    refine .bind (ensures_nfAll_scoped hnf ht.2) fun qs ⟨hqs, hlength⟩ => .pure ?_
    exact ⟨hlength ▸ ht.1, Term.scopedAll_iff.mpr hqs⟩
  | con c u ps xs =>
    rw [Term.Scoped, Term.scopedAll_iff, Term.scopedAll_iff] at ht
    refine .bind (ensures_nfAll_scoped hnf ht.2.1) fun qs ⟨hqs, _⟩ => ?_
    refine .bind (ensures_nfAll_scoped hnf ht.2.2) fun ys ⟨hys, hlength⟩ => .pure ?_
    exact ⟨hlength.trans ht.1, Term.scopedAll_iff.mpr hqs, Term.scopedAll_iff.mpr hys⟩
  | new c u ps fs =>
    rw [Term.Scoped, Term.scopedAll_iff, Term.scopedAll_iff] at ht
    refine .bind (ensures_nfAll_scoped hnf ht.1) fun qs ⟨hqs, _⟩ => ?_
    refine .bind (ensures_nfAll_scoped hnf ht.2) fun ys ⟨hys, _⟩ => .pure ?_
    exact ⟨Term.scopedAll_iff.mpr hqs, Term.scopedAll_iff.mpr hys⟩
  | case a m bs =>
    obtain ⟨harity, ha, hm, hbs⟩ := ht
    refine .bind (hnf 0 a ha) fun a' ha' => .bind (hnf 1 m hm) fun m' hm' => ?_
    refine .bind (ensures_nfBranches_scoped hnf (Term.scopedBranches_iff.mp hbs) harity) fun ds
      ⟨harity', hds⟩ => .pure ?_
    exact ⟨harity', ha', hm', Term.scopedBranches_iff.mpr hds⟩
  | natRec a b c d | «at» a b c d =>
    obtain ⟨ha, hb, hc, hd⟩ := ht
    refine .bind (hnf 0 a ha) fun a' ha => .bind (hnf 0 b hb) fun b' hb => .bind
      (hnf 0 c hc) fun c' hc => ?_
    exact .bind (hnf 0 d hd) fun d' hd => .pure ⟨ha, hb, hc, hd⟩
  | path a x y =>
    obtain ⟨ha, hx, hy⟩ := ht
    exact .bind (hnf 0 a ha) fun a' ha => .bind (hnf 0 x hx) fun x' hx => .bind
      (hnf 0 y hy) fun y' hy =>
      .pure ⟨ha, hx, hy⟩
  | _ => exact .pure ht

end Parts

/-- The induction is on the gas. The solutions and the values of the context are scoped, and so is
what reduction makes of a scoped term. -/
theorem scopes_nfGas (henv : r.env.Scoped A) (hsol : ∀ m t, r.store.solution? m = some t →
    t.Scoped A 0) (gas : ℕ)
    (hL : (r.locals.under depth).Scoped A n) (ht : t.Scoped A n) :
    Scopes A n (r.nfGas gas depth t) := by
  induction gas generalizing n depth t with
  | zero => exact .throw _
  | succ gas ih =>
    refine .bind (scopes_whnfGas henv hsol gas hL ht) fun t' ht' => scopes_nfParts
      (fun k t ht => ih ?_ ht) ht'
    exact Locals.under_add .. ▸ hL.under k

end Reducer

end LeveledTypes
