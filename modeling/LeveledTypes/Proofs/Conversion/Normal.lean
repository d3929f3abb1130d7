import LeveledTypes.Proofs.Conversion.Relation
import LeveledTypes.Proofs.Reduction.Whnf
import LeveledTypes.Proofs.Term.Holes

/-!
# Normal forms are convertible

Normalization reduces the parts of weak head normal forms in turn, so that a normal form is
convertible to the term, as is the term in which solved holes are replaced by their solutions.
-/
namespace LeveledTypes

theorem forall_mem_of_forall₂ {α β : Type} {R : α → β → Prop} {P : β → Prop}
    {as : List α} {bs : List β} (h : List.Forall₂ R as bs) (hR : ∀ a b, R a b → P b) :
    ∀ b ∈ bs, P b := by
  induction h with
  | nil => simp
  | cons hab _ ih => exact List.forall_mem_cons.mpr ⟨hR _ _ hab, ih⟩

theorem mem_zip_map {α β : Type} {f : α → β} {as : List α} {p : α × β} :
    p ∈ as.zip (as.map f) ↔ ∃ a ∈ as, (a, f a) = p := by
  induction as with
  | nil => simp
  | cons a as ih => simp [ih, eq_comm]

/-- The values of the variables of a context over a signature. -/
def Locals.Over (S : Signature) (L : Locals) : Prop := ∀ v, some v ∈ L → v.Over S ⊤

theorem Locals.Over.under {S : Signature} {L : Locals} (h : L.Over S) (k : ℕ) :
    (L.under k).Over S := fun v hv =>
  h v (Locals.mem_under.mp hv)

theorem Locals.Over.contextOver {S : Signature} {L : Locals} {sol : ℕ → Option Term} (hL : L.Over S)
    (hsol : ∀ m t, S.hole m → sol m = some t → t.Over S ⊤) : ContextOver S ⊤ sol L :=
  ⟨hsol, fun i v _ hv => ((hL v (List.mem_of_getElem? hv)).lift (i + 1)).top⟩

namespace Reducer
variable {S : Signature} {M : Solution} {r : Reducer}

/-- A run keeps what is remembered sound, and returns a convertible term over the signature. -/
def Converts (S : Signature) (M : Solution) (r : Reducer) (depth : ℕ) (t : Term) (x : Reduce Term) :
    Prop :=
  Ensures (fun s => s.memo.Sound S r.env) x fun v => v.Over S ⊤ ∧
    Conv S r.env M (r.locals.under depth) t v

section Parts
variable {depth : ℕ} {nf : ℕ → Term → Reduce Term}
  (hnf : ∀ (k : ℕ) (t : Term), t.Over S ⊤ → Converts S M r (depth + k) t (nf k t))

include hnf

theorem converts_nfHead {t : Term} (hover : t.Over S ⊤) :
    Converts S M r depth t (nfHead (nf 0) t) := by
  induction t with
  | app f a ihf iha =>
    refine Ensures.bind (ihf hover.1) fun f' hf => ?_
    refine Ensures.bind (hnf 0 a hover.2) fun a' ha => ?_
    exact .pure ⟨⟨hf.1, ha.1⟩, .app hf.2 ha.2⟩
  | ref n u => exact Ensures.pure ⟨hover, .refl _⟩
  | _ => exact hnf 0 _ hover

/-- A list of terms is normalized to terms over the signature that are convertible one by one. -/
theorem ensures_nfAll {ts : List Term} (hover : ∀ t ∈ ts, t.Over S ⊤) :
    Ensures (fun s => s.memo.Sound S r.env) (ts.mapM (nf 0)) fun vs => (∀ v ∈ vs, v.Over S ⊤) ∧
      ts.length = vs.length ∧ ∀ p ∈ ts.zip vs, Conv S r.env M (r.locals.under depth) p.1 p.2 := by
  refine (Ensures.mapM fun t ht => hnf 0 t (hover t ht)).mono fun vs hvs => ?_
  obtain ⟨hlen, hzip⟩ := List.forall₂_iff_zip.mp hvs
  exact ⟨forall_mem_of_forall₂ hvs fun _ _ h => h.1, hlen, fun p hp => (hzip hp).2⟩

theorem ensures_nfBranches {bs : List (Branch Term)}
    (hover : ∀ b ∈ bs, b.body.Over S (⊤ + b.arity)) : Ensures (fun s => s.memo.Sound S r.env)
      (bs.mapM fun b => do return { b with body := ← nf b.arity b.body })
      (List.Forall₂ (fun b d => b.head = d.head ∧ b.arity = d.arity ∧ d.body.Over S ⊤ ∧
        Conv S r.env M ((r.locals.under depth).under b.arity) b.body d.body) bs) := by
  refine Ensures.mapM fun b hb => ?_
  refine Ensures.bind (hnf b.arity b.body (by simpa using hover b hb)) fun body hbody => ?_
  exact .pure ⟨rfl, rfl, hbody.1, Locals.under_add .. ▸ hbody.2⟩

/-- Normalizing the parts of a term gives a convertible term, if normalizing each part does. One
case for each constructor; the branches of a case split are normalized under their variables. -/
theorem converts_nfParts {t : Term} (hover : t.Over S ⊤) :
    Converts S M r depth t (nfParts nf t) := by
  cases t with
  | lam x a b =>
    refine Ensures.bind (hnf 0 a hover.1) fun a' ha => Ensures.bind
      (hnf 1 b hover.2) fun b' hb => ?_
    exact .pure ⟨⟨ha.1, hb.1⟩, .lam (Locals.under_add .. ▸ hb.2)⟩
  | pi x a b =>
    refine Ensures.bind (hnf 0 a hover.1) fun a' ha => Ensures.bind
      (hnf 1 b hover.2) fun b' hb => ?_
    exact .pure ⟨⟨ha.1, hb.1⟩, .pi rfl ha.2 (Locals.under_add .. ▸ hb.2)⟩
  | sigma x a b =>
    refine Ensures.bind (hnf 0 a hover.1) fun a' ha => Ensures.bind
      (hnf 1 b hover.2) fun b' hb => ?_
    exact .pure ⟨⟨ha.1, hb.1⟩, .sigma ha.2 (Locals.under_add .. ▸ hb.2)⟩
  | app f a =>
    refine Ensures.bind (converts_nfHead hnf hover.1) fun f' hf => Ensures.bind
      (hnf 0 a hover.2) fun a' ha => ?_
    exact .pure ⟨⟨hf.1, ha.1⟩, .app hf.2 ha.2⟩
  | pair a b =>
    refine Ensures.bind (hnf 0 a hover.1) fun a' ha => Ensures.bind
      (hnf 0 b hover.2) fun b' hb => ?_
    exact .pure ⟨⟨ha.1, hb.1⟩, .pair ha.2 hb.2⟩
  | proj a s => exact Ensures.bind (hnf 0 a hover) fun a' ha => .pure ⟨ha.1, .proj ha.2⟩
  | field a n i => exact Ensures.bind (hnf 0 a hover) fun a' ha => .pure ⟨ha.1, .field ha.2⟩
  | succ a => exact Ensures.bind (hnf 0 a hover) fun a' ha => .pure ⟨ha.1, .succ ha.2⟩
  | pathLam f =>
    exact Ensures.bind (hnf 0 f hover.2) fun f' hf => .pure ⟨⟨hover.1, hf.1⟩, .pathLam hf.2⟩
  | data n u ps =>
    rw [Term.Over, Term.overAll_iff] at hover
    refine Ensures.bind (ensures_nfAll hnf hover.2) fun qs ⟨hqs, hlen, hconv⟩ => ?_
    exact .pure ⟨⟨hover.1, Term.overAll_iff.mpr hqs⟩, .data ⟨fun _ => rfl, fun _ => rfl⟩ hlen hconv⟩
  | record n u ps =>
    rw [Term.Over, Term.overAll_iff] at hover
    refine Ensures.bind (ensures_nfAll hnf hover.2) fun qs ⟨hqs, hlen, hconv⟩ => ?_
    exact .pure ⟨⟨hover.1, Term.overAll_iff.mpr hqs⟩,
      .record ⟨fun _ => rfl, fun _ => rfl⟩ hlen hconv⟩
  | con n u ps xs =>
    rw [Term.Over, Term.overAll_iff, Term.overAll_iff] at hover
    obtain ⟨harity, hu, hps, hxs⟩ := hover
    refine Ensures.bind (ensures_nfAll hnf hps) fun qs ⟨hqs, _, _⟩ => ?_
    refine Ensures.bind (ensures_nfAll hnf hxs) fun ys ⟨hys, hlen, hconv⟩ => ?_
    exact .pure ⟨⟨hlen ▸ harity, hu, Term.overAll_iff.mpr hqs, Term.overAll_iff.mpr hys⟩,
      .con hlen hconv⟩
  | new n u ps fs =>
    rw [Term.Over, Term.overAll_iff, Term.overAll_iff] at hover
    obtain ⟨hrecord, hu, hps, hfs⟩ := hover
    refine Ensures.bind (ensures_nfAll hnf hps) fun qs ⟨hqs, _, _⟩ => ?_
    refine Ensures.bind (ensures_nfAll hnf hfs) fun gs ⟨hgs, hlen, hconv⟩ => ?_
    exact .pure ⟨⟨hlen ▸ hrecord, hu, Term.overAll_iff.mpr hqs, Term.overAll_iff.mpr hgs⟩,
      .new hlen hconv⟩
  | case a m bs =>
    rw [Term.Over, Term.overBranches_iff] at hover
    obtain ⟨harity, ha, hm, hbs⟩ := hover
    refine Ensures.bind (hnf 0 a ha) fun a' ha => Ensures.bind (hnf 1 m hm) fun m' hm => ?_
    refine Ensures.bind (ensures_nfBranches hnf hbs) fun ds hds => ?_
    obtain ⟨hlen, hzip⟩ := List.forall₂_iff_zip.mp hds
    refine .pure ⟨⟨?_, ha.1, hm.1, Term.overBranches_iff.mpr ?_⟩, .case ha.2 hlen ?_ ?_⟩
    · refine forall_mem_of_forall₂ ((List.forall₂_and_left _ _).mpr ⟨harity, hds⟩) fun b d h => ?_
      rw [← h.2.1, ← h.2.2.1]
      exact h.1
    · exact forall_mem_of_forall₂ hds fun b d h => by simpa using h.2.2.1
    · exact fun p hp => ⟨(hzip hp).1, (hzip hp).2.1⟩
    · exact fun p hp => (hzip hp).2.2.2
  | natRec m z s n =>
    obtain ⟨hm, hz, hs, hn⟩ := hover
    refine Ensures.bind (hnf 0 m hm) fun m' hm => Ensures.bind (hnf 0 z hz) fun z' hz => ?_
    refine Ensures.bind (hnf 0 s hs) fun s' hs => Ensures.bind (hnf 0 n hn) fun n' hn => ?_
    exact .pure ⟨⟨hm.1, hz.1, hs.1, hn.1⟩, .natRec hz.2 hs.2 hn.2⟩
  | path a x y =>
    obtain ⟨ha, hx, hy⟩ := hover
    refine Ensures.bind (hnf 0 a ha) fun a' ha => Ensures.bind (hnf 0 x hx) fun x' hx => ?_
    exact Ensures.bind (hnf 0 y hy) fun y' hy => .pure ⟨⟨ha.1, hx.1, hy.1⟩, .path ha.2 hx.2 hy.2⟩
  | «at» l x p i =>
    obtain ⟨hpaths, hl, hx, hp, hi⟩ := hover
    refine Ensures.bind (hnf 0 l hl) fun l' hl => Ensures.bind (hnf 0 x hx) fun x' hx => ?_
    refine Ensures.bind (hnf 0 p hp) fun p' hp => Ensures.bind (hnf 0 i hi) fun i' hi => ?_
    exact .pure ⟨⟨hpaths, hl.1, hx.1, hp.1, hi.1⟩, .point hl.2 hx.2 hp.2 hi.2⟩
  | _ => exact Ensures.pure ⟨hover, .refl _⟩

end Parts

variable (henv : r.env.Over S) (hsol : ∀ m t, S.hole m → r.store.solution? m = some t → t.Over S ⊤)
  (hM : ∀ m t, S.hole m → r.store.solution? m = some t → M.hole m = some t) (hL : r.locals.Over S)

include henv hsol hM hL

theorem converts_whnfGas {depth : ℕ} (gas : ℕ) {t : Term} (hover : t.Over S ⊤) :
    Converts S M r depth t (r.whnfGas depth gas t) := by
  have hc := (hL.under depth).contextOver hsol
  refine (yields_whnfGas henv hc gas t hover).mono fun v hv => ?_
  exact ⟨hv.preserves_over henv hc hover, .of_reduces henv hc hM hover hv⟩

theorem converts_nfGas {depth : ℕ} (gas : ℕ) {t : Term} (hover : t.Over S ⊤) :
    Converts S M r depth t (r.nfGas gas depth t) := by
  induction gas generalizing depth t with
  | zero => exact Ensures.throw _
  | succ gas ih =>
    refine Ensures.bind (converts_whnfGas henv hsol hM hL gas hover) fun v hv => ?_
    exact (converts_nfParts (fun k t ht => ih ht) hv.1).mono fun w hw => ⟨hw.1, hv.2.trans hw.2⟩

end Reducer

/-- The second term is over the signature, and convertible to the first one in every context. -/
def Replaceable (S : Signature) (env : Environment) (M : Solution) (t t' : Term) : Prop :=
  t'.Over S ⊤ ∧ ∀ L, Conv S env M L t t'

namespace Replaceable
variable {S : Signature} {env : Environment} {M : Solution} {t t' t'' : Term}

theorem refl (ht : t.Over S ⊤) : Replaceable S env M t t := ⟨ht, fun _ => .refl t⟩

theorem trans (h : Replaceable S env M t t') (h' : Replaceable S env M t' t'') :
    Replaceable S env M t t'' :=
  ⟨h'.1, fun L => (h.2 L).trans (h'.2 L)⟩

theorem apps {args : List Term} (h : Replaceable S env M t t') (hargs : ∀ a ∈ args, a.Over S ⊤) :
    Replaceable S env M (t.apps args) (t'.apps args) :=
  ⟨Term.over_apps.mpr ⟨h.1, hargs⟩, fun L => (h.2 L).apps⟩

/-- Contracting the redexes of an application keeps its instances convertible. -/
theorem beta {args : List Term} (ht : t.Over S ⊤) (hargs : ∀ a ∈ args, a.Over S ⊤) :
    Replaceable S env M (t.apps args) (t.beta args) := by
  induction t, args using Term.beta.induct with
  | case1 t => exact refl ht
  | case2 x d b a args ih =>
    obtain ⟨ha, hargs⟩ := List.forall_mem_cons.mp hargs
    have hstep : Replaceable S env M (.app (.lam x d b) a) (b.subst a) :=
      ⟨Term.Over.subst ht.2 ha, fun L => .step ⟨ht, ha⟩ .beta⟩
    rw [Term.beta]
    exact (hstep.apps hargs).trans (ih hstep.1 hargs)
  | case3 t args hnil hlam =>
    rw [Term.beta]
    · exact refl (Term.over_apps.mpr ⟨ht, hargs⟩)
    · exact hnil
    · exact hlam

/-- Terms of a list that are replaceable by their images. -/
theorem all {f : Term → Term} {ts : List Term} (h : ∀ t ∈ ts, Replaceable S env M t (f t)) :
    Term.OverAll S ⊤ (ts.map f) ∧ ts.length = (ts.map f).length ∧
      ∀ L, ∀ p ∈ ts.zip (ts.map f), Conv S env M L p.1 p.2 := by
  refine ⟨Term.overAll_iff.mpr (List.forall_mem_map.mpr fun t ht => (h t ht).1),
    (List.length_map f).symm, ?_⟩
  intro L p hp
  obtain ⟨t, ht, rfl⟩ := mem_zip_map.mp hp
  exact (h t ht).2 L

end Replaceable

namespace Term
variable {S : Signature} {env : Environment} {M : Solution}

@[simp] theorem fillAll_eq_map (sol : ℕ → Option Term) (ts : List Term) :
    fillAll sol ts = ts.map (fillWith sol · []) := by
  induction ts with
  | nil => rfl
  | cons t ts ih => simp [fillAll, ih]

@[simp] theorem fillBranches_eq_map (sol : ℕ → Option Term) (bs : List (Branch Term)) :
    fillBranches sol bs = bs.map fun b => { b with body := fillWith sol b.body [] } := by
  induction bs with
  | nil => rfl
  | cons b bs ih => simp [fillBranches, ih]

/-- Filling holes with replacements, and contracting the applications this uncovers. -/
theorem replaceable_fillWith {sol : ℕ → Option Term}
    (hsol : ∀ m s, S.hole m → sol m = some s → Replaceable S env M (.hole m) s) {t : Term}
    {args : List Term} (ht : t.Over S ⊤) (hargs : ∀ a ∈ args, a.Over S ⊤) :
    Replaceable S env M (t.apps args) (t.fillWith sol args) := by
  have hnil : ∀ a ∈ ([] : List Term), a.Over S ⊤ := by simp
  have hagree (u : Universe) : M.Agree u u := ⟨fun _ => rfl, fun _ => rfl⟩
  induction t generalizing args with
  | app f a ihf iha =>
    obtain ⟨ha, hca⟩ := iha ht.2 hnil
    have hf := ihf ht.1 (List.forall_mem_cons.mpr ⟨ha, hargs⟩)
    rw [fillWith]
    exact ⟨hf.1, fun L => .trans (.apps (.app (.refl f) (hca L))) (hf.2 L)⟩
  | hole m =>
    rw [fillWith]
    split
    case h_1 s hs => exact ((hsol m s ht hs).apps hargs).trans (.beta (hsol m s ht hs).1 hargs)
    case h_2 => exact .refl (over_apps.mpr ⟨ht, hargs⟩)
  | lam x a b iha ihb =>
    obtain ⟨ha, -⟩ := iha ht.1 hnil
    obtain ⟨hb, hcb⟩ := ihb ht.2 hnil
    exact .apps ⟨⟨ha, hb⟩, fun L => .lam (hcb _)⟩ hargs
  | pi x a b iha ihb =>
    obtain ⟨ha, hca⟩ := iha ht.1 hnil
    obtain ⟨hb, hcb⟩ := ihb ht.2 hnil
    exact .apps ⟨⟨ha, hb⟩, fun L => .pi rfl (hca L) (hcb _)⟩ hargs
  | sigma x a b iha ihb =>
    obtain ⟨ha, hca⟩ := iha ht.1 hnil
    obtain ⟨hb, hcb⟩ := ihb ht.2 hnil
    exact .apps ⟨⟨ha, hb⟩, fun L => .sigma (hca L) (hcb _)⟩ hargs
  | letIn x s a b ihs iha ihb =>
    obtain ⟨hs, hcs⟩ := ihs ht.1 hnil
    obtain ⟨ha, hca⟩ := iha ht.2.1 hnil
    obtain ⟨hb, hcb⟩ := ihb ht.2.2 hnil
    exact .apps ⟨⟨hs, ha, hb⟩, fun L => .letIn rfl (hcs L) (hca L) (hcb _)⟩ hargs
  | pair a b iha ihb =>
    obtain ⟨ha, hca⟩ := iha ht.1 hnil
    obtain ⟨hb, hcb⟩ := ihb ht.2 hnil
    exact .apps ⟨⟨ha, hb⟩, fun L => .pair (hca L) (hcb L)⟩ hargs
  | proj a s ih => exact .apps ⟨(ih ht hnil).1, fun L => .proj ((ih ht hnil).2 L)⟩ hargs
  | field a n i ih => exact .apps ⟨(ih ht hnil).1, fun L => .field ((ih ht hnil).2 L)⟩ hargs
  | succ a ih => exact .apps ⟨(ih ht hnil).1, fun L => .succ ((ih ht hnil).2 L)⟩ hargs
  | pathLam f ih =>
    exact .apps ⟨⟨ht.1, (ih ht.2 hnil).1⟩, fun L => .pathLam ((ih ht.2 hnil).2 L)⟩ hargs
  | data n u ps ih =>
    rw [Over, overAll_iff] at ht
    obtain ⟨hps, hlen, hconv⟩ := Replaceable.all fun p hp => ih p hp (ht.2 p hp) hnil
    rw [fillWith, fillAll_eq_map]
    exact .apps ⟨⟨ht.1, hps⟩, fun L => .data (hagree u) hlen (hconv L)⟩ hargs
  | record n u ps ih =>
    rw [Over, overAll_iff] at ht
    obtain ⟨hps, hlen, hconv⟩ := Replaceable.all fun p hp => ih p hp (ht.2 p hp) hnil
    rw [fillWith, fillAll_eq_map]
    exact .apps ⟨⟨ht.1, hps⟩, fun L => .record (hagree u) hlen (hconv L)⟩ hargs
  | con n u ps xs ihp ihx =>
    rw [Over, overAll_iff, overAll_iff] at ht
    obtain ⟨harity, hu, hps, hxs⟩ := ht
    obtain ⟨hps, -⟩ := Replaceable.all fun p hp => ihp p hp (hps p hp) hnil
    obtain ⟨hxs, hlen, hconv⟩ := Replaceable.all fun x hx => ihx x hx (hxs x hx) hnil
    rw [fillWith, fillAll_eq_map, fillAll_eq_map]
    exact .apps ⟨⟨hlen ▸ harity, hu, hps, hxs⟩, fun L => .con hlen (hconv L)⟩ hargs
  | new n u ps fs ihp ihf =>
    rw [Over, overAll_iff, overAll_iff] at ht
    obtain ⟨hrecord, hu, hps, hfs⟩ := ht
    obtain ⟨hps, -⟩ := Replaceable.all fun p hp => ihp p hp (hps p hp) hnil
    obtain ⟨hfs, hlen, hconv⟩ := Replaceable.all fun x hx => ihf x hx (hfs x hx) hnil
    rw [fillWith, fillAll_eq_map, fillAll_eq_map]
    exact .apps ⟨⟨hlen ▸ hrecord, hu, hps, hfs⟩, fun L => .new hlen (hconv L)⟩ hargs
  | case a m bs iha ihm ihb =>
    rw [Over, overBranches_iff] at ht
    obtain ⟨harity, ha, hm, hbs⟩ := ht
    obtain ⟨ha, hca⟩ := iha ha hnil
    obtain ⟨hm, -⟩ := ihm hm hnil
    have hb (b : Branch Term) (hb : b ∈ bs) := ihb b hb (by simpa using hbs b hb) hnil
    rw [fillWith, fillBranches_eq_map]
    refine .apps ⟨⟨?_, ha, hm, overBranches_iff.mpr ?_⟩,
      fun L => .case (hca L) (by simp) ?_ ?_⟩ hargs
    · exact List.forall_mem_map.mpr harity
    · exact List.forall_mem_map.mpr fun b hbs => by simpa using (hb b hbs).1
    all_goals
      intro p hp
      obtain ⟨b, hbs, rfl⟩ := mem_zip_map.mp hp
    · exact ⟨rfl, rfl⟩
    · exact (hb b hbs).2 _
  | natRec m z s n ihm ihz ihs ihn =>
    obtain ⟨hm, hz, hs, hn⟩ := ht
    obtain ⟨hm, -⟩ := ihm hm hnil
    obtain ⟨hz, hcz⟩ := ihz hz hnil
    obtain ⟨hs, hcs⟩ := ihs hs hnil
    obtain ⟨hn, hcn⟩ := ihn hn hnil
    exact .apps ⟨⟨hm, hz, hs, hn⟩, fun L => .natRec (hcz L) (hcs L) (hcn L)⟩ hargs
  | path a x y iha ihx ihy =>
    obtain ⟨ha, hca⟩ := iha ht.1 hnil
    obtain ⟨hx, hcx⟩ := ihx ht.2.1 hnil
    obtain ⟨hy, hcy⟩ := ihy ht.2.2 hnil
    exact .apps ⟨⟨ha, hx, hy⟩, fun L => .path (hca L) (hcx L) (hcy L)⟩ hargs
  | point l r p i ihl ihr ihp ihi =>
    obtain ⟨hpaths, hl, hr, hp, hi⟩ := ht
    obtain ⟨hl, hcl⟩ := ihl hl hnil
    obtain ⟨hr, hcr⟩ := ihr hr hnil
    obtain ⟨hp, hcp⟩ := ihp hp hnil
    obtain ⟨hi, hci⟩ := ihi hi hnil
    exact .apps ⟨⟨hpaths, hl, hr, hp, hi⟩, fun L => .point (hcl L) (hcr L) (hcp L) (hci L)⟩ hargs
  | univ | var | ref | nat | zero | interval | left | right => exact .apps (.refl ht) hargs

/-- Holes may be replaced by their solutions, and the holes of these in turn: the result is
convertible to the term. -/
theorem replaceable_fillDeep {sol : ℕ → Option Term} (hsol : ∀ m s, S.hole m →
    sol m = some s → s.Over S ⊤)
    (hM : ∀ m s, S.hole m → sol m = some s → M.hole m = some s) (n : ℕ) {t : Term}
    (ht : t.Over S ⊤) : Replaceable S env M t (t.fillDeep sol n) := by
  induction n generalizing t with
  | zero => exact .refl ht
  | succ n ih =>
    refine replaceable_fillWith ?_ ht (List.forall_mem_nil _)
    intro m s hm hs
    obtain ⟨s', hs', rfl⟩ := Option.map_eq_some_iff.mp hs
    exact .trans ⟨hsol m s' hm hs', fun L => .step hm (.hole (hM m s' hm hs'))⟩
      (ih (hsol m s' hm hs'))

@[simp] theorem fillLevels_none (t : Term) : t.fillLevels (fun _ => none) = t := by
  have hfill (l : Level) : l.fill (fun _ => none) = l := by
    unfold Level.fill
    split <;> rfl
  have hid : (fun u : Universe => u.map (Level.fill fun _ => none)) = id := by
    funext u
    simp [Universe.map, hfill]
  rw [fillLevels_eq_mapUniverses, hid]
  exact t.replace_id 0

end Term

/-- Replacing solved holes by their solutions, while no level hole is solved. -/
theorem Store.replaceable_zonk {S : Signature} {env : Environment} {M : Solution}
    {s : Store} {t : Term} (hsol : ∀ m t, S.hole m → s.solution? m = some t → t.Over S ⊤)
    (hM : ∀ m t, S.hole m → s.solution? m = some t → M.hole m = some t)
    (hlevels : s.levelSolutions = []) (ht : t.Over S ⊤) : Replaceable S env M t (s.zonk t) := by
  have hnone : s.levelSolution? = fun _ => none := by
    funext m
    rw [levelSolution?, hlevels, List.lookup_nil]
  rw [zonk, hnone, Term.fillLevels_none]
  exact Term.replaceable_fillDeep hsol hM _ ht

end LeveledTypes
