import LeveledTypes.Proofs.Reduction.Outcomes
import LeveledTypes.Proofs.Reduction.Replacement
import LeveledTypes.Proofs.Term.PartWise

/-!
# Steady normalization

Normalization goes from a term to its weak head normal form and on to the parts of that. It does not
take up the function part of an application again, which may reduce further all the same; it is
steady if this does not happen. Then a normal form is built like the weak head normal form, from the
normal forms of all parts.
-/
namespace LeveledTypes

@[simp] theorem Term.headHole?_app (f a : Term) : (app f a).headHole? = f.headHole? := by
  unfold headHole?
  rw [show (app f a).head = f.head from head_apps f [a]]

/-- A hole at the head of a term is a hole of the term. -/
theorem Term.hasHole_of_headHole? {t : Term} {m : ℕ} (h : t.headHole? = some m) :
    t.hasHole = true := by
  rw [hasHole_eq_true_iff]
  refine ⟨m, ?_⟩
  induction t with
  | app f a ihf =>
    exact mem_subterms_of_part (p := (0, f)) (by simp [parts]) (ihf (headHole?_app f a ▸ h))
  | hole k =>
    obtain rfl := Option.some.inj h
    exact mem_subterms_self _
  | _ => cases h

theorem Term.hasHole_of_part {t : Term} {p : ℕ × Term} (hp : p ∈ t.parts) (h : p.2.hasHole = true) :
    t.hasHole = true := by
  rw [hasHole_eq_true_iff] at h ⊢
  exact h.imp fun m hm => mem_subterms_of_part hp hm

namespace Reducer

section Meeting
variable (A : GlobalName → ℕ) (r : Reducer)

/-- The weak head normal forms that normalization comes to, with the numbers of binders that they
are under: that of the term, and those of the parts of one that it has come to. -/
inductive Met : ℕ → Term → ℕ → Term → Prop
  | here {depth : ℕ} {t v : Term} : HeadNormalizes A r depth t v → Met depth t depth v
  | part {depth depth' : ℕ} {t v w : Term} {p : ℕ × Term} :
    HeadNormalizes A r depth t v → p ∈ v.parts →
      Met (depth + p.1) p.2 depth' w → Met depth t depth' w

/-- The function parts of the applications that normalization comes to are in weak head normal form:
reduction from the memo returns them with so much fuel. -/
def Steady (fuel : ℕ) (memo : Memo) (depth : ℕ) (t : Term) : Prop :=
  ∀ depth' f a, Met A r depth t depth' (.app f a) →
    ∃ gas g s, r.whnfGas depth' gas f ⟨fuel, memo⟩ = .ok g s ∧ g.same f = true

end Meeting

theorem Steady.part {A : GlobalName → ℕ} {r : Reducer} {fuel : ℕ} {memo : Memo}
    {depth k : ℕ} {t v a : Term} (h : Steady A r fuel memo depth t)
    (hv : HeadNormalizes A r depth t v) (ha : (k, a) ∈ v.parts) :
    Steady A r fuel memo (depth + k) a :=
  fun depth' f a hmet => h depth' f a (.part hv ha hmet)

section Consistent
variable {A : GlobalName → ℕ} {holes : Prop} {r : Reducer} {fuel depth : ℕ}
  {memo : Memo} {t t' v : Term} (h : Consistent A holes r) (ht : t.Over (.ofArity A holes) ⊤)

include h ht

theorem Consistent.steady_of_alike (hsteady : Steady A r fuel memo depth t)
    (halike : t.anonymize = t'.anonymize) :
    Steady A r fuel memo depth t' := by
  have ht' : t'.Over (.ofArity A holes) ⊤ := Term.over_of_alike ht halike
  intro depth' f a hmet
  cases hmet with
  | here hv => exact hsteady _ f a (.here (h.headNormalizes_of_alike hv ht' halike.symm rfl))
  | part hv hp hmet =>
    exact hsteady _ f a (.part (h.headNormalizes_of_alike hv ht' halike.symm rfl) hp hmet)

/-- Normalization is steady if the weak head normal form has a steady function part and steady
parts. -/
theorem Consistent.steady (hv : HeadNormalizes A r depth t v) (hover : v.Over (.ofArity A holes) ⊤)
    (hhead : ∀ f a, v.anonymize = (Term.app f a).anonymize →
      ∃ gas g s, r.whnfGas depth gas f ⟨fuel, memo⟩ = .ok g s ∧ g.same f = true)
    (hparts : ∀ p ∈ v.parts, Steady A r fuel memo (depth + p.1) p.2) :
    Steady A r fuel memo depth t := by
  intro depth' f a hmet
  cases hmet with
  | here hw => exact hhead f a (h.alike_of_headNormalizes hv hw ht)
  | @part _ _ _ w _ p hw hp hmet =>
    have hmem : (p.1, p.2.anonymize) ∈ v.anonymize.parts := by
      rw [h.alike_of_headNormalizes hv hw ht, Term.parts_anonymize]
      exact List.mem_map_of_mem hp
    rw [Term.parts_anonymize] at hmem
    obtain ⟨q, hq, heq⟩ := List.mem_map.mp hmem
    obtain ⟨hdepth, halike⟩ := Prod.mk.inj heq
    have hqover : q.2.Over (.ofArity A holes) ⊤ := by simpa using (Term.over_iff.mp hover).2 q hq
    exact h.steady_of_alike hqover (hdepth ▸ hparts q hq) halike depth' f a hmet

end Consistent

/-- What reductions start from: a context, the fuel that each of them has, and what is
remembered. -/
structure Setting where
  arity : GlobalName → ℕ
  holes : Prop
  reducer : Reducer
  fuel : ℕ
  memo : Memo

namespace Setting
variable (C : Setting)

/-- The signature of the terms in question. -/
abbrev signature : Signature := .ofArity C.arity C.holes

/-- The fuel suffices for a course. -/
def Affords (T : Trace Term) : Prop := T.cost (courses C.arity C.reducer.env) C.memo.known ≤ C.fuel

/-- A term reduces to a weak head normal form, up to names. -/
def Comes (depth : ℕ) (t w : Term) : Prop :=
  ∃ x y T, x.Over C.signature ⊤ ∧ x.anonymize = t.anonymize ∧ y.anonymize = w.anonymize ∧
    Evals C.reducer (C.reducer.round (.whnf depth x)) y T ∧ C.Affords T

/-- A term has a normal form. -/
def Norms (depth : ℕ) (t v : Term) : Prop :=
  t.Over C.signature ⊤ ∧ ∃ T, Evals C.reducer (C.reducer.round (.nf depth t)) v T ∧ C.Affords T

/-- A function part and what normalization makes of it. -/
def Spines (depth : ℕ) : Term → Term → Prop
  | .app f a, v => ∃ g b, v = .app g b ∧ Spines depth f g ∧ C.Norms depth a b
  | .ref n u, v => v = .ref n u
  | t, v => C.Norms depth t v

/-- A term has a normal form, or it is a function part that does not reduce. -/
def Unrolls (depth : ℕ) (t v : Term) : Prop := C.Norms depth t v ∨ C.Comes depth t t ∧
    C.Spines depth t v

/-- A term has a weak head normal form that is built like a normal form. -/
structure Built (depth : ℕ) (t w v : Term) : Prop where
  comes : C.Comes depth t w
  fits : w.Over C.signature ⊤
  letIn : ∀ x s a b, w ≠ .letIn x s a b
  head : ∀ m, w.headHole? = some m → C.reducer.store.solution? m = none → v.headHole? = some m
  parts : Term.PartWise (fun k => C.Unrolls (depth + k)) w v

variable {C} {depth : ℕ} {t v w : Term} {T U : Trace Term}

theorem Affords.of_seq (h : C.Affords (.seq T U)) : C.Affords T ∧ C.Affords U :=
  (Trace.cost_le_seq T U).imp (·.trans h) (·.trans h)

section Parts

theorem norms_of_call {next : Term → Round} (h : Evals C.reducer (.call (.nf depth t) next) w T)
    (hT : C.Affords T) (ht : t.Over C.signature ⊤) : ∃ v U, C.Norms depth t v ∧
    Evals C.reducer (next v) w U ∧ C.Affords U := by
  cases h with
  | call hv hw => exact ⟨_, _, ⟨ht, _, hv, hT.of_seq.1⟩, hw, hT.of_seq.2⟩

/-- Normalization of a spine splits at what follows it. -/
theorem spines_of_spineHead {next : Term → Round}
    (h : Evals C.reducer (.spineHead depth t next) w T) (hT : C.Affords T)
    (ht : t.Over C.signature ⊤) : ∃ v U, C.Spines depth t v ∧ Evals C.reducer (next v) w U ∧
    C.Affords U := by
  induction t generalizing next T with
  | app f a ihf =>
    obtain ⟨g, U, hg, hnext, hU⟩ := ihf h hT ht.1
    obtain ⟨b, U, hb, hnext, hU⟩ := norms_of_call hnext hU ht.2
    exact ⟨_, U, ⟨g, b, rfl, hg, hb⟩, hnext, hU⟩
  | ref n u => exact ⟨_, T, rfl, h, hT⟩
  | _ => exact norms_of_call h hT ht

/-- Normalization of a list splits into those of its elements and what follows them. -/
theorem norms_of_all {ts : List Term} {next : List Term → Round}
    (h : Evals C.reducer (.all depth next ts) w T) (hT : C.Affords T)
    (hts : ∀ t ∈ ts, t.Over C.signature ⊤) :
    ∃ vs U, List.Forall₂ (C.Norms depth) ts vs ∧ Evals C.reducer (next vs) w U ∧ C.Affords U := by
  induction ts generalizing next T with
  | nil => exact ⟨[], T, .nil, h, hT⟩
  | cons t ts ih =>
    obtain ⟨ht, hts⟩ := List.forall_mem_cons.mp hts
    obtain ⟨v, U, hv, h, hU⟩ := norms_of_call h hT ht
    obtain ⟨vs, U, hvs, h, hU⟩ := ih h hU hts
    exact ⟨v :: vs, U, .cons hv hvs, h, hU⟩

/-- Normalization of branches splits into those of their bodies and what follows them. -/
theorem norms_of_branches {bs : List (Branch Term)} {next : List (Branch Term) → Round}
    (h : Evals C.reducer (.branches depth next bs) w T) (hT : C.Affords T)
    (hbs : ∀ b ∈ bs, b.body.Over C.signature ⊤) :
    ∃ ds U, List.Forall₂ (Term.BranchWise fun k => C.Norms (depth + k)) bs ds ∧
      Evals C.reducer (next ds) w U ∧
      C.Affords U := by
  induction bs generalizing next T with
  | nil => exact ⟨[], T, .nil, h, hT⟩
  | cons b bs ih =>
    obtain ⟨hb, hbs⟩ := List.forall_mem_cons.mp hbs
    obtain ⟨v, U, hv, h, hU⟩ := norms_of_call h hT hb
    obtain ⟨ds, U, hds, h, hU⟩ := ih h hU hbs
    exact ⟨{ b with body := v } :: ds, U, .cons ⟨rfl, rfl, hv⟩ hds, h, hU⟩

/-- Normalization of the parts of a term makes a term of normal forms of the parts. -/
theorem unrolls_of_parts (h : Evals C.reducer (.parts depth t) v T) (hT : C.Affords T)
    (ht : t.Over C.signature ⊤) (hlet : ∀ x s a b, t ≠ .letIn x s a b)
    (hself : ∀ f a, t = .app f a → C.Comes depth f f) :
    Term.PartWise (fun k => C.Unrolls (depth + k)) t v := by
  have hlist {ts vs : List Term} (h : List.Forall₂ (C.Norms depth) ts vs) :
      List.Forall₂ (C.Unrolls (depth + 0)) ts vs :=
    h.imp fun _ _ => .inl
  cases t with
  | lam x a b | pi x a b | sigma x a b =>
    obtain ⟨v, U, hv, h, hU⟩ := norms_of_call h hT ht.1
    obtain ⟨w, U, hw, h, hU⟩ := norms_of_call h hU ht.2
    cases h
    constructor
    · rfl
    · exact .inl hv
    · exact .inl hw
  | app f a =>
    obtain ⟨g, U, hg, h, hU⟩ := spines_of_spineHead h hT ht.1
    obtain ⟨b, U, hb, h, hU⟩ := norms_of_call h hU ht.2
    cases h
    exact .app (.inr ⟨hself f a rfl, hg⟩) (.inl hb)
  | pair a b =>
    obtain ⟨v, U, hv, h, hU⟩ := norms_of_call h hT ht.1
    obtain ⟨w, U, hw, h, hU⟩ := norms_of_call h hU ht.2
    cases h
    exact .pair (.inl hv) (.inl hw)
  | proj a s =>
    obtain ⟨v, U, hv, h, hU⟩ := norms_of_call h hT ht
    cases h
    exact .proj s (.inl hv)
  | field a n i =>
    obtain ⟨v, U, hv, h, hU⟩ := norms_of_call h hT ht
    cases h
    exact .field n i (.inl hv)
  | succ a =>
    obtain ⟨v, U, hv, h, hU⟩ := norms_of_call h hT ht
    cases h
    exact .succ (.inl hv)
  | pathLam f =>
    obtain ⟨v, U, hv, h, hU⟩ := norms_of_call h hT ht.2
    cases h
    exact .pathLam (.inl hv)
  | data n u ps =>
    obtain ⟨vs, U, hvs, h, hU⟩ := norms_of_all h hT (Term.overAll_iff.mp ht.2)
    cases h
    exact .data n u (hlist hvs)
  | record n u ps =>
    obtain ⟨vs, U, hvs, h, hU⟩ := norms_of_all h hT (Term.overAll_iff.mp ht.2)
    cases h
    exact .record n u (hlist hvs)
  | con n u ps xs =>
    obtain ⟨vs, U, hvs, h, hU⟩ := norms_of_all h hT (Term.overAll_iff.mp ht.2.2.1)
    obtain ⟨ws, U, hws, h, hU⟩ := norms_of_all h hU (Term.overAll_iff.mp ht.2.2.2)
    cases h
    exact .con n u (hlist hvs) (hlist hws)
  | new n u ps fs =>
    obtain ⟨vs, U, hvs, h, hU⟩ := norms_of_all h hT (Term.overAll_iff.mp ht.2.2.1)
    obtain ⟨ws, U, hws, h, hU⟩ := norms_of_all h hU (Term.overAll_iff.mp ht.2.2.2)
    cases h
    exact .new n u (hlist hvs) (hlist hws)
  | case a m bs =>
    have hbodies : ∀ b ∈ bs, b.body.Over C.signature ⊤ := fun b hb => by
      simpa using Term.overBranches_iff.mp ht.2.2.2 b hb
    obtain ⟨v, U, hv, h, hU⟩ := norms_of_call h hT ht.2.1
    obtain ⟨w, U, hw, h, hU⟩ := norms_of_call h hU ht.2.2.1
    obtain ⟨ds, U, hds, h, hU⟩ := norms_of_branches h hU hbodies
    cases h
    exact .case (.inl hv) (.inl hw) (hds.imp fun _ _ h => ⟨h.1, h.2.1, .inl h.2.2⟩)
  | natRec m z s n =>
    obtain ⟨m, U, hm, h, hU⟩ := norms_of_call h hT ht.1
    obtain ⟨z, U, hz, h, hU⟩ := norms_of_call h hU ht.2.1
    obtain ⟨s, U, hs, h, hU⟩ := norms_of_call h hU ht.2.2.1
    obtain ⟨n, U, hn, h, hU⟩ := norms_of_call h hU ht.2.2.2
    cases h
    exact .natRec (.inl hm) (.inl hz) (.inl hs) (.inl hn)
  | path a x y =>
    obtain ⟨a, U, ha, h, hU⟩ := norms_of_call h hT ht.1
    obtain ⟨x, U, hx, h, hU⟩ := norms_of_call h hU ht.2.1
    obtain ⟨y, U, hy, h, hU⟩ := norms_of_call h hU ht.2.2
    cases h
    exact .path (.inl ha) (.inl hx) (.inl hy)
  | «at» l x p i =>
    obtain ⟨l, U, hl, h, hU⟩ := norms_of_call h hT ht.2.1
    obtain ⟨x, U, hx, h, hU⟩ := norms_of_call h hU ht.2.2.1
    obtain ⟨p, U, hp, h, hU⟩ := norms_of_call h hU ht.2.2.2.1
    obtain ⟨i, U, hi, h, hU⟩ := norms_of_call h hU ht.2.2.2.2
    cases h
    exact .at (.inl hl) (.inl hx) (.inl hp) (.inl hi)
  | letIn x s a b => exact absurd rfl (hlet x s a b)
  | _ =>
    cases h
    constructor

/-- Normalization leaves an unsolved hole at the head of a function part. -/
theorem Spines.headHole?_eq {m : ℕ} (h : C.Spines depth t v) (ht : t.headHole? = some m)
    (hm : C.reducer.store.solution? m = none) : v.headHole? = some m := by
  induction t generalizing v with
  | app f a ihf =>
    obtain ⟨g, b, rfl, hg, -⟩ := h
    rw [Term.headHole?_app] at ht ⊢
    exact ihf hg ht
  | hole k =>
    obtain rfl := Option.some.inj ht
    obtain ⟨-, T, hT, -⟩ := h
    have hround : C.reducer.round (.whnf depth (.hole k)) = .ret (.hole k) := by
      simp [round, Round.head, hm]
    cases hT with
    | call hv hparts =>
      rw [hround] at hv
      cases hv
      cases hparts
      rfl
  | _ => cases ht

/-- An unsolved hole at the head stays there when the parts are normalized. -/
theorem headHole?_eq_of_parts {m : ℕ} (h : Evals C.reducer (.parts depth t) v T) (hT : C.Affords T)
    (ht : t.Over C.signature ⊤) (hhead : t.headHole? = some m)
    (hm : C.reducer.store.solution? m = none) : v.headHole? = some m := by
  cases t with
  | app f a =>
    obtain ⟨g, U, hg, h, hU⟩ := spines_of_spineHead h hT ht.1
    obtain ⟨b, U, hb, h, hU⟩ := norms_of_call h hU ht.2
    cases h
    rw [Term.headHole?_app] at hhead ⊢
    exact hg.headHole?_eq hhead hm
  | hole k =>
    cases h
    exact hhead
  | _ => cases hhead

end Parts

section Unrolling
variable (hC : Consistent C.arity C.holes C.reducer)

include hC

/-- What an evaluation returns is settled. -/
theorem settled_of_evals (h : Evals C.reducer (C.reducer.round (.whnf depth t)) w T)
    (ht : t.Over C.signature ⊤) : w.Over C.signature ⊤ ∧ C.reducer.Settled depth w := by
  have hctx : Replaces C.arity C.holes C.reducer depth C.reducer depth .var :=
    ⟨rfl, rfl, hC.solutions, hC.over_values, fun i =>
      .inl ⟨i, rfl, by cases C.reducer.localValue? depth i <;> simp⟩⟩
  exact (h.replaced hC.env (Round.replaced_head hC.env hctx ht)).2

theorem Comes.headNormalizes (h : C.Comes depth t w) :
    HeadNormalizes C.arity C.reducer depth t w := by
  obtain ⟨x, y, T, hx, hxt, hyw, hy, -⟩ := h
  exact hC.headNormalizes_of_alike (hC.headNormalizes_of_evals hy hx) hx hxt hyw

variable (hmemo : C.memo.Backed C.arity C.reducer.env)

include hmemo

theorem comes_of_run {gas : ℕ} {s : ReductionState} (ht : t.Over C.signature ⊤)
    (hrun : C.reducer.whnfGas depth gas t ⟨C.fuel, C.memo⟩ = .ok w s) : C.Comes depth t w := by
  have hcall : Call.Agrees C.signature C.reducer C.reducer ⊤ (.whnf depth t) (.whnf depth t) :=
    .whnf (hC.agree depth) ht rfl
  rw [← run_whnf] at hrun
  obtain ⟨-, y, T, hy, hyw⟩ := (keeps_run hC.env gas hcall).ok hmemo hrun
  exact ⟨t, y, T, ht, rfl, hyw, hy, hy.cost_le_of_run hC.env hcall hmemo hrun⟩

theorem Steady.comes {f a : Term} (hsteady : Steady C.arity C.reducer C.fuel C.memo depth t)
    (h : HeadNormalizes C.arity C.reducer depth t (.app f a)) (hf : f.Over C.signature ⊤) :
    C.Comes depth f f := by
  obtain ⟨gas, g, s, hrun, hsame⟩ := hsteady depth f a (.here h)
  obtain ⟨x, y, T, hx, hxf, hyg, hy⟩ := comes_of_run hC hmemo hf hrun
  exact ⟨x, y, T, hx, hxf, hyg.trans (Term.same_iff.mp hsame), hy⟩

/-- A steady term has a weak head normal form that is built like its normal form. -/
theorem exists_built (hsteady : Steady C.arity C.reducer C.fuel C.memo depth t)
    (ht : t.Over C.signature ⊤) (h : C.Unrolls depth t v) : ∃ w, C.Built depth t w v := by
  have hnorms (h : C.Norms depth t v) : ∃ w, C.Built depth t w v := by
    obtain ⟨-, T, hT, hafford⟩ := h
    cases hT with
    | @call _ _ w _ _ _ hw hparts =>
      obtain ⟨hover, hsettled⟩ := settled_of_evals hC hw ht
      have hcomes : C.Comes depth t w := ⟨t, w, _, ht, rfl, rfl, hw, hafford.of_seq.1⟩
      have hlet : ∀ x s a b, w ≠ .letIn x s a b := by
        rintro x s a b rfl
        exact hsettled
      have hself : ∀ f a, w = .app f a → C.Comes depth f f := by
        rintro f a rfl
        exact Steady.comes hC hmemo hsteady (hcomes.headNormalizes hC) hover.1
      exact ⟨w, hcomes, hover, hlet, fun m => headHole?_eq_of_parts hparts hafford.of_seq.2 hover,
        unrolls_of_parts hparts hafford.of_seq.2 hover hlet hself⟩
  rcases h with h | ⟨hcomes, hspines⟩
  · exact hnorms h
  cases t with
  | app f a =>
    have happ := hspines
    obtain ⟨g, b, rfl, hg, hb⟩ := hspines
    have hf := Steady.comes hC hmemo hsteady (hcomes.headNormalizes hC) ht.1
    exact ⟨.app f a, hcomes, ht,
      by simp, fun m => happ.headHole?_eq, .app (.inr ⟨hf, hg⟩) (.inl hb)⟩
  | ref n u =>
    obtain rfl : v = .ref n u := hspines
    exact ⟨.ref n u, hcomes, ht, by simp, (fun m hm => nomatch hm), .ref n u⟩
  | _ => exact hnorms hspines

end Unrolling

end Setting

end Reducer

end LeveledTypes
