import LeveledTypes.Proofs.Conversion.Run
import LeveledTypes.Proofs.Reduction.Steady
import LeveledTypes.Proofs.Term.Anonymous

/-!
# Terms with the same normal form

Conversion reduces both sides to weak head normal form only, and goes on with their parts. If the
sides have the same normal form, and normalization of both is steady, then the weak head normal
forms have the same root, so that conversion compares parts with the same normal forms. It accepts
the sides, and nothing is solved or kept for later.
-/
namespace LeveledTypes

namespace Reducer.Setting
variable (C : Setting)

/-- Both terms have weak head normal forms with the same root, whose parts are joined in turn, up to
a number of levels. -/
def Joined : ℕ → ℕ → Term → Term → Prop
  | 0, _, _, _ => False
  | n + 1, depth, l, r => ∃ v w, C.Comes depth l v ∧ C.Comes depth r w ∧
    (∀ x s a b, v ≠ .letIn x s a b) ∧
      (∀ m, C.reducer.store.solution? m = none → v.headHole? ≠ some m ∧ w.headHole? ≠ some m) ∧
      Term.PartWise (fun k => Joined n (depth + k)) v w

variable {C} {n depth : ℕ} {l r l' r' v w : Term}

theorem Comes.of_alike (h : C.Comes depth l v) (hl : l.anonymize = l'.anonymize) :
    C.Comes depth l' v := by
  obtain ⟨x, y, T, hx, hxl, h⟩ := h
  exact ⟨x, y, T, hx, hxl.trans hl, h⟩

theorem Joined.of_alike (h : C.Joined n depth l r) (hl : l.anonymize = l'.anonymize)
    (hr : r.anonymize = r'.anonymize) :
    C.Joined n depth l' r' := by
  cases n with
  | zero => exact h
  | succ n =>
    obtain ⟨v, w, hv, hw, h⟩ := h
    exact ⟨v, w, hv.of_alike hl, hw.of_alike hr, h⟩

theorem joined_parts_of_alike {v' w' : Term}
    (h : Term.PartWise (fun k => C.Joined n (depth + k)) v w) (hv : v.anonymize = v'.anonymize)
    (hw : w.anonymize = w'.anonymize) : Term.PartWise (fun k => C.Joined n (depth + k)) v' w' := by
  refine (((Term.PartWise.of_alike hv.symm).comp h).comp (.of_alike hw)).mono ?_
  rintro k a d ⟨c, ⟨b, hab, hbc⟩, hcd⟩
  exact hbc.of_alike hab.symm hcd

/-- Terms with the same normal form are joined, if it has no hole and normalization is steady. -/
theorem joined_of_unrolls (hC : Consistent C.arity C.holes C.reducer)
    (hmemo : C.memo.Backed C.arity C.reducer.env) (hn : v.subterms.length ≤ n)
    (hground : v.hasHole = false) (hsame : v.anonymize = w.anonymize) (hl : l.Over C.signature ⊤)
    (hr : r.Over C.signature ⊤) (hlv : C.Unrolls depth l v) (hrw : C.Unrolls depth r w)
    (hsteady : Steady C.arity C.reducer C.fuel C.memo depth l)
    (hsteady' : Steady C.arity C.reducer C.fuel C.memo depth r) :
    C.Joined n depth l r := by
  induction n generalizing depth l r v w with
  | zero =>
    rw [Term.subterms_eq] at hn
    exact absurd hn (by simp)
  | succ n ih =>
    obtain ⟨x, hx⟩ := exists_built hC hmemo hsteady hl hlv
    obtain ⟨y, hy⟩ := exists_built hC hmemo hsteady' hr hrw
    refine ⟨x, y, hx.comes, hy.comes, hx.letIn, fun m hm => ?_, ?_⟩
    case refine_1 =>
      have hv : v.headHole? ≠ some m := fun h => by simp [Term.hasHole_of_headHole? h] at hground
      exact ⟨fun h => hv (hx.head m h hm),
        fun h => hv ((Term.headHole?_alike hsame).trans (hy.head m h hm))⟩
    case refine_2 =>
      have hvw := (Term.PartWise.of_alike hsame).mem_parts
      refine ((hx.parts.mem_parts.comp hvw).comp hy.parts.mem_parts.symm).mono ?_
      rintro k a d ⟨c, ⟨b, ⟨ha, hab⟩, hb, hbc⟩, hd, hdc⟩
      refine ih ?_ ?_ hbc ?_ ?_ hab hdc (hsteady.part (hx.comes.headNormalizes hC) ha)
        (hsteady'.part (hy.comes.headNormalizes hC) hd)
      · exact Nat.le_of_lt_succ ((Term.length_subterms_of_part hb).trans_le hn)
      · rw [← Bool.not_eq_true] at hground ⊢
        exact fun h => hground (Term.hasHole_of_part hb h)
      · simpa using (Term.over_iff.mp hx.fits).2 (k, a) ha
      · simpa using (Term.over_iff.mp hy.fits).2 (k, d) hd

end Reducer.Setting

namespace Converter

/-- The store stays as it is, and what is remembered is right and no less than before. -/
structure Unmoved (A : GlobalName → ℕ) (c : Converter) (s t : ConversionState) : Prop where
  store : t.store = s.store
  memo : t.memo.Backed A c.env
  known : s.memo.known ⊆ t.memo.known

/-- A run leaves the state unmoved and returns as said, or it comes to a limit: the bound for nested
calls, or the limit for nested comparisons where this is too small. -/
def Accepts {α : Type} (A : GlobalName → ℕ) (c : Converter) (s : ConversionState)
    (short : Prop) (x : Convert α) (Q : α → Prop) : Prop :=
  ∀ t, Unmoved A c s t → match x t with
    | .ok a u => Unmoved A c s u ∧ Q a
    | .error e _ => e = .located .nestingLimit c.span ∨ short ∧ e = .located .reductionLimit c.span

section Acceptance
variable {A : GlobalName → ℕ} {c : Converter} {s : ConversionState} {short : Prop}

namespace Accepts
variable {α β : Type} {x : Convert α} {f : α → Convert β} {P : α → Prop} {Q : β → Prop}

theorem pure {a : α} (h : P a) : Accepts A c s short (pure a) P := fun _ ht => ⟨ht, h⟩

theorem bind (hx : Accepts A c s short x P) (hf : ∀ a, P a → Accepts A c s short (f a) Q) :
    Accepts A c s short (x >>= f) Q := by
  intro t ht
  have hxt := hx t ht
  cases h : x t with
  | ok a u =>
    rw [h] at hxt
    rw [bind_of_ok h]
    exact hf a hxt.2 u hxt.1
  | error e u =>
    rw [h] at hxt
    rw [bind_of_error h]
    exact hxt

theorem seq {x y : Convert Unit} (hx : Accepts A c s short x fun _ => True)
    (hy : Accepts A c s short y fun _ => True) :
    Accepts A c s short (do x; y) fun _ => True := hx.bind fun _ _ => hy

theorem forM {γ : Type} {as : List γ} {g : γ → Convert Unit}
    (h : ∀ a ∈ as, Accepts A c s short (g a) fun _ => True) :
    Accepts A c s short (as.forM g) fun _ => True := by
  induction as with
  | nil => exact .pure trivial
  | cons a as ih =>
    obtain ⟨ha, has⟩ := List.forall_mem_cons.mp h
    exact .seq ha (ih has)

theorem ite {p : Prop} [Decidable p] {x y : Convert α} (hp : p) (hx : Accepts A c s short x P) :
    Accepts A c s short (if p then x else y) P := by
  rwa [if_pos hp]

end Accepts

theorem accepts_addUniverse {cmp : Comparison} {u : Universe} :
    Accepts A c s short (c.addUniverse cmp u u) fun _ => True := by
  intro t ht
  unfold addUniverse
  rw [Store.addUniverse_self]
  exact ⟨ht, trivial⟩

section Shapes
variable {R : ℕ → Term → Term → Prop} {conv : ℕ → Comparison → Term → Term → Convert Unit}
  (hconv : ∀ {k : ℕ} {cmp : Comparison} {a b : Term}, R k a b →
    Accepts A c s short (conv k cmp a b) fun _ => True)

include hconv

theorem accepts_all {xs ys : List Term} (h : List.Forall₂ (R 0) xs ys) :
    Accepts A c s short (c.all (conv 0 .eq) xs ys) fun _ => True := by
  obtain ⟨hlen, hzip⟩ := List.forall₂_iff_zip.mp h
  unfold all
  rw [if_neg (not_not.mpr hlen)]
  exact .forM fun p hp => hconv (hzip hp)

/-- Weak head normal forms with the same root are accepted if their parts are. -/
theorem accepts_shapes {cmp : Comparison} {v w : Term} (h : Term.PartWise R v w)
    (hne : v.same w = false) (hlet : ∀ x s a b, v ≠ .letIn x s a b) :
    Accepts A c s short (c.shapes conv cmp v w) fun _ => True := by
  have hall {xs ys : List Term} (h : List.Forall₂ (R 0) xs ys) :
      Accepts A c s short (c.all (conv 0 .eq) xs ys) fun _ => True := accepts_all (R := R) hconv h
  cases h with
  | univ u => exact accepts_addUniverse
  | ref n u => exact .ite rfl accepts_addUniverse
  | lam hx ha hb => exact hconv hb
  | pi hx ha hb => exact .ite hx (.seq (hconv ha) (hconv hb))
  | sigma hx ha hb => exact .seq (hconv ha) (hconv hb)
  | app hf ha => exact .seq (hconv hf) (hconv ha)
  | letIn => exact absurd rfl (hlet _ _ _ _)
  | pair ha hb => exact .seq (hconv ha) (hconv hb)
  | succ ha => exact hconv ha
  | natRec hm hz hs hn => exact .seq (hconv hn) (.seq (hconv hz) (hconv hs))
  | path ha hx hy => exact .seq (hconv ha) (.seq (hconv hx) (hconv hy))
  | pathLam hf => exact hconv hf
  | «at» hl hx hp hi => exact .seq (hconv hp) (hconv hi)
  | proj s ha => exact .ite rfl (hconv ha)
  | field n i ha => exact .ite ⟨rfl, rfl⟩ (hconv ha)
  | data n u hps | record n u hps => exact .ite rfl (.seq accepts_addUniverse (hall hps))
  | con n u hps hxs => exact .ite rfl (hall hxs)
  | new n u hps hfs => exact .ite ⟨rfl, hfs.length_eq⟩ (hall hfs)
  | case ha hm hbs =>
    obtain ⟨hlen, hzip⟩ := List.forall₂_iff_zip.mp hbs
    refine .ite hlen (.seq (hconv ha) (.forM fun p hp => ?_))
    obtain ⟨hhead, harity, hbody⟩ := hzip hp
    dsimp only
    rw [if_neg (by simp [hhead, harity])]
    exact hconv hbody
  | _ => simp [Term.same_refl] at hne

end Shapes

section Comparing
variable {holes : Prop} (hC : Reducer.Consistent A holes ⟨c.env, s.store, c.locals⟩)
  {n depth room : ℕ} {t w l r : Term} {cmp : Comparison}

/-- What reductions in a comparison start from. -/
def setting (A : GlobalName → ℕ) (holes : Prop) (c : Converter) (s : ConversionState) :
    Reducer.Setting :=
  ⟨A, holes, ⟨c.env, s.store, c.locals⟩, c.limits.reductionFuel, s.memo⟩

include hC

/-- The head normal form that a term is known to have is what the run finds, up to names, unless it
comes to a limit. -/
theorem accepts_whnf (h : (setting A holes c s).Comes depth t w) :
    Accepts A c s short (c.whnf depth t) fun v => w.anonymize = v.anonymize := by
  obtain ⟨x, y, T, hx, hxt, hyw, hy, hT⟩ := h
  intro u hu
  have hcall : Reducer.Call.Agrees (.ofArity A holes) ⟨c.env, s.store, c.locals⟩ ⟨c.env, s.store,
      c.locals⟩ ⊤ (.whnf depth x)
    (.whnf depth t) := .whnf (hC.agree depth) hx hxt
  obtain ⟨k, hpays⟩ := hy.pays hC.env holes
  have hrun := Reducer.pays_run_of_round
    (fun gas => hpays ⊤ _ gas (hcall.round hC.env.closedIn)) unboundedGas
    ⟨c.limits.reductionFuel, u.memo⟩ hu.memo
  have hcost : T.cost (Reducer.courses A c.env) u.memo.known ≤ c.limits.reductionFuel :=
    (Trace.cost_antitone hu.known T).trans hT
  have hne := hrun.ne_error_fuel hcost
  rw [Reducer.run_whnf] at hrun hne
  unfold whnf reduce Reducer.whnf
  simp only [hu.store]
  generalize Reducer.whnfGas _ _ _ _ _ = result at hrun hne
  cases result with
  | ok v u' =>
    obtain ⟨hyv, hmemo, -, hknown⟩ := hrun
    refine ⟨⟨rfl, hmemo, ?_⟩, hyw.symm.trans hyv⟩
    exact hu.known.trans (hknown ▸ Set.subset_union_left)
  | error e u' =>
    cases e with
    | fuel => exact absurd rfl (hne u')
    | gas => exact .inl rfl

/-- The weak head normal forms of joined terms are joined by their parts, and no unsolved hole heads
them. -/
theorem accepts_convertWith {conv : ℕ → Comparison → Term → Term → Convert Unit}
    (hconv : ∀ {k : ℕ} {cmp : Comparison} {a b : Term}, (setting A holes c s).Joined n
      (depth + k) a b → Accepts A c s short (conv k cmp a b) fun _ => True)
    (h : (setting A holes c s).Joined (n + 1) depth l r) :
    Accepts A c s short (c.convertWith depth conv cmp l r) fun _ => True := by
  obtain ⟨v, w, hv, hw, hlet, hhead, hparts⟩ := h
  refine (accepts_whnf hC hv).bind fun v' hv' => (accepts_whnf hC hw).bind fun w' hw' => ?_
  split
  case isTrue => exact .pure trivial
  case isFalse hne =>
    intro t ht
    have hget : (get : Convert ConversionState) t = .ok t t := rfl
    rw [bind_of_ok hget]
    have hsolved {a b : Term} (hab : a.anonymize = b.anonymize)
        (ha : ∀ m, s.store.solution? m = none → a.headHole? ≠ some m) :
        b.headHole?.filter (fun m => (t.store.solution? m).isNone) = none := by
      rw [Option.filter_eq_none_iff]
      intro m hm
      rw [ht.store]
      simpa using fun hnone => ha m hnone ((Term.headHole?_alike hab).trans hm)
    simp only [hsolved hv' fun m hm => (hhead m hm).1, hsolved hw' fun m hm => (hhead m hm).2]
    refine accepts_shapes hconv (Reducer.Setting.joined_parts_of_alike hparts hv' hw')
      (by simpa using hne) ?_ t ht
    rintro x y a b rfl
    cases Term.alike hv'
    exact hlet _ _ _ _ rfl

/-- Joined terms are accepted. There has to be room for as many nested comparisons as there are
levels. -/
theorem accepts_convertIn (h : (setting A holes c s).Joined n depth l r) :
    Accepts A c s (room < n) (c.convertIn room depth cmp l r) fun _ => True := by
  induction room generalizing n depth l r cmp with
  | zero =>
    unfold convertIn
    split
    case isTrue => exact .pure trivial
    case isFalse =>
      cases n with
      | zero => exact h.elim
      | succ n => exact fun t ht => .inr ⟨n.succ_pos, rfl⟩
  | succ room ih =>
    unfold convertIn
    split
    case isTrue => exact .pure trivial
    case isFalse =>
      cases n with
      | zero => exact h.elim
      | succ n =>
        rw [Nat.add_lt_add_iff_right]
        exact accepts_convertWith hC ih h

/-- A run of normalization with the fuel of conversion witnesses the normal form. -/
theorem norms_of_reduce {v : Term} {s' : ConversionState} (hmemo : s.memo.Backed A c.env)
    (ht : t.Over (.ofArity A holes) ⊤) (h : c.reduce (·.nf depth t) s = .ok v s') :
    ∃ w, (setting A holes c s).Norms depth t w ∧ w.Over (.ofArity A holes) ⊤ ∧
      w.anonymize = v.anonymize := by
  have hcall : Reducer.Call.Agrees (.ofArity A holes) ⟨c.env, s.store, c.locals⟩ ⟨c.env, s.store,
      c.locals⟩ ⊤ (.nf depth t)
    (.nf depth t) := .nf (hC.agree depth) ht rfl
  unfold reduce Reducer.nf at h
  dsimp only at h
  split at h
  case h_1 x u hrun =>
    obtain ⟨rfl, -⟩ := EStateM.Result.ok.inj h
    rw [← Reducer.run_nf] at hrun
    obtain ⟨-, w, T, hw, hwx⟩ := (Reducer.keeps_run hC.env unboundedGas hcall).ok hmemo hrun
    obtain ⟨-, -, hover, -⟩ := hw.transport hC.env.closedIn (hcall.round hC.env.closedIn)
    exact ⟨w, ⟨ht, T, hw, hw.cost_le_of_run hC.env hcall hmemo hrun⟩, hover, hwx⟩
  case h_2 => contradiction

/-- Conversion accepts terms with the same normal form and leaves the store as it is: no hole is
solved, no level is constrained and nothing is kept for later. The normal form, which both terms
come to with the fuel that conversion has, must have no hole, and normalization of both terms must
be steady. The limit for nested comparisons stops conversion at most if it is smaller than the
normal form. -/
theorem convertIn_of_normalForms {v w : Term} {s₁ s₂ : ConversionState}
    (hright : s.memo.Right ⟨c.env, s.store, c.locals⟩) (hfits : s.memo.Fits A)
    (hl : l.Over (.ofArity A holes) ⊤) (hr : r.Over (.ofArity A holes) ⊤)
    (hlv : c.reduce (·.nf depth l) s = .ok v s₁) (hrw : c.reduce (·.nf depth r) s = .ok w s₂)
    (hsame : v.same w = true) (hground : holes → v.hasHole = false)
    (hsteady : Reducer.Steady A ⟨c.env, s.store, c.locals⟩ c.limits.reductionFuel s.memo depth l)
    (hsteady' : Reducer.Steady A ⟨c.env, s.store, c.locals⟩ c.limits.reductionFuel s.memo depth r)
    (room : ℕ) (cmp : Comparison) :
    match c.convertIn room depth cmp l r s with
    | .ok () s' => s'.store = s.store
    | .error e _ => e = .located .nestingLimit c.span ∨ room < v.subterms.length ∧
      e = .located .reductionLimit c.span := by
  have hmemo := Reducer.backed_of_right (r := ⟨c.env, s.store, c.locals⟩) hC.env hright hfits
  obtain ⟨x, hx, hover, hxv⟩ := norms_of_reduce hC hmemo hl hlv
  obtain ⟨y, hy, -, hyw⟩ := norms_of_reduce hC hmemo hr hrw
  have hhole : x.hasHole = false := by
    by_cases h : holes
    · rw [Term.hasHole_alike hxv]
      exact hground h
    · exact hover.hasHole_eq_false fun _ => h
  have hxy : x.anonymize = y.anonymize := hxv.trans ((Term.same_iff.mp hsame).trans hyw.symm)
  have hjoined : (setting A holes c s).Joined v.subterms.length depth l r :=
    Reducer.Setting.joined_of_unrolls hC hmemo (Term.length_subterms_alike hxv).le hhole hxy hl hr
      (.inl hx) (.inl hy) hsteady hsteady'
  have haccepts : Accepts A c s (room < v.subterms.length)
      (c.convertIn room depth cmp l r) fun _ => True :=
    accepts_convertIn hC hjoined
  have hrun := haccepts s ⟨rfl, hmemo, subset_rfl⟩
  cases h : c.convertIn room depth cmp l r s with
  | ok a s' =>
    rw [h] at hrun
    exact hrun.1.store
  | error e s' =>
    rw [h] at hrun
    exact hrun

end Comparing

end Acceptance

section Example

/-- The function `id`, in an empty context. -/
def plain : Converter := ⟨Reducer.withId.env, [], {}, default⟩

/-- `(\lam y => y) 0`, as the argument of a variable. -/
def redex : Term := .app (.var 0) (.app (.lam (.named "y") .nat (.var 0)) .zero)

theorem consistent_plain : Reducer.Consistent (fun _ => 0) False ⟨plain.env, {}, plain.locals⟩ :=
  ⟨Reducer.closed_withId, fun h => h.elim, fun v hv => absurd hv (by simp [plain])⟩

/-- Normalization of a variable at an argument that reduces to zero. -/
theorem steady_plain {a : Term} {s : ReductionState} (ha : a.Over (.ofArity (fun _ => 0) False) ⊤)
    (hrun : Reducer.whnfGas ⟨plain.env, {}, plain.locals⟩ 1 9 a ⟨9, {}⟩ = .ok .zero s) :
    Reducer.Steady (fun _ => 0) ⟨plain.env, {}, plain.locals⟩ plain.limits.reductionFuel {} 1
      (.app (.var 0) a) := by
  have hreturns {t v : Term} {s : ReductionState}
      (h : Reducer.whnfGas ⟨plain.env, {}, plain.locals⟩ 1 9 t ⟨9, {}⟩ = .ok v s) :
      Reducer.HeadNormalizes (fun _ => 0) ⟨plain.env, {}, plain.locals⟩ 1 t v :=
    ⟨9, 9, {}, v, s, consistent_plain.empty_right.1, consistent_plain.empty_right.2, h,
      Term.same_refl v⟩
  have hvar : (Term.var 0).Over (.ofArity (fun _ => 0) False) ⊤ := by simp
  have hzero : Reducer.Steady (fun _ => 0) ⟨plain.env, {}, plain.locals⟩
      plain.limits.reductionFuel {} 1 a := by
    refine consistent_plain.steady ha (hreturns hrun) trivial (fun f b h => ?_)
      (by simp [Term.parts])
    cases Term.alike h
  have hhead : Reducer.Steady (fun _ => 0) ⟨plain.env, {}, plain.locals⟩ plain.limits.reductionFuel
      {} 1 (.var 0) := by
    refine consistent_plain.steady (v := .var 0) hvar (hreturns rfl) hvar (fun f b h => ?_)
      (by simp [Term.parts])
    cases Term.alike h
  have hparts : ∀ p ∈ (Term.app (.var 0) a).parts,
      Reducer.Steady (fun _ => 0) ⟨plain.env, {}, plain.locals⟩
      plain.limits.reductionFuel {} (1 + p.1) p.2 := by simpa [Term.parts] using ⟨hhead, hzero⟩
  refine consistent_plain.steady (v := .app (.var 0) a) ⟨hvar, ha⟩ (hreturns rfl) ⟨hvar, ha⟩
    (fun f b h => ?_) hparts
  cases Term.alike h with
  | app hf hb =>
    cases Term.alike hf
    exact ⟨9, .var 0, _, rfl, rfl⟩

/-- A variable at a redex and at what the redex reduces to. -/
theorem convertIn_of_normalForms_redex :
    Reducer.Consistent (fun _ => 0) False ⟨plain.env, {}, plain.locals⟩ ∧
    Memo.Right ⟨plain.env, {}, plain.locals⟩ {} ∧ Memo.Fits (fun _ => 0) {} ∧
    redex.Over (.ofArity (fun _ => 0) False) ⊤ ∧
    (Term.app (.var 0) .zero).Over (.ofArity (fun _ => 0) False) ⊤ ∧
    plain.reduce (·.nf 1 redex) {} = .ok (.app (.var 0) .zero) {} ∧
    plain.reduce (·.nf 1 (.app (.var 0) .zero)) {} = .ok (.app (.var 0) .zero) {} ∧
    (Term.app (.var 0) .zero).same (.app (.var 0) .zero) = true ∧
    (False → (Term.app (.var 0) .zero).hasHole = false) ∧
    Reducer.Steady (fun _ => 0) ⟨plain.env, {}, plain.locals⟩
      plain.limits.reductionFuel {} 1 redex ∧
    Reducer.Steady (fun _ => 0) ⟨plain.env, {}, plain.locals⟩ plain.limits.reductionFuel {} 1
      (.app (.var 0) .zero) ∧
    match plain.convertIn 3 1 .eq redex (.app (.var 0) .zero) {} with
    | .ok () s => s.store = {}
    | .error e _ => e = .located .nestingLimit default ∨
      3 < (Term.app (.var 0) .zero).subterms.length ∧
        e = .located .reductionLimit default := by
  obtain ⟨hright, hfits⟩ := consistent_plain.empty_right
  have hl : redex.Over (.ofArity (fun _ => 0) False) ⊤ := by simp [redex]
  have hr : (Term.app (.var 0) .zero).Over (.ofArity (fun _ => 0) False) ⊤ := by simp
  have hlv : plain.reduce (·.nf 1 redex) {} = .ok (.app (.var 0) .zero) {} := rfl
  have hrw : plain.reduce (·.nf 1 (.app (.var 0) .zero)) {} = .ok (.app (.var 0) .zero) {} := rfl
  have hsteady := steady_plain hl.2 rfl
  have hsteady' := steady_plain hr.2 rfl
  exact ⟨consistent_plain, hright, hfits, hl, hr, hlv, hrw, rfl, False.elim, hsteady, hsteady',
    convertIn_of_normalForms consistent_plain hright hfits hl hr hlv hrw rfl False.elim
      hsteady hsteady' 3 .eq⟩

end Example

end Converter

end LeveledTypes
