import LeveledTypes.Proofs.Conversion.Shapes
import LeveledTypes.Proofs.Reduction.Instantiation

/-!
# What conversion leaves alone

However a run of conversion ends, no hole loses its solution or gets another one, the terms of the
store stay over the signature, and what is remembered stays sound. Reduction leaves the whole store
as it is. The solution that a hole gets is closed, but for the domains of its abstractions.
-/
namespace LeveledTypes

namespace Term
variable {S : Signature}

theorem parts_erase_subset {t : Term} :
    ∀ q ∈ t.erase.parts, q = (0, .zero) ∨ ∃ p ∈ t.parts, q = (p.1, p.2.erase) := by
  cases t <;> simp [erase, parts, eraseBranch, Branch.arity] <;> grind

theorem Over.erase {t : Term} {n : ℕ∞} (ht : t.Over S n) : t.erase.Over S n := by
  induction t using induct_parts generalizing n with
  | step t ih =>
    obtain ⟨h, hp⟩ := over_iff.mp ht
    refine over_iff.mpr ⟨?_, fun q hq => ?_⟩
    · cases t <;> simp_all [Allowed, Term.erase, eraseBranch, Branch.arity, Signature.Admits,
        Universe.zero, Level.hole?]
    · obtain rfl | ⟨p, hpt, rfl⟩ := parts_erase_subset q hq
      · trivial
      · exact ih p hpt (hp p hpt)

/-- Abstractions over all free variables of a term. -/
theorem erasesClosed_lams {tele : Telescope Term} {t : Term} (ht : t.Over S tele.length) :
    (lams tele t).ErasesClosed := by
  have h {tele : Telescope Term} {n : ℕ} (ht : t.Over S ↑(n + tele.length)) :
      (lams tele t).erase.Over S n := by
    induction tele generalizing n with
    | nil => exact ht.erase
    | cons p tele ih =>
      refine ⟨trivial, ?_⟩
      have hbody := ih (n := n + 1) (by simpa [Nat.add_assoc, Nat.add_comm 1] using ht)
      exact_mod_cast hbody
  exact (h (n := 0) (by simpa using ht)).isClosed_eq_true

end Term

namespace Converter
variable {S : Signature}

/-- The function that is left when abstractions are dropped lives outside of them. -/
theorem over_contractEta_snd {t : Term} {k : ℕ} (ht : t.Over S k) :
    (contractEta t k).1.Over S (contractEta t k).2 := by
  induction t, k using contractEta.induct with
  | case1 f k hvar => simpa [contractEta, hvar] using ht
  | case2 f k hvar ih =>
    rw [contractEta, if_neg hvar]
    refine ih ?_
    have hvar : f.anyVar (· == 0) = false := by simpa [Term.hasVar] using hvar
    have hinst : f.shift (-1) 0 = f.inst (Term.push .zero .var) := by
      rw [Term.shift_neg_one (by simpa [Term.hasVar] using hvar)]
      refine Term.inst_congr hvar fun i hi => ?_
      obtain ⟨j, rfl⟩ := Nat.exists_eq_succ_of_ne_zero (by simpa using hi)
      rfl
    rw [hinst]
    refine ht.1.inst fun i hi => ?_
    cases i with
    | zero => trivial
    | succ i =>
      have : i < k := by simpa using hi
      exact Nat.cast_lt.mpr this
  | case3 t k h => rwa [contractEta.eq_2 _ _ h]

/-- A renamed term has the new variables only. -/
theorem over_of_patternName {vars : List ℕ} {t t' : Term} (ht : t.Over S ⊤)
    (h : t.renameFree? (patternName vars) = some t') : t'.Over S vars.length := by
  obtain ⟨hvars, rfl⟩ := Term.renameFree?_eq_some h
  have hinst : t.inst (fun i => .var ((patternName vars i).getD i)) =
      t.inst fun i => ((patternName vars i).map Term.var).getD .zero := by
    refine Term.inst_congr hvars fun i hi => ?_
    obtain ⟨k, hk⟩ := Option.isSome_iff_exists.mp (by simpa using hi)
    simp [hk]
  rw [hinst]
  refine ht.inst fun i _ => ?_
  cases hk : patternName vars i with
  | none => trivial
  | some k =>
    obtain ⟨j, hj, rfl⟩ := Option.map_eq_some_iff.mp hk
    obtain ⟨hlt, -⟩ := List.idxOf?_eq_some_iff.mp hj
    exact Nat.cast_lt.mpr (by omega)

theorem erasesClosed_patternSolution {vars : List ℕ} {rhs body : Term} (hrhs : rhs.Over S ⊤)
    (hbody : rhs.renameFree? (patternName vars) = some body) (type : Term) :
    (patternSolution type body vars.length).ErasesClosed := by
  refine Term.erasesClosed_lams (S := S) ?_
  rw [length_solutionTele]
  exact over_contractEta_snd (over_of_patternName hrhs hbody)

end Converter

/-- A store whose solutions and types of holes are over a signature. -/
structure Store.TermsOver (S : Signature) (s : Store) : Prop where
  solutions : ∀ m t, s.solution? m = some t → t.Over S ⊤
  types : ∀ (m : ℕ) (h : Hole), s.holes[m]? = some h → h.type.Over S ⊤

/-- A store whose terms are over a signature, and whose solutions are closed once they are
erased. -/
structure Store.Valid (S : Signature) (s : Store) : Prop where
  solutions : ∀ m t, s.solution? m = some t → t.Over S ⊤
  closed : ∀ m t, s.solution? m = some t → t.ErasesClosed
  types : ∀ (m : ℕ) (h : Hole), s.holes[m]? = some h → h.type.Over S ⊤

namespace Store
variable {S : Signature} {s : Store}

theorem eq_or_solution?_of_assign {m m' : ℕ} {t t' : Term}
    (h : (s.assign m t).solution? m' = some t') : t' = t ∨ s.solution? m' = some t' := by
  rw [solution?_assign] at h
  split at h
  · obtain ⟨_, -, rfl⟩ := Option.map_eq_some_iff.mp h
    exact .inl rfl
  · exact .inr h

theorem TermsOver.assign (hs : s.TermsOver S) {m : ℕ} {t : Term} (ht : t.Over S ⊤) :
    (s.assign m t).TermsOver S := by
  refine ⟨fun m' t' h => ?_, fun m' h hh => ?_⟩
  · obtain rfl | h := eq_or_solution?_of_assign h
    · exact ht
    · exact hs.solutions m' t' h
  · rw [getElem?_assign] at hh
    split at hh
    · obtain ⟨h', hh', rfl⟩ := Option.map_eq_some_iff.mp hh
      exact hs.types m' h' hh'
    · exact hs.types m' h hh

theorem TermsOver.holeType (hs : s.TermsOver S) (m : ℕ) : (s.holeType m).Over S ⊤ := by
  unfold Store.holeType
  cases h : s.holes[m]? with
  | none => trivial
  | some k => exact hs.types m k h

theorem TermsOver.zonk (hs : s.TermsOver S) (hS : ∀ u, S.Admits u) {t : Term} (ht : t.Over S ⊤) :
    (s.zonk t).Over S ⊤ := by
  have hfill : Replaceable S default ⟨s.solution?, 0, 0⟩ t (t.fillDeep s.solution? s.holes.size) :=
    Term.replaceable_fillDeep (fun m t _ => hs.solutions m t) (fun _ _ _ => id) _ ht
  exact hfill.1.replace (n := ⊤) (m := ⊤) (by simp) (by simp) (fun _ _ => id) fun u _ => hS _

theorem Valid.termsOver (hs : s.Valid S) : s.TermsOver S := ⟨hs.solutions, hs.types⟩

theorem Valid.assign (hs : s.Valid S) {m : ℕ} {t : Term} (ht : t.Over S ⊤) (hc : t.ErasesClosed) :
    (s.assign m t).Valid S := by
  have hover := hs.termsOver.assign (m := m) ht
  refine ⟨hover.solutions, fun m' t' h => ?_, hover.types⟩
  obtain rfl | h := eq_or_solution?_of_assign h
  · exact hc
  · exact hs.closed m' t' h

theorem Valid.holeType (hs : s.Valid S) (m : ℕ) : (s.holeType m).Over S ⊤ := hs.termsOver.holeType m

theorem Valid.over_zonk (hs : s.Valid S) (hS : ∀ u, S.Admits u) {t : Term} (ht : t.Over S ⊤) :
    (s.zonk t).Over S ⊤ := hs.termsOver.zonk hS ht

end Store

namespace ConversionState

/-- The store is the given one, and what is remembered is sound. -/
structure Frozen (S : Signature) (env : Environment) (store : Store) (s : ConversionState) :
    Prop where
  store : s.store = store
  memo : s.memo.Sound S env

/-- A state that has the given solutions of holes. -/
structure Follows (S : Signature) (env : Environment) (sol : ℕ → Option Term)
    (s : ConversionState) : Prop where
  keeps : ∀ m t, sol m = some t → s.store.solution? m = some t
  valid : s.store.Valid S
  memo : s.memo.Sound S env

variable {S : Signature} {env : Environment} {sol : ℕ → Option Term} {α : Type}
  {x : Convert α} {Q : α → Prop}

/-- A run that leaves the store as it is keeps all solutions. -/
theorem Follows.of_frozen (h : ∀ store : Store, store.Valid S → Ensures (Frozen S env store) x Q) :
    Ensures (Follows S env sol) x Q := by
  intro s hs
  have hx := h s.store hs.valid s ⟨rfl, hs.memo⟩
  split at hx
  case h_1 a s' hr =>
    obtain ⟨⟨hstore, hmemo⟩, hQ⟩ := hx
    exact ⟨⟨hstore ▸ hs.keeps, hstore ▸ hs.valid, hmemo⟩, hQ⟩
  case h_2 e s' hr => exact ⟨hx.store ▸ hs.keeps, hx.store ▸ hs.valid, hx.memo⟩

end ConversionState

namespace Converter
variable {S : Signature} {c : Converter} {sol : ℕ → Option Term} {α : Type}
  {binders : ℕ} {t l r : Term}

open ConversionState

/-- Reduction reads the store and changes the memo only, so that a run of it is frozen. -/
theorem ensures_reduce {f : Reducer → Reduce α} {store : Store} {Q : α → Prop}
    (hf : Ensures (fun s => s.memo.Sound S c.env) (f ⟨c.env, store, c.locals⟩) Q) :
    Ensures (Frozen S c.env store) (c.reduce f) Q := by
  rintro s ⟨rfl, hmemo⟩
  have hfs := hf ⟨c.limits.reductionFuel, s.memo⟩ hmemo
  unfold reduce
  dsimp only
  cases hr : f ⟨c.env, s.store, c.locals⟩ ⟨c.limits.reductionFuel, s.memo⟩ with
  | ok a t =>
    simp only [hr] at hfs
    exact ⟨⟨rfl, hfs.1⟩, hfs.2⟩
  | error e t =>
    simp only [hr] at hfs
    exact ⟨rfl, hfs⟩

/-- A run that changes neither the holes nor what is remembered. -/
theorem follows_of_holes {x : Convert α} {Q : α → Prop} (h : ∀ s, match x s with
    | .ok a s' => s'.store.holes = s.store.holes ∧ s'.memo = s.memo ∧ Q a
    | .error _ s' => s'.store.holes = s.store.holes ∧ s'.memo = s.memo) :
      Ensures (Follows S c.env sol) x Q := by
  have hfollows {s s' : ConversionState} (hs : Follows S c.env sol s)
      (hholes : s'.store.holes = s.store.holes)
      (hmemo : s'.memo = s.memo) : Follows S c.env sol s' := by
    have hsolution : s'.store.solution? = s.store.solution? := by
      funext m
      rw [Store.solution?, Store.solution?, hholes]
    exact ⟨hsolution ▸ hs.keeps,
      ⟨hsolution ▸ hs.valid.solutions, hsolution ▸ hs.valid.closed, hholes ▸ hs.valid.types⟩,
      hmemo ▸ hs.memo⟩
  intro s hs
  have hx := h s
  cases hr : x s with
  | ok a s' =>
    simp only [hr] at hx
    exact ⟨hfollows hs hx.1 hx.2.1, hx.2.2⟩
  | error e s' =>
    simp only [hr] at hx
    exact hfollows hs hx.1 hx.2

/-- A constraint on universes changes the graphs of levels only. -/
theorem addUniverse_fst (s : Store) (cmp : Comparison) (u v : Universe) (span : Span) :
    ∃ p h, (s.addUniverse cmp u v span).1 = { s with p, h } := by
  unfold Store.addUniverse Store.addUniverses
  split <;> exact ⟨_, _, rfl⟩

theorem holes_addUniverse (s : Store) (cmp : Comparison) (u v : Universe) (span : Span) :
    (s.addUniverse cmp u v span).1.holes = s.holes := by
  obtain ⟨p, h, hstore⟩ := addUniverse_fst s cmp u v span
  rw [hstore]

theorem follows_addUniverse {cmp : Comparison} {u v : Universe} :
    Ensures (Follows S c.env sol) (c.addUniverse cmp u v) fun _ => True := by
  refine follows_of_holes fun s => ?_
  have hholes := holes_addUniverse s.store cmp u v c.span
  unfold addUniverse
  cases hr : s.store.addUniverse cmp u v c.span with
  | mk store e => cases e <;> simpa [hr] using hholes

theorem follows_defer {cmp : Comparison} :
    Ensures (Follows S c.env sol) (c.defer binders cmp l r) fun _ => True :=
  follows_of_holes fun _ => ⟨rfl, rfl, trivial⟩

/-- What is said of comparisons is that they keep the solutions. -/
theorem calculus_follows :
    Calculus S c fun x _ => Ensures (Follows S c.env sol) x fun _ => True where
  pure _ := .pure trivial
  throw := .throw _
  mono h _ := h
  seq hx hy := .bind hx fun _ _ => hy
  addUniverse _ _ := follows_addUniverse

section Run
variable (henv : c.env.Over S) (hL : c.locals.Over S)

include henv hL

theorem ensures_whnf {store : Store} (hstore : store.Valid S) (ht : t.Over S ⊤) :
    Ensures (Frozen S c.env store) (c.whnf binders t) fun t' =>
      Reduces c.env store.solution? (c.locals.under binders) t t' ∧ t'.Over S ⊤ := by
  have hc := (hL.under binders).contextOver fun m t _ => hstore.solutions m t
  have hwhnf := Reducer.yields_whnf (r := ⟨c.env, store, c.locals⟩) henv hc ht
  exact ensures_reduce (hwhnf.mono fun t' h => ⟨h, Reduces.preserves_over h henv hc ht⟩)

theorem follows_whnf (ht : t.Over S ⊤) :
    Ensures (Follows S c.env sol) (c.whnf binders t) fun t' => t'.Over S ⊤ :=
  Follows.of_frozen fun _ hstore => (ensures_whnf henv hL hstore ht).mono fun _ h => h.2

theorem follows_nf (ht : t.Over S ⊤) :
    Ensures (Follows S c.env sol) (c.reduce (·.nf binders t)) fun t' => t'.Over S ⊤ := by
  refine Follows.of_frozen fun store hstore => ensures_reduce ?_
  let r : Reducer := ⟨c.env, store, c.locals⟩
  have hnf : Reducer.Converts S ⟨store.solution?, 0, 0⟩ r binders t
      (r.nfGas unboundedGas binders t) :=
    Reducer.converts_nfGas henv (fun m t _ => hstore.solutions m t)
      (fun _ _ _ => id) hL unboundedGas ht
  exact hnf.mono fun _ h => h.1

/-- The variables of a spine are sought by reduction only. -/
theorem follows_patternVars {args : List Term} (hargs : ∀ a ∈ args, a.Over S ⊤) (vars : List ℕ) :
    Ensures (Follows S c.env sol) (c.patternVars binders args vars) fun _ => True := by
  induction args generalizing vars with
  | nil => exact .pure trivial
  | cons a args ih =>
    obtain ⟨ha, hrest⟩ := List.forall_mem_cons.mp hargs
    unfold patternVars
    split
    case' h_1 => refine .bind (.pure (P := fun _ => True) trivial) fun a' _ => ?_
    case' h_2 => refine .bind (follows_whnf henv hL ha) fun a' _ => ?_
    -- Either way, the search goes on if the argument is a variable that was not there.
    all_goals
      beta_reduce
      split
      · split
        · exact .pure trivial
        · exact ih hrest _
      · exact .pure trivial

/-- Solving a hole that had no solution. -/
theorem follows_solve (hS : ∀ u, S.Admits u) {m : ℕ} (hm : sol m = none) {cmp : Comparison}
    (hl : l.Over S ⊤) (hr : r.Over S ⊤) :
    Ensures (Follows S c.env sol) (c.solve binders m cmp l r) fun _ => True := by
  have hargs : ∀ a ∈ l.spine.2, a.Over S ⊤ := by
    rw [← Term.apps_spine l] at hl
    exact (Term.over_apps.mp hl).2
  unfold solve
  refine .bind (follows_patternVars henv hL hargs []) fun o _ => ?_
  split
  case h_1 => exact follows_defer
  case h_2 vars =>
    refine .bind (P := Follows S c.env sol) (fun s hs => ⟨hs, hs⟩) fun s hs => ?_
    extract_lets rhs n rename assign join
    have hzonk := Store.Valid.over_zonk hs.valid hS hr
    change rhs.Over S ⊤ at hzonk
    clear_value rhs
    have hassign {r'' body : Term} (hr'' : r''.Over S ⊤) (hbody : rename r'' = some body) :
        Ensures (Follows S c.env sol) (assign body) fun _ => True := by
      intro u hu
      have hpattern := over_patternSolution (hu.valid.holeType m)
        (over_of_renameFree? hr'' hbody) vars.length
      have hclosed := erasesClosed_patternSolution hr'' hbody (u.store.holeType m)
      refine ⟨⟨fun m' t' ht' => ?_, hu.valid.assign hpattern hclosed, hu.memo⟩, trivial⟩
      have hne : m ≠ m' := by
        rintro rfl
        simp [hm] at ht'
      exact (Store.solution?_assign m m' _).trans ((if_neg hne).trans (hu.keeps m' t' ht'))
    have hjoin : Ensures (Follows S c.env sol) (join ()) fun _ => True := by
      unfold join
      split
      case h_1 body hbody => exact hassign hzonk hbody
      case h_2 =>
        refine .bind (follows_nf henv hL hzonk) fun rhs' hrhs' => ?_
        split
        case h_1 body hbody => exact hassign hrhs' hbody
        case h_2 => exact follows_defer
    split
    · exact .bind (P := fun _ => True) (.throw _) fun _ _ => hjoin
    · exact hjoin

/-- One round of comparison only adds solutions, if the comparisons of parts do. -/
theorem follows_convertWith (hS : ∀ u, S.Admits u) {conv : ℕ → Comparison → Term →
    Term → Convert Unit}
    (hconv : ∀ (k : ℕ) (cmp : Comparison) (a b : Term), a.Over S ⊤ → b.Over S ⊤ →
      Ensures (Follows S c.env sol) (conv k cmp a b) fun _ => True)
    {cmp : Comparison} (hl : l.Over S ⊤) (hr : r.Over S ⊤) :
    Ensures (Follows S c.env sol) (c.convertWith binders conv cmp l r) fun _ => True := by
  unfold convertWith
  refine .bind (follows_whnf henv hL hl) fun l' hl' =>
    .bind (follows_whnf henv hL hr) fun r' hr' => ?_
  split
  case isTrue => exact .pure trivial
  case isFalse =>
    refine .bind (P := Follows S c.env sol) (fun s hs => ⟨hs, hs⟩) fun s hs => ?_
    have hunsolved {t : Term} {m : ℕ}
        (h : t.headHole?.filter (fun m => (s.store.solution? m).isNone) = some m) :
        sol m = none := by
      by_contra hm
      obtain ⟨t', ht'⟩ := Option.ne_none_iff_exists'.mp hm
      have hnone := (Option.filter_eq_some_iff.mp h).2
      simp [hs.keeps m t' ht'] at hnone
    extract_lets store unsolvedHead
    split
    case h_1 m hm => exact follows_solve henv hL hS (hunsolved hm) hl' hr'
    case h_2 =>
      split
      case h_1 m hm => exact follows_solve henv hL hS (hunsolved hm) hr' hl'
      case h_2 => exact compares_shapes (L := []) calculus_follows hconv hl' hr'

/-- A comparison at any depth only adds solutions. The induction is on the depth that is left. -/
theorem follows_convertIn (hS : ∀ u, S.Admits u) (room : ℕ) {cmp : Comparison} (hl : l.Over S ⊤)
    (hr : r.Over S ⊤) :
    Ensures (Follows S c.env sol) (c.convertIn room binders cmp l r) fun _ => True := by
  induction room generalizing binders cmp l r with
  | zero =>
    unfold convertIn
    split
    · exact .pure trivial
    · exact .throw _
  | succ room ih =>
    unfold convertIn
    split
    · exact .pure trivial
    · exact follows_convertWith henv hL hS (fun k cmp a b ha hb => ih ha hb) hl hr

end Run

end Converter

end LeveledTypes
