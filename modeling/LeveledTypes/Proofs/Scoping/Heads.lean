import LeveledTypes.Proofs.Elaboration.Heads
import LeveledTypes.Proofs.Scoping.State

/-!
# Scoped constructors

The constructors that a scoped type is split into have arguments over the context of the type and
the arguments before them. A constructor that is guarded by index patterns is elaborated in a
context of its own, which grows with every variable of a pattern.
-/
namespace LeveledTypes

open Surface

/-- The arguments of a constructor and the parameters of its data type are over the context of the
type. -/
structure Head.Scoped (A : Arities) (n : ℕ) (h : Head) : Prop where
  arity : h.args.length = A.branch h.head
  args : Term.ScopedTele A n h.args
  params : ∀ u ps, h.universe? = some (u, ps) → ∀ p ∈ ps, p.Scoped A n

section Terms
variable {A : Arities} {n : ℕ}

theorem Term.scopedTele_domains {t : Term} (ht : t.Scoped A n) (k : ℕ) :
    ScopedTele A n (t.domains k) := by
  induction t, k using Term.domains.induct generalizing n with
  | case1 x a b k ih => exact ⟨ht.1, ih ht.2⟩
  | case2 t k h =>
    rw [Term.domains]
    · trivial
    · exact h

/-- The constructor of a branch is over the context and the variables of the branch. -/
theorem Head.Scoped.term {h : Head} (hh : h.Scoped A n) : h.term.Scoped A (n + h.args.length) := by
  have harity := hh.arity
  unfold Head.term
  split
  case h_1 => trivial
  case h_2 hhead =>
    rw [hhead, Arities.branch] at harity
    rw [Term.Scoped, Term.Scoped]
    omega
  case h_3 c hhead =>
    rw [hhead, Arities.branch] at harity
    extract_lets k
    refine
      ⟨by simp [k, harity], Term.scopedAll_iff.mpr fun p hp => ?_,
          Term.scopedAll_iff.mpr fun x hx => ?_⟩
    · obtain ⟨q, hq, rfl⟩ := List.mem_map.mp hp
      cases huniverse : h.universe? with
      | none => simp [huniverse] at hq
      | some up =>
        rw [huniverse] at hq
        exact (hh.params up.1 up.2 huniverse q hq).lift k
    · exact (Term.scoped_range k x hx).mono (Nat.le_add_left _ _)

/-- The constructor at the parameters of its data type, applied to arguments over a longer
context. -/
theorem Head.Scoped.applied {h : Head} (hh : h.Scoped A n) {b : ℕ} {xs : List Term}
    (hlength : xs.length = h.args.length) (hxs : ∀ x ∈ xs, x.Scoped A (n + b)) :
    Term.Scoped A (n + b) (match h.head, h.universe? with
      | .con c, some (u, params) => .con c u (params.map (·.lift b)) xs
      | .succ, _ => .succ (xs.headD .zero)
      | _, _ => .zero) := by
  have harity := hh.arity
  split
  case h_1 c u params hhead huniverse =>
    rw [hhead, Arities.branch] at harity
    refine ⟨hlength.trans harity, Term.scopedAll_iff.mpr fun q hq => ?_, Term.scopedAll_iff.mpr hxs⟩
    obtain ⟨p, hp, rfl⟩ := List.mem_map.mp hq
    exact (hh.params u params huniverse p hp).lift b
  case h_2 =>
    cases xs with
    | nil => trivial
    | cons x xs => exact hxs x (by simp)
  case h_3 => trivial

/-- A constructor with values for all its leading parameters. -/
theorem Definition.scoped_head {d : Definition} {k : ℕ} {u : Universe} {values : List Term}
    (hd : d.Throughout (Term.Scoped A)) (harity : A.con d.name = d.tele.length - k)
    (hk : min k d.tele.length ≤ values.length) (hvalues : ∀ a ∈ values, a.Scoped A n) :
    (d.head (min k d.tele.length) u values).Scoped A n := by
  refine ⟨?_, ?_, ?_⟩
  · rw [length_args_head, head, Arities.branch, harity]
    omega
  · have htele : Term.ScopedTele A 0 d.tele := Term.scopedTele_iff.mpr (by simpa using hd.tele)
    rw [← List.take_append_drop (min k d.tele.length) d.tele, Term.scopedTele_append, Nat.zero_add,
      List.length_take] at htele
    refine Term.scopedTele_domains (Term.Scoped.substAll ?_ hvalues) _
    refine Term.Scoped.substLevels (Term.Scoped.mono (Term.scoped_pis.mpr ⟨htele.2, trivial⟩) ?_)
    omega
  · intro v ps h
    obtain ⟨rfl, rfl⟩ := Prod.mk.inj (Option.some.inj h)
    exact hvalues

end Terms

namespace Surface.Pattern

/-- Structural induction, with a hypothesis for every argument of a constructor pattern. -/
@[elab_as_elim]
theorem induct {motive : Pattern → Prop} (name : ∀ span n ps, motive (.name span n ps))
    (var : ∀ span v, motive (.var span v)) (con : ∀ span c ps, (∀ p ∈ ps, motive p) →
      motive (.con span c ps))
    (num : ∀ span n, motive (.num span n)) (absurd : ∀ span, motive (.absurd span))
    (p : Pattern) : motive p := by
  refine @Pattern.rec motive (fun ps => ∀ p ∈ ps, motive p)
    (fun span n ps _ => name span n ps) var con num absurd (by simp)
    (fun p ps hp hps => List.forall_mem_cons.mpr ⟨hp, hps⟩) p

end Surface.Pattern

namespace Elaborator
variable {e : Elaborator} {A : Arities} {env : Environment} {fixed : Option (List Obligation)}
  {c : Context} {span : Span} {data : GlobalName}

section Indices
variable {n : ℕ}

/-- What matching found are scoped values of variables. -/
def ScopedMatch (A : Arities) (n : ℕ) (o : Option (List (ℕ × Term))) : Prop :=
  ∀ out, o = some out → ∀ q ∈ out, q.2.Scoped A n

theorem scopes_notMatched {a : Term} :
    e.Scopes A env fixed (notMatched c data span a) (ScopedMatch A n) := by
  unfold notMatched
  split
  case h_4 => exact .bind scopes_shown fun _ _ => scopes_mismatch
  all_goals exact .pure fun _ h => nomatch h

/-- The induction is on the patterns; values that have been found stay scoped. -/
theorem scopes_matchIndices {ps as : List Term} {out : List (ℕ × Term)}
    (hps : ∀ p ∈ ps, ∀ a out, a.Scoped A n → (∀ q ∈ out, q.2.Scoped A n) →
      e.Scopes A env fixed (e.matchIndex c data span p a out) (ScopedMatch A n))
    (has : ∀ a ∈ as, a.Scoped A n) (hout : ∀ q ∈ out, q.2.Scoped A n) :
    e.Scopes A env fixed (e.matchIndices c data span ps as out) (ScopedMatch A n) := by
  have hdone : ScopedMatch A n (some out) := by
    rintro out' ⟨⟩
    exact hout
  induction ps generalizing as out with
  | nil => exact .pure hdone
  | cons p ps ih =>
    obtain ⟨hp, hps⟩ := List.forall_mem_cons.mp hps
    cases as with
    | nil => exact .pure hdone
    | cons a as =>
      obtain ⟨ha, has⟩ := List.forall_mem_cons.mp has
      rw [matchIndices]
      refine .bind (hp a out ha hout) fun o ho => ?_
      cases o with
      | none => exact .pure (by simp [ScopedMatch])
      | some out' => exact ih hps has (ho out' rfl) ho

variable (henv : env.Scoped A) (hc : c.Scoped A)

include henv hc

/-- The value of a variable of the pattern is a part of the index. The induction is on the pattern.
-/
theorem scopes_matchIndex (p a : Term) (out : List (ℕ × Term)) (ha : a.Scoped A c.length)
    (hout : ∀ q ∈ out, q.2.Scoped A c.length) :
    e.Scopes A env fixed (e.matchIndex c data span p a out) (ScopedMatch A c.length) := by
  induction p generalizing a out with
  | var i =>
    refine .pure ?_
    rintro out' ⟨⟩
    exact List.forall_mem_cons.mpr ⟨ha, hout⟩
  | zero =>
    rw [matchIndex]
    refine .bind (scopes_whnf henv hc ha) fun t ht => ?_
    split
    case h_1 =>
      refine .pure ?_
      rintro out' ⟨⟩
      exact hout
    case h_2 => exact scopes_notMatched
  | succ p ih =>
    rw [matchIndex]
    refine .bind (scopes_whnf henv hc ha) fun t ht => ?_
    split
    case h_1 _ b => exact ih b out ht hout
    case h_2 => exact scopes_notMatched
  | con k u qs ps ihq ihp =>
    rw [matchIndex]
    refine .bind (scopes_whnf henv hc ha) fun t ht => ?_
    split
    case h_1 xs _ =>
      split
      · exact scopes_matchIndices ihp (Term.scopedAll_iff.mp ht.2.2) hout
      · exact scopes_notMatched
    case h_2 => exact scopes_notMatched
  | _ => exact .bind (scopes_whnf henv hc ha) fun t ht => scopes_notMatched

/-- Every leading parameter of a guarded constructor gets a value. -/
theorem scopes_indexValues {ps as : List Term} {k : ℕ} (has : ∀ a ∈ as, a.Scoped A c.length) :
    e.Scopes A env fixed (e.indexValues c data ps as k span) fun o => ∀ values, o = some values →
      k ≤ values.length ∧ ∀ a ∈ values, a.Scoped A c.length := by
  refine .bind (scopes_matchIndices (fun p _ => scopes_matchIndex henv hc p) has
    (by simp)) fun o ho => ?_
  split
  case h_1 out =>
    refine .pure fun values hvalues => ?_
    have hlookups := forall₂_of_mapM hvalues
    refine ⟨by simpa using hlookups.length_eq.le, fun a ha => ?_⟩
    obtain ⟨i, -, hi⟩ := exists_mem_of_forall₂_right hlookups ha
    obtain ⟨l, r, rfl, -⟩ := List.lookup_eq_some_iff.mp hi
    exact ho _ rfl (k - 1 - i, a) (by simp)
  case h_2 => exact .pure fun _ h => nomatch h

/-- The arguments of a constructor are over the context of the type, with the parameters of the type
put in. -/
theorem scopes_headOf {k : Definition} {u : Universe} {args : List Term}
    (hk : env.get? k.name = some k)
    (hparams : ∀ data index params, k.body = .constructor data index params none →
      params ≤ args.length)
    (hargs : ∀ a ∈ args, a.Scoped A c.length) :
    e.Scopes A env fixed (e.headOf c data u args span k) fun o => ∀ h, o = some h →
    h.Scoped A c.length := by
  unfold headOf
  split
  case h_1 d index params patterns hbody =>
    have hsuits := henv.suits _ k hk
    simp only [Definition.Suits, hbody] at hsuits
    have hpure (o : Option (List Term)) (ho : ∀ values, o = some values →
        min params k.tele.length ≤ values.length ∧ ∀ a ∈ values, a.Scoped A c.length) :
        e.Scopes A env fixed (pure (o.map (k.head (min params k.tele.length) u)) :
          Elab (Option Head)) fun o => ∀ h, o = some h → h.Scoped A c.length := by
      refine .pure fun h hh => ?_
      obtain ⟨values, hvalues, rfl⟩ := Option.map_eq_some_iff.mp hh
      obtain ⟨hlength, hvalues⟩ := ho values hvalues
      exact Definition.scoped_head (henv.terms _ k hk) hsuits hlength hvalues
    cases patterns with
    | none =>
      refine hpure (some args) ?_
      rintro values ⟨⟩
      exact ⟨(Nat.min_le_left _ _).trans (hparams d index params hbody), hargs⟩
    | some ps => exact .bind (scopes_indexValues henv hc hargs) hpure
  case h_2 => exact .pure fun _ h => nomatch h

/-- The constructors of a data type are looked up by their names; each of those that can build the
type has its arguments over the context. -/
theorem scopes_heads? {type : Term} (htype : type.Scoped A c.length) :
    e.Scopes A env fixed (e.heads? c type span) fun o => ∀ hs, o = some hs →
    ∀ h ∈ hs, h.Scoped A c.length := by
  refine .bind (scopes_whnf henv hc htype) fun t ht => ?_
  split
  case h_1 =>
    refine .pure ?_
    rintro hs ⟨⟩
    simp only [List.mem_cons, List.not_mem_nil, or_false, forall_eq_or_imp, forall_eq]
    exact ⟨⟨rfl, trivial, by simp⟩, rfl, ⟨trivial, trivial⟩, by simp⟩
  case h_2 _ d u args =>
    obtain ⟨hlength, hargs⟩ := ht
    rw [Term.scopedAll_iff] at hargs
    refine .bind scopes_environment fun env' henv' => ?_
    subst henv'
    split
    case h_1 ctors hdata =>
      obtain rfl := henv.name d _ hdata
      have hsuits := henv.suits _ _ hdata
      dsimp only [Definition.Suits] at hsuits
      refine .bind (.mapM (R := fun _ o => ∀ h, o = some h → h.Scoped A c.length) fun k hk => ?_)
        fun os hos => ?_
      · obtain ⟨n, hn, hnk⟩ := List.mem_filterMap.mp hk
        refine scopes_headOf henv hc (henv.name n k hnk ▸ hnk)
          (fun data index params hbody => ?_) hargs
        exact (henv.params _ _ _ hdata rfl n hn k hnk data index params hbody).trans
          (hsuits ▸ hlength)
      · refine .pure ?_
        rintro hs ⟨⟩ h hh
        obtain ⟨o, ho, rfl⟩ := List.mem_filterMap.mp hh
        obtain ⟨k, -, hko⟩ := exists_mem_of_forall₂_right hos ho
        exact hko h rfl
    case h_2 => exact .pure fun _ h => nomatch h
  case h_3 => exact .pure fun _ h => nomatch h

end Indices

section Guards

/-- A context that has grown, with index terms over it, `k` of which are new. -/
structure Grown (A : Arities) (c : Context) (acc : List Term) (k : ℕ) (r : Context × List Term) :
    Prop where
  context : r.1.Scoped A
  grows : c.length ≤ r.1.length
  terms : ∀ t ∈ r.2, t.Scoped A r.1.length
  length : r.2.length = acc.length + k

/-- The type of an argument of a constructor pattern is over the context that the pattern started in
and the arguments before it, for which there are terms by then. -/
theorem scopes_indexPatterns {ps : List Pattern}
    (hps : ∀ p ∈ ps, ∀ (c : Context) (type : Term) (acc : List Term), c.Scoped A →
      type.Scoped A c.length →
      (∀ t ∈ acc, t.Scoped A c.length) → e.Scopes A env fixed (e.indexPattern c type acc p)
      (Grown A c acc 1))
    {start mark a : ℕ} {types acc : List Term} (hc : c.Scoped A) (hstart : start ≤ c.length)
    (htypes : ∀ (i : ℕ) type, types[i]? = some type → type.Scoped A (start + a + i))
    (hlength : types.length = ps.length) (hacc : ∀ t ∈ acc, t.Scoped A c.length)
    (hmark : acc.length = mark + a) :
    e.Scopes A env fixed (e.indexPatterns start mark c types a acc ps)
      (Grown A c acc ps.length) := by
  induction ps generalizing c a types acc with
  | nil => exact .pure ⟨hc, le_rfl, hacc, rfl⟩
  | cons p ps ih =>
    obtain ⟨hp, hps⟩ := List.forall_mem_cons.mp hps
    obtain ⟨type, types, rfl⟩ := List.exists_cons_of_length_eq_add_one hlength
    have htype : ((type.shift (c.length - start : ℕ) a).substAll (acc.drop mark)).Scoped
        A c.length := by
      refine Term.Scoped.substAll ?_ fun t ht => hacc t (List.mem_of_mem_drop ht)
      have hshift := Term.Scoped.shift (c := a) (htypes 0 type rfl) (c.length - start)
      have hlengths : start + (c.length - start) + a = c.length + (acc.drop mark).length := by
        simp; omega
      rwa [hlengths] at hshift
    rw [indexPatterns]
    refine .bind (hp c _ acc hc htype hacc) fun ⟨d, acc'⟩ ⟨hd, hgrows, hacc', hlength'⟩ => ?_
    dsimp only at hd hgrows hacc' hlength' ⊢
    refine (ih hps hd (by omega) (fun i type hi => ?_) (by simpa using hlength) hacc'
      (by omega)).mono fun r hr => ?_
    · have htype := htypes (i + 1) type hi
      rwa [show start + a + (i + 1) = start + (a + 1) + i by omega] at htype
    · refine ⟨hr.context, hgrows.trans hr.grows, hr.terms, hr.length.trans ?_⟩
      rw [List.length_cons]
      omega

variable (henv : env.Scoped A)

include henv

/-- A variable makes the context longer by one entry, and a constructor by the variables of its
patterns. The induction is on the pattern. -/
theorem scopes_indexPattern (p : Pattern) {type : Term} {acc : List Term} (hc : c.Scoped A)
    (htype : type.Scoped A c.length) (hacc : ∀ t ∈ acc, t.Scoped A c.length) :
    e.Scopes A env fixed (e.indexPattern c type acc p) (Grown A c acc 1) := by
  induction p using Pattern.induct generalizing c type acc with
  | name span n ps => exact scopes_mismatch
  | absurd span => exact scopes_mismatch
  | var span v =>
    refine .pure ⟨hc.push htype, Nat.le_succ _, fun t ht => ?_, by simp⟩
    rcases List.mem_append.mp ht with ht | ht
    · obtain ⟨u, hu, rfl⟩ := List.mem_map.mp ht
      exact (hacc u hu).lift 1
    · obtain rfl := List.mem_singleton.mp ht
      exact Nat.succ_pos _
  | num span n =>
    refine .bind (scopes_convert henv hc htype trivial) fun _ _ =>
      .pure ⟨hc, le_rfl, fun t ht => ?_, by simp⟩
    rcases List.mem_append.mp ht with ht | ht
    · exact hacc t ht
    · obtain rfl := List.mem_singleton.mp ht
      exact Term.scoped_numeral n
  | con span n ps ih =>
    rw [indexPattern]
    refine .bind (scopes_heads? henv hc htype) fun o ho => ?_
    extract_lets head
    have hhead : ∀ h, head = some h → h.Scoped A c.length := by
      intro h hhead
      have hmem := List.mem_of_find?_eq_some hhead
      cases o with
      | none => simp at hmem
      | some hs => exact ho hs rfl h hmem
    clear_value head
    cases head with
    | none => exact .bind scopes_shown fun _ _ => scopes_mismatch
    | some h =>
      have hh := hhead h rfl
      dsimp -zeta only
      extract_lets join
      split
      case isTrue => exact .bind (P := fun _ => False) scopes_mismatch fun _ h => h.elim
      case isFalse hlength =>
        have hlength : ps.length = h.args.length := by simpa using hlength
        refine .bind (scopes_indexPatterns (a := 0) (fun p hp c type acc => ih p hp) hc le_rfl
          (fun i type hi => ?_) (by simp [hlength]) hacc rfl) fun ⟨d, all⟩ hgrown => ?_
        · obtain ⟨p, hp, rfl⟩ := Option.map_eq_some_iff.mp ((List.getElem?_map ..).symm.trans hi)
          exact Term.scopedTele_iff.mp hh.args i p hp
        · obtain ⟨hd, hgrows, hall, hlengthAll⟩ := hgrown
          dsimp -zeta only at hd hgrows hall hlengthAll ⊢
          extract_lets bound xs t
          have hadd : c.length + bound = d.length := by omega
          have hxs : ∀ x ∈ xs, x.Scoped A (c.length + bound) :=
            fun x hx => hadd ▸ hall x (List.mem_of_mem_drop hx)
          have ht : t.Scoped A d.length :=
            hadd ▸ hh.applied (by simp only [xs, List.length_drop]; omega) hxs
          refine .pure ⟨hd, hgrows, fun x hx => ?_, ?_⟩
          · rcases List.mem_append.mp hx with hx | hx
            · exact hall x (List.mem_of_mem_take hx)
            · exact List.mem_singleton.mp hx ▸ ht
          · simp only [List.length_append, List.length_take, List.length_singleton]
            omega

/-- The induction is on the patterns: the type of each parameter has the values of those before it
put in. -/
theorem scopes_guardPatterns {ps : List Pattern} {tele : Telescope Term} {acc : List Term}
    (hc : c.Scoped A) (htele : Term.ScopedTele A acc.length tele)
    (hacc : ∀ t ∈ acc, t.Scoped A c.length) :
    e.Scopes A env fixed (e.guardPatterns c ps tele acc) fun r => r.1.Scoped A ∧
    ∀ t ∈ r.2, t.Scoped A r.1.length := by
  induction ps generalizing c tele acc with
  | nil => exact .pure ⟨hc, hacc⟩
  | cons p ps ih =>
    cases tele with
    | nil => exact .pure ⟨hc, hacc⟩
    | cons q tele =>
      rw [guardPatterns]
      refine .bind (scopes_indexPattern henv p hc ?_ hacc) fun ⟨d, acc'⟩ hgrown => ?_
      · exact Term.Scoped.substAll (htele.1.mono (Nat.le_add_left _ _)) hacc
      · exact ih hgrown.context (hgrown.length ▸ htele.2) hgrown.terms

end Guards

end Elaborator

end LeveledTypes
