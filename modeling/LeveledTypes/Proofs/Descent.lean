import LeveledTypes.Descent
import LeveledTypes.Proofs.Reduction.Instantiation
import LeveledTypes.Proofs.Term.Subterms

/-!
# The test for structural descent

A scope says of each variable in a function body what binds it. Over scopes it can be said, without
running the test, where a function calls itself, with which arguments, and which variables are parts
of a parameter. The test finds exactly the calls, and accepts exactly the parameters that every call
passes a part of. Such a part is a proper subterm of the value of the parameter, once the case
splits above the call are reduced.
-/
namespace LeveledTypes

namespace Term

/-- All subterms of a term but itself. -/
def properSubterms (t : Term) : List Term := t.parts.flatMap (·.2.subterms)

theorem subterms_eq_cons (t : Term) : t.subterms = t :: t.properSubterms := t.subterms_eq

theorem mem_properSubterms_of_part {t : Term} {p : ℕ × Term} (hp : p ∈ t.parts) {s : Term}
    (hs : s ∈ p.2.subterms) : s ∈ t.properSubterms := List.mem_flatMap.mpr ⟨p, hp, hs⟩

/-- A subterm of a proper subterm is one. -/
theorem mem_properSubterms_trans {s t v : Term} (hs : s ∈ t.subterms) (ht : t ∈ v.properSubterms) :
    s ∈ v.properSubterms := by
  induction v using induct_parts with
  | step v ih =>
    obtain ⟨p, hp, htp⟩ := List.mem_flatMap.mp ht
    refine mem_properSubterms_of_part hp ?_
    rw [subterms_eq_cons, List.mem_cons] at htp ⊢
    obtain rfl | htp := htp
    · rwa [subterms_eq_cons, List.mem_cons] at hs
    · exact .inr (ih p hp htp)

end Term

/-- The arguments of a constructor are proper subterms. -/
theorem Reducer.mem_properSubterms_of_constructor? {a : Term} {h : BranchHead} {xs : List Term}
    (ha : constructor? a = some (h, xs)) : ∀ x ∈ xs, x ∈ a.properSubterms := by
  intro x hx
  have hpart : (0, x) ∈ a.parts := by
    cases a <;> simp_all [constructor?, Term.parts]
    all_goals
      obtain ⟨rfl, rfl⟩ := ha
      simp_all
  exact Term.mem_properSubterms_of_part hpart x.mem_subterms_self

/-- A term that is a constructor when it is lifted is one before. -/
theorem Reducer.constructor?_of_lift {a : Term} {d : ℕ} {h : BranchHead} {xs : List Term}
    (ha : constructor? (a.lift d) = some (h, xs)) : ∃ ys, constructor? a = some (h, ys) ∧
    xs = ys.map (·.lift d) := by
  rw [Term.lift_eq_inst] at ha
  have hlift : (fun t : Term => t.lift d) = Term.inst fun i => .var (i + d) :=
    funext fun t => t.lift_eq_inst d
  rw [hlift]
  cases a <;> simp_all [constructor?]

namespace Descent

/-- What binds a variable of a function body. -/
inductive Source where
  | param (k : ℕ)
  /-- A branch for the given constructor binds it to argument `j`. The scrutinee is outside of the
  branch. -/
  | branch (h : BranchHead) (scrut : Term) (j : ℕ)
  | other

/-- What binds the variables in scope, the innermost first. -/
abbrev Scope := List Source

namespace Scope

/-- The parameters of a function. -/
def params (n : ℕ) : Scope := (List.range n).reverse.map .param

/-- The scope under binders that are no branches. -/
def under (Γ : Scope) (n : ℕ) : Scope := List.replicate n .other ++ Γ

/-- The scope in a branch. -/
def branch (Γ : Scope) (scrut : Term) (b : Branch Term) : Scope :=
  (List.range b.arity).reverse.map (.branch b.head scrut) ++ Γ

/-- The parts of a term with their scopes. -/
def parts (Γ : Scope) : Term → List (Scope × Term)
  | .case a m bs => (Γ, a) :: (Γ.under 1, m) :: bs.map fun b => (Γ.branch a b, b.body)
  | t => t.parts.map fun p => (Γ.under p.1, p.2)

end Scope

/-- A variable that a branch of a case split on parameter `k` binds, or a split on a variable that
is such a part in turn. The scrutinee of the branch that binds variable `i` to argument `j` is `i +
1 + j` binders further out. -/
inductive PartOf (k : ℕ) (Γ : Scope) : ℕ → Prop
  | ofParam {i j x : ℕ} {h : BranchHead} : Γ[i]? = some (.branch h (.var x) j) →
    Γ[i + 1 + j + x]? = some (.param k) →
      PartOf k Γ i
  | ofPart {i j x : ℕ} {h : BranchHead} : Γ[i]? = some (.branch h (.var x) j) →
    PartOf k Γ (i + 1 + j + x) → PartOf k Γ i

/-- The function `f` occurs in a term that is applied to `args`: in scope `Δ`, where it is applied
to `bs`. -/
inductive Occurs (f : GlobalName) : Scope → Term → List Term → Scope → List Term → Prop
  | call {Γ : Scope} {u : Universe} {args : List Term} : Occurs f Γ (.ref f u) args Γ args
  | head {Γ Δ : Scope} {h a : Term} {args bs : List Term} : Occurs f Γ h (a :: args) Δ bs →
    Occurs f Γ (.app h a) args Δ bs
  | arg {Γ Δ : Scope} {h a : Term} {args bs : List Term} : Occurs f Γ a [] Δ bs →
    Occurs f Γ (.app h a) args Δ bs
  | part {Γ Γ' Δ : Scope} {t p : Term} {args bs : List Term} : (∀ h a, t ≠ .app h a) →
    (Γ', p) ∈ Γ.parts t →
      Occurs f Γ' p [] Δ bs → Occurs f Γ t args Δ bs

/-- Every call of `f` in a body under `n` parameters has as argument `k` a part of parameter `k`. -/
def Descends (f : GlobalName) (n k : ℕ) (body : Term) : Prop :=
  ∀ Δ args, Occurs f (.params n) body [] Δ args → ∃ i, args[k]? = some (.var i) ∧ PartOf k Δ i

section Origins
variable {Γ Δ : Scope} {k : ℕ}

/-- The origin of a variable, from what binds it and the origins of the variables outside of it. -/
def Source.origin (os : List Origin) : Source → Origin
  | .param k => .param k
  | .branch _ (.var x) j => (Descent.origin os (j + x)).parts
  | _ => .unknown

/-- The origins of the variables of a scope, as the test knows them. -/
def origins : Scope → List Origin
  | [] => []
  | s :: Γ => s.origin (origins Γ) :: origins Γ

theorem origin_cons_succ (o : Origin) (os : List Origin) (i : ℕ) :
    origin (o :: os) (i + 1) = origin os i := by
  simp [origin]

theorem origins_params (n : ℕ) : origins (.params n) = (List.range n).reverse.map .param := by
  have h (ks : List ℕ) : origins (ks.map .param) = ks.map .param := by
    induction ks with
    | nil => rfl
    | cons k ks ih => simp [origins, Source.origin, ih]
  exact h _

theorem origins_under (Γ : Scope) (n : ℕ) :
    origins (Γ.under n) = List.replicate n .unknown ++ origins Γ := by
  induction n with
  | zero => rfl
  | succ n ih => exact congrArg (Origin.unknown :: ·) ih

/-- The variables of a branch have one origin in common. -/
theorem origins_branch (Γ : Scope) (a : Term) (b : Branch Term) : origins (Γ.branch a b) =
    List.replicate b.arity (match a with
      | .var x => (origin (origins Γ) x).parts
      | _ => .unknown) ++ origins Γ := by
  unfold Scope.branch
  induction b.arity with
  | zero => rfl
  | succ m ih =>
    rw [List.range_succ, List.reverse_append, List.reverse_singleton, List.singleton_append,
      List.map_cons, List.cons_append, List.replicate_succ, List.cons_append, ← ih, origins]
    refine congrArg (· :: _) ?_
    cases a with
    | var x =>
      rw [Source.origin, ih]
      simp [origin, List.getElem?_append_right]
    | _ => rfl

/-- The test knows the parameters. -/
theorem origin_eq_param_iff {i : ℕ} :
    origin (origins Γ) i = .param k ↔ Γ[i]? = some (.param k) := by
  induction Γ generalizing i with
  | nil => simp [origins, origin]
  | cons s Γ ih =>
    cases i with
    | zero =>
      have hparts (o : Origin) : o.parts ≠ .param k := by cases o <;> simp [Origin.parts]
      cases s with
      | branch h a j => cases a <;> simp [origins, origin, Source.origin, hparts]
      | _ => simp [origins, origin, Source.origin]
    | succ i => rw [origins, origin_cons_succ, ih, List.getElem?_cons_succ]

theorem Origin.parts_eq_below_iff {o : Origin} :
    o.parts = .below k ↔ o = .param k ∨ o = .below k := by
  cases o <;> simp [parts]

/-- A variable outside of a binder is a part of the same argument under it. -/
theorem partOf_cons_succ_iff {s : Source} {i : ℕ} : PartOf k (s :: Γ) (i + 1) ↔ PartOf k Γ i := by
  have hindex (i j x : ℕ) : i + 1 + 1 + j + x = i + 1 + j + x + 1 := by omega
  constructor
  · generalize hi : i + 1 = i'
    intro h
    induction h generalizing i with
    | ofParam hbranch hparam =>
      subst hi
      rw [hindex] at hparam
      exact .ofParam (by simpa using hbranch) (by simpa using hparam)
    | @ofPart _ j x _ hbranch _ ih =>
      subst hi
      exact .ofPart (by simpa using hbranch) (ih (hindex i j x).symm)
  · intro h
    induction h with
    | ofParam hbranch hparam =>
      refine .ofParam (by simpa using hbranch) ?_
      rw [hindex]
      simpa using hparam
    | @ofPart i j x _ hbranch _ ih =>
      refine .ofPart (by simpa using hbranch) ?_
      rwa [hindex]

/-- The innermost variable is a part of a parameter if a branch binds it, and the scrutinee is this
parameter or a part of it. -/
theorem partOf_cons_zero_iff {s : Source} : PartOf k (s :: Γ) 0 ↔
    ∃ h x j, s = .branch h (.var x) j ∧ (Γ[j + x]? = some (.param k) ∨ PartOf k Γ (j + x)) := by
  have hindex (j x : ℕ) : 0 + 1 + j + x = j + x + 1 := by omega
  constructor
  · intro hpart
    cases hpart with
    | @ofParam _ j x h hbranch hparam =>
      exact ⟨h, x, j, by simpa using hbranch, .inl (by simpa [hindex] using hparam)⟩
    | @ofPart _ j x h hbranch hpart =>
      exact ⟨h, x, j, by simpa using hbranch,
        .inr (by simpa [hindex, partOf_cons_succ_iff] using hpart)⟩
  · rintro ⟨h, x, j, rfl, hparam | hpart⟩
    · exact .ofParam rfl (by simpa [hindex] using hparam)
    · exact .ofPart rfl (by simpa [hindex, partOf_cons_succ_iff] using hpart)

/-- The test knows the parts of parameters. -/
theorem origin_eq_below_iff {i : ℕ} : origin (origins Γ) i = .below k ↔ PartOf k Γ i := by
  induction Γ generalizing i with
  | nil =>
    refine ⟨fun h => by simp [origins, origin] at h, fun h => ?_⟩
    cases h <;> simp_all
  | cons s Γ ih =>
    cases i with
    | zero =>
      rw [partOf_cons_zero_iff]
      cases s with
      | branch h a j =>
        cases a <;>
          simp [origins, origin, Source.origin, Origin.parts_eq_below_iff, ← ih,
            ← origin_eq_param_iff]
      | _ => simp [origins, origin, Source.origin]
    | succ i => rw [origins, origin_cons_succ, ih, partOf_cons_succ_iff]

end Origins

section Calls
variable {f : GlobalName} {n : ℕ} {Γ Δ : Scope} {t : Term} {args bs : List Term}

theorem callsAll_eq_flatMap (os : List Origin) (ts : List Term) :
    callsAll f n os ts = ts.flatMap fun t => calls f n os t [] := by
  induction ts with
  | nil => rfl
  | cons t ts ih => simp [callsAll, ih]

theorem callsBranches_eq_flatMap (os : List Origin) (o : Origin) (bs : List (Branch Term)) :
    callsBranches f n os o bs = bs.flatMap fun b => calls f n
      (List.replicate b.arity o ++ os) b.body [] := by
  induction bs with
  | nil => rfl
  | cons b bs ih => simp [callsBranches, ih, Branch.arity]

/-- The calls in a term that is neither an application nor a global are those in its parts. -/
theorem calls_eq_flatMap (happ : ∀ h a, t ≠ .app h a) (href : ∀ n u, t ≠ .ref n u) :
    calls f n (origins Γ) t args = (Γ.parts t).flatMap fun p => calls f n (origins p.1) p.2 [] := by
  cases t with
  | app h a => exact absurd rfl (happ h a)
  | ref n u => exact absurd rfl (href n u)
  | case a m bs =>
    simp only [calls, Scope.parts, callsBranches_eq_flatMap, List.append_assoc, List.flatMap_cons,
      List.flatMap_map, origins_under, origins_branch]
    rfl
  | _ => simp [calls, Scope.parts, Term.parts, callsAll_eq_flatMap, List.flatMap_map, origins_under]

/-- The parts with their scopes are the parts. -/
theorem mem_parts_of_scope {Γ' : Scope} {p : Term} (hp : (Γ', p) ∈ Γ.parts t) :
    ∃ m, (m, p) ∈ t.parts := by
  cases t <;> simp_all [Scope.parts, Term.parts] <;> grind

theorem exists_scope_of_mem_parts {p : ℕ × Term} (hp : p ∈ t.parts) :
    ∃ Γ', (Γ', p.2) ∈ Γ.parts t := by
  cases t <;> simp_all [Scope.parts, Term.parts] <;> grind

/-- The test finds all calls of a function, and nothing else. -/
theorem mem_calls_iff {c : List Bool} : c ∈ calls f n (origins Γ) t args ↔
    ∃ Δ bs, Occurs f Γ t args Δ bs ∧ c = descents n (origins Δ) bs := by
  induction t using Term.induct_parts generalizing Γ args with
  | step t ih =>
    by_cases happ : ∃ h a, t = .app h a
    · obtain ⟨h, a, rfl⟩ := happ
      rw [calls, List.mem_append, ih (0, h) (by simp [Term.parts]),
        ih (0, a) (by simp [Term.parts])]
      constructor
      · rintro (⟨Δ, bs, ho, rfl⟩ | ⟨Δ, bs, ho, rfl⟩)
        · exact ⟨Δ, bs, .head ho, rfl⟩
        · exact ⟨Δ, bs, .arg ho, rfl⟩
      · rintro ⟨Δ, bs, ho, rfl⟩
        cases ho with
        | head ho => exact .inl ⟨Δ, bs, ho, rfl⟩
        | arg ho => exact .inr ⟨Δ, bs, ho, rfl⟩
        | part happ => exact absurd rfl (happ h a)
    by_cases href : ∃ g u, t = .ref g u
    · obtain ⟨g, u, rfl⟩ := href
      rw [calls]
      constructor
      · intro hc
        split at hc
        case isTrue hg =>
          subst hg
          exact ⟨Γ, args, .call, by simpa using hc⟩
        case isFalse => simp at hc
      · rintro ⟨Δ, bs, ho, rfl⟩
        cases ho with
        | call => simp
        | part _ hp => simp [Scope.parts, Term.parts] at hp
    push Not at happ href
    rw [calls_eq_flatMap happ href, List.mem_flatMap]
    constructor
    · rintro ⟨⟨Γ', p⟩, hp, hc⟩
      obtain ⟨m, hm⟩ := mem_parts_of_scope hp
      obtain ⟨Δ, bs, ho, rfl⟩ := (ih _ hm).mp hc
      exact ⟨Δ, bs, .part happ hp ho, rfl⟩
    · rintro ⟨Δ, bs, ho, rfl⟩
      cases ho with
      | call => exact absurd rfl (href _ _)
      | head => exact absurd rfl (happ _ _)
      | arg => exact absurd rfl (happ _ _)
      | part _ hp ho =>
        obtain ⟨m, hm⟩ := mem_parts_of_scope hp
        exact ⟨_, hp, (ih _ hm).mpr ⟨Δ, bs, ho, rfl⟩⟩

/-- A function occurs in a term in the sense of scopes if a subterm names it. -/
theorem exists_occurs_iff : (∃ Δ bs, Occurs f Γ t args Δ bs) ↔ ∃ u, .ref f u ∈ t.subterms := by
  induction t using Term.induct_parts generalizing Γ args with
  | step t ih =>
    rw [Term.subterms_eq]
    simp only [List.mem_cons, List.mem_flatMap]
    constructor
    · rintro ⟨Δ, bs, ho⟩
      cases ho with
      | call => exact ⟨_, .inl rfl⟩
      | @head _ _ h a _ _ ho =>
        obtain ⟨u, hu⟩ := (ih (0, h) (by simp [Term.parts])).mp ⟨_, _, ho⟩
        exact ⟨u, .inr ⟨(0, h), by simp [Term.parts], hu⟩⟩
      | @arg _ _ h a _ _ ho =>
        obtain ⟨u, hu⟩ := (ih (0, a) (by simp [Term.parts])).mp ⟨_, _, ho⟩
        exact ⟨u, .inr ⟨(0, a), by simp [Term.parts], hu⟩⟩
      | part _ hp ho =>
        obtain ⟨m, hm⟩ := mem_parts_of_scope hp
        obtain ⟨u, hu⟩ := (ih _ hm).mp ⟨_, _, ho⟩
        exact ⟨u, .inr ⟨_, hm, hu⟩⟩
    · rintro ⟨u, rfl | ⟨p, hp, hu⟩⟩
      · exact ⟨_, _, .call⟩
      · by_cases happ : ∃ h a, t = .app h a
        · obtain ⟨h, a, rfl⟩ := happ
          obtain rfl | rfl : p = (0, h) ∨ p = (0, a) := by simpa [Term.parts] using hp
          · obtain ⟨Δ, bs, ho⟩ := (ih _ hp).mpr ⟨u, hu⟩
            exact ⟨Δ, bs, .head ho⟩
          · obtain ⟨Δ, bs, ho⟩ := (ih _ hp).mpr ⟨u, hu⟩
            exact ⟨Δ, bs, .arg ho⟩
        · push Not at happ
          obtain ⟨Γ', hp'⟩ := exists_scope_of_mem_parts (Γ := Γ) hp
          obtain ⟨Δ, bs, ho⟩ := (ih _ hp).mpr ⟨u, hu⟩
          exact ⟨Δ, bs, .part happ hp' ho⟩

/-- A call descends along a parameter if its argument there is a part of the parameter. -/
theorem getD_descents {k : ℕ} (hk : k < n) : (descents n (origins Δ) bs).getD k false = true ↔
    ∃ i, bs[k]? = some (.var i) ∧ PartOf k Δ i := by
  simp only [descents, List.getD_eq_getElem?_getD, List.getElem?_map, List.getElem?_range hk,
    Option.map_some, Option.getD_some]
  split
  case h_1 i hi => simp [hi, origin_eq_below_iff]
  case h_2 hnot => simpa using fun i hi => (hnot i hi).elim

theorem forall_calls_iff {k : ℕ} {body : Term} (hk : k < n) :
    ((calls f n (origins (.params n)) body []).all fun c => c.getD k false) = true ↔
    Descends f n k body := by
  simp only [List.all_eq_true, mem_calls_iff]
  constructor
  · intro h Δ bs ho
    exact (getD_descents hk).mp (h _ ⟨Δ, bs, ho, rfl⟩)
  · rintro h _ ⟨Δ, bs, ho, rfl⟩
    exact (getD_descents hk).mpr (h Δ bs ho)

end Calls

section Reduced
open Reducer

/-- The function `f` occurs in a term as in `Occurs`, where the variables in scope have values and
the case splits above the call are reduced: a branch is entered if the value of the scrutinee is a
constructor for which reduction selects the branch, and its variables have the arguments of this
constructor as their values. -/
inductive Reaches (f : GlobalName) :
    Scope → (ℕ → Term) → Term → List Term → Scope → (ℕ → Term) → List Term → Prop
  | call {Γ : Scope} {σ : ℕ → Term} {u : Universe} {args : List Term} :
    Reaches f Γ σ (.ref f u) args Γ σ args
  | head {Γ Δ : Scope} {σ τ : ℕ → Term} {h a : Term} {args cs : List Term} :
      Reaches f Γ σ h (a :: args) Δ τ cs → Reaches f Γ σ (.app h a) args Δ τ cs
  | arg {Γ Δ : Scope} {σ τ : ℕ → Term} {h a : Term} {args cs : List Term} :
      Reaches f Γ σ a [] Δ τ cs → Reaches f Γ σ (.app h a) args Δ τ cs
  | scrut {Γ Δ : Scope} {σ τ : ℕ → Term} {a m : Term} {bs : List (Branch Term)}
    {args cs : List Term} :
      Reaches f Γ σ a [] Δ τ cs → Reaches f Γ σ (.case a m bs) args Δ τ cs
  | motive {Γ Δ : Scope} {σ τ : ℕ → Term} {a m : Term} {bs : List (Branch Term)}
    {args cs : List Term} :
      Reaches f (Γ.under 1) (Term.up 1 σ) m [] Δ τ cs → Reaches f Γ σ (.case a m bs) args Δ τ cs
  | branch {Γ Δ : Scope} {σ τ : ℕ → Term} {a m : Term} {bs : List (Branch Term)}
    {args cs xs : List Term}
      {h : BranchHead} {b : Branch Term} : constructor? (a.inst σ) = some (h, xs) →
      (bs.find? fun b => b.head == h) = some b → xs.length = b.arity →
      Reaches f (Γ.branch a b) (Term.pushAll xs σ) b.body [] Δ τ cs →
      Reaches f Γ σ (.case a m bs) args Δ τ cs
  | part {Γ Δ : Scope} {σ τ : ℕ → Term} {t p : Term} {n : ℕ} {args cs : List Term} :
    (∀ h a, t ≠ .app h a) →
      (∀ a m bs, t ≠ .case a m bs) →
      (n, p) ∈ t.parts → Reaches f (Γ.under n) (Term.up n σ) p [] Δ τ cs →
      Reaches f Γ σ t args Δ τ cs

variable {f : GlobalName} {n k : ℕ} {Γ Γ' Δ : Scope} {σ τ : ℕ → Term} {t v : Term}
  {args bs : List Term}

/-- A call that is reached is one that the descent test looks at. -/
theorem Reaches.occurs (h : Reaches f Γ σ t args Δ τ bs) : Occurs f Γ t args Δ bs := by
  induction h with
  | call => exact .call
  | head _ ih => exact .head ih
  | arg _ ih => exact .arg ih
  | scrut _ ih => exact .part (by simp) (by simp [Scope.parts]) ih
  | motive _ ih => exact .part (by simp) (by simp [Scope.parts]) ih
  | branch _ hb _ _ ih =>
    refine .part (by simp) ?_ ih
    simp only [Scope.parts, List.mem_cons, List.mem_map]
    exact .inr (.inr ⟨_, List.mem_of_find?_eq_some hb, rfl⟩)
  | @part Γ _ _ _ t p n _ _ happ hcase hp _ ih =>
    refine .part happ ?_ ih
    have hparts : Γ.parts t = t.parts.map fun p => (Γ.under p.1, p.2) := by
      cases t with
      | case a m bs => exact absurd rfl (hcase a m bs)
      | _ => rfl
    exact hparts ▸ List.mem_map.mpr ⟨_, hp, rfl⟩

theorem partOf_append_iff {i : ℕ} : PartOf k (Γ' ++ Γ) (i + Γ'.length) ↔ PartOf k Γ i := by
  induction Γ' with
  | nil => rfl
  | cons s Γ' ih =>
    rw [List.cons_append, List.length_cons, ← Nat.add_assoc, partOf_cons_succ_iff, ih]

theorem exists_branch_of_partOf {i : ℕ} (h : PartOf k Γ i) :
    ∃ g x j, Γ[i]? = some (.branch g (.var x) j) ∧
    (Γ[i + 1 + j + x]? = some (.param k) ∨ PartOf k Γ (i + 1 + j + x)) := by
  cases h with
  | ofParam hbranch hparam => exact ⟨_, _, _, hbranch, .inl hparam⟩
  | ofPart hbranch hpart => exact ⟨_, _, _, hbranch, .inr hpart⟩

/-- Parameter `k` has the value `v`, and the parts of the parameter have proper subterms of it for
values. -/
def Tracks (k : ℕ) (v : Term) (Γ : Scope) (σ : ℕ → Term) : Prop :=
  ∃ d, (∀ i, Γ[i]? = some (.param k) → σ i = v.lift d) ∧ ∀ i, PartOf k Γ i →
    ∃ x ∈ v.properSubterms, σ i = x.lift d

/-- The parameters start out with the arguments themselves as their values. -/
theorem tracks_params (σ : ℕ → Term) : Tracks k (σ (n - 1 - k)) (.params n) σ := by
  have hparam (i : ℕ) : (Scope.params n)[i]? = if i < n then some
      (.param (n - 1 - i)) else none := by
    split
    case isTrue hi => simp [Scope.params, hi]
    case isFalse hi => simpa [Scope.params] using hi
  refine ⟨0, fun i hi => ?_, fun i hi => ?_⟩
  · rw [hparam, Option.ite_none_right_eq_some] at hi
    obtain ⟨hi, heq⟩ := hi
    obtain rfl : n - 1 - i = k := by simpa using heq
    rw [Term.lift_zero]
    congr 1
    omega
  · obtain ⟨g, x, j, hbranch, -⟩ := exists_branch_of_partOf hi
    rw [hparam] at hbranch
    simp at hbranch

/-- Binders that are no parts of an argument are passed without a change. -/
theorem Tracks.under (h : Tracks k v Γ σ) (n : ℕ) : Tracks k v (Γ.under n) (Term.up n σ) := by
  obtain ⟨d, hparam, hpart⟩ := h
  have hlt {i : ℕ} (hi : i < n) : (Γ.under n)[i]? = some .other := by
    rw [Scope.under, List.getElem?_append_left (by simpa using hi)]
    simp [hi]
  refine ⟨d + n, fun i hi => ?_, fun i hi => ?_⟩
  · by_cases hin : i < n
    · simp [hlt hin] at hi
    · rw [Scope.under, List.getElem?_append_right (by simpa using hin), List.length_replicate] at hi
      rw [Term.up_of_le (by omega), hparam _ hi, Term.lift_lift]
  · by_cases hin : i < n
    · obtain ⟨g, x, j, hbranch, -⟩ := exists_branch_of_partOf hi
      simp [hlt hin] at hbranch
    · obtain ⟨i, rfl⟩ := Nat.exists_eq_add_of_le' (not_lt.mp hin)
      have hi' : PartOf k (List.replicate n .other ++ Γ)
          (i + (List.replicate n Source.other).length) := by
        rwa [List.length_replicate]
      obtain ⟨x, hx, hval⟩ := hpart i (partOf_append_iff.mp hi')
      exact ⟨x, hx, by rw [Term.up_of_le (by omega), Nat.add_sub_cancel, hval, Term.lift_lift]⟩

/-- Entering the branch that reduction selects. -/
theorem Tracks.branch {a : Term} {g : BranchHead} {xs : List Term} {b : Branch Term}
    (h : Tracks k v Γ σ) (ha : constructor? (a.inst σ) = some (g, xs))
    (hlen : xs.length = b.arity) : Tracks k v (Γ.branch a b) (Term.pushAll xs σ) := by
  obtain ⟨d, hparam, hpart⟩ := h
  have hlt {i : ℕ} (hi : i < b.arity) :
      (Γ.branch a b)[i]? = some (.branch b.head a (b.arity - 1 - i)) := by
    rw [Scope.branch, List.getElem?_append_left (by simpa using hi)]
    simp [hi]
  have hge (i : ℕ) : (Γ.branch a b)[i + b.arity]? = Γ[i]? := by
    rw [Scope.branch, List.getElem?_append_right (by simp)]
    simp
  have hpartge (i : ℕ) : PartOf k (Γ.branch a b) (i + b.arity) ↔ PartOf k Γ i := by
    have happend : PartOf k (_ ++ Γ)
        (i + ((List.range b.arity).reverse.map (Source.branch b.head a)).length) ↔
        PartOf k Γ i := partOf_append_iff
    rwa [List.length_map, List.length_reverse, List.length_range] at happend
  refine ⟨d, fun i hi => ?_, fun i hi => ?_⟩
  · by_cases hin : i < b.arity
    · simp [hlt hin] at hi
    · rw [Term.pushAll_of_le (by omega)]
      refine hparam _ ?_
      rwa [← hge, hlen, Nat.sub_add_cancel (by omega)]
  · by_cases hin : i < b.arity
    · obtain ⟨g', x, j, hbranch, hscrut⟩ := exists_branch_of_partOf hi
      rw [hlt hin, Option.some.injEq, Source.branch.injEq] at hbranch
      obtain ⟨-, rfl, rfl⟩ := hbranch
      rw [show i + 1 + (b.arity - 1 - i) + x = x + b.arity by omega, hge, hpartge] at hscrut
      -- The scrutinee has the parameter or a part of it for its value, which is a constructor
      -- before it is lifted too.
      obtain ⟨y, hy, hval⟩ : ∃ y ∈ v.subterms, σ x = y.lift d := by
        rcases hscrut with hscrut | hscrut
        · exact ⟨v, v.mem_subterms_self, hparam x hscrut⟩
        · obtain ⟨y, hy, hval⟩ := hpart x hscrut
          exact ⟨y, by simp [Term.subterms_eq_cons, hy], hval⟩
      rw [Term.inst, hval] at ha
      obtain ⟨ys, hys, rfl⟩ := constructor?_of_lift ha
      have hlen' : ys.length = b.arity := by simpa using hlen
      have hidx : ys.length - 1 - i < ys.length := by omega
      have harg : ys[ys.length - 1 - i] ∈ y.properSubterms :=
        mem_properSubterms_of_constructor? hys _ (List.getElem_mem hidx)
      refine ⟨ys[ys.length - 1 - i], ?_, ?_⟩
      · rw [Term.subterms_eq_cons, List.mem_cons] at hy
        obtain rfl | hy := hy
        · exact harg
        · exact Term.mem_properSubterms_trans
            (Term.subterms_eq_cons y ▸ List.mem_cons_of_mem _ harg) hy
      · rw [Term.pushAll_of_lt (by simpa using hin.trans_eq hlen'.symm)]
        simp
    · obtain ⟨i, rfl⟩ := Nat.exists_eq_add_of_le' (not_lt.mp hin)
      rw [Term.pushAll_of_le (by omega), hlen, Nat.add_sub_cancel]
      exact hpart i ((hpartge i).mp hi)

/-- The values at a call are those of the parameter and of its parts. -/
theorem Reaches.tracks (h : Reaches f Γ σ t args Δ τ bs) (hv : Tracks k v Γ σ) :
    Tracks k v Δ τ := by
  induction h with
  | call => exact hv
  | head _ ih => exact ih hv
  | arg _ ih => exact ih hv
  | scrut _ ih => exact ih hv
  | motive _ ih => exact ih (hv.under 1)
  | branch ha _ hlen _ ih => exact ih (hv.branch ha hlen)
  | part _ _ _ _ ih => exact ih (hv.under _)

end Reduced

section Check
variable (f : GlobalName) (n : ℕ) (body : Term)

/-- The test finds a call if the function is named at all. -/
theorem calls_ne_nil_iff :
    calls f n (origins (.params n)) body [] ≠ [] ↔ ∃ u, .ref f u ∈ body.subterms := by
  rw [← exists_occurs_iff, List.ne_nil_iff_exists_cons]
  constructor
  · rintro ⟨c, cs, hcs⟩
    obtain ⟨Δ, args, ho, -⟩ :=
      mem_calls_iff.mp (hcs ▸ List.mem_cons_self : c ∈ calls f n (origins (.params n)) body [])
    exact ⟨Δ, args, ho⟩
  · rintro ⟨Δ, args, ho⟩
    exact List.exists_cons_of_ne_nil (List.ne_nil_of_mem (mem_calls_iff.mpr ⟨Δ, args, ho, rfl⟩))

/-- The three verdicts, with what each of them tells. -/
theorem check_cases :
    (check f n body = .notRecursive ∧ ¬∃ u, .ref f u ∈ body.subterms) ∨
    (check f n body = .rejected ∧ (∃ u, .ref f u ∈ body.subterms) ∧ ∀ k < n, ¬Descends f n k body) ∨
    ∃ k, check f n body = .along k ∧ (∃ u, .ref f u ∈ body.subterms) ∧ k < n ∧ Descends f n k body ∧
      ∀ j < k, ¬Descends f n j body := by
  have hall {k : ℕ} : k < n → (_ ↔ Descends f n k body) := forall_calls_iff
  have hnamed := calls_ne_nil_iff f n body
  simp only [check, ← origins_params]
  generalize calls f n (origins (.params n)) body [] = cs at hall hnamed ⊢
  cases cs with
  | nil => exact .inl ⟨rfl, by simpa using hnamed⟩
  | cons c cs =>
    refine .inr ?_
    cases hfind : (List.range n).find? fun k => (c :: cs).all fun c => c.getD k false with
    | none =>
      refine .inl ⟨by simp only [hfind], hnamed.mp (by simp), fun k hk => ?_⟩
      rw [← hall hk]
      exact List.find?_eq_none.mp hfind k (List.mem_range.mpr hk)
    | some k =>
      obtain ⟨hk, hkn, hleast⟩ := List.find?_range_eq_some.mp hfind
      rw [List.mem_range] at hkn
      refine .inr
        ⟨k, by simp only [hfind], hnamed.mp (by simp), hkn, (hall hkn).mp hk, fun j hj => ?_⟩
      rw [← hall (hj.trans hkn)]
      simpa only [Bool.not_eq_true, Bool.not_eq_true'] using hleast j hj

variable {f n body} in
/-- If every call passes a part of parameter `k`, it passes a proper subterm of the value of the
parameter when the cases above the call are reduced. -/
theorem Descends.passes {k : ℕ} (hk : Descends f n k body) {σ τ : ℕ → Term} {Δ : Scope}
    {args : List Term} (h : Reaches f (.params n) σ body [] Δ τ args) :
    ∃ a x d, args[k]? = some a ∧ x ∈ (σ (n - 1 - k)).properSubterms ∧ a.inst τ = x.lift d := by
  obtain ⟨i, hi, hpart⟩ := hk Δ args h.occurs
  obtain ⟨d, -, hparts⟩ := h.tracks (tracks_params σ)
  obtain ⟨x, hx, hval⟩ := hparts i hpart
  exact ⟨.var i, x, d, hi, hx, hval⟩

/-- A function is accepted without a parameter if it does not occur in its body, along the first
parameter that every call passes a part of, and not at all if there is no such parameter. When the
cases above a call are reduced, what it passes is a proper subterm of the value of the parameter. -/
theorem check_eq_iff :
    (check f n body = .notRecursive ↔ ∀ u, .ref f u ∉ body.subterms) ∧
    (∀ k, check f n body = .along k ↔ (∃ u, .ref f u ∈ body.subterms) ∧ k < n ∧
      Descends f n k body ∧ ∀ j < k, ¬Descends f n j body) ∧
    (check f n body = .rejected ↔ (∃ u, .ref f u ∈ body.subterms) ∧ ∀ k < n, ¬Descends f n k body) ∧
    ∀ k, check f n body = .along k → ∀ σ Δ τ args, Reaches f (.params n) σ body [] Δ τ args →
      ∃ a x d, args[k]? = some a ∧ x ∈ (σ (n - 1 - k)).properSubterms ∧ a.inst τ = x.lift d := by
  rw [← not_exists]
  rcases check_cases f n body with ⟨hverdict, hnot⟩ | ⟨hverdict, hnamed, hnone⟩ | ⟨k, hverdict,
    hnamed, hkn, hk, hleast⟩
  · simp [hverdict, hnot]
  · rw [hverdict]
    refine ⟨by simpa using hnamed, fun k => ?_, by simpa using ⟨hnamed, hnone⟩, by simp⟩
    simpa using fun _ _ hk hd => absurd hd (hnone k hk)
  · rw [hverdict]
    refine ⟨by simpa using hnamed, fun j => ?_, ?_, ?_⟩
    · rw [Verdict.along.injEq]
      constructor
      · rintro rfl
        exact ⟨hnamed, hkn, hk, hleast⟩
      · rintro ⟨-, -, hj, hleastj⟩
        rcases Nat.lt_trichotomy k j with hlt | rfl | hlt
        · exact absurd hk (hleastj k hlt)
        · rfl
        · exact absurd hj (hleast j hlt)
    · simpa using fun _ _ => ⟨k, hkn, hk⟩
    · rintro j ⟨⟩ σ Δ τ args
      exact hk.passes

end Check

end Descent

end LeveledTypes
