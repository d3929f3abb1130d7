import LeveledTypes.Proofs.Conversion.Anonymous
import LeveledTypes.Proofs.Reduction.Twins

/-!
# Conversion of twins

Conversion does not look at the names of binders. From stores that differ in names only, terms that
differ in names only are compared with the same outcome, over definitions that agree about the
globals that the terms may name: both runs return, or both fail with errors that say the same, and
the stores differ in names only again. A run that meets a limit is broken off.
-/
namespace LeveledTypes

/-- The instances that an error lists as candidates, in whatever order. -/
def Error.candidates : Error → Multiset String
  | .located (.ambiguousInstance _ names) _ => names
  | _ => 0

/-- What an error says but for the terms it shows: its kind, and the candidates it lists. A limit
that is met says nothing. -/
def Error.outline? (e : Error) : Option (ErrorKind × Multiset String) :=
  if e.kind = .reductionLimit then none else some (e.kind, e.candidates)

/-- Two stores over a signature that differ in names only. -/
structure Store.Twins (S : Signature) (s s' : Store) : Prop where
  over_left : s.TermsOver S
  alike : s.anonymize = s'.anonymize

theorem Term.Twins.renameFree? {S : Signature} {t t' : Term} (h : t.Twins S t') (f : ℕ → Option ℕ) :
    Option.Rel (Term.Twins S) (t.renameFree? f) (t'.renameFree? f) := by
  have halike : (t.renameFree? f).map anonymize = (t'.renameFree? f).map anonymize := by
    rw [anonymize_renameFree?, h.alike, anonymize_renameFree?]
  cases ht : t.renameFree? f <;> cases ht' : t'.renameFree? f
  case none.none => exact .none
  case some.some v v' =>
    rw [ht, ht'] at halike
    exact .some ⟨Converter.over_of_renameFree? h.over_left ht, Option.some.inj halike⟩
  all_goals simp [ht, ht'] at halike

theorem forall₂_zip {α β γ δ : Type} {R : α → β → Prop} {U : γ → δ → Prop} {as : List α}
    {bs : List β} {cs : List γ} {ds : List δ} (h : List.Forall₂ R as bs)
    (h' : List.Forall₂ U cs ds) :
    List.Forall₂ (fun p q => R p.1 q.1 ∧ U p.2 q.2) (as.zip cs) (bs.zip ds) := by
  induction h generalizing cs ds with
  | nil => exact .nil
  | cons hab _ ih =>
    cases h' with
    | nil => exact .nil
    | cons hcd htail => exact .cons ⟨hab, hcd⟩ (ih htail)

theorem forall₂_zipIdx {α β : Type} {R : α → β → Prop} {as : List α} {bs : List β}
    (h : List.Forall₂ R as bs) (k : ℕ) :
    List.Forall₂ (fun p q => R p.1 q.1 ∧ p.2 = q.2) (as.zipIdx k) (bs.zipIdx k) := by
  induction h generalizing k with
  | nil => exact .nil
  | cons hab _ ih => exact .cons ⟨hab, rfl⟩ (ih (k + 1))

section Roots
variable {t t' : Term} (h : t.anonymize = t'.anonymize)

include h

theorem Term.ne_lam_of_alike (ht : ∀ x d a, t = .lam x d a → False) (x : Binder) (d a : Term) :
    t' = .lam x d a → False := by
  rintro rfl
  cases Term.alike h
  exact ht _ _ _ rfl

theorem Term.ne_pair_of_alike (ht : ∀ a b, t = .pair a b → False) (a b : Term) :
    t' = .pair a b → False := by
  rintro rfl
  cases Term.alike h
  exact ht _ _ rfl

theorem Term.ne_new_of_alike (ht : ∀ n u ps fs, t = .new n u ps fs → False)
    (n : GlobalName) (u : Universe) (ps fs : List Term) : t' = .new n u ps fs → False := by
  rintro rfl
  cases Term.alike h
  exact ht _ _ _ _ rfl

theorem Term.ne_pathLam_of_alike (ht : ∀ f, t = .pathLam f → False) (f : Term) :
    t' = .pathLam f → False := by
  rintro rfl
  cases Term.alike h
  exact ht _ rfl

end Roots

/-- Two branches that differ in names only. -/
structure Branch.Twins (S : Signature) (b b' : Branch Term) : Prop where
  head : b.head = b'.head
  arity : b.arity = b'.arity
  body : b.body.Twins S b'.body

theorem Term.forall₂_branches {S : Signature} {bs bs' : List (Branch Term)}
    (hbs : ∀ b ∈ bs, b.body.Over S ⊤) (h : bs.map anonymizeBranch = bs'.map anonymizeBranch) :
    List.Forall₂ (Branch.Twins S) bs bs' := by
  rw [← List.forall₂_eq_eq_eq, List.forall₂_map_left_iff, List.forall₂_map_right_iff] at h
  induction h with
  | nil => exact .nil
  | @cons b b' _ _ halike _ ih =>
    obtain ⟨hb, hbs⟩ := List.forall_mem_cons.mp hbs
    simp only [anonymizeBranch, Branch.mk.injEq] at halike
    exact .cons
      ⟨halike.1, by simpa [Branch.arity] using congrArg List.length halike.2.1, hb, halike.2.2⟩
        (ih hbs)

namespace Term.Twins
variable {G : GlobalName → Prop} {A : GlobalName → ℕ} {t t' f f' : Term}

theorem etaApp (h : t.Twins (.naming G A True) t') :
    (Converter.etaApp t).Twins (.naming G A True) (Converter.etaApp t') :=
  ⟨⟨(h.lift 1).over_left, ENat.natCast_lt_top _⟩, congrArg (Term.app · _) (h.lift 1).alike⟩

theorem etaPoint (hf : f.Twins (.naming G A True) f') (h : t.Twins (.naming G A True) t') :
    (Converter.etaPoint f t).Twins (.naming G A True) (Converter.etaPoint f' t') := by
  have ⟨hof, hfl⟩ := hf.lift 1
  have ⟨hot, htl⟩ := h.lift 1
  refine ⟨⟨trivial, ⟨hof, trivial⟩, ⟨hof, trivial⟩, hot, ENat.natCast_lt_top _⟩, ?_⟩
  simp only [Converter.etaPoint, Term.anonymize, hfl, htl]

end Term.Twins

namespace Store.Twins
variable {G : GlobalName → Prop} {A : GlobalName → ℕ} {s s' : Store} {t t' : Term}

/-- Twins are over the same signature, because names of binders are all in which they differ. -/
theorem over_right {S : Signature} (h : s.Twins S s') : s'.TermsOver S := by
  refine ⟨fun m t ht => ?_, fun m k hk => ?_⟩
  · obtain ⟨u, hu, halike⟩ :=
      Option.map_eq_some_iff.mp ((solution?_alike h.alike m).trans (congrArg (Option.map _) ht))
    exact Term.over_of_alike (h.over_left.solutions m u hu) halike
  · have hholes : s.holes.map Hole.anonymize = s'.holes.map Hole.anonymize :=
      congrArg Store.holes h.alike
    have hget : s.holes[m]?.map Hole.anonymize = some k.anonymize := by
      rw [← Array.getElem?_map, hholes, Array.getElem?_map, hk, Option.map_some]
    obtain ⟨j, hj, halike⟩ := Option.map_eq_some_iff.mp hget
    exact Term.over_of_alike (h.over_left.types m j hj) (congrArg Hole.type halike)

theorem zonk (h : s.Twins (.naming G A True) s') (ht : t.Twins (.naming G A True) t') :
    (s.zonk t).Twins (.naming G A True) (s'.zonk t') :=
  ⟨h.over_left.zonk (Signature.admits_naming G A True) ht.over_left, zonk_alike h.alike ht.alike⟩

theorem assign (h : s.Twins (.naming G A True) s') (ht : t.Twins (.naming G A True) t') (m : ℕ) :
    (s.assign m t).Twins (.naming G A True) (s'.assign m t') :=
  ⟨h.over_left.assign ht.over_left, assign_alike h.alike ht.alike m⟩

end Store.Twins

/-- Two states whose stores differ in names only, and which remember nothing but outcomes of
unfoldings. -/
structure ConversionState.Twins (G : GlobalName → Prop) (A : GlobalName → ℕ)
    (env env' : Environment) (s s' : ConversionState) : Prop where
  store : s.store.Twins (.naming G A True) s'.store
  memo : s.memo.Backed A env
  memo_right : s'.memo.Backed A env'

namespace Converter

/-- Two weak head normal forms that are compared part by part. -/
inductive Facing : Term → Term → Prop
  | univ (u v : Universe) : Facing (.univ u) (.univ v)
  | ref (m : GlobalName) (u : Universe) (k : GlobalName) (v : Universe) :
    Facing (.ref m u) (.ref k v)
  | pi (x : Binder) (a b : Term) (y : Binder) (d e : Term) : Facing (.pi x a b) (.pi y d e)
  | sigma (x : Binder) (a b : Term) (y : Binder) (d e : Term) : Facing (.sigma x a b) (.sigma y d e)
  | data (m : GlobalName) (u : Universe) (ps : List Term) (k : GlobalName) (v : Universe)
    (qs : List Term) : Facing (.data m u ps) (.data k v qs)
  | record (m : GlobalName) (u : Universe) (ps : List Term) (k : GlobalName) (v : Universe)
    (qs : List Term) : Facing (.record m u ps) (.record k v qs)
  | con (m : GlobalName) (u : Universe) (ps xs : List Term) (k : GlobalName) (v : Universe)
    (qs ys : List Term) : Facing (.con m u ps xs) (.con k v qs ys)
  | succ (a b : Term) : Facing (.succ a) (.succ b)
  | proj (a : Term) (s : Side) (b : Term) (t : Side) : Facing (.proj a s) (.proj b t)
  | field (a : Term) (m : GlobalName) (i : ℕ) (b : Term) (k : GlobalName) (j : ℕ) :
    Facing (.field a m i) (.field b k j)
  | path (a x y b u v : Term) : Facing (.path a x y) (.path b u v)
  | «at» (a x p i b u q j : Term) : Facing (.at a x p i) (.at b u q j)
  | natRec (m z s n k y t j : Term) : Facing (.natRec m z s n) (.natRec k y t j)
  | case (a m : Term) (bs : List (Branch Term)) (b k : Term) (ds : List (Branch Term)) :
    Facing (.case a m bs) (.case b k ds)
  | app (f a g b : Term) : Facing (.app f a) (.app g b)

theorem Facing.symm {l r : Term} (h : Facing l r) : Facing r l := by
  cases h <;> constructor

theorem Facing.alike_left {l l' r : Term} (h : Facing l r) (hl : l.anonymize = l'.anonymize) :
    Facing l' r := by
  cases h <;> cases Term.alike hl <;> constructor

/-- Whether two terms are compared part by part depends on their roots only. -/
theorem Facing.alike {l l' r r' : Term} (h : Facing l r) (hl : l.anonymize = l'.anonymize)
    (hr : r.anonymize = r'.anonymize) :
    Facing l' r' := ((h.alike_left hl).symm.alike_left hr).symm

theorem rigid_of_not_facing {c : Converter} {conv : ℕ → Comparison → Term → Term → Convert Unit}
    {cmp : Comparison} {l r : Term} (h : ¬ Facing l r) : c.rigid conv cmp l r = c.mismatch l r := by
  unfold rigid
  split
  case h_16 => rfl
  all_goals exact absurd (by constructor) h

/-- Two converters that differ in the definitions of globals that are not named. -/
structure Twins (G : GlobalName → Prop) (A : GlobalName → ℕ) (c c' : Converter) : Prop where
  env : c.env.Twins G A c'.env
  locals : c'.locals = c.locals
  limits : c'.limits = c.limits
  span : c'.span = c.span
  over_locals : ∀ v, some v ∈ c.locals → v.Over (.naming G A True) ⊤

namespace Twins
variable {G : GlobalName → Prop} {A : GlobalName → ℕ} {c c' : Converter} {α β : Type} {binders : ℕ}
  {cmp : Comparison} {t t' l l' r r' : Term}

/-- Two runs of conversion that match. -/
abbrev Match (G : GlobalName → Prop) (A : GlobalName → ℕ) (c c' : Converter)
    (V : α → β → Prop) (x : Convert α) (y : Convert β) : Prop :=
  Matched Error.outline? (ConversionState.Twins G A c.env c'.env) V x y

/-- Two comparisons that match. -/
abbrev Agreed (G : GlobalName → Prop) (A : GlobalName → ℕ) (c c' : Converter) (x y : Convert Unit) :
    Prop :=
  Match G A c c' (fun _ _ => True) x y

/-- Reductions match if they do in every pair of reducers that are twins: the stores that they read
are. -/
theorem matched_reduce {f g : Reducer → Reduce α} {V : α → α → Prop} (h : Twins G A c c')
    (hf : ∀ r r', Reducer.Twins G A r r' →
      Matched (fun _ => (none : Option Unit)) (Reducer.Twins.Remember A r r') V (f r) (g r')) :
    Match G A c c' V (c.reduce f) (c'.reduce g) := by
  intro s s' hs
  have hreducers : Reducer.Twins G A ⟨c.env, s.store, c.locals⟩ ⟨c'.env, s'.store, c'.locals⟩ :=
    ⟨h.env, fun m => (Store.solution?_alike hs.store.alike m).symm, h.locals,
      hs.store.over_left.solutions, h.over_locals⟩
  have hrun := hf _ _ hreducers ⟨c.limits.reductionFuel, s.memo⟩ ⟨c'.limits.reductionFuel, s'.memo⟩
    ⟨hs.memo, hs.memo_right⟩
  have hlimit (i : Interrupt) (span : Span) : (i.error span).outline? = none := by cases i <;> rfl
  unfold reduce
  dsimp only
  generalize f ⟨c.env, s.store, c.locals⟩ ⟨c.limits.reductionFuel, s.memo⟩ = a,
    g ⟨c'.env, s'.store, c'.locals⟩ ⟨c'.limits.reductionFuel, s'.memo⟩ = b at hrun
  cases hrun with
  | ok hab hmemo => exact .ok hab ⟨hs.store, hmemo.1, hmemo.2⟩
  | error => exact .left (hlimit _ _)
  | left => exact .left (hlimit _ _)
  | right => exact .right (hlimit _ _)

theorem matched_whnf (h : Twins G A c c') (ht : t.Twins (.naming G A True) t') :
    Match G A c c' (Term.Twins (.naming G A True)) (c.whnf binders t) (c'.whnf binders t') :=
  h.matched_reduce fun _ _ hr => hr.matched_whnf ht binders

theorem matched_nf (h : Twins G A c c') (ht : t.Twins (.naming G A True) t') :
    Match G A c c' (Term.Twins (.naming G A True)) (c.reduce (·.nf binders t))
      (c'.reduce (·.nf binders t')) :=
  h.matched_reduce fun _ _ hr => hr.matched_nf ht binders

theorem matched_mismatch : Agreed G A c c' (c.mismatch l r) (c'.mismatch l' r') := .throw rfl

/-- Levels are no part of what may differ, so that both sides demand the same of them. -/
theorem matched_addUniverse (h : Twins G A c c') {u v : Universe} :
    Agreed G A c c' (c.addUniverse cmp u v) (c'.addUniverse cmp u v) := by
  intro s s' hs
  obtain ⟨hstore, herr⟩ := Store.addUniverse_alike hs.store.alike cmp u v c.span
  have hover : (s.store.addUniverse cmp u v c.span).1.TermsOver (.naming G A True) := by
    have hholes := holes_addUniverse s.store cmp u v c.span
    refine ⟨fun m t ht => hs.store.over_left.solutions m t ?_,
      fun m k hk => hs.store.over_left.types m k (hholes ▸ hk)⟩
    rwa [Store.solution?, hholes] at ht
  unfold addUniverse
  rw [h.span]
  generalize s.store.addUniverse cmp u v c.span = a, s'.store.addUniverse cmp u v c.span = b at *
  obtain ⟨store, e⟩ := a
  obtain ⟨store', e'⟩ := b
  obtain rfl : e = e' := herr
  cases e with
  | none => exact .ok trivial ⟨⟨hover, hstore⟩, hs.memo, hs.memo_right⟩
  | some e => exact .error rfl ⟨⟨hover, hstore⟩, hs.memo, hs.memo_right⟩

theorem matched_defer (h : Twins G A c c') (hl : l.Twins (.naming G A True) l')
    (hr : r.Twins (.naming G A True) r') :
    Agreed G A c c' (c.defer binders cmp l r) (c'.defer binders cmp l' r') := by
  intro s s' hs
  obtain ⟨hholes, hcount, hp, hh, hlevels, hconstraints, hpg, hhg⟩ := Store.mk.inj hs.store.alike
  refine .ok trivial ⟨⟨⟨hs.store.over_left.solutions, hs.store.over_left.types⟩, ?_⟩,
    hs.memo, hs.memo_right⟩
  simp only [Store.anonymize, List.map_append, List.map_cons, List.map_nil, Constraint.anonymize,
    hl.alike, hr.alike, h.locals, h.span, Store.mk.injEq, hconstraints]
  exact ⟨hholes, hcount, hp, hh, hlevels, trivial, hpg, hhg⟩

/-- The variables that a spine consists of are the same. -/
theorem matched_patternVars (h : Twins G A c c') {args args' : List Term}
    (hargs : List.Forall₂ (Term.Twins (.naming G A True)) args args') (vars : List ℕ) :
    Match G A c c' Eq (c.patternVars binders args vars) (c'.patternVars binders args' vars) := by
  induction hargs generalizing vars with
  | nil => exact .pure rfl
  | @cons a a' args args' ha _ ih =>
    unfold patternVars
    extract_lets next next'
    have hnext {v v' : Term} (hv : v.Twins (.naming G A True) v') :
        Match G A c c' Eq (next v) (next' v') := by
      unfold next next'
      obtain ⟨hover, halike⟩ := hv
      cases Term.alike halike
      case var i =>
        dsimp only
        split
        · exact .pure rfl
        · exact ih _
      all_goals exact .pure rfl
    obtain ⟨hover, halike⟩ := ha
    cases Term.alike halike
    case var i => exact .bind (.pure ⟨hover, rfl⟩) fun _ _ => hnext
    all_goals exact .bind (h.matched_whnf ⟨hover, halike⟩) fun _ _ => hnext

/-- Twins are solved alike: the same variables are a pattern, and the same holes and variables keep
a term from being a solution. -/
theorem matched_solve (h : Twins G A c c') {m : ℕ} (hl : l.Twins (.naming G A True) l')
    (hr : r.Twins (.naming G A True) r') :
    Agreed G A c c' (c.solve binders m cmp l r) (c'.solve binders m cmp l' r') := by
  have hargs : List.Forall₂ (Term.Twins (.naming G A True)) l.spine.2 l'.spine.2 := by
    have hover := hl.over_left
    rw [← Term.apps_spine l] at hover
    exact Term.Twins.forall₂_of_map (Term.over_apps.mp hover).2
      (Term.spineWith_alike hl.alike rfl).2
  unfold solve
  refine .bind (h.matched_patternVars hargs []) fun o o' ho => ?_
  subst ho
  cases o with
  | none => exact h.matched_defer hl hr
  | some vars =>
    refine .get_bind fun s s' hs => ?_
    have hzonk := hs.store.zonk hr
    extract_lets rhs n rename assign join rhs' join'
    change rhs.Twins (.naming G A True) rhs' at hzonk
    clear_value rhs rhs'
    have hassign {b b' : Term} (hb : b.Twins (.naming G A True) b') :
        Agreed G A c c' (assign b) (assign b') := by
      intro t t' ht
      have hsolution : (patternSolution (t.store.holeType m) b n).Twins (.naming G A True)
          (patternSolution (t'.store.holeType m) b' n) :=
        ⟨over_patternSolution (ht.store.over_left.holeType m) hb.over_left _,
          patternSolution_alike (Store.holeType_alike ht.store.alike m) hb.alike⟩
      exact .ok trivial ⟨ht.store.assign hsolution m, ht.memo, ht.memo_right⟩
    have hjoin : Agreed G A c c' (join ()) (join' ()) := by
      unfold join join'
      have hrename : Option.Rel (Term.Twins (.naming G A True)) (rename rhs) (rename rhs') :=
        hzonk.renameFree? _
      generalize rename rhs = o, rename rhs' = o' at hrename
      cases hrename with
      | some hb => exact hassign hb
      | none =>
        refine .bind (h.matched_nf hzonk) fun v v' hv => ?_
        have hrename : Option.Rel (Term.Twins (.naming G A True)) (rename v) (rename v') :=
          hv.renameFree? _
        generalize rename v = o, rename v' = o' at hrename
        cases hrename with
        | some hb => exact hassign hb
        | none => exact h.matched_defer hl hv
    have hholes : rhs.holes.contains m = rhs'.holes.contains m := by
      rw [Bool.eq_iff_iff, List.contains_iff_mem, List.contains_iff_mem,
        Term.mem_holes_alike hzonk.alike]
    rw [hholes]
    split
    · exact .bind matched_mismatch fun _ _ _ => hjoin
    · exact hjoin

section Shapes
variable {conv conv' : ℕ → Comparison → Term → Term → Convert Unit} (h : Twins G A c c')
  (hconv : ∀ {k : ℕ} {cmp : Comparison} {a a' b b' : Term}, a.Twins (.naming G A True) a' →
    b.Twins (.naming G A True) b' → Agreed G A c c' (conv k cmp a b) (conv' k cmp a' b'))

include hconv

theorem matched_all {xs xs' ys ys' : List Term}
    (hxs : List.Forall₂ (Term.Twins (.naming G A True)) xs xs')
    (hys : List.Forall₂ (Term.Twins (.naming G A True)) ys ys') :
    Agreed G A c c' (c.all (conv 0 .eq) xs ys) (c'.all (conv' 0 .eq) xs' ys') := by
  unfold all
  rw [hxs.length_eq, hys.length_eq]
  split
  · exact .throw rfl
  · exact .forM (forall₂_zip hxs hys) fun p q hpq => hconv hpq.1 hpq.2

include h

/-- Which rigid sides are compared part by part is decided by their roots, and twins have the same
root. -/
theorem matched_rigid (hl : l.Twins (.naming G A True) l') (hr : r.Twins (.naming G A True) r') :
    Agreed G A c c' (c.rigid conv cmp l r) (c'.rigid conv' cmp l' r') := by
  obtain ⟨hol, hal⟩ := hl
  obtain ⟨hor, har⟩ := hr
  by_cases hroots : Facing l r
  case neg =>
    rw [rigid_of_not_facing hroots, rigid_of_not_facing fun hroots' => hroots
      (hroots'.alike hal.symm har.symm)]
    exact matched_mismatch
  cases hroots with
  | univ u v =>
    cases Term.alike hal
    cases Term.alike har
    exact h.matched_addUniverse
  | ref m u k v =>
    cases Term.alike hal
    cases Term.alike har
    rw [rigid, rigid]
    split
    · exact h.matched_addUniverse
    · exact matched_mismatch
  | pi x a b y d e =>
    cases Term.alike hal with
    | pi hx ha hb =>
      cases Term.alike har with
      | pi hy hd he =>
        rw [rigid, rigid, hx, hy]
        split
        · exact .bind (hconv ⟨hol.1, ha⟩ ⟨hor.1, hd⟩) fun _ _ _ =>
            hconv ⟨hol.2.top, hb⟩ ⟨hor.2.top, he⟩
        · exact matched_mismatch
  | sigma x a b y d e =>
    cases Term.alike hal with
    | sigma hx ha hb =>
      cases Term.alike har with
      | sigma hy hd he =>
        exact .bind (hconv ⟨hol.1, ha⟩ ⟨hor.1, hd⟩) fun _ _ _ =>
          hconv ⟨hol.2.top, hb⟩ ⟨hor.2.top, he⟩
  | data m u ps k v qs =>
    rw [Term.Over, Term.overAll_iff] at hol hor
    cases Term.alike hal with
    | data _ _ hps =>
      cases Term.alike har with
      | data _ _ hqs =>
        rw [rigid, rigid]
        split
        · exact .bind h.matched_addUniverse fun _ _ _ =>
            matched_all hconv (Term.Twins.forall₂_of_map hol.2 hps)
            (Term.Twins.forall₂_of_map hor.2 hqs)
        · exact matched_mismatch
  | record m u ps k v qs =>
    rw [Term.Over, Term.overAll_iff] at hol hor
    cases Term.alike hal with
    | record _ _ hps =>
      cases Term.alike har with
      | record _ _ hqs =>
        rw [rigid, rigid]
        split
        · exact .bind h.matched_addUniverse fun _ _ _ =>
            matched_all hconv (Term.Twins.forall₂_of_map hol.2 hps)
            (Term.Twins.forall₂_of_map hor.2 hqs)
        · exact matched_mismatch
  | con m u ps xs k v qs ys =>
    cases Term.alike hal with
    | con _ _ _ hxs =>
      cases Term.alike har with
      | con _ _ _ hys =>
        rw [rigid, rigid]
        split
        · exact matched_all hconv (Term.Twins.forall₂_of_map (Term.overAll_iff.mp hol.2.2.2) hxs)
            (Term.Twins.forall₂_of_map (Term.overAll_iff.mp hor.2.2.2) hys)
        · exact matched_mismatch
  | succ a b =>
    cases Term.alike hal with
    | succ ha =>
      cases Term.alike har with
      | succ hb => exact hconv ⟨hol, ha⟩ ⟨hor, hb⟩
  | proj a s b t =>
    cases Term.alike hal with
    | proj _ ha =>
      cases Term.alike har with
      | proj _ hb =>
        rw [rigid, rigid]
        split
        · exact hconv ⟨hol, ha⟩ ⟨hor, hb⟩
        · exact matched_mismatch
  | field a m i b k j =>
    cases Term.alike hal with
    | field _ _ ha =>
      cases Term.alike har with
      | field _ _ hb =>
        rw [rigid, rigid]
        split
        · exact hconv ⟨hol, ha⟩ ⟨hor, hb⟩
        · exact matched_mismatch
  | path a x y b u v =>
    cases Term.alike hal with
    | path ha hx hy =>
      cases Term.alike har with
      | path hb hu hv =>
        exact .bind (hconv ⟨hol.1, ha⟩ ⟨hor.1, hb⟩) fun _ _ _ => .bind
          (hconv ⟨hol.2.1, hx⟩ ⟨hor.2.1, hu⟩) fun _ _ _ =>
          hconv ⟨hol.2.2, hy⟩ ⟨hor.2.2, hv⟩
  | «at» a x p i b u q j =>
    obtain ⟨-, -, -, hop, hoi⟩ := hol
    obtain ⟨-, -, -, hoq, hoj⟩ := hor
    cases Term.alike hal with
    | «at» _ _ hp hi =>
      cases Term.alike har with
      | «at» _ _ hq hj =>
        exact .bind (hconv ⟨hop, hp⟩ ⟨hoq, hq⟩) fun _ _ _ => hconv ⟨hoi, hi⟩ ⟨hoj, hj⟩
  | natRec m z s n k y t j =>
    obtain ⟨-, hoz, hos, hon⟩ := hol
    obtain ⟨-, hoy, hot, hoj⟩ := hor
    cases Term.alike hal with
    | natRec _ hz hs hn =>
      cases Term.alike har with
      | natRec _ hy ht hj =>
        exact .bind (hconv ⟨hon, hn⟩ ⟨hoj, hj⟩) fun _ _ _ => .bind
          (hconv ⟨hoz, hz⟩ ⟨hoy, hy⟩) fun _ _ _ =>
          hconv ⟨hos, hs⟩ ⟨hot, ht⟩
  | case a m bs b k ds =>
    rw [Term.Over, Term.overBranches_iff] at hol hor
    obtain ⟨-, hoa, -, hobs⟩ := hol
    obtain ⟨-, hob, -, hods⟩ := hor
    cases Term.alike hal with
    | case ha _ hbs =>
      cases Term.alike har with
      | case hb _ hds =>
        have hbs := Term.forall₂_branches (fun b hb => (hobs b hb).top) hbs
        have hds := Term.forall₂_branches (fun b hb => (hods b hb).top) hds
        rw [rigid, rigid, hbs.length_eq, hds.length_eq]
        split
        · refine .bind (hconv ⟨hoa, ha⟩ ⟨hob, hb⟩) fun _ _ _ => .forM
            (forall₂_zip hbs hds) fun p q ⟨hx, hy⟩ => ?_
          dsimp only
          rw [hx.head, hx.arity, hy.head, hy.arity]
          split
          · exact matched_mismatch
          · exact hconv hx.body hy.body
        · exact matched_mismatch
  | app f a g b =>
    cases Term.alike hal with
    | app hf ha =>
      cases Term.alike har with
      | app hg hb =>
        exact .bind (hconv ⟨hol.1, hf⟩ ⟨hor.1, hg⟩) fun _ _ _ => hconv ⟨hol.2, ha⟩ ⟨hor.2, hb⟩

omit h in
/-- The fields of an instance are compared with those of a term. -/
theorem matched_fields {m : GlobalName} {fs fs' : List Term}
    (hfs : List.Forall₂ (Term.Twins (.naming G A True)) fs fs')
    (hr : r.Twins (.naming G A True) r') :
    Agreed G A c c' (fs.zipIdx.forM fun (f, i) => conv 0 .eq f (.field r m i))
      (fs'.zipIdx.forM fun (f, i) => conv' 0 .eq f (.field r' m i)) := by
  refine .forM (forall₂_zipIdx hfs 0) fun p q ⟨hpq, hi⟩ => hconv hpq ⟨hr.over_left, ?_⟩
  rw [Term.anonymize, hr.alike, hi, Term.anonymize]

omit h in
theorem matched_fields_right {m : GlobalName} {gs gs' : List Term}
    (hl : l.Twins (.naming G A True) l')
    (hgs : List.Forall₂ (Term.Twins (.naming G A True)) gs gs') :
    Agreed G A c c' (gs.zipIdx.forM fun (g, i) => conv 0 .eq (.field l m i) g)
      (gs'.zipIdx.forM fun (g, i) => conv' 0 .eq (.field l' m i) g) := by
  refine .forM (forall₂_zipIdx hgs 0) fun p q ⟨hpq, hi⟩ => hconv ⟨hl.over_left, ?_⟩ hpq
  rw [Term.anonymize, hl.alike, hi, Term.anonymize]

/-- The rules that look at the shapes of both sides apply to twins alike; eta steps make twins of
twins. -/
theorem matched_shapes (hl : l.Twins (.naming G A True) l') (hr : r.Twins (.naming G A True) r') :
    Agreed G A c c' (c.shapes conv cmp l r) (c'.shapes conv' cmp l' r') := by
  have hproj {t t' : Term} (ht : t.Twins (.naming G A True) t') (s : Side) :
      (t.proj s).Twins (.naming G A True) (t'.proj s) :=
        ⟨ht.over_left, congrArg (Term.proj · s) ht.alike⟩
  have ⟨hol, hal⟩ := hl
  have ⟨hor, har⟩ := hr
  rw [shapes.eq_def c]
  extract_lets eq recordLeft
  -- The rule that applies depends on the roots only, which are the same on the right.
  split
  case h_1 x d a y e b =>
    cases Term.alike hal with
    | lam _ _ ha =>
      cases Term.alike har with
      | lam _ _ hb => exact hconv ⟨hol.2.top, ha⟩ ⟨hor.2.top, hb⟩
  case h_2 x d a hlam =>
    cases Term.alike hal with
    | lam _ _ ha =>
      rw [shapes.eq_2]
      · exact hconv ⟨hol.2.top, ha⟩ hr.etaApp
      · exact Term.ne_lam_of_alike har hlam
  case h_3 x d b hlam =>
    cases Term.alike har with
    | lam _ _ hb =>
      rw [shapes.eq_3]
      · exact hconv hl.etaApp ⟨hor.2.top, hb⟩
      · exact Term.ne_lam_of_alike hal hlam
  case h_4 a b x y =>
    cases Term.alike hal with
    | pair ha hb =>
      cases Term.alike har with
      | pair hx hy =>
        exact .bind (hconv ⟨hol.1, ha⟩ ⟨hor.1, hx⟩) fun _ _ _ => hconv ⟨hol.2, hb⟩ ⟨hor.2, hy⟩
  case h_5 a b hlam hpair =>
    cases Term.alike hal with
    | pair ha hb =>
      rw [shapes.eq_5]
      · exact .bind (hconv ⟨hol.1, ha⟩ (hproj hr .fst)) fun _ _ _ =>
          hconv ⟨hol.2, hb⟩ (hproj hr .snd)
      · exact Term.ne_lam_of_alike har hlam
      · exact Term.ne_pair_of_alike har hpair
  case h_6 x y hlam hpair =>
    cases Term.alike har with
    | pair hx hy =>
      rw [shapes.eq_6]
      · exact .bind (hconv (hproj hl .fst) ⟨hor.1, hx⟩) fun _ _ _ => hconv
          (hproj hl .snd) ⟨hor.2, hy⟩
      · exact Term.ne_lam_of_alike hal hlam
      · exact Term.ne_pair_of_alike hal hpair
  case h_7 m u ps fs k v qs gs =>
    have hofs := Term.overAll_iff.mp hol.2.2.2
    have hogs := Term.overAll_iff.mp hor.2.2.2
    cases Term.alike hal with
    | new _ _ _ hfs =>
      cases Term.alike har with
      | new _ _ _ hgs =>
        have hfs := Term.Twins.forall₂_of_map hofs hfs
        have hgs := Term.Twins.forall₂_of_map hogs hgs
        rw [shapes.eq_7, hfs.length_eq, hgs.length_eq]
        split
        · exact matched_all hconv hfs hgs
        · exact matched_fields hconv hfs hr
  case h_8 m u ps fs hlam hpair hnew =>
    cases Term.alike hal with
    | new _ _ _ hfs =>
      rw [shapes.eq_8]
      · exact matched_fields hconv
          (Term.Twins.forall₂_of_map (Term.overAll_iff.mp hol.2.2.2) hfs) hr
      · exact Term.ne_lam_of_alike har hlam
      · exact Term.ne_pair_of_alike har hpair
      · exact Term.ne_new_of_alike har hnew
  case h_9 m u ps gs hlam hpair hnew =>
    cases Term.alike har with
    | new _ _ _ hgs =>
      rw [shapes.eq_9]
      · exact matched_fields_right hconv hl
          (Term.Twins.forall₂_of_map (Term.overAll_iff.mp hor.2.2.2) hgs)
      · exact Term.ne_lam_of_alike hal hlam
      · exact Term.ne_pair_of_alike hal hpair
      · exact Term.ne_new_of_alike hal hnew
  case h_10 f g =>
    cases Term.alike hal with
    | pathLam hf =>
      cases Term.alike har with
      | pathLam hg => exact hconv ⟨hol.2, hf⟩ ⟨hor.2, hg⟩
  case h_11 f hlam hpair hnew hpath =>
    cases Term.alike hal with
    | pathLam hf =>
      have hf : f.Twins (.naming G A True) _ := ⟨hol.2, hf⟩
      rw [shapes.eq_11]
      · exact hconv hf.etaApp (hf.etaPoint hr)
      · exact Term.ne_lam_of_alike har hlam
      · exact Term.ne_pair_of_alike har hpair
      · exact Term.ne_new_of_alike har hnew
      · exact Term.ne_pathLam_of_alike har hpath
  case h_12 g hlam hpair hnew hpath =>
    cases Term.alike har with
    | pathLam hg =>
      have hg : g.Twins (.naming G A True) _ := ⟨hor.2, hg⟩
      rw [shapes.eq_12]
      · exact hconv (hg.etaPoint hl) hg.etaApp
      · exact Term.ne_lam_of_alike hal hlam
      · exact Term.ne_pair_of_alike hal hpair
      · exact Term.ne_new_of_alike hal hnew
      · exact Term.ne_pathLam_of_alike hal hpath
  case h_13 hlam hpair hnew hpath hlam' hpair' hnew' hpath' _ _ _ _ =>
    replace hlam := Term.ne_lam_of_alike hal hlam
    replace hpair := Term.ne_pair_of_alike hal hpair
    replace hnew := Term.ne_new_of_alike hal hnew
    replace hpath := Term.ne_pathLam_of_alike hal hpath
    replace hlam' := Term.ne_lam_of_alike har hlam'
    replace hpair' := Term.ne_pair_of_alike har hpair'
    replace hnew' := Term.ne_new_of_alike har hnew'
    replace hpath' := Term.ne_pathLam_of_alike har hpath'
    rw [shapes.eq_13]
    exacts [matched_rigid h hconv hl hr, hlam, hpair, hnew, hpath, hlam', hpair', hnew', hpath',
      fun _ _ _ _ _ _ heq _ => hlam _ _ _ heq, fun _ _ _ _ heq _ => hpair _ _ heq,
      fun _ _ _ _ _ _ _ _ heq _ => hnew _ _ _ _ heq, fun _ _ heq _ => hpath _ heq]

/-- One round of comparison matches, if the comparisons of parts do. -/
theorem matched_convertWith (hl : l.Twins (.naming G A True) l')
    (hr : r.Twins (.naming G A True) r') :
    Agreed G A c c' (c.convertWith binders conv cmp l r)
      (c'.convertWith binders conv' cmp l' r') := by
  unfold convertWith
  refine .bind (h.matched_whnf hl) fun v v' hv => .bind (h.matched_whnf hr) fun w w' hw => ?_
  rw [Term.same_alike hv.alike hw.alike]
  split
  · exact .pure trivial
  · refine .get_bind fun s s' hs => ?_
    extract_lets store unsolvedHead store' unsolvedHead'
    have hhead {t t' : Term} (ht : t.anonymize = t'.anonymize) :
        unsolvedHead t = unsolvedHead' t' := by
      simp only [unsolvedHead, unsolvedHead', store, store', Term.headHole?_alike ht,
        Store.isNone_solution?_alike hs.store.alike]
    rw [hhead hv.alike, hhead hw.alike]
    split
    · exact h.matched_solve hv hw
    · split
      · exact h.matched_solve hw hv
      · exact matched_shapes h hconv hv hw

end Shapes

/-- Comparisons of twins match at any depth. -/
theorem matched_convertIn (h : Twins G A c c') (room : ℕ) (hl : l.Twins (.naming G A True) l')
    (hr : r.Twins (.naming G A True) r') :
    Agreed G A c c' (c.convertIn room binders cmp l r) (c'.convertIn room binders cmp l' r') := by
  induction room generalizing binders cmp l l' r r' with
  | zero =>
    unfold convertIn
    rw [Term.same_alike hl.alike hr.alike]
    split
    · exact .pure trivial
    · exact .throw rfl
  | succ room ih =>
    unfold convertIn
    rw [Term.same_alike hl.alike hr.alike]
    split
    · exact .pure trivial
    · exact matched_convertWith h (fun ha hb => ih ha hb) hl hr

theorem matched_convert (h : Twins G A c c') (hl : l.Twins (.naming G A True) l')
    (hr : r.Twins (.naming G A True) r') :
    Agreed G A c c' (c.convert cmp l r) (c'.convert cmp l' r') := by
  rw [convert, convert, h.limits]
  exact h.matched_convertIn _ hl hr

end Twins

end Converter

end LeveledTypes
