import LeveledTypes.Proofs.Scoping.Term
import LeveledTypes.Proofs.Term.Holes

/-!
# Filling holes

Filling replaces the holes of a term by their solutions, whose own holes are filled in turn. What
this gives depends on the solutions that the term leads to only. If no solution leads back to its
own hole, nothing is left to be filled.
-/
namespace LeveledTypes.Term
variable {sol sol' : ℕ → Option Term} {t : Term} {args : List Term} {H H' L : ℕ → Prop}

/-- What a term and the solutions of its holes mention. -/
inductive LeadsTo (sol : ℕ → Option Term) : Term → ℕ → Prop
  | hole {t : Term} {m : ℕ} : .hole m ∈ t.subterms → LeadsTo sol t m
  | solution {t s : Term} {m k : ℕ} : .hole m ∈ t.subterms → sol m = some s →
    LeadsTo sol s k → LeadsTo sol t k

/-- No solution leads back to its own hole. -/
def Acyclic (sol : ℕ → Option Term) : Prop := ∀ m s, sol m = some s → ¬LeadsTo sol s m

/-- Filling depends on the solutions of the holes that occur in the term. -/
theorem fillWith_congr (h : ∀ m, hole m ∈ t.subterms → sol m = sol' m) :
    t.fillWith sol args = t.fillWith sol' args := by
  induction t using induct_parts generalizing args with
  | step t ih =>
    have hparts (p : ℕ × Term) (hp : p ∈ t.parts) (args : List Term) :
        p.2.fillWith sol args = p.2.fillWith sol' args :=
      ih p hp fun m hm => h m (mem_subterms_of_part hp hm)
    by_cases happ : ∃ f a, t = .app f a
    · obtain ⟨f, a, rfl⟩ := happ
      rw [fillWith, fillWith, hparts (0, a) (by simp [parts]), hparts (0, f) (by simp [parts])]
    by_cases hhole : ∃ m, t = .hole m
    · obtain ⟨m, rfl⟩ := hhole
      rw [fillWith, fillWith, h m (mem_subterms_self _)]
    push Not at happ hhole
    have hnil : t.fillWith sol [] = t.fillWith sol' [] := by
      clear ih
      cases t <;> simp_all [fillWith, parts, or_imp, forall_and]
    rw [fillWith_eq_apps happ hhole, hnil, ← fillWith_eq_apps happ hhole]

/-- Where no hole has a solution, nothing is filled. -/
theorem fillWith_none (t : Term) (args : List Term) :
    t.fillWith (fun _ => none) args = t.apps args := by
  induction t generalizing args <;> simp_all [fillWith, List.map_congr_left (g := id)]

theorem fillWith_eq_self (h : ∀ m, hole m ∈ t.subterms → sol m = none) :
    t.fillWith sol args = t.apps args :=
  (fillWith_congr h).trans (fillWith_none t args)

theorem fillDeep_eq_self (h : ∀ m, hole m ∈ t.subterms → sol m = none) (n : ℕ) :
    t.fillDeep sol n = t := by
  cases n with
  | zero => rfl
  | succ n => exact fillWith_eq_self fun m hm => by rw [h m hm, Option.map_none]

/-- Filling reads the solutions that the term leads to only. -/
theorem fillDeep_congr (h : ∀ m, LeadsTo sol t m → sol m = sol' m) (n : ℕ) :
    t.fillDeep sol n = t.fillDeep sol' n := by
  induction n generalizing t with
  | zero => rfl
  | succ n ih =>
    refine fillWith_congr fun m hm => ?_
    rw [← h m (.hole hm)]
    cases hs : sol m with
    | none => rfl
    | some s => exact congrArg some (ih fun k hk => h k (.solution hm hs hk))

theorem HolesIn.apps (h : t.HolesIn H L) (hargs : ∀ a ∈ args, a.HolesIn H L) :
    (t.apps args).HolesIn H L := by
  induction args generalizing t with
  | nil => exact h
  | cons a args ih =>
    obtain ⟨ha, hargs⟩ := List.forall_mem_cons.mp hargs
    refine ih (holesIn_iff.mpr ⟨⟨by simp, by simp [rootUniverse?]⟩, ?_⟩) hargs
    simpa [parts] using ⟨h, ha⟩

theorem HolesIn.subst {r : Term} (h : t.HolesIn H L) (hr : r.HolesIn H L) :
    (t.subst r).HolesIn H L := by
  rw [subst_eq_inst, inst_eq_replaceVars]
  refine h.replaceVars fun c i => ?_
  unfold up
  split
  · exact holesIn_var i
  · generalize i - c = j
    cases j with
    | zero => exact hr.lift c
    | succ j => exact (holesIn_var j).lift c

theorem HolesIn.beta (h : t.HolesIn H L) (hargs : ∀ a ∈ args, a.HolesIn H L) :
    (t.beta args).HolesIn H L := by
  induction t, args using Term.beta.induct with
  | case1 t => simpa [Term.beta] using h
  | case2 x d b a args ih =>
    obtain ⟨ha, hargs⟩ := List.forall_mem_cons.mp hargs
    rw [Term.beta]
    exact ih (((holesIn_iff.mp h).2 (1, b) (by simp [parts])).subst ha) hargs
  | case3 t args hnil hlam =>
    rw [Term.beta]
    · exact h.apps hargs
    · exact hnil
    · exact hlam

theorem rootUniverse?_fillWith (happ : ∀ f a, t ≠ .app f a) (hhole : ∀ m, t ≠ .hole m) :
    (t.fillWith sol []).rootUniverse? = t.rootUniverse? := by
  cases t with
  | app f a => exact absurd rfl (happ f a)
  | hole m => exact absurd rfl (hhole m)
  | _ => simp only [fillWith, rootUniverse?, apps_nil]

theorem fillWith_ne_hole (happ : ∀ f a, t ≠ .app f a) (hhole : ∀ m, t ≠ .hole m) (m : ℕ) :
    t.fillWith sol [] ≠ .hole m := by
  cases t with
  | app f a => exact absurd rfl (happ f a)
  | hole m => exact absurd rfl (hhole m)
  | _ => simp only [fillWith, apps_nil, ne_eq, reduceCtorEq, not_false_eq_true]

/-- The holes of a filled term are those without a solution, and the ones of the solutions. -/
theorem HolesIn.fillWith (h : t.HolesIn H L) (hsome : ∀ m s, H m → sol m = some s → s.HolesIn H' L)
    (hnone : ∀ m, H m → sol m = none → H' m) (hargs : ∀ a ∈ args, a.HolesIn H' L) :
    (t.fillWith sol args).HolesIn H' L := by
  induction t using induct_parts generalizing args with
  | step t ih =>
    obtain ⟨⟨hroot, huniv⟩, hp⟩ := holesIn_iff.mp h
    by_cases happ : ∃ f a, t = .app f a
    · obtain ⟨f, a, rfl⟩ := happ
      rw [Term.fillWith]
      have hf : (0, f) ∈ (app f a).parts := by simp [parts]
      have ha : (0, a) ∈ (app f a).parts := by simp [parts]
      exact ih _ hf (hp _ hf) (List.forall_mem_cons.mpr
        ⟨ih _ ha (hp _ ha) (List.forall_mem_nil _), hargs⟩)
    by_cases hhole : ∃ m, t = .hole m
    · obtain ⟨m, rfl⟩ := hhole
      rw [Term.fillWith]
      split
      case h_1 s hs => exact (hsome m s (hroot m rfl) hs).beta hargs
      case h_2 hs =>
        refine HolesIn.apps (holesIn_iff.mpr ⟨⟨?_, by simp [rootUniverse?]⟩, by simp [parts]⟩) hargs
        rintro k ⟨⟩
        exact hnone m (hroot m rfl) hs
    push Not at happ hhole
    rw [fillWith_eq_apps happ hhole]
    refine HolesIn.apps (holesIn_iff.mpr
      ⟨⟨fun m hm => absurd hm (fillWith_ne_hole happ hhole m), ?_⟩, ?_⟩) hargs
    · rwa [rootUniverse?_fillWith happ hhole]
    · rw [parts_fillWith happ hhole]
      intro q hq
      obtain ⟨p, hpt, rfl⟩ := List.mem_map.mp hq
      exact ih p hpt (hp p hpt) (List.forall_mem_nil _)

/-- Filling to a depth that the number of holes bounds leaves no hole that has a solution. The holes
in `V` are those whose solutions the term is a part of; as no solution leads back, they get more
with every level. -/
theorem holesIn_fillDeep {N : ℕ} (hacyclic : Acyclic sol) (hbound : ∀ m, (sol m).isSome → m < N)
    {n : ℕ} (V : Finset ℕ) (hV : V ⊆ Finset.range N) (hcard : N ≤ n + V.card)
    (hnew : ∀ m, LeadsTo sol t m → (sol m).isSome → m ∉ V) :
    (t.fillDeep sol n).HolesIn (fun m => sol m = none ∧ LeadsTo sol t m) fun _ => True := by
  have hholes (t : Term) : t.HolesIn (fun m => hole m ∈ t.subterms) fun _ => True :=
    holesIn_of_holes (fun m hm => mem_holes_iff.mp hm) fun _ _ => trivial
  induction n generalizing t V with
  | zero =>
    have hall : V = Finset.range N := Finset.eq_of_subset_of_card_le hV (by simpa using hcard)
    refine (hholes t).mono (fun m hm => ⟨?_, .hole hm⟩) fun _ => id
    by_contra hsome
    have hsome : (sol m).isSome := Option.isSome_iff_ne_none.mpr hsome
    exact hnew m (.hole hm) hsome (by simpa [hall] using hbound m hsome)
  | succ n ih =>
    refine (hholes t).fillWith ?_ (fun m hm hs => ⟨by simpa using hs, .hole hm⟩)
      (List.forall_mem_nil _)
    intro m s' hm hs'
    obtain ⟨s, hs, rfl⟩ := Option.map_eq_some_iff.mp hs'
    have hmV : m ∉ V := hnew m (.hole hm) (by simp [hs])
    refine (ih (insert m V) ?_ ?_ fun k hk hsome => ?_).mono
      (fun k hk => ⟨hk.1, .solution hm hs hk.2⟩) fun _ => id
    · exact Finset.insert_subset (by simpa using hbound m (by simp [hs])) hV
    · rw [Finset.card_insert_of_notMem hmV]
      omega
    · rw [Finset.mem_insert, not_or]
      refine ⟨?_, hnew k (.solution hm hs hk) hsome⟩
      rintro rfl
      exact hacyclic k s hs hk

/-- Replacing universes depends on what is put for the universes of the term only. -/
theorem replace_congr_universes {g g' : Universe → Universe}
    (h : ∀ s ∈ t.subterms, ∀ u, s.rootUniverse? = some u → g u = g' u) (c : ℕ) :
    t.replace (fun _ i => .var i) g c = t.replace (fun _ i => .var i) g' c := by
  induction t using induct_parts generalizing c with
  | step t ih =>
    have hroot := h t t.mem_subterms_self
    have hparts (p : ℕ × Term) (hp : p ∈ t.parts) (c : ℕ) :
        p.2.replace (fun _ i => .var i) g c = p.2.replace (fun _ i => .var i) g' c :=
      ih p hp (fun s hs => h s (mem_subterms_of_part hp hs)) c
    clear ih h
    cases t <;> simp_all [replace, parts, rootUniverse?, or_imp, forall_and]

theorem replace_eq_self {g : Universe → Universe}
    (h : ∀ s ∈ t.subterms, ∀ u, s.rootUniverse? = some u → g u = u) (c : ℕ) :
    t.replace (fun _ i => .var i) g c = t :=
  (replace_congr_universes h c).trans (replace_id t c)

/-- Where no level hole has a solution, no level is filled. -/
theorem fillLevels_eq_self {sol : ℕ → Option Level} (h : t.HolesIn H fun m => sol m = none) :
    t.fillLevels sol = t := by
  have hfill (l : Level) (hl : ∀ m, l.hole? = some m → sol m = none) : l.fill sol = l := by
    unfold Level.fill
    split
    case h_1 m hm => rw [hl m hm]
    case h_2 => rfl
  rw [fillLevels_eq_mapUniverses]
  refine replace_eq_self (fun s hs u hu => ?_) 0
  have hu := (h s hs).2 u hu
  simp only [Universe.map, hfill u.p fun m hm => hu m (.inl hm),
    hfill u.h fun m hm => hu m (.inr hm)]

/-- Filling goes under abstractions and leaves their number. -/
theorem fillDeep_lams (sol : ℕ → Option Term) (tele : Telescope Term) (t : Term) (n : ℕ) :
    ∃ tele' : Telescope Term, tele'.length = tele.length ∧
      (lams tele t).fillDeep sol n = lams tele' (t.fillDeep sol n) := by
  cases n with
  | zero => exact ⟨tele, rfl, rfl⟩
  | succ n =>
    induction tele with
    | nil => exact ⟨[], rfl, rfl⟩
    | cons p tele ih =>
      obtain ⟨tele', hlen, h⟩ := ih
      refine ⟨{ toBinder := p.toBinder, type := p.type.fillDeep sol (n + 1) } ::
        tele', by simp [hlen], ?_⟩
      exact congrArg (Term.lam p.toBinder (p.type.fillDeep sol (n + 1))) h

end LeveledTypes.Term
