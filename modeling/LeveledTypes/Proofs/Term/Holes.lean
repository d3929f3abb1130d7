import LeveledTypes.Proofs.Term.Over

/-!
# The holes of a term

Where the holes and the level holes of a term lie: what is said of those of a term holds of those of
its instances, and a level hole that has a solution is gone once level holes are filled.
-/
namespace LeveledTypes

/-- All level holes of a universe satisfy a test. -/
def Universe.HolesIn (L : ℕ → Prop) (u : Universe) : Prop :=
  ∀ m, u.p.hole? = some m ∨ u.h.hole? = some m → L m

theorem Universe.holesIn_params {L : ℕ → Prop} : Universe.params.HolesIn L := by
  rintro m (hm | hm) <;> contradiction

namespace Term
variable {H H' L L' : ℕ → Prop} {t : Term}

/-- What is said of the hole or the universe at the root of a term. -/
def RootIn (H L : ℕ → Prop) (t : Term) : Prop :=
  (∀ m, t = .hole m → H m) ∧ ∀ u, t.rootUniverse? = some u → u.HolesIn L

/-- All holes of a term satisfy one test, and all its level holes another one. -/
def HolesIn (H L : ℕ → Prop) (t : Term) : Prop := ∀ s ∈ t.subterms, s.RootIn H L

theorem holesIn_iff : t.HolesIn H L ↔ t.RootIn H L ∧ ∀ p ∈ t.parts, p.2.HolesIn H L := by
  rw [HolesIn, subterms_eq, List.forall_mem_cons, List.forall_mem_flatMap]
  rfl

theorem mem_insertFront {α : Type} [BEq α] [LawfulBEq α] {x y : α} {xs : List α} :
    x ∈ insertFront y xs ↔ x = y ∨ x ∈ xs := by
  unfold insertFront
  split
  case isTrue h =>
    have hy : y ∈ xs := by simpa using h
    exact ⟨.inr, fun h => h.elim (fun h => h ▸ hy) id⟩
  case isFalse => exact List.mem_cons

/-- A fold that collects entries collects those of every subterm. -/
theorem mem_fold_iff {f : List ℕ → Term → List ℕ} {P : Term → ℕ → Prop}
    (hf : ∀ acc s m, m ∈ f acc s ↔ P s m ∨ m ∈ acc) {m : ℕ} : m ∈ (t.fold f []).reverse ↔
    ∃ s ∈ t.subterms, P s m := by
  have hfold (ts : List Term) (acc : List ℕ) : m ∈ ts.foldl f acc ↔
      (∃ s ∈ ts, P s m) ∨ m ∈ acc := by
    induction ts generalizing acc with
    | nil => simp
    | cons s ts ih =>
      rw [List.foldl_cons, ih, hf]
      rw [List.exists_mem_cons_iff, or_left_comm, or_assoc]
  rw [List.mem_reverse, fold_eq_foldl, hfold]
  simp

theorem mem_holes_iff {m : ℕ} : m ∈ t.holes ↔ hole m ∈ t.subterms := by
  rw [holes, mem_fold_iff (P := fun s m => s = .hole m)]
  · simp
  · intro acc s m
    cases s <;> simp [mem_insertFront, eq_comm]

/-- The level holes of a term are those of the universes in it. -/
theorem mem_levelHoles_iff {m : ℕ} : m ∈ t.levelHoles ↔
    ∃ s ∈ t.subterms, ∃ u, s.rootUniverse? = some u ∧
      (u.p.hole? = some m ∨ u.h.hole? = some m) := by
  rw [levelHoles, mem_fold_iff (P := fun s m => ∃ u, s.rootUniverse? = some u ∧
    (u.p.hole? = some m ∨ u.h.hole? = some m))]
  intro acc s m
  cases s.rootUniverse? with
  | none => simp
  | some u =>
    cases hp : u.p.hole? <;> cases hh : u.h.hole? <;> simp [hp, hh, mem_insertFront] <;> grind

theorem HolesIn.mono (h : t.HolesIn H L) (hH : ∀ m, H m → H' m) (hL : ∀ m, L m → L' m) :
    t.HolesIn H' L' :=
  fun s hs => ⟨fun m hm => hH m ((h s hs).1 m hm), fun u hu m hm => hL m ((h s hs).2 u hu m hm)⟩

theorem HolesIn.of_mem_holes (h : t.HolesIn H L) {m : ℕ} (hm : m ∈ t.holes) : H m := by
  rw [mem_holes_iff] at hm
  exact (h _ hm).1 m rfl

theorem HolesIn.of_mem_levelHoles (h : t.HolesIn H L) {m : ℕ} (hm : m ∈ t.levelHoles) : L m := by
  rw [mem_levelHoles_iff] at hm
  obtain ⟨s, hs, u, hu, hm⟩ := hm
  exact (h s hs).2 u hu m hm

/-- What holds of all holes that are listed holds of the term. -/
theorem holesIn_of_holes (hH : ∀ m ∈ t.holes, H m) (hL : ∀ m ∈ t.levelHoles, L m) :
    t.HolesIn H L := by
  refine fun s hs => ⟨?_, fun u hu m hm => hL m ?_⟩
  · rintro m rfl
    exact hH m (by rwa [mem_holes_iff])
  · rw [mem_levelHoles_iff]
    exact ⟨s, hs, u, hu, hm⟩

attribute [local simp] rootUniverse?

theorem holesIn_var (i : ℕ) : (var i).HolesIn H L :=
  holesIn_iff.mpr ⟨⟨by simp, by simp⟩, by simp [parts]⟩

theorem holesIn_field {n : GlobalName} {i : ℕ} (h : t.HolesIn H L) : (field t n i).HolesIn H L :=
  holesIn_iff.mpr ⟨⟨by simp, by simp⟩, by simpa [parts] using h⟩

theorem holesIn_univ : (univ .params).HolesIn H L :=
  holesIn_iff.mpr ⟨⟨by simp, by simp [Universe.holesIn_params]⟩, by simp [parts]⟩

theorem holesIn_data {n : GlobalName} {ps : List Term} (h : ∀ p ∈ ps, p.HolesIn H L) :
    (data n .params ps).HolesIn H L :=
  holesIn_iff.mpr ⟨⟨by simp, by simp [Universe.holesIn_params]⟩,
    by simpa [parts] using h⟩

theorem holesIn_record {n : GlobalName} {ps : List Term} (h : ∀ p ∈ ps, p.HolesIn H L) :
    (record n .params ps).HolesIn H L :=
  holesIn_iff.mpr ⟨⟨by simp, by simp [Universe.holesIn_params]⟩,
    by simpa [parts] using h⟩

section Replace
variable {f : ℕ → ℕ → Term} {g : Universe → Universe}

theorem RootIn.replace {c : ℕ} (h : t.RootIn H L) (ht : ∀ i, t ≠ .var i)
    (hg : ∀ u : Universe, u.HolesIn L → (g u).HolesIn L') : (t.replace f g c).RootIn H L' := by
  obtain ⟨hhole, huniv⟩ := h
  cases t <;> simp_all [RootIn, Term.replace]

/-- Replacing variables and universes brings in the holes of what is put in, and no others. -/
theorem HolesIn.replace {c : ℕ} (h : t.HolesIn H L) (hf : ∀ c i, (f c i).HolesIn H L')
    (hg : ∀ u : Universe, u.HolesIn L → (g u).HolesIn L') : (t.replace f g c).HolesIn H L' := by
  induction t using induct_parts generalizing c with
  | step t ih =>
    obtain ⟨hroot, hp⟩ := holesIn_iff.mp h
    by_cases hv : ∃ i, t = .var i
    · obtain ⟨i, rfl⟩ := hv
      exact hf c i
    · push Not at hv
      refine holesIn_iff.mpr ⟨hroot.replace hv hg, ?_⟩
      rw [parts_replace c hv]
      rintro q hq
      obtain ⟨p, hpt, rfl⟩ := List.mem_map.mp hq
      exact ih p hpt (hp p hpt)

theorem HolesIn.replaceVars (h : t.HolesIn H L) (hf : ∀ c i, (f c i).HolesIn H L) :
    (t.replaceVars f).HolesIn H L :=
  h.replace hf fun _ => id

theorem HolesIn.lift (h : t.HolesIn H L) (n : ℕ) : (t.lift n).HolesIn H L := by
  rw [lift_eq_replaceVars]
  refine h.replaceVars fun c i => ?_
  split <;> exact holesIn_var _

theorem HolesIn.substAll (h : t.HolesIn H L) {as : List Term} (has : ∀ a ∈ as, a.HolesIn H L) :
    (t.substAll as).HolesIn H L := by
  unfold Term.substAll
  split
  · exact h
  · refine h.replaceVars fun c i => ?_
    split
    · exact holesIn_var _
    · split
      case h_1 a ha => exact (has a (List.mem_reverse.mp (List.mem_of_getElem? ha))).lift c
      case h_2 => exact holesIn_var _

end Replace

end Term

/-- Substituting a level without a hole for the hole of a level leaves none. -/
theorem Level.hole?_subst_hole {l r : Level} {m : ℕ} (hl : l.hole? = some m) (hr : r.hole? = none) :
    (l.subst (.hole m) r).hole? = none := by
  cases l with
  | var v add floor =>
    cases v with
    | hole k =>
      obtain rfl := Option.some.inj hl
      cases r with
      | var w a f =>
        cases w with
        | param =>
          rw [subst, if_pos rfl, hole?_ofVar]
          rfl
        | hole j => simp [hole?] at hr
      | _ => simp [subst, hole?]
    | param => simp [hole?] at hl
  | _ => simp [hole?] at hl

/-- A level with its hole replaced by a solution, if it has one. -/
def Level.fill (sol : ℕ → Option Level) (l : Level) : Level :=
  match l.hole? with
  | some m => match sol m with
    | some s => l.subst (.hole m) s
    | none => l
  | none => l

theorem Term.fillLevels_eq_mapUniverses (t : Term) (sol : ℕ → Option Level) :
    t.fillLevels sol = t.mapUniverses fun u => u.map (Level.fill sol) := rfl

/-- A level hole that is left once level holes are filled has no solution. -/
theorem Term.HolesIn.fillLevels {H L : ℕ → Prop} {t : Term} {sol : ℕ → Option Level}
    (h : t.HolesIn H L) (hsol : ∀ m l, sol m = some l → l.hole? = none) :
    (t.fillLevels sol).HolesIn H fun m => L m ∧ sol m = none := by
  have hfill {l : Level} {m : ℕ} (hm : (l.fill sol).hole? = some m) : l.hole? = some m ∧
      sol m = none := by
    cases hl : l.hole? with
    | none => simp [Level.fill, hl] at hm
    | some k =>
      cases hk : sol k with
      | none =>
        simp only [Level.fill, hl, hk, Option.some.injEq] at hm
        exact ⟨congrArg some hm, hm ▸ hk⟩
      | some s =>
        simp only [Level.fill, hl, hk] at hm
        simp [Level.hole?_subst_hole hl (hsol k s hk)] at hm
  refine h.replace (fun _ i => holesIn_var i) fun u hu m hm => ?_
  rcases hm with hm | hm
  · exact ⟨hu m (.inl (hfill hm).1), (hfill hm).2⟩
  · exact ⟨hu m (.inr (hfill hm).1), (hfill hm).2⟩

end LeveledTypes
