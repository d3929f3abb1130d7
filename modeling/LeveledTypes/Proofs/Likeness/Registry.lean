import LeveledTypes.Conversion
import LeveledTypes.Elaboration.Instance
import LeveledTypes.Proofs.Registry

/-!
# Registries that hold the same

Two registries that hold the same definitions and have the same lists are told apart by nothing: not
by looking names up, not by reduction, and not by a comparison of terms.
-/
namespace LeveledTypes

namespace Registry

/-- Two registries hold the same definitions and have the same lists. -/
structure Equiv (r r' : Registry) : Prop where
  definitions : r.definitions.Equiv r'.definitions
  instances : r.instances = r'.instances
  subclasses : r.subclasses = r'.subclasses

namespace Equiv
variable {r r' : Registry}

theorem refl (r : Registry) : r.Equiv r := ⟨.refl _, rfl, rfl⟩

theorem get? (h : r.Equiv r') (n : GlobalName) : r.get? n = r'.get? n := h.definitions.getElem?_eq

theorem insert (h : r.Equiv r') (d : Definition) : (r.insert d).Equiv (r'.insert d) where
  definitions := by
    rw [definitions_insert, definitions_insert]
    exact h.definitions.insert d.name d
  instances := by rw [instances_insert, instances_insert, h.instances]
  subclasses := by rw [subclasses_insert, subclasses_insert, h.subclasses]

theorem insertAll (h : r.Equiv r') (ds : List Definition) :
    (r.insertAll ds).Equiv (r'.insertAll ds) := by
  induction ds generalizing r r' with
  | nil => exact h
  | cons d ds ih => exact ih (h.insert d)

theorem erase (h : r.Equiv r') (n : GlobalName) : (r.erase n).Equiv (r'.erase n) := by
  cases hn : r.get? n with
  | none => rwa [erase_of_none hn, erase_of_none (h.get? n ▸ hn)]
  | some d =>
    have hn' : r'.get? n = some d := h.get? n ▸ hn
    refine ⟨.of_forall_getElem?_eq fun m => ?_, ?_, ?_⟩
    · have hm : (r.erase n).get? m = (r'.erase n).get? m := by rw [get?_erase, get?_erase, h.get?]
      exact hm
    · rw [instances_erase hn, instances_erase hn', h.instances]
    · rw [subclasses_erase hn, subclasses_erase hn', h.subclasses]

theorem eraseAll (h : r.Equiv r') (ns : List GlobalName) :
    (r.eraseAll ns).Equiv (r'.eraseAll ns) := by
  induction ns generalizing r r' with
  | nil => exact h
  | cons n ns ih => exact ih (h.erase n)

end Equiv

section Pending
variable {r : Registry} {ns : List GlobalName}

/-- Definitions that have no body yet are in no list. -/
theorem lists_insertAll_pending {ds : List Definition} (hds : ∀ d ∈ ds, d.body = .pending) :
    (r.insertAll ds).instances = r.instances ∧ (r.insertAll ds).subclasses = r.subclasses := by
  induction ds generalizing r with
  | nil => exact ⟨rfl, rfl⟩
  | cons d ds ih =>
    obtain ⟨hd, hds⟩ := List.forall_mem_cons.mp hds
    obtain ⟨hinstances, hsubclasses⟩ := ih (r := r.insert d) hds
    rw [instances_insert, Definition.instantiates, hd] at hinstances
    rw [subclasses_insert, Definition.extends, hd] at hsubclasses
    exact ⟨hinstances, hsubclasses⟩

/-- Erasing definitions that are only announced leaves the lists of instances as they were, as these
have none of them. -/
theorem lists_eraseAll_pending (h : ∀ n ∈ ns, ∀ d, r.get? n = some d → d.body = .pending) :
    (r.eraseAll ns).instances = r.instances ∧ (r.eraseAll ns).subclasses = r.subclasses := by
  induction ns generalizing r with
  | nil => exact ⟨rfl, rfl⟩
  | cons n ns ih =>
    obtain ⟨hn, hns⟩ := List.forall_mem_cons.mp h
    have herase : (r.erase n).instances = r.instances ∧ (r.erase n).subclasses = r.subclasses := by
      cases hd : r.get? n with
      | none => simp [erase_of_none hd]
      | some d =>
        rw [instances_erase hd, subclasses_erase hd, Definition.instantiates, Definition.extends,
          hn d hd]
        exact ⟨rfl, rfl⟩
    obtain ⟨hinstances, hsubclasses⟩ := ih (r := r.erase n) fun m hm d hd => by
      rw [get?_erase] at hd
      split at hd
      · contradiction
      · exact hns m hm d hd
    exact ⟨hinstances.trans herase.1, hsubclasses.trans herase.2⟩

/-- Inserting definitions changes what is found under their names only. -/
theorem get?_insertAll_eq_or (ds : List Definition) (r : Registry) (n : GlobalName) :
    (r.insertAll ds).get? n = r.get? n ∨ ∃ d ∈ ds, d.name = n ∧
    (r.insertAll ds).get? n = some d := by
  induction ds generalizing r with
  | nil => exact .inl rfl
  | cons d ds ih =>
    obtain h | ⟨k, hk, hname, h⟩ := ih (r.insert d)
    · by_cases hd : d.name = n
      · exact .inr ⟨d, List.mem_cons_self, hd, h.trans (by rw [get?_insert, if_pos hd])⟩
      · exact .inl (h.trans (by rw [get?_insert, if_neg hd]))
    · exact .inr ⟨k, List.mem_cons_of_mem d hk, hname, h⟩

/-- Announcing definitions of new names, and taking the names out again, changes nothing. -/
theorem equiv_eraseAll_insertAll {ds : List Definition} (hds : ∀ d ∈ ds, d.name ∈ ns ∧
    d.body = .pending)
    (hns : ∀ n ∈ ns, r.get? n = none) : ((r.insertAll ds).eraseAll ns).Equiv r := by
  have hpending : ∀ n ∈ ns, ∀ d, (r.insertAll ds).get? n = some d → d.body = .pending := by
    intro n hn d hd
    obtain h | ⟨k, hk, -, h⟩ := get?_insertAll_eq_or ds r n
    · rw [h, hns n hn] at hd
      contradiction
    · obtain rfl := Option.some.inj (h.symm.trans hd)
      exact (hds k hk).2
  obtain ⟨hinstances, hsubclasses⟩ := lists_insertAll_pending (r := r) fun d hd => (hds d hd).2
  obtain ⟨hinstances', hsubclasses'⟩ := lists_eraseAll_pending hpending
  refine ⟨.of_forall_getElem?_eq fun n => ?_, hinstances'.trans hinstances,
    hsubclasses'.trans hsubclasses⟩
  refine (get?_eraseAll _ ns n).trans ?_
  split
  case isTrue hn => exact (hns n hn).symm
  case isFalse hn =>
    obtain h | ⟨k, hk, rfl, -⟩ := get?_insertAll_eq_or ds r n
    · exact h
    · exact absurd (hds k hk).1 hn

end Pending

end Registry

namespace Environment

/-- Two environments over the same shared definitions hold the same definitions of the module. -/
structure Equiv (env env' : Environment) : Prop where
  base : env.base = env'.base
  own : env.own.Equiv env'.own

namespace Equiv
variable {env env' : Environment} (h : env.Equiv env')

include h

theorem get? (n : GlobalName) : env.get? n = env'.get? n := by
  rw [Environment.get?, Environment.get?, h.own.get?, h.base]

theorem size : env.size = env'.size := by
  have hown : env.own.size = env'.own.size := h.own.definitions.size_eq
  rw [Environment.size, Environment.size, h.base, hown]

theorem classFields (c : GlobalName) : env.classFields c = env'.classFields c := by
  rw [Environment.classFields, Environment.classFields, h.get?]

theorem instancesOf (c : GlobalName) : env.instancesOf c = env'.instancesOf c := by
  have hown : env.own.instancesOf c = env'.own.instancesOf c := by
    rw [Registry.instancesOf, Registry.instancesOf, h.own.instances]
  simp only [Environment.instancesOf, both, hown, h.base]

theorem subclassesOf (c : GlobalName) : env.subclassesOf c = env'.subclassesOf c := by
  have hown : env.own.subclassesOf c = env'.own.subclassesOf c := by
    rw [Registry.subclassesOf, Registry.subclassesOf, h.own.subclasses]
  simp only [Environment.subclassesOf, both, hown, h.base]

theorem run (n : ℕ) (w : SubclassWalk) : w.run env n = w.run env' n := by
  have hvisit : SubclassWalk.visit env = SubclassWalk.visit env' := by
    funext c path w sub
    simp only [SubclassWalk.visit, h.classFields, h.instancesOf]
  induction n generalizing w with
  | zero => rfl
  | succ n ih => simp only [SubclassWalk.run, hvisit, h.subclassesOf, ih]

theorem instanceCandidates (c : GlobalName) :
    env.instanceCandidates c = env'.instanceCandidates c := by
  simp only [Environment.instanceCandidates, inheritedInstances, h.instancesOf, h.size, h.run]

end Equiv

end Environment

section Reduction
variable {env env' : Environment} (h : env.Equiv env') (store : Store) (locals : Locals)

include h

namespace Reducer

theorem delta_equiv : delta ⟨env, store, locals⟩ = delta ⟨env', store, locals⟩ := by
  funext whnf n u args
  unfold delta
  dsimp only
  rw [h.get?]

/-- Reduction asks a registry for definitions by their names only. -/
theorem whnfGas_equiv (depth gas : ℕ) :
    whnfGas ⟨env, store, locals⟩ depth gas = whnfGas ⟨env', store, locals⟩ depth gas := by
  induction gas with
  | zero => rfl
  | succ gas ih =>
    funext t
    rw [whnfGas, whnfGas, ih]
    unfold whnfWith applySpine
    rw [delta_equiv h]
    rfl

theorem nfGas_equiv (depth gas : ℕ) :
    nfGas ⟨env, store, locals⟩ gas depth = nfGas ⟨env', store, locals⟩ gas depth := by
  induction gas generalizing depth with
  | zero => rfl
  | succ gas ih =>
    funext t
    simp only [nfGas, whnfGas_equiv h, ih]

end Reducer

namespace Converter
variable (limits : Limits) (span : Span)

theorem whnf_equiv : whnf ⟨env, locals, limits, span⟩ = whnf ⟨env', locals, limits, span⟩ := by
  funext binders t s
  simp only [whnf, reduce, Reducer.whnf, Reducer.whnfGas_equiv h]

theorem reduce_nf_equiv (binders : ℕ) (t : Term) :
    reduce ⟨env, locals, limits, span⟩ (·.nf binders t) = reduce ⟨env', locals, limits, span⟩
      (·.nf binders t) := by
  funext s
  simp only [reduce, Reducer.nf, Reducer.nfGas_equiv h]

theorem patternVars_equiv :
    patternVars ⟨env, locals, limits, span⟩ = patternVars ⟨env', locals, limits, span⟩ := by
  funext binders args vars
  induction args generalizing vars with
  | nil => rfl
  | cons a args ih => simp only [patternVars, whnf_equiv h, ih]

theorem solve_equiv : solve ⟨env, locals, limits, span⟩ = solve ⟨env', locals, limits, span⟩ := by
  funext binders m cmp l r
  simp only [solve, patternVars_equiv h, reduce_nf_equiv h]
  rfl

theorem convertIn_equiv (room : ℕ) :
    convertIn ⟨env, locals, limits, span⟩ room = convertIn ⟨env', locals, limits, span⟩ room := by
  induction room with
  | zero => rfl
  | succ room ih =>
    funext binders cmp l r
    simp only [convertIn, convertWith, whnf_equiv h, solve_equiv h, ih]
    rfl

theorem convert_equiv : convert ⟨env, locals, limits, span⟩ =
    convert ⟨env', locals, limits, span⟩ := by
  funext cmp l r
  rw [convert, convert, convertIn_equiv h]

omit locals span in
/-- Constraints that wait are taken up alike over environments that are equivalent. -/
theorem retryConstraints_equiv : retryConstraints env limits = retryConstraints env' limits := by
  have honce : retryOnce env limits = retryOnce env' limits := by
    simp only [retryOnce, convert_equiv h]
  have hfrom (progress : Bool) (s : ConversionState) :
      retryFrom env limits progress s = retryFrom env' limits progress s := by
    fun_induction retryFrom env limits progress s with
    | case1 progress s pending hnone => rw [retryFrom, if_pos hnone]
    | case2 progress s pending hsome err t hrun => rw [retryFrom, if_neg hsome, ← honce, hrun]
    | case3 progress s unsolved pending hsome t hrun hless ih =>
      rw [retryFrom.eq_def env', if_neg hsome, ← honce, hrun]
      exact ih.trans (if_pos hless).symm
    | case4 progress s unsolved pending hsome t hrun hless =>
      rw [retryFrom, if_neg hsome, ← honce, hrun]
      exact (if_neg hless).symm
  funext s
  exact hfrom false s

end Converter

end Reduction

end LeveledTypes
