import LeveledTypes.Proofs.Search.Transaction

/-!
# Instances that do not matter

A further instance changes nothing about a search if it fits none of the goals that come up, and if
it is not the first instance of a class that is searched for and has so far been found in the
classes that extend it. The instance is tried in the new environment: its type, projected to the
class sought, is compared with the goal.
-/
namespace LeveledTypes

/-- One more instance is registered, among the shared definitions or among those of the module. -/
def Registry.Registers (base own : Registry) (d : Definition) (base' own' : Registry) : Prop :=
  base' = base.insert d ∧ own' = own ∨ base' = base ∧ own' = own.insert d

section Registration
variable {base own base' own' : Registry} {d : Definition} {cls c n : GlobalName} {body : Term}

namespace Registry

theorem contains_insert_iff {r : Registry} :
    (r.insert d).contains n = true ↔ d.name = n ∨ r.contains n = true := by
  rw [contains, definitions_insert, Std.HashMap.contains_insert, Bool.or_eq_true, beq_iff_eq,
    contains]

/-- A new instance stands at the end of the list of its class. -/
theorem instancesOf_insert_of_notMem {r : Registry} (hbody : d.body = .inst cls body)
    (hnew : d.name ∉ r.instancesOf cls) (c : GlobalName) :
    (r.insert d).instancesOf c = r.instancesOf c ++ if c = cls then [d.name] else [] := by
  have hcontains : ¬(r.instances.getD cls []).contains d.name = true := by
    simpa [instancesOf] using hnew
  rw [instancesOf, instances_insert, Definition.instantiates, hbody]
  change (enlist r.instances cls d.name).getD c [] = _
  unfold enlist
  rw [if_neg hcontains, Std.HashMap.getD_insert]
  split
  case isTrue h =>
    obtain rfl := eq_of_beq h
    rw [if_pos rfl]
    rfl
  case isFalse h =>
    rw [if_neg fun heq => h (beq_iff_eq.mpr heq.symm), List.append_nil]
    rfl

theorem subclassesOf_insert {r : Registry} (hbody : d.body = .inst cls body) (c : GlobalName) :
    (r.insert d).subclassesOf c = r.subclassesOf c := by
  rw [subclassesOf, subclasses_insert, Definition.extends, hbody]
  rfl

end Registry

namespace Environment

theorem classFields_of_inst {env : Environment} (hd : env.get? n = some d)
    (hbody : d.body = .inst cls body) : env.classFields n = [] := by
  cases d
  subst hbody
  simp [classFields, hd]

variable (h : base.Registers own d base' own') (hbody : d.body = .inst cls body)

include h

theorem get?_of_registers (hn : n ≠ d.name) :
    (⟨base', own'⟩ : Environment).get? n = (⟨base, own⟩ : Environment).get? n := by
  obtain ⟨rfl, rfl⟩ | ⟨rfl, rfl⟩ := h
  · simp only [get?, Registry.get?_insert, if_neg hn.symm]
  · simp only [get?, Registry.get?_insert, if_neg hn.symm]

variable {A : GlobalName → ℕ} (hcoherent : (⟨base, own⟩ : Environment).Coherent (· ≠ d.name) A)

include hcoherent

theorem get?_name_of_registers : (⟨base', own'⟩ : Environment).get? d.name = some d := by
  obtain ⟨hown, hbase⟩ := Option.or_eq_none_iff.mp hcoherent.get?_eq_none
  obtain ⟨rfl, rfl⟩ | ⟨rfl, rfl⟩ := h
  · simp [get?, hown, Registry.get?_insert]
  · simp [get?, hbase, Registry.get?_insert]

include hbody

/-- The lists of a class stay as they are, but for the instances of one class. -/
theorem both_of_registers :
    (∀ c, (⟨base', own'⟩ : Environment).subclassesOf c =
      (⟨base, own⟩ : Environment).subclassesOf c) ∧
    ∀ c, ((⟨base', own'⟩ : Environment).instancesOf c).Perm
      ((⟨base, own⟩ : Environment).instancesOf c ++ if c = cls then [d.name] else []) := by
  have hbase : base.contains d.name = false := by
    have hnone := (Option.or_eq_none_iff.mp hcoherent.get?_eq_none).2
    simpa [Registry.contains, Registry.get?] using hnone
  have hnotMem {f : Registry → List GlobalName}
      (hf : ∀ n ∈ (⟨base, own⟩ : Environment).both f, n ≠ d.name) :
      d.name ∉ f base ∧ d.name ∉ f own :=
    ⟨fun hmem => hf _ (List.mem_append_left _ hmem) rfl,
      fun hmem => hf _ (List.mem_append_right _ (List.mem_filter.mpr ⟨hmem, by simp [hbase]⟩)) rfl⟩
  have hinstances (c : GlobalName) := hnotMem (hcoherent.instances c)
  have hsubclasses (c : GlobalName) := hnotMem (hcoherent.subclasses c)
  obtain ⟨rfl, rfl⟩ | ⟨rfl, rfl⟩ := h
  -- A name of the module is shared already, or not at all.
  · have hfilter {ns : List GlobalName} (hns : d.name ∉ ns) :
        ns.filter (fun n => !(base.insert d).contains n) = ns.filter fun n => !base.contains n := by
      refine List.filter_congr fun n hn => ?_
      have hne : d.name ≠ n := fun heq => hns (heq ▸ hn)
      have hiff := Registry.contains_insert_iff (r := base) (d := d) (n := n)
      rw [or_iff_right hne] at hiff
      rw [Bool.eq_iff_iff.mpr hiff]
    constructor <;> intro c
    · simp only [subclassesOf, both, Registry.subclassesOf_insert hbody, hfilter (hsubclasses c).2]
    · simp only [instancesOf, both, Registry.instancesOf_insert_of_notMem hbody (hinstances cls).1,
        hfilter (hinstances c).2, List.append_assoc]
      exact List.Perm.append_left _ List.perm_append_comm
  · constructor <;> intro c
    · simp only [subclassesOf, both, Registry.subclassesOf_insert hbody]
    · simp only [instancesOf, both, Registry.instancesOf_insert_of_notMem hbody (hinstances cls).2,
        List.filter_append, List.append_assoc]
      split
      · simp [hbase]
      · simp

/-- Registering an instance adds it to the instances of its class, and changes nothing else that a
search looks up. -/
theorem enlarges_of_registers :
    (⟨base, own⟩ : Environment).Enlarges (· = d.name) ⟨base', own'⟩ := by
  obtain ⟨hsubclasses, hinstances⟩ := both_of_registers h hbody hcoherent
  refine ⟨fun n => ?_, hsubclasses,
    fun c => ⟨if c = cls then [d.name] else [], hinstances c, fun n hn => ?_⟩⟩
  · by_cases hn : n = d.name
    · subst hn
      rw [classFields_of_inst (get?_name_of_registers h hcoherent) hbody, classFields,
        hcoherent.get?_eq_none]
    · rw [classFields, classFields, get?_of_registers h hn]
  · split at hn
    · exact List.mem_singleton.mp hn
    · cases hn

variable (hclosed : body.Over (.ofArity A False) d.tele.length)

include hclosed

theorem closed_of_registers : (⟨base', own'⟩ : Environment).Closed A := by
  intro n d' hd'
  by_cases hn : n = d.name
  · subst hn
    obtain rfl := Option.some.inj ((get?_name_of_registers h hcoherent).symm.trans hd')
    simp only [hbody]
    exact hclosed
  · exact hcoherent.closed n d' (get?_of_registers h hn ▸ hd')

/-- The registered instance is over the globals as its type is; the other definitions are those from
before. -/
theorem coherent_of_registers (htype : (Term.pis d.tele d.type).Over (.ofArity A True) ⊤) :
    (⟨base', own'⟩ : Environment).Coherent (fun _ => True) A where
  named _ _ _ := trivial
  instances _ _ _ := trivial
  subclasses _ _ _ := trivial
  closedIn := (closed_of_registers h hbody hcoherent hclosed).closedIn
  types n d' hd' := by
    by_cases hn : n = d.name
    · subst hn
      obtain rfl := Option.some.inj ((get?_name_of_registers h hcoherent).symm.trans hd')
      exact htype
    · exact (hcoherent.types n d' (get?_of_registers h hn ▸ hd')).ofArity
  fields n f hf := by
    rw [(enlarges_of_registers h hbody hcoherent).classFields] at hf
    exact (hcoherent.fields n f hf).ofArity

end Environment

end Registration

/-- What a further instance is watched for: that it fits a goal, and that its class is searched for
when it is the first instance of the class, and hides those of the classes that extend it. -/
def Watch.ofInstance (env : Environment) (d : Definition) : Watch where
  fits n := n = d.name
  seeks cls := d.instantiates.contains cls &&
    (env.instancesOf cls).isEmpty && !(env.inheritedInstances cls).isEmpty

namespace Elaborator
variable {A : GlobalName → ℕ} {e : Elaborator} {c : Context} {span : Span} {room : ℕ} {goal : Term}
  {s : ElaborationState} {base' own' : Registry} {d : Definition} {cls : GlobalName} {body : Term}

/-- A further instance of a fresh name changes nothing about a search, neither what it finds nor the
store it leaves, unless somewhere on the way it fits a goal, or hides the instances of a class that
have been found so far. -/
theorem search_insert_irrelevant (h : e.Coherent (· ≠ d.name) A c s)
    (hgoal : goal.Over (.naming (· ≠ d.name) A True) ⊤) (hbody : d.body = .inst cls body)
    (hclosed : body.Over (.ofArity A False) d.tele.length)
    (htype : (Term.pis d.tele d.type).Over (.ofArity A True) ⊤)
    (hadd : e.base.Registers s.own d base' own') (hunlimited : e.Unlimited c span room goal s)
    (hirrelevant : ∀ t, Watched.search (.ofInstance ⟨e.base, s.own⟩ d)
      { e with base := base' } c span room goal { s with own := own' } ≠ .error none t) :
    EndsAlike (e.search c span room goal s)
      (search { e with base := base' } c span room goal { s with own := own' }) := by
  have hmore := Environment.enlarges_of_registers hadd hbody h.env
  have hright := Environment.coherent_of_registers hadd hbody h.env hclosed htype
  have htwins : Watched.Twins (· ≠ d.name) A {} (.ofInstance ⟨e.base, s.own⟩ d) e
      { e with base := base' } s.own own' := by
    refine h.env.watched hright.closed (fun n hn => Environment.get?_of_registers hadd hn) hmore rfl
      rfl (fun n hn => ?_) fun cls' hseeks hnone => ?_
    · simpa [Watch.ofInstance] using hn
    · have hinstances := (Environment.both_of_registers hadd hbody h.env).2 cls'
      by_cases hcls : cls' = cls
      · right
        simpa [Watch.ofInstance, Definition.instantiates, hbody, hcls, hcls ▸ hnone] using hseeks
      · left
        rw [hnone, if_neg hcls] at hinstances
        exact List.perm_nil.mp hinstances
  exact h.endsAlike htwins hright.watched_self (fun _ _ => trivial) hgoal hunlimited hirrelevant

section Example

/-- An instance for functions does not matter for numbers. -/
theorem search_insert_irrelevant_funPointed :
    (withInstances [natPointed]).Coherent (· ≠ funPointed.name) (fun _ => 0) {} {} ∧
    pointedNat.Over (.naming (· ≠ funPointed.name) (fun _ => 0) True) ⊤ ∧
    (∃ body, funPointed.body = .inst ⟨"base::Pointed"⟩ body ∧
      body.Over (.ofArity (fun _ => 0) False) funPointed.tele.length) ∧
    (Term.pis funPointed.tele funPointed.type).Over (.ofArity (fun _ => 0) True) ⊤ ∧
    (withInstances [natPointed]).base.Registers {} funPointed
      (withInstances [natPointed, funPointed]).base {} ∧
    (withInstances [natPointed]).Unlimited {} default 8 pointedNat {} ∧
    (∀ t, Watched.search (.ofInstance ⟨(withInstances [natPointed]).base, {}⟩ funPointed)
      (withInstances [natPointed, funPointed]) {} default 8 pointedNat {} ≠ .error none t) ∧
    (∃ t, (withInstances [natPointed]).search {} default 8 pointedNat {} =
      .ok (.ref ⟨"other::natPointed"⟩ ⟨.hole 0, .hole 1⟩) t) ∧
    EndsAlike ((withInstances [natPointed]).search {} default 8 pointedNat {})
      ((withInstances [natPointed, funPointed]).search {} default 8 pointedNat {}) := by
  have hds : Registered [natPointed] := .inl rfl
  have hcoherent := coherent_withInstances (G := (· ≠ funPointed.name)) hds (by decide)
  have hgoal : pointedNat.Over (.naming (· ≠ funPointed.name) (fun _ => 0) True) ⊤ := by
    simp [pointedNat]
  have hclosed : (Term.new ⟨"base::Pointed"⟩ .zero [.pi (Binder.named "n") .nat .nat]
      [.lam (Binder.named "n") .nat (.var 0)]).Over
        (.ofArity (fun _ => 0) False) funPointed.tele.length := by
    simp
  have htype : (Term.pis funPointed.tele funPointed.type).Over (.ofArity (fun _ => 0) True) ⊤ := by
    simp [funPointed, Term.pis]
  have hadd : (withInstances [natPointed]).base.Registers {} funPointed
      (withInstances [natPointed, funPointed]).base {} :=
    .inl ⟨rfl, rfl⟩
  let w : Watch := .ofInstance ⟨(withInstances [natPointed]).base, {}⟩ funPointed
  have hseeks : w.seeks ⟨"base::Pointed"⟩ = false := by
    simp [w, Watch.ofInstance, instancesOf_withInstances hds]
  have hirrelevant :
      ∀ t, Watched.search w (withInstances [natPointed, funPointed]) {} default 8 pointedNat {} ≠
        .error none t := by
    intro u hu
    obtain ⟨t, hrun⟩ := search_withInstances (.inr (.inl rfl)) (w := w) (by decide) hseeks
    cases hrun.symm.trans hu
  obtain ⟨t, hrun⟩ := search_withInstances hds (w := {}) rfl rfl
  have h := search_insert_irrelevant (s := {}) hcoherent hgoal rfl hclosed htype hadd
    (unlimited_withInstances hds) hirrelevant
  exact ⟨hcoherent, hgoal, ⟨_, rfl, hclosed⟩, htype, hadd, unlimited_withInstances hds, hirrelevant,
    ⟨t, (Watched.Follows.search 8).ok hrun⟩, h⟩

/-- A class `\class Semi (A : \Type 0 0) { | elem : A }`. -/
def semi : Definition where
  span := default
  name := ⟨"base::Semi"⟩
  tele := [{ Binder.named "A" with type := .univ .zero }]
  type := .univ .zero
  body := .cls [⟨⟨"base::elem"⟩, .var 0, none, none⟩] []

/-- A class `\class Mon (A : \Type 0 0) \extends Semi A { }`. -/
def mon : Definition where
  span := default
  name := ⟨"base::Mon"⟩
  tele := [{ Binder.named "A" with type := .univ .zero }]
  type := .univ .zero
  body := .cls [⟨⟨"base::Mon.Semi"⟩, .record ⟨"base::Semi"⟩ .zero [.var 0], none,
    some ⟨"base::Semi"⟩⟩] [⟨"base::Semi"⟩]

/-- The goal `Semi Nat`. -/
def semiNat : Term := .record ⟨"base::Semi"⟩ .zero [.nat]

/-- An instance of the class `Mon`, which extends the class `Semi`. -/
def natMon : Definition where
  span := default
  name := ⟨"base::natMon"⟩
  tele := []
  type := .record ⟨"base::Mon"⟩ .zero [.nat]
  body := .inst ⟨"base::Mon"⟩
    (.new ⟨"base::Mon"⟩ .zero [.nat] [.new ⟨"base::Semi"⟩ .zero [.nat] [.zero]])

/-- An instance of the larger class for functions. -/
def funSemi : Definition where
  span := default
  name := ⟨"other::funSemi"⟩
  tele := []
  type := .record ⟨"base::Semi"⟩ .zero [.pi (Binder.named "n") .nat .nat]
  body := .inst ⟨"base::Semi"⟩
    (.new ⟨"base::Semi"⟩ .zero [.pi (Binder.named "n") .nat .nat]
      [.lam (Binder.named "n") .nat (.var 0)])

/-- The two classes with the instance. -/
def withMon : Elaborator := ⟨({} : Registry).insertAll [semi, mon, natMon], {}, []⟩

theorem get?_withMon {d : Definition} (hd : d ∈ [semi, mon, natMon]) :
    (⟨withMon.base, {}⟩ : Environment).get? d.name = some d := by
  rw [Environment.get?, Registry.get?_empty, Option.none_or]
  exact (Registry.get?_insertAll (by decide) _ _ _).mpr (.inl ⟨hd, rfl⟩)

theorem classFields_withMon : (⟨withMon.base, {}⟩ : Environment).classFields ⟨"base::Mon"⟩ =
    [⟨⟨"base::Mon.Semi"⟩, .record ⟨"base::Semi"⟩ .zero [.var 0], none, some ⟨"base::Semi"⟩⟩] := by
  rw [Environment.classFields, show (⟨"base::Mon"⟩ : GlobalName) = mon.name from rfl,
    get?_withMon (by simp)]
  rfl

/-- The instances of the class that is extended are found through the class that extends it. -/
theorem instanceCandidates_withMon :
    (⟨withMon.base, {}⟩ : Environment).instanceCandidates ⟨"base::Semi"⟩ =
    [(⟨"base::natMon"⟩, [(⟨"base::Mon"⟩, 0)])] := by
  have hsemi : (⟨withMon.base, {}⟩ : Environment).instancesOf ⟨"base::Semi"⟩ = [] := by
    simp [withMon, semi, mon, natMon, Registry.insertAll, Registry.insert, Registry.instancesOf,
      Environment.instancesOf, Environment.both, Registry.enlist, Std.HashMap.getD_insert]
  have hmon : (⟨withMon.base, {}⟩ : Environment).instancesOf ⟨"base::Mon"⟩ =
      [⟨"base::natMon"⟩] := by
    simp [withMon, semi, mon, natMon, Registry.insertAll, Registry.insert, Registry.instancesOf,
      Environment.instancesOf, Environment.both, Registry.enlist]
  have hsub : (⟨withMon.base, {}⟩ : Environment).subclassesOf ⟨"base::Semi"⟩ = [⟨"base::Mon"⟩] := by
    simp [withMon, semi, mon, natMon, Registry.insertAll, Registry.insert, Registry.subclassesOf,
      Environment.subclassesOf, Environment.both, Registry.enlist]
  have hnone : (⟨withMon.base, {}⟩ : Environment).subclassesOf ⟨"base::Mon"⟩ = [] := by
    simp [withMon, semi, mon, natMon, Registry.insertAll, Registry.insert, Registry.subclassesOf,
      Environment.subclassesOf, Environment.both, Registry.enlist, Std.HashMap.getD_insert]
  rw [Environment.instanceCandidates, hsemi]
  change (⟨withMon.base, {}⟩ : Environment).inheritedInstances ⟨"base::Semi"⟩ = _
  rw [← Environment.inheritedInstances_eq (Nat.le_succ _)]
  simp [Environment.SubclassWalk.run, Environment.SubclassWalk.visit, hsub, hnone,
    classFields_withMon, hmon, Environment.SubclassWalk.run_of_pending_eq_nil]

/-- Where only a class that extends it has an instance, a class gets its first instance. This one
does not fit the goal, but hides the one that does. -/
theorem not_irrelevant_funSemi :
    (∃ t, withMon.search {} default 8 semiNat {} =
      .ok (.field (.ref ⟨"base::natMon"⟩ ⟨.hole 0, .hole 1⟩) ⟨"base::Mon"⟩ 0) t) ∧
    (∃ t err u, freshUniverse {} = .ok ⟨.hole 0, .hole 1⟩ t ∧
      unify { withMon with base := withMon.base.insert funSemi } {}
        (funSemi.fullType ⟨.hole 0, .hole 1⟩) semiNat default t =
        .error err u ∧ err.kind = .typeMismatch) ∧
    ∃ t, search { withMon with base := withMon.base.insert funSemi } {} default 8 semiNat {} =
      .error (.located (.noInstance "Semi") default) t := by
  let t : ElaborationState :=
    { conversion := { store := { levelCount := 2, pLevels := [0], hLevels := [1] } } }
  have hfresh : freshUniverse {} = .ok ⟨.hole 0, .hole 1⟩ t := rfl
  refine ⟨?_, ?_, ?_⟩
  · have hglobal : withMon.global natMon.name default {} =
        .ok (.ref natMon.name ⟨.hole 0, .hole 1⟩, _) t :=
      global_eq_ok default List.not_mem_nil (get?_withMon (by simp)) hfresh
    have hfields : withMon.classFields ⟨"base::Mon"⟩ t = .ok _ t :=
      congrArg (EStateM.Result.ok · t) classFields_withMon
    have hpath : withMon.followPath {} default ⟨.ref natMon.name ⟨.hole 0, .hole 1⟩,
        .record ⟨"base::Mon"⟩ .zero [.nat]⟩
        [(⟨"base::Mon"⟩, 0)] t = .ok ⟨.field (.ref natMon.name ⟨.hole 0, .hole 1⟩) ⟨"base::Mon"⟩ 0,
          semiNat⟩ t := by
      rw [followPath, List.foldlM_cons]
      exact (bind_of_ok ((bind_of_ok classType_record).trans
        ((bind_of_ok hfields).trans rfl))).trans rfl
    have htry : withMon.tryInstance {} semiNat default (withMon.search {} default 7) natMon.name
        [(⟨"base::Mon"⟩, 0)] {} =
        .ok (.field (.ref natMon.name ⟨.hole 0, .hole 1⟩) ⟨"base::Mon"⟩ 0) t :=
      (bind_of_ok hglobal).trans
        ((bind_of_ok applyToHoles_record).trans ((bind_of_ok hpath).trans rfl))
    exact ⟨_, (search_of_fits (by simp) instanceCandidates_withMon
      (fits_singleton htry)).2 _ _ _ rfl⟩
  · exact ⟨t, _, _, hfresh, rfl, rfl⟩
  · have hcandidates : (⟨withMon.base.insert funSemi, {}⟩ : Environment).instanceCandidates
        ⟨"base::Semi"⟩ = [(funSemi.name, [])] := by
      have hinstances : (⟨withMon.base.insert funSemi, {}⟩ : Environment).instancesOf
          ⟨"base::Semi"⟩ = [funSemi.name] := by
        simp [withMon, semi, mon, natMon, funSemi, Registry.insertAll, Registry.insert,
          Registry.instancesOf, Environment.instancesOf, Environment.both, Registry.enlist,
          Std.HashMap.getD_insert]
      rw [Environment.instanceCandidates, hinstances]
      rfl
    have hget : (⟨withMon.base.insert funSemi, {}⟩ : Environment).get? funSemi.name =
        some funSemi := by
      rw [Environment.get?, Registry.get?_empty, Option.none_or, Registry.get?_insert, if_pos rfl]
    obtain ⟨err, u, hunify⟩ : ∃ err u, unify { withMon with base := withMon.base.insert funSemi } {}
        (funSemi.fullType ⟨.hole 0, .hole 1⟩) semiNat default t = .error err u := ⟨_, _, rfl⟩
    have htry : tryInstance { withMon with base := withMon.base.insert funSemi } {} semiNat default
        (search { withMon with base := withMon.base.insert funSemi } {} default 7) funSemi.name []
        {} = .error err u :=
      (tryInstance_eq List.not_mem_nil hget hfresh rfl).trans (bind_of_error hunify)
    exact ⟨_, (search_of_fits (by simp) hcandidates (fits_singleton_of_error htry)).1 rfl⟩

end Example

end Elaborator

end LeveledTypes
