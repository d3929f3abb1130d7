import LeveledTypes.Definition
import LeveledTypes.Proofs.Term.Holes
import Mathlib.Data.String.Basic
import Mathlib.Data.Option.Basic

/-!
# The globals that a term mentions

A term mentions a global where it refers to it, in its canonical forms, in projections of fields and
at the heads of the branches of its case splits; a body does so in its terms and where it lists
constructors and superclasses or says what it is a constructor or a field of. The recorded
dependencies of a definition are all globals that it mentions but itself, in order and each once.
-/
namespace LeveledTypes

/-- The global that a branch is for. -/
def BranchHead.global? : BranchHead → Option GlobalName
  | .con c => some c
  | .zero | .succ => none

namespace Term

mutual

/-- The term mentions the global. -/
def Mentions (n : GlobalName) : Term → Prop
  | .univ _ | .var _ | .hole _ | .nat | .zero | .interval | .left | .right => False
  | .ref c _ => c = n
  | .lam _ a b | .pi _ a b | .sigma _ a b | .app a b | .pair a b => Mentions n a ∨ Mentions n b
  | .letIn _ t a b => Mentions n t ∨ Mentions n a ∨ Mentions n b
  | .proj a _ | .succ a | .pathLam a => Mentions n a
  | .field a c _ => c = n ∨ Mentions n a
  | .data c _ ps | .record c _ ps => c = n ∨ MentionsAny n ps
  | .con c _ ps xs | .new c _ ps xs => c = n ∨ MentionsAny n ps ∨ MentionsAny n xs
  | .case a m bs => Mentions n a ∨ Mentions n m ∨ MentionsBranches n bs
  | .natRec a b c d | .at a b c d => Mentions n a ∨ Mentions n b ∨ Mentions n c ∨ Mentions n d
  | .path a x y => Mentions n a ∨ Mentions n x ∨ Mentions n y

def MentionsAny (n : GlobalName) : List Term → Prop
  | [] => False
  | t :: ts => Mentions n t ∨ MentionsAny n ts

/-- One of the branches is for a constructor of the name, or mentions it in its body. -/
def MentionsBranches (n : GlobalName) : List (Branch Term) → Prop
  | [] => False
  | ⟨h, _, b⟩ :: bs => h.global? = some n ∨ Mentions n b ∨ MentionsBranches n bs

end

variable {n : GlobalName} {t : Term}

@[simp] theorem mentionsAny_iff {ts : List Term} : MentionsAny n ts ↔ ∃ t ∈ ts, t.Mentions n := by
  induction ts with
  | nil => simp [MentionsAny]
  | cons t ts ih => simp [MentionsAny, ih]

@[simp] theorem mentionsBranches_iff {bs : List (Branch Term)} :
    MentionsBranches n bs ↔ ∃ b ∈ bs, b.head.global? = some n ∨ b.body.Mentions n := by
  induction bs with
  | nil => simp [MentionsBranches]
  | cons b bs ih => simp [MentionsBranches, ih, or_assoc]

/-- The globals that are mentioned at the root of a term. -/
def rootNames : Term → List GlobalName
  | .ref c _ | .data c _ _ | .con c _ _ _ | .record c _ _ | .new c _ _ _ | .field _ c _ => [c]
  | .case _ _ bs => bs.filterMap (·.head.global?)
  | _ => []

attribute [local simp] Mentions rootNames

/-- A global is mentioned at the root of a term or in one of its parts. -/
theorem mentions_iff : t.Mentions n ↔ n ∈ t.rootNames ∨ ∃ p ∈ t.parts, p.2.Mentions n := by
  cases t with
  | case a m bs =>
    have hbodies : (∃ p ∈ bs.map fun b => (b.arity, b.body), p.2.Mentions n) ↔
        ∃ b ∈ bs, b.body.Mentions n := by simp
    simp only [Mentions, mentionsBranches_iff, rootNames, parts, List.mem_filterMap,
      List.exists_mem_cons_iff, hbodies, and_or_left, exists_or, or_left_comm]
  | _ => simp [parts, or_and_right, exists_or, eq_comm]

/-- A name that is mentioned is at the root of some subterm. -/
theorem mentions_iff_subterms : t.Mentions n ↔ ∃ s ∈ t.subterms, n ∈ s.rootNames := by
  induction t using induct_parts with
  | step t ih =>
    rw [mentions_iff, subterms_eq, List.exists_mem_cons_iff, or_congr_right]
    simp only [List.mem_flatMap]
    constructor
    · rintro ⟨p, hp, hn⟩
      obtain ⟨s, hs, hn⟩ := (ih p hp).mp hn
      exact ⟨s, ⟨p, hp, hs⟩, hn⟩
    · rintro ⟨s, ⟨p, hp, hs⟩, hn⟩
      exact ⟨p, hp, (ih p hp).mpr ⟨s, hs, hn⟩⟩

theorem mentions_apps {args : List Term} :
    (t.apps args).Mentions n ↔ t.Mentions n ∨ ∃ a ∈ args, a.Mentions n := by
  induction args generalizing t with
  | nil => simp
  | cons a args ih =>
    rw [apps, List.foldl_cons, ← apps, ih, Mentions, or_assoc, List.exists_mem_cons_iff]

/-- A list that each entry adds its globals to. -/
theorem mem_foldl_iff {α : Type} {f : List GlobalName → α → List GlobalName}
    {g : α → List GlobalName} (hf : ∀ acc a, n ∈ f acc a ↔ n ∈ g a ∨ n ∈ acc) (as : List α)
    (acc : List GlobalName) : n ∈ as.foldl f acc ↔ (∃ a ∈ as, n ∈ g a) ∨ n ∈ acc := by
  induction as generalizing acc with
  | nil => simp
  | cons a as ih => rw [List.foldl_cons, ih, hf, List.exists_mem_cons_iff, or_left_comm, or_assoc]

/-- The globals that are added for a term are those that it mentions. -/
theorem mem_addRefs {acc : List GlobalName} : n ∈ t.addRefs acc ↔ t.Mentions n ∨ n ∈ acc := by
  rw [addRefs, fold_eq_foldl, mentions_iff_subterms]
  refine mem_foldl_iff (g := rootNames) (fun acc s => ?_) t.subterms acc
  cases s with
  | case a m bs =>
    refine (mem_foldl_iff (g := fun b : Branch Term => b.head.global?.toList)
      (fun acc b => ?_) bs acc).trans ?_
    · cases b.head <;> simp [BranchHead.global?, mem_insertFront]
    · simp
  | _ => simp [mem_insertFront]

theorem mem_foldl_addRefs {ts : List Term} {acc : List GlobalName} :
    n ∈ ts.foldl addRefs acc ↔ (∃ t ∈ ts, t.Mentions n) ∨ n ∈ acc := by
  induction ts generalizing acc with
  | nil => simp
  | cons t ts ih =>
    rw [List.foldl_cons, ih, mem_addRefs, List.exists_mem_cons_iff, or_left_comm, or_assoc]

/-- The term mentions no other globals than those that satisfy a test. -/
def NamesIn (G : GlobalName → Prop) (t : Term) : Prop := ∀ n, t.Mentions n → G n

section NamesIn
variable {G : GlobalName → Prop} {as : List Term} {a : Term}

theorem namesIn_iff : t.NamesIn G ↔ (∀ n ∈ t.rootNames, G n) ∧ ∀ p ∈ t.parts, p.2.NamesIn G := by
  simp only [NamesIn, mentions_iff (t := t), or_imp, forall_and, forall_exists_index, and_imp]
  exact and_congr_right fun _ => ⟨fun h p hp n => h n p hp, fun h n p hp => h p hp n⟩

theorem NamesIn.part (h : t.NamesIn G) {p : ℕ × Term} (hp : p ∈ t.parts) : p.2.NamesIn G :=
  (namesIn_iff.mp h).2 p hp

theorem namesIn_var (i : ℕ) : (var i).NamesIn G := fun _ => False.elim

theorem namesIn_ref {u : Universe} : (ref n u).NamesIn G ↔ G n := by simp [NamesIn]

theorem namesIn_apps : (t.apps as).NamesIn G ↔ t.NamesIn G ∧ ∀ a ∈ as, a.NamesIn G := by
  simp only [NamesIn, mentions_apps, or_imp, forall_and, forall_exists_index, and_imp]
  exact and_congr_right fun _ => ⟨fun h a ha n => h n a ha, fun h n a ha => h a ha n⟩

theorem NamesIn.spine (h : t.NamesIn G) : t.spine.1.NamesIn G ∧ ∀ a ∈ t.spine.2, a.NamesIn G := by
  rw [← namesIn_apps, apps_spine]
  exact h

section Replace
variable {f : ℕ → ℕ → Term} {g : Universe → Universe}

theorem rootNames_replace {c : ℕ} (ht : ∀ i, t ≠ .var i) :
    (t.replace f g c).rootNames = t.rootNames := by
  cases t <;> simp_all [Term.replace, List.filterMap_map]

/-- A term that mentions globals of a set still does so when terms that do are put in. -/
theorem NamesIn.replace {c : ℕ} (h : t.NamesIn G) (hf : ∀ c i, (f c i).NamesIn G) :
    (t.replace f g c).NamesIn G := by
  induction t using induct_parts generalizing c with
  | step t ih =>
    obtain ⟨hroot, hp⟩ := namesIn_iff.mp h
    by_cases hv : ∃ i, t = .var i
    · obtain ⟨i, rfl⟩ := hv
      exact hf c i
    · push Not at hv
      refine namesIn_iff.mpr ⟨by rwa [rootNames_replace hv], ?_⟩
      rw [parts_replace c hv]
      rintro q hq
      obtain ⟨p, hpt, rfl⟩ := List.mem_map.mp hq
      exact ih p hpt (hp p hpt)

theorem NamesIn.lift (h : t.NamesIn G) (k : ℕ) : (t.lift k).NamesIn G := by
  rw [lift_eq_replaceVars]
  refine h.replace fun c i => ?_
  split <;> exact namesIn_var _

theorem NamesIn.inst {σ : ℕ → Term} (h : t.NamesIn G) (hσ : ∀ i, (σ i).NamesIn G) :
    (t.inst σ).NamesIn G := by
  rw [inst_eq_replaceVars]
  refine h.replace fun c i => ?_
  unfold up
  split
  · exact namesIn_var i
  · exact (hσ (i - c)).lift c

theorem NamesIn.subst (h : t.NamesIn G) (ha : a.NamesIn G) : (t.subst a).NamesIn G := by
  rw [subst_eq_inst]
  refine h.inst fun i => ?_
  cases i with
  | zero => exact ha
  | succ i => exact namesIn_var i

theorem NamesIn.substAll (h : t.NamesIn G) (has : ∀ a ∈ as, a.NamesIn G) :
    (t.substAll as).NamesIn G := by
  rw [substAll_eq_inst]
  refine h.inst fun i => ?_
  unfold pushAll
  cases hi : as.reverse[i]? with
  | none => exact namesIn_var _
  | some a => exact has a (List.mem_reverse.mp (List.mem_of_getElem? hi))

theorem NamesIn.substLevels (h : t.NamesIn G) (u : Universe) : (t.substLevels u).NamesIn G := by
  unfold Term.substLevels
  split
  · exact h
  · exact h.replace fun _ i => namesIn_var i

end Replace

end NamesIn

end Term

/-- The body mentions the global. The constructors of a data type and the superclasses of a class
count, the names of the fields that a class introduces do not; the class of an instance is mentioned
by its type. -/
def Body.Mentions (n : GlobalName) : Body → Prop
  | .func b _ | .inst _ b => b.Mentions n
  | .data cs => n ∈ cs
  | .constructor d _ _ ps => d = n ∨ ∃ qs ∈ ps, ∃ p ∈ qs, p.Mentions n
  | .cls fs ss => (∃ f ∈ fs, f.type.Mentions n ∨ ∃ t ∈ f.default, t.Mentions n) ∨ n ∈ ss
  | .field c _ => c = n
  | .primitive _ | .pending => False

/-- The definition mentions the global in its type or in its body. -/
def Definition.Mentions (n : GlobalName) (d : Definition) : Prop :=
  (∃ p ∈ d.tele, p.type.Mentions n) ∨ d.type.Mentions n ∨ d.body.Mentions n

/-- The names that are collected from a body are those it mentions, besides those collected before.
-/
theorem Body.mem_addRefs {n : GlobalName} {acc : List GlobalName} {b : Body} :
    n ∈ b.addRefs acc ↔ b.Mentions n ∨ n ∈ acc := by
  have hfields (fs : List ClassField) (acc : List GlobalName) :
      n ∈ fs.foldl (fun acc f => (f.default.toList).foldl Term.addRefs (f.type.addRefs acc)) acc ↔
        (∃ f ∈ fs, f.type.Mentions n ∨ ∃ t ∈ f.default, t.Mentions n) ∨ n ∈ acc := by
    induction fs generalizing acc with
    | nil => simp
    | cons f fs ih =>
      rw [List.foldl_cons, ih, Term.mem_foldl_addRefs, Term.mem_addRefs, List.exists_mem_cons_iff]
      simp only [Option.mem_toList, Option.mem_def, or_assoc, or_left_comm]
  cases b with
  | func b k | inst c b => exact Term.mem_addRefs
  | cls fs ss =>
    rw [addRefs, List.mem_append, List.mem_reverse, hfields, Mentions, or_left_comm, or_assoc]
  | constructor d i k ps =>
    rw [addRefs, List.mem_cons, Term.mem_foldl_addRefs, Mentions]
    cases ps <;> simp [or_assoc, eq_comm]
  | _ => simp [addRefs, Mentions, eq_comm]

namespace GlobalName

theorem le_iff {a b : GlobalName} : le a b = true ↔ a.text ≤ b.text := decide_eq_true_iff

theorem mem_dedup {n : GlobalName} {ns : List GlobalName} : n ∈ sortUnique.dedup ns ↔ n ∈ ns := by
  fun_induction sortUnique.dedup ns with
  | case1 a rest ih => simp [ih]
  | case2 a b rest hab ih => rw [List.mem_cons, ih, List.mem_cons (a := n) (b := a)]
  | case3 => rfl

/-- In a sorted list equal names are neighbours, so that dropping repeated neighbours leaves each
name once. -/
theorem pairwise_dedup {ns : List GlobalName} (h : ns.Pairwise fun a b => le a b = true) :
    (sortUnique.dedup ns).Pairwise fun a b => a.text < b.text := by
  fun_induction sortUnique.dedup ns with
  | case1 a rest ih => exact ih h.of_cons
  | case2 a b rest hab ih =>
    obtain ⟨ha, hrest⟩ := List.pairwise_cons.mp h
    have hle : a.text ≤ b.text := le_iff.mp (ha b List.mem_cons_self)
    have hlt : a.text < b.text := lt_of_le_of_ne hle fun htext => hab (by rwa [GlobalName.mk.injEq])
    refine List.pairwise_cons.mpr ⟨fun n hn => ?_, ih hrest⟩
    obtain rfl | hn := List.mem_cons.mp (mem_dedup.mp hn)
    · exact hlt
    · have hbn : b.text ≤ n.text := le_iff.mp ((List.pairwise_cons.mp hrest).1 n hn)
      exact hlt.trans_le hbn
  | case3 ns hns =>
    match ns with
    | [] => exact .nil
    | [a] => exact List.pairwise_singleton _ a
    | a :: b :: rest => exact absurd rfl (hns a b rest)

theorem mem_sortUnique {n : GlobalName} {ns : List GlobalName} : n ∈ sortUnique ns ↔ n ∈ ns := by
  rw [sortUnique, mem_dedup, List.mem_mergeSort]

theorem pairwise_sortUnique (ns : List GlobalName) :
    (sortUnique ns).Pairwise fun a b => a.text < b.text := by
  have htrans (a b c : GlobalName) (hab : le a b = true) (hbc : le b c = true) : le a c = true :=
    le_iff.mpr ((le_iff.mp hab).trans (le_iff.mp hbc))
  have htotal (a b : GlobalName) : (le a b || le b a) = true := by
    simpa only [Bool.or_eq_true, le_iff] using le_total a.text b.text
  exact pairwise_dedup (List.pairwise_mergeSort htrans htotal ns)

end GlobalName

namespace Definition

/-- The recorded names are those that a definition mentions, without its own. -/
theorem mem_mentioned {n : GlobalName} {d : Definition} :
    n ∈ d.mentioned ↔ n ≠ d.name ∧ d.Mentions n := by
  have htele (tele : Telescope Term) (acc : List GlobalName) :
      n ∈ tele.foldl (fun acc p => p.type.addRefs acc) acc ↔
      (∃ p ∈ tele, p.type.Mentions n) ∨ n ∈ acc := by
    rw [← List.foldl_map (f := fun p : Param Term => p.type) (g := Term.addRefs),
      Term.mem_foldl_addRefs]
    simp
  rw [mentioned, GlobalName.mem_sortUnique, List.mem_filter, Body.mem_addRefs, Term.mem_addRefs,
    htele, and_comm, decide_eq_true_eq, Mentions, or_iff_left List.not_mem_nil,
    or_comm (a := d.body.Mentions n), or_right_comm, or_comm, or_comm (a := d.type.Mentions n)]

theorem pairwise_mentioned (d : Definition) : d.mentioned.Pairwise fun a b => a.text < b.text :=
  GlobalName.pairwise_sortUnique _

end Definition

end LeveledTypes
