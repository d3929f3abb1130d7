import LeveledTypes.Proofs.Term.Names

/-!
# Terms with the same root

Two terms have the same root if they are built alike from parts that a relation connects. The
relation knows the number of binders that the parts are under.
-/
namespace LeveledTypes

/-- The entries of two lists correspond, as do those of the second list and a third one. -/
theorem forall₂_comp {α β γ : Type} {R : α → β → Prop} {S : β → γ → Prop} {as : List α}
    {bs : List β} {cs : List γ} (h : List.Forall₂ R as bs) (h' : List.Forall₂ S bs cs) :
    List.Forall₂ (fun a c => ∃ b, R a b ∧ S b c) as cs := by
  induction h generalizing cs with
  | nil => cases h' with | nil => exact .nil
  | cons hab _ ih => cases h' with | cons hbc h' => exact .cons ⟨_, hab, hbc⟩ (ih h')

theorem forall₂_mem_left {α β : Type} {R : α → β → Prop} {as : List α} {bs : List β}
    (h : List.Forall₂ R as bs) : List.Forall₂ (fun a b => a ∈ as ∧ R a b) as bs :=
  (List.forall₂_and_left _ _).mpr ⟨fun _ => id, h⟩

namespace Term
variable {R S : ℕ → Term → Term → Prop} {t t' t'' : Term}

/-- The branches are for the same constructors, and their bodies are connected. -/
def BranchWise (R : ℕ → Term → Term → Prop) (b d : Branch Term) : Prop :=
  b.head = d.head ∧ b.arity = d.arity ∧ R b.arity b.body d.body

/-- The terms have the same root, and their parts are connected one by one. -/
inductive PartWise (R : ℕ → Term → Term → Prop) : Term → Term → Prop
  | univ (u : Universe) : PartWise R (.univ u) (.univ u)
  | var (i : ℕ) : PartWise R (.var i) (.var i)
  | ref (n : GlobalName) (u : Universe) : PartWise R (.ref n u) (.ref n u)
  | hole (m : ℕ) : PartWise R (.hole m) (.hole m)
  | lam {x y : Binder} {a b c d : Term} : x.info = y.info → R 0 a c → R 1 b d →
    PartWise R (.lam x a b) (.lam y c d)
  | pi {x y : Binder} {a b c d : Term} : x.info = y.info → R 0 a c → R 1 b d →
    PartWise R (.pi x a b) (.pi y c d)
  | app {f g a b : Term} : R 0 f g → R 0 a b → PartWise R (.app f a) (.app g b)
  | letIn {x y : Binder} {t a b s c d : Term} : x.info = y.info → R 0 t s → R 0 a c → R 1 b d →
      PartWise R (.letIn x t a b) (.letIn y s c d)
  | sigma {x y : Binder} {a b c d : Term} : x.info = y.info → R 0 a c → R 1 b d →
    PartWise R (.sigma x a b) (.sigma y c d)
  | pair {a b c d : Term} : R 0 a c → R 0 b d → PartWise R (.pair a b) (.pair c d)
  | proj {a b : Term} (s : Side) : R 0 a b → PartWise R (.proj a s) (.proj b s)
  | data (n : GlobalName) (u : Universe) {ps qs : List Term} : List.Forall₂ (R 0) ps qs →
      PartWise R (.data n u ps) (.data n u qs)
  | con (n : GlobalName) (u : Universe) {ps qs xs ys : List Term} : List.Forall₂ (R 0) ps qs →
    List.Forall₂ (R 0) xs ys →
      PartWise R (.con n u ps xs) (.con n u qs ys)
  | case {a b m k : Term} {bs ds : List (Branch Term)} : R 0 a b → R 1 m k →
    List.Forall₂ (BranchWise R) bs ds →
      PartWise R (.case a m bs) (.case b k ds)
  | record (n : GlobalName) (u : Universe) {ps qs : List Term} : List.Forall₂ (R 0) ps qs →
      PartWise R (.record n u ps) (.record n u qs)
  | new (n : GlobalName) (u : Universe) {ps qs fs gs : List Term} : List.Forall₂ (R 0) ps qs →
    List.Forall₂ (R 0) fs gs →
      PartWise R (.new n u ps fs) (.new n u qs gs)
  | field {a b : Term} (n : GlobalName) (i : ℕ) : R 0 a b → PartWise R (.field a n i) (.field b n i)
  | nat : PartWise R .nat .nat
  | zero : PartWise R .zero .zero
  | succ {a b : Term} : R 0 a b → PartWise R (.succ a) (.succ b)
  | natRec {m z s n k y t l : Term} : R 0 m k → R 0 z y → R 0 s t → R 0 n l →
    PartWise R (.natRec m z s n) (.natRec k y t l)
  | interval : PartWise R .interval .interval
  | left : PartWise R .left .left
  | right : PartWise R .right .right
  | path {a x y b u v : Term} : R 0 a b → R 0 x u → R 0 y v → PartWise R (.path a x y) (.path b u v)
  | pathLam {f g : Term} : R 0 f g → PartWise R (.pathLam f) (.pathLam g)
  | at {l x p i k y q j : Term} : R 0 l k → R 0 x y → R 0 p q → R 0 i j →
    PartWise R (.at l x p i) (.at k y q j)

namespace PartWise

theorem mono (h : PartWise R t t') (hRS : ∀ k a b, R k a b → S k a b) : PartWise S t t' := by
  have hlist {as bs : List Term} (h : List.Forall₂ (R 0) as bs) : List.Forall₂ (S 0) as bs :=
    h.imp fun _ _ => hRS 0 _ _
  have hbranches {bs ds : List (Branch Term)} (h : List.Forall₂ (BranchWise R) bs ds) :
      List.Forall₂ (BranchWise S) bs ds :=
    h.imp fun _ _ h => ⟨h.1, h.2.1, hRS _ _ _ h.2.2⟩
  cases h <;> constructor <;>
    first
    | assumption
    | (apply hRS; assumption)
    | (apply hlist; assumption)
    | (apply hbranches; assumption)

theorem symm (h : PartWise R t t') : PartWise (fun k a b => R k b a) t' t := by
  have hlist {as bs : List Term} (h : List.Forall₂ (R 0) as bs) :
      List.Forall₂ (fun a b => R 0 b a) bs as := h.flip
  have hbranches {bs ds : List (Branch Term)} (h : List.Forall₂ (BranchWise R) bs ds) :
      List.Forall₂ (BranchWise fun k a b => R k b a) ds bs :=
    h.flip.imp fun _ _ h => ⟨h.1.symm, h.2.1.symm, h.2.1 ▸ h.2.2⟩
  cases h <;> constructor <;>
    first
    | assumption
    | (apply Eq.symm; assumption)
    | (apply hlist; assumption)
    | (apply hbranches; assumption)

/-- Two relations part by part make their composition part by part. -/
theorem comp (h : PartWise R t t') (h' : PartWise S t' t'') :
    PartWise (fun k a c => ∃ b, R k a b ∧ S k b c) t t'' := by
  have hbranches {bs ds es : List (Branch Term)} (h : List.Forall₂ (BranchWise R) bs ds)
      (h' : List.Forall₂ (BranchWise S) ds es) :
        List.Forall₂ (BranchWise fun k a c => ∃ b, R k a b ∧ S k b c) bs es := by
    refine (forall₂_comp h h').imp fun b e ⟨d, hbd, hde⟩ => ?_
    exact ⟨hbd.1.trans hde.1, hbd.2.1.trans hde.2.1, d.body, hbd.2.2, hbd.2.1 ▸ hde.2.2⟩
  cases h <;> cases h' <;> constructor <;>
    first | (apply Eq.trans <;> assumption) | exact ⟨_, ‹_›,
      ‹_›⟩ | (apply forall₂_comp <;> assumption) | (apply hbranches <;> assumption)

/-- Terms that differ in names have the same form, with parts that differ in names. -/
theorem of_alike (h : t.anonymize = t'.anonymize) :
    PartWise (fun _ a b => a.anonymize = b.anonymize) t t' := by
  have hlist {as bs : List Term} (h : as.map anonymize = bs.map anonymize) :
      List.Forall₂ (fun a b : Term => a.anonymize = b.anonymize) as bs := by
    rwa [← List.forall₂_eq_eq_eq, List.forall₂_map_left_iff, List.forall₂_map_right_iff] at h
  have hbranches {bs ds : List (Branch Term)}
      (h : bs.map anonymizeBranch = ds.map anonymizeBranch) :
      List.Forall₂ (BranchWise fun _ a b => a.anonymize = b.anonymize) bs ds := by
    rw [← List.forall₂_eq_eq_eq, List.forall₂_map_left_iff, List.forall₂_map_right_iff] at h
    refine h.imp fun b d hbd => ?_
    simp only [anonymizeBranch, Branch.mk.injEq] at hbd
    exact ⟨hbd.1, by simpa [Branch.arity] using congrArg List.length hbd.2.1, hbd.2.2⟩
  cases alike h <;> constructor <;>
    first | assumption | (apply hlist; assumption) | (apply hbranches; assumption)

/-- What is connected to something are parts. -/
theorem mem_parts (h : PartWise R t t') :
    PartWise (fun k a b => (k, a) ∈ t.parts ∧ R k a b) t t' := by
  cases h with
  | data n u hps =>
    exact .data n u ((forall₂_mem_left hps).imp fun _ _ h => ⟨by simpa [parts] using h.1, h.2⟩)
  | record n u hps =>
    exact .record n u ((forall₂_mem_left hps).imp fun _ _ h => ⟨by simpa [parts] using h.1, h.2⟩)
  | con n u hps hxs =>
    exact .con n u ((forall₂_mem_left hps).imp fun _ _ h => ⟨by simp [parts, h.1], h.2⟩)
      ((forall₂_mem_left hxs).imp fun _ _ h => ⟨by simp [parts, h.1], h.2⟩)
  | new n u hps hfs =>
    exact .new n u ((forall₂_mem_left hps).imp fun _ _ h => ⟨by simp [parts, h.1], h.2⟩)
      ((forall₂_mem_left hfs).imp fun _ _ h => ⟨by simp [parts, h.1], h.2⟩)
  | case ha hm hbs =>
    refine .case ⟨by simp [parts], ha⟩ ⟨by simp [parts], hm⟩ ?_
    refine (forall₂_mem_left hbs).imp fun b d h => ?_
    exact ⟨h.2.1, h.2.2.1, by simpa [parts] using .inr (.inr ⟨b, h.1, rfl, rfl⟩), h.2.2.2⟩
  | _ =>
    constructor
    all_goals first | assumption | exact ⟨by simp [parts], ‹_›⟩

end PartWise

end Term

end LeveledTypes
