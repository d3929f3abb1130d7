import LeveledTypes.Proofs.Surface.Derivation
import Mathlib.Tactic

/-!
# Matching with continuations

A step of matching can be told how to go on where it matches and how where it fails. Then no result
is built only to be taken apart again, and a text can be matched by evaluation. The steps are given
by the recursors of the data that they look at, which evaluate without a detour. They do what
matching does.
-/
namespace LeveledTypes

namespace Grammar

variable {ρ α : Type}

/-- How to go on from a match, given the furthest place at which a rule failed so far. -/
abbrev Continue (ρ α : Type) := Match ρ → ℕ → α

/-- A step from a match, given how to go on where it matches and where it fails. -/
abbrev Step (ρ α : Type) := Match ρ → Continue ρ α → (ℕ → α) → ℕ → α

/-- Goes on behind a text, or where it is not there. -/
noncomputable def textThen (cs : List Char) : Step ρ α := fun m yes no f =>
  List.rec (fun ys pos => yes (⟨ys, pos⟩, m.2) f)
    (fun c _ more ys pos =>
      List.rec (no f) (fun y ys _ => Bool.rec (no f) (more ys (pos.advance y))
        (c.toNat.beq y.toNat)) ys)
    cs m.1.rest m.1.pos

/-- Goes on behind a character that passes the test. -/
noncomputable def charThen (p : Char → Bool) : Step ρ α := fun m yes no f =>
  List.rec (no f) (fun y ys _ => Bool.rec (no f)
    (yes (⟨ys, m.1.pos.advance y⟩, m.2) f) (p y)) m.1.rest

/-- How an expression is matched, given how its parts are. -/
abbrev Matcher (ρ α : Type) := Grammar ρ → ℕ → (Bool → Peg ρ → Step ρ α) → Bool → Step ρ α

/-- Fails, and blames a place unless a part of an atomic rule has failed. -/
noncomputable def blaming (atomic : Bool) (c : Cursor) (no : ℕ → α) (f : ℕ) : α :=
  no (Bool.rec (max c.pos.offset f) f atomic)

/-- The first match with the tree of a rule, whose body led to the second. -/
noncomputable def withNode (r : ρ) (atomic : Bool) (m m' : Match ρ) : Match ρ :=
  let text := if m'.2.isEmpty then m.1.textTo m'.1 else ""
  (m'.1, Bool.rec (.node r (m.1.pos.spanTo m'.1.pos) text m'.2.reverse :: m.2) m.2 atomic)

/-- Goes on with the tree of a rule, whose parts are matched by its body. -/
noncomputable def nodeThen (r : ρ) (inner : Bool) : Matcher ρ α := fun g _ run atomic m yes no =>
  run inner (g.body r) (m.1, []) (fun m' => yes (withNode r atomic m m')) (blaming atomic m.1 no)

/-- Goes on as the kind of the rule asks for. -/
noncomputable def ruleThen (r : ρ) : Matcher ρ α := fun g gas run atomic m yes no =>
  RuleKind.rec (nodeThen r atomic g gas run atomic m yes no) (run atomic (g.body r) m yes no)
    (nodeThen r true g gas run atomic m yes no) (g.kind r)

/-- Passes over blanks and comments, except in an atomic rule. -/
noncomputable def skipThen (skip : Step ρ α) (atomic : Bool) (yes : Continue ρ α) :
    Continue ρ α := fun m f =>
  Bool.rec (skip (m.1, []) (fun m' => yes (m'.1, m.2)) (yes m) f) (yes m f) atomic

/-- The second part of a sequence, and each further turn of a repetition. -/
noncomputable def nextThen (a : Peg ρ) : Matcher ρ α := fun g _ run atomic m yes no =>
  skipThen (run true g.skipped) atomic (fun m => run atomic a m yes no) m

noncomputable def seqThen (a b : Peg ρ) : Matcher ρ α := fun g gas run atomic m yes no =>
  run atomic a m (fun m => nextThen b g gas run atomic m yes no) no

def altThen (a b : Peg ρ) : Matcher ρ α :=
  fun _ _ run atomic m yes no => run atomic a m yes (run atomic b m yes no)

def optThen (a : Peg ρ) : Matcher ρ α := fun _ _ run atomic m yes _ => run atomic a m yes (yes m)

/-- Repeats a step until it fails. -/
noncomputable def iterateThen (step : Step ρ α) (yes : Continue ρ α) : ℕ → Continue ρ α :=
  Nat.rec yes fun _ more m => step m more (yes m)

/-- Goes on where the last of many matches ends. -/
noncomputable def starThen (a : Peg ρ) : Matcher ρ α := fun g gas run atomic m yes _ =>
  run atomic a m (iterateThen (nextThen a g gas run atomic) yes gas) (yes m)

/-- Goes on where it is, if there is no match. -/
def notAheadThen (a : Peg ρ) : Matcher ρ α :=
  fun _ _ run atomic m yes no => run atomic a (m.1, []) (fun _ => no) (yes m)

noncomputable def finishThen : Matcher ρ α := fun _ _ _ atomic m yes no f =>
  List.rec (yes m f) (fun _ _ _ => blaming atomic m.1 no f) m.1.rest

/-- One step of matching, by the form of the grammar expression. -/
noncomputable def stepThen : Peg ρ → Matcher ρ α :=
  Peg.rec (fun cs _ _ _ _ => textThen cs) (fun p _ _ _ _ => charThen p) ruleThen
    (fun a b _ _ => seqThen a b) (fun a b _ _ => altThen a b) (fun a _ => optThen a)
    (fun a _ => starThen a) (fun a _ => notAheadThen a) finishThen

/-- Matching with so much gas. -/
noncomputable def matchThen (g : Grammar ρ) : ℕ → Bool → Peg ρ → Step ρ α :=
  Nat.rec (fun _ _ _ _ no => no) fun gas run atomic e => stepThen e g gas run atomic

/-- Goes on with the result of a computation. -/
def after {β : Type} (s : StateM ℕ β) (k : β → ℕ → α) (f : ℕ) : α := k (s.run f).1 (s.run f).2

theorem after_bind {β γ : Type} (s : StateM ℕ β) (t : β → StateM ℕ γ) (k : γ → ℕ → α) :
    after (s >>= t) k = after s fun b => after (t b) k := rfl

/-- The step does what the computation does, however it goes on. -/
def Follows (step : Step ρ α) (s : Match ρ → StateM ℕ (Option (Match ρ))) : Prop :=
  ∀ m k, after (s m) k = step m (fun m => k (some m)) (k none)

theorem beq_toNat (c d : Char) : c.toNat.beq d.toNat = decide (c = d) := by
  rw [Bool.eq_iff_iff, decide_eq_true_iff, Nat.beq_eq, Char.toNat_inj]

/-- The induction is on the characters. -/
theorem follows_textThen (cs : List Char) :
    Follows (α := α) (textThen cs) fun m =>
      pure ((m.1.takeText cs).map (·, (m.2 : List (Tree ρ)))) := by
  intro ⟨⟨ys, pos⟩, ts⟩ k
  funext f
  induction cs generalizing ys pos with
  | nil => rfl
  | cons c cs ih =>
    cases ys with
    | nil => rfl
    | cons y ys =>
      have htail := ih ys (pos.advance y)
      simp only [textThen, beq_toNat] at htail ⊢
      rw [Cursor.takeText]
      by_cases hc : c = y
      · rw [if_pos hc, decide_eq_true hc]
        exact htail
      · rw [if_neg hc, decide_eq_false hc]
        rfl

theorem follows_charThen (p : Char → Bool) :
    Follows (α := α) (charThen p) fun m =>
      pure ((m.1.takeChar p).map (·, (m.2 : List (Tree ρ)))) := by
  intro ⟨⟨ys, pos⟩, ts⟩ k
  cases ys with
  | nil => rfl
  | cons y ys =>
    funext f
    simp only [charThen, Cursor.takeChar]
    cases p y <;> rfl

theorem after_iterate {step : Step ρ α} {s : Match ρ → StateM ℕ (Option (Match ρ))}
    (h : Follows step s) (k : Continue ρ α) (gas : ℕ) (m : Match ρ) :
    after (iterate s gas m) k = iterateThen step k gas m := by
  induction gas generalizing m with
  | zero => rfl
  | succ gas ih =>
    rw [iterate, after_bind, h m]
    exact congrArg (step m · (k m)) (funext ih)

variable {g : Grammar ρ} {gas : ℕ} {run : Bool → Peg ρ → Step ρ α} {atomic : Bool}

section Parts
variable (hrun : ∀ atomic e, Follows (run atomic e) (g.matchGas gas atomic e))

include hrun

theorem after_skipBlanks (m : Match ρ) (k : Continue ρ α) :
    after (g.skipBlanks gas atomic m) k = skipThen (run true g.skipped) atomic k m := by
  cases atomic with
  | true => rfl
  | false =>
    show after (g.matchGas gas true g.skipped (m.1, []) >>= _) k = _
    rw [after_bind, hrun]
    rfl

theorem follows_nextThen (a : Peg ρ) :
    Follows (nextThen a g gas run atomic) fun m => g.skipBlanks gas atomic m >>=
      g.matchGas gas atomic a := by
  intro m k
  rw [after_bind, after_skipBlanks hrun]
  exact congrArg (skipThen _ atomic · m) (funext fun m' => hrun atomic a m' k)

end Parts

theorem matchThen_rule (r : ρ) : g.matchThen (gas + 1) atomic (.rule r) = ruleThen (α :=
  α) r g gas (g.matchThen gas) atomic :=
  rfl

/-- Matching with continuations does what matching does. -/
theorem follows_matchThen (gas : ℕ) (atomic : Bool) (e : Peg ρ) :
    Follows (α := α) (g.matchThen gas atomic e) (g.matchGas gas atomic e) := by
  induction gas generalizing atomic e with
  | zero => exact fun m k => rfl
  | succ gas ih =>
    intro m k
    cases e with
    | text cs => exact follows_textThen cs m k
    | char p => exact follows_charThen p m k
    | seq a b =>
      rw [matchGas, after_bind, ih atomic a]
      exact congrArg (g.matchThen gas atomic a m · (k none))
        (funext fun m' => follows_nextThen ih b m' k)
    | alt a b =>
      rw [matchGas, after_bind, ih atomic a]
      exact congrArg _ (ih atomic b m k)
    | opt a =>
      rw [matchGas, after_bind, ih atomic a]
      rfl
    | star a =>
      rw [matchGas, after_bind, ih atomic a]
      exact congrArg (g.matchThen gas atomic a m · _)
        (funext (after_iterate (follows_nextThen ih a) (fun m => k (some m)) gas))
    | notAhead a =>
      rw [matchGas, after_bind, ih atomic a]
      rfl
    | finish =>
      rw [matchGas]
      obtain ⟨⟨ys, pos⟩, ts⟩ := m
      cases ys <;> cases atomic <;> rfl
    | rule r =>
      rw [matchGas, matchThen_rule, ruleThen]
      generalize g.kind r = kind
      cases kind with
      | silent => exact ih atomic (g.body r) m k
      | normal | atomic =>
        show after (g.matchGas gas (atomic || _) (g.body r) (m.1, []) >>= _) k = _
        rw [after_bind, ih]
        cases atomic <;> rfl

/-- The tree that a text was matched to, or the place to blame. -/
def outcome (cs : List Char) : Option (Match ρ) → ℕ → Except Position (Tree ρ)
  | some (_, [t]), _ => .ok t
  | _, furthest => .error (positionAt cs furthest {})

/-- Matches the characters of a text by a rule. -/
noncomputable def parseThen (g : Grammar ρ) (start : ρ) (cs : List Char) :
    Except Position (Tree ρ) :=
  g.matchThen unboundedNesting false (.rule start) (⟨cs, {}⟩, []) (fun m => outcome cs (some m))
    (outcome cs none) 0

theorem parse_eq_parseThen (start : ρ) (text : String) :
    g.parse start text = g.parseThen start text.toList := by
  rw [parseThen, ← follows_matchThen, parse, after]
  generalize StateT.run _ _ = r
  obtain ⟨_ | ⟨c, _ | ⟨t, _ | ⟨u, ts⟩⟩⟩, f⟩ := r <;> rfl

end Grammar

end LeveledTypes
