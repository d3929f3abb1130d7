import LeveledTypes.Grammar
import LeveledTypes.Proofs.Returns
import Mathlib.Tactic

/-!
# What a grammar derives

A grammar derives lists of trees from its expressions, as their parts say: one list after the other,
one of two, none or many. A tree of an atomic rule is a leaf, and all its characters are such as the
rule allows. All that matching builds is derived in this sense.
-/
namespace LeveledTypes

variable {ρ : Type}

namespace Peg

/-- All characters that an expression can take are as said, unless it uses a rule. -/
def Only (P : Char → Prop) : Peg ρ → Prop
  | .text cs => ∀ c ∈ cs, P c
  | .char p => ∀ c, p c = true → P c
  | .seq a b | .alt a b => a.Only P ∧ b.Only P
  | .opt a | .star a => a.Only P
  | .notAhead _ | .finish => True
  | .rule _ => False

end Peg

namespace Grammar

mutual

/-- Trees that an expression gives, in order. -/
inductive Derives (g : Grammar ρ) : Peg ρ → List (Tree ρ) → Prop
  | text (cs : List Char) : Derives g (.text cs) []
  | char (p : Char → Bool) : Derives g (.char p) []
  | silent {r : ρ} {ts : List (Tree ρ)} (hr : g.kind r = .silent) (h : Derives g (g.body r) ts) :
    Derives g (.rule r) ts
  | rule {r : ρ} {t : Tree ρ} (hr : t.rule = r) (h : Derived g t) : Derives g (.rule r) [t]
  | seq {a b : Peg ρ} {ts us : List (Tree ρ)} (ha : Derives g a ts) (hb : Derives g b us) :
    Derives g (.seq a b) (ts ++ us)
  | altLeft {a b : Peg ρ} {ts : List (Tree ρ)} (h : Derives g a ts) : Derives g (.alt a b) ts
  | altRight {a b : Peg ρ} {ts : List (Tree ρ)} (h : Derives g b ts) : Derives g (.alt a b) ts
  | optNone (a : Peg ρ) : Derives g (.opt a) []
  | optSome {a : Peg ρ} {ts : List (Tree ρ)} (h : Derives g a ts) : Derives g (.opt a) ts
  | star {a : Peg ρ} {tss : List (List (Tree ρ))} (h : ∀ ts ∈ tss, Derives g a ts) :
    Derives g (.star a) tss.flatten
  | notAhead (a : Peg ρ) : Derives g (.notAhead a) []
  | finish : Derives g .finish []

/-- A tree that a rule gives. -/
inductive Derived (g : Grammar ρ) : Tree ρ → Prop
  | atomic {r : ρ} {span : Span} {text : String} (hr : g.kind r = .atomic)
      (htext : ∀ P, (g.body r).Only P → ∀ c ∈ text.toList, P c) : Derived g (.node r span text [])
  | normal {r : ρ} {span : Span} {text : String} {ts : List (Tree ρ)} (hr : g.kind r = .normal)
      (h : Derives g (g.body r) ts) : Derived g (.node r span text ts)

end

section Leaves

theorem prefixBytes_append (cs rest : List Char) :
    Cursor.prefixBytes ((cs.map Char.utf8Size).sum) (cs ++ rest) = cs := by
  induction cs with
  | nil => simp [Cursor.prefixBytes]
  | cons c cs ih =>
    have hpos := c.utf8Size_pos
    rw [List.map_cons, List.sum_cons, List.cons_append]
    obtain ⟨n, hn⟩ : ∃ n, c.utf8Size + (cs.map Char.utf8Size).sum = n + 1 :=
      ⟨_, (Nat.succ_pred (by omega)).symm⟩
    have hrest : n + 1 - c.utf8Size = (cs.map Char.utf8Size).sum := by omega
    rw [hn, Cursor.prefixBytes, hrest, ih]

theorem offset_advance (p : Position) (c : Char) :
    (p.advance c).offset = p.offset + c.utf8Size := by
  unfold Position.advance
  split
  · next h => rw [h]; rfl
  · rfl

/-- From one place to the other the characters are taken, all as said. -/
def Took (P : Char → Prop) (c d : Cursor) : Prop :=
  ∃ cs, c.rest = cs ++ d.rest ∧ d.pos.offset = c.pos.offset +
    (cs.map Char.utf8Size).sum ∧ ∀ x ∈ cs, P x

variable {P : Char → Prop} {c d e : Cursor}

theorem Took.refl (c : Cursor) : Took P c c := ⟨[], by simp⟩

theorem Took.trans (h : Took P c d) (h' : Took P d e) : Took P c e := by
  obtain ⟨cs, hcs, hpos, hP⟩ := h
  obtain ⟨ds, hds, hpos', hP'⟩ := h'
  refine ⟨cs ++ ds, by rw [hcs, hds, List.append_assoc], ?_, fun x hx => ?_⟩
  · rw [hpos', hpos, List.map_append, List.sum_append]
    omega
  · exact (List.mem_append.mp hx).elim (hP x) (hP' x)

/-- The cursor has moved over the given characters, which are all allowed. -/
theorem took_takeText {xs : List Char} (hxs : ∀ x ∈ xs, P x) (h : c.takeText xs = some d) :
    Took P c d := by
  induction xs generalizing c with
  | nil =>
    obtain rfl : c = d := by simpa [Cursor.takeText] using h
    exact .refl c
  | cons x xs ih =>
    obtain ⟨hx, hxs⟩ := List.forall_mem_cons.mp hxs
    obtain ⟨rest, pos⟩ := c
    cases rest with
    | nil => simp [Cursor.takeText] at h
    | cons y ys =>
      simp only [Cursor.takeText] at h
      split at h
      case isTrue hxy =>
        have hone : Took P ⟨y :: ys, pos⟩ ⟨ys, pos.advance y⟩ :=
          ⟨[y], rfl, by simp [offset_advance], by simpa [← hxy] using hx⟩
        exact hone.trans (ih hxs h)
      case isFalse => simp at h

theorem took_takeChar {p : Char → Bool} (hp : ∀ x, p x = true → P x) (h : c.takeChar p = some d) :
    Took P c d := by
  obtain ⟨rest, pos⟩ := c
  cases rest with
  | nil => simp [Cursor.takeChar] at h
  | cons y ys =>
    simp only [Cursor.takeChar] at h
    split at h
    case isTrue hy =>
      obtain rfl := Option.some.inj h
      exact ⟨[y], rfl, by simp [offset_advance], by simpa using hp y hy⟩
    case isFalse => simp at h

theorem Took.of_textTo (h : Took P c d) : ∀ x ∈ (c.textTo d).toList, P x := by
  obtain ⟨cs, hcs, hpos, hP⟩ := h
  rwa [Cursor.textTo, hpos, Nat.add_sub_cancel_left, hcs, prefixBytes_append, String.toList_ofList]

end Leaves

section Matching
variable {g : Grammar ρ}

/-- What a match of an expression has added to the trees, and in an atomic rule what it took. -/
def Matched (g : Grammar ρ) (atomic : Bool) (e : Peg ρ) (m m' : Match ρ) : Prop :=
  if atomic then m'.2 = m.2 ∧ ∀ P, e.Only P → Took P m.1 m'.1
  else ∃ ts, m'.2 = ts.reverse ++ m.2 ∧ g.Derives e ts

variable {atomic : Bool} {a b e : Peg ρ} {m m' m'' : Match ρ}

theorem Matched.nothing (h : g.Derives e []) : Matched g atomic e m m := by
  cases atomic with
  | true => exact ⟨rfl, fun _ _ => .refl _⟩
  | false => exact ⟨[], rfl, h⟩

/-- Characters alone add no tree. -/
theorem Matched.chars {c : Cursor} (h : g.Derives e []) (htook : ∀ P, e.Only P → Took P m.1 c) :
    Matched g atomic e m (c, m.2) := by
  cases atomic with
  | true => exact ⟨rfl, htook⟩
  | false => exact ⟨[], rfl, h⟩

/-- Two matches in a row derive the one list of trees behind the other. -/
theorem Matched.seq {m₁ : Match ρ} (ha : Matched g atomic a m m') (htrees : m₁.2 = m'.2)
    (hsame : atomic = true → m₁ = m') (hb : Matched g atomic b m₁ m'') :
    Matched g atomic (.seq a b) m m'' := by
  cases atomic with
  | true =>
    obtain rfl := hsame rfl
    exact ⟨hb.1.trans ha.1, fun P hP => (ha.2 P hP.1).trans (hb.2 P hP.2)⟩
  | false =>
    obtain ⟨ts, hts, ha⟩ := ha
    obtain ⟨us, hus, hb⟩ := hb
    exact ⟨ts ++ us, by simp [hus, htrees, hts], .seq ha hb⟩

theorem Matched.of_part (ha : Matched g atomic a m m') (honly : ∀ P, e.Only P → a.Only P)
    (h : ∀ ts, g.Derives a ts → g.Derives e ts) : Matched g atomic e m m' := by
  cases atomic with
  | true => exact ⟨ha.1, fun P hP => ha.2 P (honly P hP)⟩
  | false =>
    obtain ⟨ts, hts, ha⟩ := ha
    exact ⟨ts, hts, h ts ha⟩

/-- What many matches of an expression have added and taken. -/
def MatchedMany (g : Grammar ρ) (atomic : Bool) (a : Peg ρ) (m m' : Match ρ) : Prop :=
  if atomic then m'.2 = m.2 ∧ ∀ P, a.Only P → Took P m.1 m'.1
  else ∃ tss : List (List (Tree ρ)), m'.2 = tss.flatten.reverse ++ m.2 ∧ ∀ ts ∈ tss, g.Derives a ts

theorem Matched.many (ha : Matched g atomic a m m') : MatchedMany g atomic a m m' := by
  cases atomic with
  | true => exact ha
  | false =>
    obtain ⟨ts, hts, ha⟩ := ha
    exact ⟨[ts], by simpa using hts, by simpa using ha⟩

/-- One more match comes in front of those that follow. -/
theorem MatchedMany.step {m₁ : Match ρ} (h : MatchedMany g atomic a m m') (htrees : m₁.2 = m'.2)
    (hsame : atomic = true → m₁ = m') (ha : Matched g atomic a m₁ m'') :
    MatchedMany g atomic a m m'' := by
  cases atomic with
  | true =>
    obtain rfl := hsame rfl
    exact ⟨ha.1.trans h.1, fun P hP => (h.2 P hP).trans (ha.2 P hP)⟩
  | false =>
    obtain ⟨tss, htss, h⟩ := h
    obtain ⟨us, hus, ha⟩ := ha
    refine ⟨tss ++ [us], by simp [hus, htrees, htss], fun ts hts => ?_⟩
    obtain hts | hts := List.mem_append.mp hts
    · exact h ts hts
    · rwa [List.mem_singleton.mp hts]

theorem MatchedMany.star (h : MatchedMany g atomic a m m') : Matched g atomic (.star a) m m' := by
  cases atomic with
  | true => exact h
  | false =>
    obtain ⟨tss, htss, h⟩ := h
    exact ⟨tss.flatten, htss, .star h⟩

/-- Repetition keeps what a step keeps, however often the step is taken. -/
theorem returns_iterate {step : Match ρ → StateM ℕ (Option (Match ρ))} {R : Match ρ → Prop}
    (hstep : ∀ m, R m → Returns (step m) fun o => ∀ m' ∈ o, R m') (gas : ℕ)
    {m : Match ρ} (hm : R m) : Returns (iterate step gas m) R := by
  induction gas generalizing m with
  | zero => exact .pure hm
  | succ gas ih =>
    rw [iterate]
    refine .bind (hstep m hm) fun o ho => ?_
    cases o with
    | none => exact .pure hm
    | some m' => exact ih (ho m' rfl)

/-- Passes over blanks and comments, except in an atomic rule. -/
def skipBlanks (g : Grammar ρ) (gas : ℕ) (atomic : Bool) (m : Match ρ) : StateM ℕ (Match ρ) := do
  if atomic then return m
  else
    match ← g.matchGas gas true g.skipped (m.1, []) with
    | some (c, _) => return (c, m.2)
    | none => return m

/-- Blanks and comments make no trees, and are not skipped inside of a leaf. -/
theorem returns_skipBlanks (gas : ℕ) (m : Match ρ) :
    Returns (g.skipBlanks gas atomic m) fun m' => m'.2 = m.2 ∧ (atomic = true → m' = m) := by
  unfold skipBlanks
  split
  case isTrue => exact .pure ⟨rfl, fun _ => rfl⟩
  case isFalse hfalse =>
    refine .bind (.any _) fun o _ => ?_
    cases o with
    | none => exact .pure ⟨rfl, fun _ => rfl⟩
    | some m' => exact .pure ⟨rfl, fun h => absurd h hfalse⟩

/-- All that matching builds is derived. -/
theorem returns_matchGas (gas : ℕ) (atomic : Bool) (e : Peg ρ) (m : Match ρ) :
    Returns (g.matchGas gas atomic e m) fun o => ∀ m' ∈ o, Matched g atomic e m m' := by
  induction gas generalizing atomic e m with
  | zero => exact .pure (by simp)
  | succ gas ih =>
    cases e with
    | text cs =>
      refine .pure fun m' hm' => ?_
      obtain ⟨c, hc, rfl⟩ := Option.map_eq_some_iff.mp hm'
      exact .chars (.text cs) fun P hP => took_takeText hP hc
    | char p =>
      refine .pure fun m' hm' => ?_
      obtain ⟨c, hc, rfl⟩ := Option.map_eq_some_iff.mp hm'
      exact .chars (.char p) fun P hP => took_takeChar hP hc
    | seq a b =>
      rw [matchGas]
      refine .bind (ih atomic a m) fun o ho => ?_
      cases o with
      | none => exact .pure (by simp)
      | some m₁ =>
        refine .bind (returns_skipBlanks gas m₁) fun m₂ hm₂ => ?_
        exact (ih atomic b m₂).mono fun o' ho' m' hm' => (ho m₁ rfl).seq hm₂.1 hm₂.2 (ho' m' hm')
    | alt a b =>
      rw [matchGas]
      refine .bind (ih atomic a m) fun o ho => ?_
      cases o with
      | none =>
        exact (ih atomic b m).mono fun o' ho' m' hm' =>
          (ho' m' hm').of_part (fun _ hP => hP.2) fun _ => .altRight
      | some m₁ =>
        refine .pure fun m' hm' => ?_
        obtain rfl := Option.some.inj hm'
        exact (ho m₁ rfl).of_part (fun _ hP => hP.1) fun _ => .altLeft
    | opt a =>
      rw [matchGas]
      refine .bind (ih atomic a m) fun o ho => .pure fun m' hm' => ?_
      obtain rfl := Option.some.inj hm'
      cases o with
      | none => exact .nothing (.optNone a)
      | some m₁ => exact (ho m₁ rfl).of_part (fun _ hP => hP) fun _ => .optSome
    | star a =>
      rw [matchGas]
      refine .bind (ih atomic a m) fun o ho => ?_
      cases o with
      | none =>
        refine .pure fun m' hm' => ?_
        obtain rfl := Option.some.inj hm'
        have hnil : g.Derives (.star a) ([] : List (List (Tree ρ))).flatten := .star (by simp)
        exact .nothing hnil
      | some m₁ =>
        refine .bind (returns_iterate (R := MatchedMany g atomic a m) (fun m₂ hm₂ => ?_) gas
          (ho m₁ rfl).many) fun m' hm' => ?_
        · refine .bind (returns_skipBlanks gas m₂) fun m₃ hm₃ => ?_
          exact (ih atomic a m₃).mono fun o' ho' m' hm' => hm₂.step hm₃.1 hm₃.2 (ho' m' hm')
        · refine .pure fun m'' hm'' => ?_
          obtain rfl := Option.some.inj hm''
          exact hm'.star
    | notAhead a =>
      rw [matchGas]
      refine .bind (.any _) fun o _ => ?_
      cases o with
      | some _ => exact .pure (by simp)
      | none =>
        refine .pure fun m' hm' => ?_
        obtain rfl := Option.some.inj hm'
        exact .nothing (.notAhead a)
    | finish =>
      rw [matchGas]
      split
      case isTrue =>
        refine .pure fun m' hm' => ?_
        obtain rfl := Option.some.inj hm'
        exact .nothing .finish
      case isFalse =>
        simp only
        split
        · exact .bind (.any _) fun _ _ => .pure (by simp)
        · exact .pure (by simp)
    | rule r =>
      rw [matchGas]
      split
      case h_1 hr =>
        exact (ih atomic (g.body r) m).mono fun o ho m' hm' =>
          (ho m' hm').of_part (fun _ hP => hP.elim) fun _ => .silent hr
      case h_2 hr =>
        refine .bind (ih _ (g.body r) (m.1, [])) fun o ho => ?_
        cases o with
        | none =>
          simp only
          split
          · exact .bind (.any _) fun _ _ => .pure (by simp)
          · exact .pure (by simp)
        | some m₁ =>
          obtain ⟨c, ts⟩ := m₁
          have hmatch := ho (c, ts) rfl
          simp only
          split
          case isTrue hatomic =>
            refine .pure fun m' hm' => ?_
            obtain rfl := Option.some.inj hm'
            subst hatomic
            exact ⟨rfl, fun P hP => hP.elim⟩
          case isFalse hatomic =>
            refine .pure fun m' hm' => ?_
            obtain rfl := Option.some.inj hm'
            obtain rfl : atomic = false := by simpa using hatomic
            refine ⟨[_], rfl, .rule rfl ?_⟩
            cases hkind : g.kind r with
            | silent => exact absurd hkind hr
            | atomic =>
              simp only [hkind, decide_true, Bool.or_true] at hmatch
              obtain ⟨rfl, htook⟩ := hmatch
              exact .atomic hkind fun P hP => (htook P hP).of_textTo
            | normal =>
              simp only [hkind, reduceCtorEq, decide_false, Bool.or_false] at hmatch
              obtain ⟨us, hus, hderives⟩ := hmatch
              obtain rfl : ts = us.reverse := by simpa using hus
              exact .normal hkind (by rwa [List.reverse_reverse])

/-- A tree that is parsed is derived. -/
theorem derives_of_parse {start : ρ} {text : String} {t : Tree ρ} (h : g.parse start text = .ok t) :
    g.Derives (.rule start) [t] := by
  unfold parse at h
  have hmatch := returns_matchGas (g := g) unboundedNesting false (.rule start)
    (⟨text.toList, {}⟩, []) 0
  simp only at h
  split at h
  case h_1 c u furthest hrun =>
    obtain rfl : u = t := by simpa using h
    have hfst : (g.matchGas unboundedNesting false (.rule start) (⟨text.toList, {}⟩, []) 0).1 =
        some (c, [u]) :=
      congrArg Prod.fst hrun
    obtain ⟨ts, hts, hderives⟩ := hmatch (c, [u]) hfst
    obtain rfl : ts = [u] := by simpa using congrArg List.reverse hts.symm
    exact hderives
  case h_2 => simp at h

end Matching

end Grammar

end LeveledTypes
