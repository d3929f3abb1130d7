import LeveledTypes.Text.Span

/-!
# Parsing expression grammars

A grammar gives each rule an expression. Expressions are matched from left to right with ordered
choice and greedy repetition. In a normal or silent rule, blanks and comments may stand between the
parts of a sequence and between the turns of a repetition; an atomic rule takes its characters one
after the other and is a leaf of the tree. Silent rules do not appear in the tree.

A failed match is blamed on the furthest place at which a rule was tried and failed. Silent rules do
not count there, nor do the rules that an atomic rule uses.
-/
namespace LeveledTypes

/-- A parsing expression over rules. -/
inductive Peg (ρ : Type) where
  | text (cs : List Char)
  | char (p : Char → Bool)
  | rule (r : ρ)
  | seq (a b : Peg ρ)
  | alt (a b : Peg ρ)
  | opt (a : Peg ρ)
  | star (a : Peg ρ)
  /-- Matches nothing, where the expression would fail. -/
  | notAhead (a : Peg ρ)
  /-- Matches nothing at the end of the text; counts as a rule. -/
  | finish

namespace Peg

def lit (s : String) : Peg ρ := .text s.toList

/-- One expression after the other. -/
def all : List (Peg ρ) → Peg ρ
  | [] => .text []
  | [a] => a
  | a :: as => .seq a (all as)

/-- The first expression that matches. -/
def any : List (Peg ρ) → Peg ρ
  | [] => .char fun _ => false
  | [a] => a
  | a :: as => .alt a (any as)

/-- One match, then more. -/
def plus (a : Peg ρ) : Peg ρ := .seq a (.star a)

end Peg

/-- Whether a rule makes a tree of its parts, gives its parts only, or makes a leaf. -/
inductive RuleKind where
  | normal
  | silent
  | atomic
deriving DecidableEq

/-- A grammar: its rules, and what may stand between tokens. -/
structure Grammar (ρ : Type) where
  kind : ρ → RuleKind
  body : ρ → Peg ρ
  blank : Peg ρ
  comment : Peg ρ

/-- What a rule matched. -/
inductive Tree (ρ : Type) where
  | node (rule : ρ) (span : Span) (text : String) (children : List (Tree ρ))

namespace Tree

def rule : Tree ρ → ρ
  | .node r _ _ _ => r

def span : Tree ρ → Span
  | .node _ s _ _ => s

/-- The characters of a node without children. -/
def text : Tree ρ → String
  | .node _ _ t _ => t

def children : Tree ρ → List (Tree ρ)
  | .node _ _ _ cs => cs

mutual

/-- The length of the longest way down the tree. -/
def height : Tree ρ → Nat
  | .node _ _ _ cs => heightAll cs + 1

def heightAll : List (Tree ρ) → Nat
  | [] => 0
  | t :: ts => max t.height (heightAll ts)

end

end Tree

/-- A place in a text: what is left, and where that is. -/
structure Cursor where
  rest : List Char
  pos : Position := {}
deriving Inhabited

namespace Cursor

/-- Takes a text off the front. -/
def takeText : List Char → Cursor → Option Cursor
  | [], c => some c
  | x :: xs, ⟨y :: ys, pos⟩ => if x = y then takeText xs ⟨ys, pos.advance y⟩ else none
  | _ :: _, ⟨[], _⟩ => none

def takeChar (p : Char → Bool) : Cursor → Option Cursor
  | ⟨y :: ys, pos⟩ => if p y then some ⟨ys, pos.advance y⟩ else none
  | ⟨[], _⟩ => none

/-- The characters of a list up to a number of bytes. -/
def prefixBytes : Nat → List Char → List Char
  | 0, _ => []
  | _, [] => []
  | n + 1, c :: cs => c :: prefixBytes (n + 1 - c.utf8Size) cs
termination_by _ cs => cs.length

/-- The text between two places. -/
def textTo (c d : Cursor) : String :=
  String.ofList (prefixBytes (d.pos.offset - c.pos.offset) c.rest)

end Cursor

namespace Grammar

/-- The place after a match and the trees matched so far, the latest first. -/
abbrev Match (ρ : Type) := Cursor × List (Tree ρ)

/-- Blanks, and comments each with the blanks after it. -/
def skipped (g : Grammar ρ) : Peg ρ := .seq (.star g.blank) (.star (.seq g.comment (.star g.blank)))

/-- Repeats a step until it fails. -/
def iterate (step : Match ρ → StateM Nat (Option (Match ρ))) : Nat → Match ρ → StateM Nat (Match ρ)
  | 0, m => pure m
  | gas + 1, m => do
    match ← step m with
    | some m => iterate step gas m
    | none => return m

/-- Matches an expression at a place. The state is the furthest place at which a rule failed so far;
the first argument bounds the nesting of calls. -/
def matchGas (g : Grammar ρ) : Nat → Bool → Peg ρ → Match ρ → StateM Nat (Option (Match ρ))
  | 0, _, _, _ => return none
  | gas + 1, atomic, e, m => do
    let skip (m : Match ρ) : StateM Nat (Match ρ) := do
      if atomic then return m
      else
        match ← g.matchGas gas true g.skipped (m.1, []) with
        | some (c, _) => return (c, m.2)
        | none => return m
    match e with
    | .text cs => return (m.1.takeText cs).map (·, m.2)
    | .char p => return (m.1.takeChar p).map (·, m.2)
    | .seq a b =>
      match ← g.matchGas gas atomic a m with
      | some m => g.matchGas gas atomic b (← skip m)
      | none => return none
    | .alt a b =>
      match ← g.matchGas gas atomic a m with
      | some m => return some m
      | none => g.matchGas gas atomic b m
    | .opt a => return some ((← g.matchGas gas atomic a m).getD m)
    | .star a =>
      match ← g.matchGas gas atomic a m with
      | some m => return some (← iterate (fun m => do g.matchGas gas atomic a (← skip m)) gas m)
      | none => return some m
    | .notAhead a =>
      match ← g.matchGas gas atomic a (m.1, []) with
      | some _ => return none
      | none => return some m
    | .finish => do
      if m.1.rest.isEmpty then return some m
      if !atomic then modify (max m.1.pos.offset)
      return none
    | .rule r =>
      match g.kind r with
      | .silent => g.matchGas gas atomic (g.body r) m
      | kind =>
        match ← g.matchGas gas (atomic || kind = .atomic) (g.body r) (m.1, []) with
        | some (c, ts) =>
          if atomic then return some (c, m.2)
          let text := if ts.isEmpty then m.1.textTo c else ""
          return some (c, .node r (m.1.pos.spanTo c.pos) text ts.reverse :: m.2)
        | none =>
          if !atomic then modify (max m.1.pos.offset)
          return none

/-- The position of a byte offset in a text. -/
def positionAt : List Char → Nat → Position → Position
  | [], _, p => p
  | c :: cs, offset, p => if offset ≤ p.offset then p else positionAt cs offset (p.advance c)

/-- A bound for the nesting of calls that no match reaches. -/
def unboundedNesting : Nat := 1000000000000000000

/-- Matches a text by a rule, or gives the place to blame. -/
def parse (g : Grammar ρ) (start : ρ) (text : String) : Except Position (Tree ρ) :=
  let cs := text.toList
  match (g.matchGas unboundedNesting false (.rule start) (⟨cs, {}⟩, [])).run 0 with
  | (some (_, [t]), _) => .ok t
  | (_, furthest) => .error (positionAt cs furthest {})

end Grammar

end LeveledTypes
