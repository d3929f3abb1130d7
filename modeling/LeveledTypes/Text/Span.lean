/-!
# Places in a text

A span is a range of byte offsets together with the line and the column of its first character.
Lines and columns count from one; a column is a character, an offset is a byte of the text in UTF-8.
-/
namespace LeveledTypes

/-- A range of byte offsets and the line and column where it starts. -/
structure Span where
  line : Nat := 0
  column : Nat := 0
  start : Nat := 0
  stop : Nat := 0
deriving DecidableEq, Inhabited, Hashable

namespace Span

def render (s : Span) : String := s!"{s.line}:{s.column}"

/-- The bytes a span covers; a span of no bytes covers the one it stands on. -/
def range (s : Span) : Nat × Nat := (s.start, max s.stop (s.start + 1))

theorem range_nonempty (s : Span) : s.range.1 < s.range.2 := by
  simp only [range]
  omega

end Span

/-- A position inside a text: the byte offset, the line and the column. -/
structure Position where
  offset : Nat := 0
  line : Nat := 1
  column : Nat := 1
deriving DecidableEq, Inhabited

namespace Position

/-- The position after a character. A line ends with its line feed; a carriage return is one more
column, which the line feed of the same line ending takes back. -/
def advance (p : Position) (c : Char) : Position :=
  if c = '\n' then ⟨p.offset + 1, p.line + 1, 1⟩ else ⟨p.offset + c.utf8Size, p.line, p.column + 1⟩

/-- The span from one position to another. -/
def spanTo (p q : Position) : Span := ⟨p.line, p.column, p.offset, q.offset⟩

/-- The empty span at a position. -/
def point (p : Position) : Span := p.spanTo p

end Position

end LeveledTypes
