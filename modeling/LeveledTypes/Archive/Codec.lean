import LeveledTypes.GlobalName

/-!
# Binary codecs

A codec writes values as bytes and reads them back from the front of a list of bytes. Numbers have a
fixed width and come with the low byte first; a list or a text stands behind its length, an optional
value behind a byte that tells whether it is there.
-/
namespace LeveledTypes

abbrev Bytes := List UInt8

/-- A way to write values as bytes and to read them back. -/
structure Codec (α : Type) where
  encode : α → Bytes
  /-- Reads a value from the front; gives it with the bytes behind it. -/
  decode : Bytes → Option (α × Bytes)

namespace Codec

/-- The low bytes of a number, the lowest first. -/
def lowBytes : Nat → Nat → Bytes
  | 0, _ => []
  | w + 1, n => UInt8.ofNat (n % 256) :: lowBytes w (n / 256)

/-- The number that bytes stand for, the lowest first. -/
def ofLowBytes : Bytes → Nat
  | [] => 0
  | b :: bs => b.toNat + 256 * ofLowBytes bs

/-- The first `n` bytes and the rest, if there are as many. -/
def takeBytes (n : Nat) (bs : Bytes) : Option (Bytes × Bytes) :=
  if n ≤ bs.length then some (bs.splitAt n) else none

/-- Numbers of a width in bytes. -/
def nat (width : Nat) : Codec Nat where
  encode := lowBytes width
  decode bs := do
    let (b, rest) ← takeBytes width bs
    return (ofLowBytes b, rest)

/-- Numbers that count variants, levels and versions. -/
def word : Codec Nat := nat 4

/-- Lengths, indices and offsets. -/
def long : Codec Nat := nat 8

/-- A fixed number of bytes as they are. -/
def raw (n : Nat) : Codec Bytes where
  encode bs := bs
  decode := takeBytes n

/-- Values that stand for others. -/
def imap (c : Codec α) (forth : α → Option β) (back : β → α) : Codec β where
  encode b := c.encode (back b)
  decode bs := do
    let (a, rest) ← c.decode bs
    return (← forth a, rest)

/-- One value behind the other. -/
def pair (c : Codec α) (d : Codec β) : Codec (α × β) where
  encode p := c.encode p.1 ++ d.encode p.2
  decode bs := do
    let (a, bs) ← c.decode bs
    let (b, bs) ← d.decode bs
    return ((a, b), bs)

/-- Reads a number of values. -/
def decodeMany (decode : Bytes → Option (α × Bytes)) : Nat → Bytes → Option (List α × Bytes)
  | 0, bs => some ([], bs)
  | n + 1, bs => do
    let (a, bs) ← decode bs
    let (as, bs) ← decodeMany decode n bs
    return (a :: as, bs)

/-- The length of a list, and its elements. -/
def list (c : Codec α) : Codec (List α) where
  encode as := long.encode as.length ++ as.flatMap c.encode
  decode bs := do
    let (n, bs) ← long.decode bs
    decodeMany c.decode n bs

/-- A word that tells whether there is a value, and the value. -/
def option (c : Codec α) : Codec (Option α) where
  encode
    | none => [0]
    | some a => 1 :: c.encode a
  decode
    | 0 :: bs => some (none, bs)
    | 1 :: bs => do
      let (a, bs) ← c.decode bs
      return (some a, bs)
    | _ => none

/-- Texts in UTF-8. -/
def text : Codec String where
  encode s := long.encode s.utf8ByteSize ++ s.toUTF8.toList
  decode bs := do
    let (n, bs) ← long.decode bs
    let (b, bs) ← takeBytes n bs
    return (← String.fromUTF8? ⟨b.toArray⟩, bs)

def globalName : Codec GlobalName := text.imap (fun s => some ⟨s⟩) (·.text)

/-- A choice between values that a number stands for. -/
def choice [DecidableEq α] [Inhabited α] (values : List α) : Codec α :=
  word.imap (values[·]?) fun a => (values.idxOf? a).getD 0

end Codec

end LeveledTypes
