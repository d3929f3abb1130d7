import LeveledTypes.Text.Hex

/-!
# Digests

A digest is a word of 32 bytes that stands for a content. It is written in hexadecimal; the short
form is its first twelve digits behind a number sign. The digest of nothing yet computed is all
zero.
-/
namespace LeveledTypes

structure Digest where
  bytes : Vector UInt8 32
deriving DecidableEq

namespace Digest

instance : Inhabited Digest := ⟨⟨Vector.replicate 32 0⟩⟩

def toHex (d : Digest) : String := String.ofList (Hex.encode d.bytes.toList)

def toShortHex (d : Digest) : String := "#" ++ String.ofList ((Hex.encode d.bytes.toList).take 12)

/-- A digest from its bytes, if these are 32. -/
def ofList? (bs : List UInt8) : Option Digest :=
  if h : bs.toArray.size = 32 then some ⟨⟨bs.toArray, h⟩⟩ else none

end Digest

end LeveledTypes
