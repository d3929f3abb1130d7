/-!
# Hexadecimal text

Bytes are written as two lower-case digits each, the high half first, and read back in either case.
-/
namespace LeveledTypes.Hex

def digit (n : Nat) : Char :=
  if n < 10 then Char.ofNat (48 + n) else Char.ofNat (87 + n)

/-- The value of a hexadecimal digit. -/
def value? (c : Char) : Option Nat :=
  if '0' ≤ c ∧ c ≤ '9' then some (c.toNat - 48)
  else if 'a' ≤ c ∧ c ≤ 'f' then some (c.toNat - 87)
  else if 'A' ≤ c ∧ c ≤ 'F' then some (c.toNat - 55)
  else none

def encode : List UInt8 → List Char
  | [] => []
  | b :: bs => digit (b.toNat / 16) :: digit (b.toNat % 16) :: encode bs

/-- Reads digits two by two; a lone digit or any other character is refused. -/
def decode : List Char → Option (List UInt8)
  | [] => some []
  | h :: l :: cs =>
    match value? h, value? l, decode cs with
    | some h, some l, some bs => some (UInt8.ofNat (16 * h + l) :: bs)
    | _, _, _ => none
  | [_] => none

def ofBytes (b : ByteArray) : String := String.ofList (encode b.toList)

def toBytes? (s : String) : Option ByteArray := (decode s.toList).map fun bs => ⟨bs.toArray⟩

end LeveledTypes.Hex
