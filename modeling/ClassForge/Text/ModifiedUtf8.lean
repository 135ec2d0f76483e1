/-!
# Modified UTF-8

The text encoding of class files. It differs from UTF-8 in two points: the character U+0000 is
written in two bytes, so no encoded text holds a zero byte, and a character beyond U+FFFF is
written as its two UTF-16 units of three bytes each.

* `encode` and `encodedLength`.
* `decode?` reads units leniently (a unit may be written longer than needed) and then joins
  surrogate pairs.
-/

namespace ClassForge.ModifiedUtf8

/-- Bytes a character takes up. -/
def charLength (c : Char) : Nat :=
  if c.toNat = 0 then 2
  else if c.toNat ≤ 0x7f then 1
  else if c.toNat ≤ 0x7ff then 2
  else if c.toNat ≤ 0xffff then 3
  else 6

/-- Bytes a text takes up. -/
def encodedLength (s : String) : Nat := s.toList.foldr (fun c n => charLength c + n) 0

/-- A unit below `800` in two bytes. -/
def twoBytes (n : Nat) : List UInt8 :=
  [UInt8.ofNat (0xc0 + n / 64), UInt8.ofNat (0x80 + n % 64)]

/-- A 16-bit unit in three bytes. -/
def threeBytes (n : Nat) : List UInt8 :=
  [UInt8.ofNat (0xe0 + n / 4096), UInt8.ofNat (0x80 + n / 64 % 64), UInt8.ofNat (0x80 + n % 64)]

/-- The leading UTF-16 unit of a character beyond U+FFFF. -/
def leadUnit (n : Nat) : Nat := 0xd800 + (n - 0x10000) / 1024

/-- The trailing UTF-16 unit of a character beyond U+FFFF. -/
def trailUnit (n : Nat) : Nat := 0xdc00 + (n - 0x10000) % 1024

/-- The bytes of a character. -/
def encodeChar (c : Char) : List UInt8 :=
  let n := c.toNat
  if 1 ≤ n ∧ n ≤ 0x7f then [UInt8.ofNat n]
  else if n ≤ 0x7ff then twoBytes n
  else if n ≤ 0xffff then threeBytes n
  else threeBytes (leadUnit n) ++ threeBytes (trailUnit n)

/-- The bytes of a text. -/
def encode (s : String) : List UInt8 := s.toList.flatMap encodeChar

/-- Is it a byte that continues a unit? -/
def isContinuation (b : UInt8) : Bool := 0x80 ≤ b && b ≤ 0xbf

/-- Reads the UTF-16 units of a byte sequence onto `units`, which holds the last one first. -/
def decodeUnits? : List UInt8 → List Nat → Option (List Nat)
  | [], units => some units.reverse
  | b :: rest, units =>
    if b = 0 then none
    else if b < 0x80 then decodeUnits? rest (b.toNat :: units)
    else if b < 0xc0 then none
    else if b < 0xe0 then
      match rest with
      | c :: rest =>
        if isContinuation c then
          decodeUnits? rest (((b.toNat - 0xc0) * 64 + (c.toNat - 0x80)) :: units)
        else none
      | [] => none
    else if b < 0xf0 then
      match rest with
      | c :: d :: rest =>
        if isContinuation c && isContinuation d then
          decodeUnits? rest
            (((b.toNat - 0xe0) * 4096 + (c.toNat - 0x80) * 64 + (d.toNat - 0x80)) :: units)
        else none
      | _ => none
    else none

/-- Joins UTF-16 units to characters onto `chars`, which holds the last one first. Refuses a
surrogate without its partner. -/
def joinUnits? : List Nat → List Char → Option (List Char)
  | [], chars => some chars.reverse
  | u :: rest, chars =>
    if u < 0xd800 ∨ 0xe000 ≤ u then joinUnits? rest (Char.ofNat u :: chars)
    else if u < 0xdc00 then
      match rest with
      | v :: rest =>
        if 0xdc00 ≤ v ∧ v < 0xe000 then
          joinUnits? rest (Char.ofNat (0x10000 + (u - 0xd800) * 1024 + (v - 0xdc00)) :: chars)
        else none
      | [] => none
    else none

/-- The text that bytes encode, if they encode one. -/
def decode? (bytes : List UInt8) : Option String :=
  match decodeUnits? bytes [] with
  | none => none
  | some units =>
    match joinUnits? units [] with
    | none => none
    | some chars => some (String.ofList chars)

end ClassForge.ModifiedUtf8
