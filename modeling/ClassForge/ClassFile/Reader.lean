import ClassForge.Bytes
import ClassForge.ClassFile.ReadError

/-!
# Byte readers

A reader takes values off the front of a byte sequence and hands on the rest.
-/

namespace ClassForge

/-- Takes a value off the front of a byte sequence. -/
abbrev Reader (α : Type) : Type := StateT (List UInt8) (Except ReadError) α

namespace Reader

/-- Exactly `n` bytes. -/
def bytes (n : Nat) : Reader (List UInt8) := fun input =>
  let taken := input.take n
  if taken.length = n then .ok (taken, input.drop n) else .error .truncated

/-- The number in the next `k` bytes. -/
def number (k : Nat) : Reader Nat := do
  let taken ← bytes k
  return beValue taken

/-- A byte. -/
def u8 : Reader UInt8 := do
  let n ← number 1
  return UInt8.ofNat n

/-- A 16-bit word. -/
def u16 : Reader UInt16 := do
  let n ← number 2
  return UInt16.ofNat n

/-- A 32-bit word. -/
def u32 : Reader UInt32 := do
  let n ← number 4
  return UInt32.ofNat n

/-- A 64-bit word. -/
def u64 : Reader UInt64 := do
  let n ← number 8
  return UInt64.ofNat n

/-- Reads on from a state, `n` times. -/
def iterate {σ : Type} (step : σ → Reader σ) : Nat → σ → Reader σ
  | 0, s, input => .ok (s, input)
  | n + 1, s, input =>
    match step s input with
    | .error e => .error e
    | .ok (s, input) => iterate step n s input

/-- Exactly `n` items. -/
def many {α : Type} (item : Reader α) (n : Nat) : Reader (List α) := do
  let items ← iterate (fun items => do
    let x ← item
    return x :: items) n []
  return items.reverse

/-- Items with their 16-bit count in front. -/
def counted {α : Type} (item : Reader α) : Reader (List α) := do
  let n ← u16
  many item n.toNat

/-- Something that does not read. -/
def ofExcept {α : Type} (x : Except ReadError α) : Reader α := fun input =>
  match x with
  | .error e => .error e
  | .ok a => .ok (a, input)

end Reader

end ClassForge
