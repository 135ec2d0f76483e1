/-!
# Big-endian words

The class-file format stores every number with its most significant byte first.

* `beBytes k v` are the last `k` bytes of `v`, and `beValue` is the number that bytes spell.
* `word16`, `word32` and `word64` write machine words.
-/

namespace ClassForge

/-- The `k` least significant bytes of `v`, the most significant of them first. -/
def beBytes : Nat → Nat → List UInt8
  | 0, _ => []
  | k + 1, v => UInt8.ofNat (v / Nat.pow 256 k) :: beBytes k v

/-- The number that bytes spell, the first byte being the most significant. -/
def beValue (bytes : List UInt8) : Nat := bytes.foldl (fun v b => 256 * v + b.toNat) 0

/-- A 16-bit word. -/
def word16 (w : UInt16) : List UInt8 := beBytes 2 w.toNat

/-- A 32-bit word. -/
def word32 (w : UInt32) : List UInt8 := beBytes 4 w.toNat

/-- A 64-bit word. -/
def word64 (w : UInt64) : List UInt8 := beBytes 8 w.toNat

/-- A count in a 16-bit word: only its last sixteen bits are written. -/
def count16 (n : Nat) : List UInt8 := word16 (UInt16.ofNat n)

/-- A length in a 32-bit word: only its last thirty-two bits are written. -/
def count32 (n : Nat) : List UInt8 := word32 (UInt32.ofNat n)

@[simp]
theorem length_beBytes (k v : Nat) : (beBytes k v).length = k := by
  induction k with
  | zero => rfl
  | succ k ih => simp [beBytes, ih]

end ClassForge
