import ClassForge.Defect

/-!
# Operand and local slots of a method

While code is emitted, a tracker follows the operand stack, the local slots in use and the source
line. Its maxima become the declared limits of the body. All counts are 16-bit words.

* A depth below zero, a depth left at the end of a statement and a release of more local slots than
  are in use are defects.
* `Tracking` lists the operations as data, `Tracking.apply` performs one.
-/

namespace ClassForge

/-- Slots and source line of the method under construction. -/
structure Tracker where
  /-- Current depth of the operand stack. -/
  depth : Nat := 0
  /-- Deepest operand stack so far. -/
  maxDepth : Nat := 0
  /-- Local slots in use. -/
  locals : Nat := 0
  /-- Most local slots in use so far. -/
  maxLocals : Nat := 0
  /-- Source line noted last. -/
  line : Option UInt32 := none
deriving DecidableEq, Repr

namespace Tracker

/-- A method whose receiver and parameters take up `slots` local slots. -/
def ofParameters (slots : Nat) : Tracker := { locals := slots, maxLocals := slots }

/-- `n` slots are pushed. -/
def push (t : Tracker) (n : Nat) : Except Defect Tracker := do
  let depth ← Defect.checkWord (t.depth + n)
  return { t with depth, maxDepth := max t.maxDepth depth }

/-- `n` slots are popped. -/
def pop (t : Tracker) (n : Nat) : Except Defect Tracker :=
  if n ≤ t.depth then .ok { t with depth := t.depth - n }
  else .error (.poppedTooMany n t.depth)

/-- Between statements the operand stack has to be empty. -/
def checkBalanced (t : Tracker) : Except Defect Unit :=
  if t.depth = 0 then .ok () else .error (.slotsLeft t.depth)

/-- Code that only a branch reaches starts with the depth of that branch. -/
def withDepth (t : Tracker) (depth : Nat) : Tracker := { t with depth }

/-- `n` further local slots are in use. -/
def addLocals (t : Tracker) (n : Nat) : Except Defect Tracker := do
  let locals ← Defect.checkWord (t.locals + n)
  return { t with locals, maxLocals := max t.maxLocals locals }

/-- A new local variable of `width` slots, and its index. -/
def allocLocal (t : Tracker) (width : Nat) : Except Defect (Nat × Tracker) := do
  let t' ← t.addLocals width
  return (t.locals, t')

/-- The `n` local slots allocated last are free again. -/
def releaseLocals (t : Tracker) (n : Nat) : Except Defect Tracker :=
  if n ≤ t.locals then .ok { t with locals := t.locals - n }
  else .error (.releasedTooMany n t.locals)

/-- The slots from `index` on, `width` of them, are accessed. They need not be allocated here:
parameters are not. -/
def noteLocal (t : Tracker) (index width : Nat) : Except Defect Tracker := do
  let stop ← Defect.checkWord (index + width)
  return { t with maxLocals := max t.maxLocals stop }

/-- Code now belongs to a source line. Answers the line if it is a new one. -/
def noteLine (t : Tracker) (line : UInt32) : Option UInt32 × Tracker :=
  if t.line = some line then (none, t) else (some line, { t with line := some line })

/-- The code of the rule has ended. Answers the line after the last one noted, unless there is
none. -/
def noteEnd (t : Tracker) : Option UInt32 × Tracker :=
  match t.line with
  | none => (none, t)
  | some line =>
    if line = 0xffffffff then (none, t) else (some (line + 1), { t with line := some (line + 1) })

end Tracker

/-! ### Operations as data -/

/-- The ways a tracker changes. -/
inductive Tracking where
  | push (n : Nat)
  | pop (n : Nat)
  | checkBalanced
  | addLocals (n : Nat)
  | allocLocal (width : Nat)
  | releaseLocals (n : Nat)
  | noteLocal (index width : Nat)
  | noteLine (line : UInt32)
  | noteEnd

/-- Performs one operation, and answers the index of an allocated local or the line to be
marked. -/
def Tracking.apply (t : Tracker) : Tracking → Except Defect (Option Nat × Tracker)
  | .push n => do return (none, ← t.push n)
  | .pop n => do return (none, ← t.pop n)
  | .checkBalanced => do
    t.checkBalanced
    return (none, t)
  | .addLocals n => do return (none, ← t.addLocals n)
  | .allocLocal width => do
    let (index, t) ← t.allocLocal width
    return (some index, t)
  | .releaseLocals n => do return (none, ← t.releaseLocals n)
  | .noteLocal index width => do return (none, ← t.noteLocal index width)
  | .noteLine line =>
    let (line?, t) := t.noteLine line
    .ok (line?.map UInt32.toNat, t)
  | .noteEnd =>
    let (line?, t) := t.noteEnd
    .ok (line?.map UInt32.toNat, t)

end ClassForge
