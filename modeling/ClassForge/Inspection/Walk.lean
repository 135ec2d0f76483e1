import ClassForge.Inspection.Instruction

/-!
# Walking a body

The walk follows every path through a body and keeps the stack depth on entry to each instruction.
An instruction is visited once; reaching it again asks only whether the depth is the same.

* `Walk.visit` deals with one pending offset and depth.
* `Walk.run` takes pending entries, the latest first, until none is left. Each visit of a new
  instruction adds at most two entries, so one step for the entry point, one for each handler and
  two for each instruction are enough.
-/

namespace ClassForge.Inspection

/-- The body under inspection with what is known about it. -/
structure Subject where
  pool : ConstantPool
  body : MethodBody
  type : MethodType
  /-- Where instructions start. -/
  starts : Array Bool

/-- How far a walk has come. -/
structure Walk where
  /-- Stack depth on entry to each instruction that was reached. -/
  depths : Array (Option Nat)
  /-- Deepest stack after an instruction. -/
  maxDepth : Nat := 0
  /-- Local slots in use. -/
  localsUsed : Nat
  /-- Offsets to visit with the depth on entry, the next one first. -/
  pending : List (Nat × Nat)

namespace Walk

/-- Checks the local variable that the instruction touches, and answers the slots in use. -/
def checkLocals (s : Subject) (op : Opcode) (pc used : Nat) : BodyCheck Nat :=
  match op.localAccess? with
  | none => pure used
  | some access => do
    let index ← match access.index? with
      | some index => pure index
      | none => UInt8.toNat <$> byteAt s.body.code (pc + 1)
    if index + access.width > s.body.maxLocals.toNat then
      throw (.localOutOfRange pc index s.body.maxLocals.toNat)
    return max used (index + access.width)

/-- The stack depth after the instruction at `pc`. -/
def depthAfter (s : Subject) (op : Opcode) (pc depth : Nat) : BodyCheck Nat := do
  let effect ← effectAt s.pool s.body.code op pc
  if depth < effect.pop then throw (.stackUnderflow pc)
  let after := depth - effect.pop + effect.push
  if after > s.body.maxStack.toNat then
    throw (.stackOverflow pc after s.body.maxStack.toNat)
  return after

/-- Where the instruction at `pc` may branch to. -/
def branchExit (s : Subject) (op : Opcode) (pc : Nat) : BodyCheck (Option Nat) := do
  if op.isBranch then
    let target ← branchTarget s.body.code op pc
    if target < 0 ∨ !isStart s.starts target.toNat then throw (.badTarget pc target)
    return some target.toNat
  else return none

/-- Where control goes after the instruction at `pc` when it does not branch. -/
def nextExit (s : Subject) (op : Opcode) (pc : Nat) : BodyCheck (Option Nat) := do
  if op.isTerminal then return none
  else if pc + op.encodedLength ≥ s.body.code.size then throw .fallsOffEnd
  else return some (pc + op.encodedLength)

/-- Checks the instruction at `pc`, reached for the first time with the given depth, and adds its
exits to the pending entries. -/
def enter (s : Subject) (w : Walk) (op : Opcode) (pc depth : Nat) : BodyCheck Walk := do
  let localsUsed ← checkLocals s op pc w.localsUsed
  if !returnFits op s.type.ret then throw (.returnMismatch pc)
  let after ← depthAfter s op pc depth
  let branch ← branchExit s op pc
  let next ← nextExit s op pc
  return { w with
    maxDepth := max w.maxDepth after
    localsUsed
    pending := (next.toList ++ branch.toList).map (·, after) ++ w.pending }

/-- Visits an offset with the given depth on entry. -/
def visit (s : Subject) (w : Walk) (pc depth : Nat) : BodyCheck Walk :=
  if !isStart s.starts pc then throw (.badTarget pc pc)
  else
    match w.depths[pc]? with
    | none => abort (.readOutsideCode pc)
    | some (some seen) => if seen = depth then pure w else throw (.depthClash pc seen depth)
    | some none => do
      let w := { w with depths := w.depths.setIfInBounds pc (some depth) }
      let b ← byteAt s.body.code pc
      match Opcode.ofByte? b with
      | none => return w
      | some op => w.enter s op pc depth

/-- Takes pending entries until none is left, at most `fuel` of them. -/
def run (s : Subject) : Nat → Walk → BodyCheck Walk
  | fuel, w =>
    match w.pending with
    | [] => pure w
    | (pc, depth) :: rest =>
      match fuel with
      | 0 => abort .walkUnfinished
      | fuel + 1 => do
        let w ← visit s { w with pending := rest } pc depth
        run s fuel w

/-- The walk before its first step: the entry point with an empty stack, and before it each
handler, the last one first, with the thrown reference. -/
def start (s : Subject) (localsUsed : Nat) : Walk where
  depths := Array.replicate s.body.code.size none
  localsUsed := localsUsed
  pending := (s.body.handlers.map fun h => (h.handlerPc.toNat, 1)).reverse ++ [(0, 0)]

/-- Steps that are enough for a body. -/
def fuelFor (s : Subject) : Nat :=
  1 + s.body.handlers.length + 2 * s.starts.countP id

/-- Walks all paths of a body. -/
def all (s : Subject) (localsUsed : Nat) : BodyCheck Walk :=
  if s.body.code.isEmpty then throw .fallsOffEnd
  else run s (fuelFor s) (start s localsUsed)

end Walk

end ClassForge.Inspection
