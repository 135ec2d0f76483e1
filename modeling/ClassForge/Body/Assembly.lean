import ClassForge.Body.Basic
import ClassForge.Bytes
import ClassForge.ClassFile.LimitError
import ClassForge.Defect

/-!
# Assembly of a method body

A body grows byte by byte. Branches name labels; their offsets stay open until `finish` knows
where every label stands.

* `Assembly.finish` fails for a body that is too long, then for the first branch, in the order of
  emission, whose label has no place or is out of reach.
* A line mark at the offset of the last one replaces it, and a mark that repeats the last line
  adds nothing.
* `Assembling` lists the operations as data, `Assembling.apply` performs one.
-/

namespace ClassForge

/-- A branch target within one body. -/
structure Label where
  /-- Number of the label, counted from 0 in the order of creation. -/
  id : Nat
deriving DecidableEq, Repr

/-- A branch whose offset is still open. -/
structure PendingBranch where
  /-- Offset of the branch instruction; its offset operand follows the code byte. -/
  site : Nat
  /-- Where it goes. -/
  label : Label
deriving DecidableEq, Repr

/-- A method body under construction. -/
structure Assembly where
  /-- The instructions so far. -/
  code : Array UInt8 := #[]
  /-- The line table so far. -/
  lines : Array LineEntry := #[]
  /-- The offset of each label that has been placed. -/
  labels : Array (Option Nat) := #[]
  /-- The branches so far, in the order of emission. -/
  branches : Array PendingBranch := #[]

namespace Assembly

/-- The body without instructions. -/
def empty : Assembly := {}

/-- Offset of the next instruction. -/
def offset (a : Assembly) : Nat := a.code.size

/-- One byte. -/
def writeByte (a : Assembly) (b : UInt8) : Assembly := { a with code := a.code.push b }

/-- The code byte of an instruction. -/
def writeOp (a : Assembly) (op : Opcode) : Assembly := a.writeByte op.byte

/-- A 16-bit operand. -/
def writeWord (a : Assembly) (w : UInt16) : Assembly :=
  { a with code := (word16 w).foldl Array.push a.code }

/-- A new label without a place. -/
def newLabel (a : Assembly) : Label × Assembly :=
  (⟨a.labels.size⟩, { a with labels := a.labels.push none })

/-- Where a label stands. -/
def labelOffset? (a : Assembly) (l : Label) : Option Nat := a.labels[l.id]?.join

/-- Puts a label at the next instruction. -/
def placeLabel (a : Assembly) (l : Label) : Except Defect Assembly :=
  match a.labels[l.id]? with
  | none => .error (.foreignLabel l.id)
  | some (some _) => .error (.labelPlacedTwice l.id)
  | some none => .ok { a with labels := a.labels.setIfInBounds l.id (some a.code.size) }

/-- A branch to a label, with an open offset. -/
def branch (a : Assembly) (op : Opcode) (l : Label) : Except Defect Assembly :=
  if op.isShortBranch then
    let a := { a with branches := a.branches.push ⟨a.code.size, l⟩ }
    .ok ((a.writeOp op).writeWord 0xffff)
  else .error .branchForm

/-- Code from here on belongs to the given source line. -/
def markLine (a : Assembly) (line : UInt16) : Assembly :=
  let entry : LineEntry := ⟨UInt16.ofNat a.code.size, line⟩
  match a.lines.back? with
  | none => { a with lines := a.lines.push entry }
  | some last =>
    if last.startPc = entry.startPc then { a with lines := a.lines.pop.push entry }
    else if last.line = line then a
    else { a with lines := a.lines.push entry }

/-! ### Open branches -/

/-- The 16-bit two's complement of an offset. -/
def offsetWord (delta : Int) : UInt16 := UInt16.ofNat (delta % 65536).toNat

/-- The code with a 16-bit word at an offset. -/
def patchWord (code : Array UInt8) (pos : Nat) (w : UInt16) : Array UInt8 :=
  (code.setIfInBounds pos (UInt8.ofNat (w.toNat / 256))).setIfInBounds (pos + 1)
    (UInt8.ofNat w.toNat)

/-- Fills in the offset of one branch to a label of the same body; `labels` has the places of that
body's labels. A number that the body has not given out, the label of another body, counts as a
label without a place. -/
def resolve (labels : Array (Option Nat)) (code : Array UInt8) (b : PendingBranch) :
    Except LimitError (Array UInt8) :=
  match labels[b.label.id]?.join with
  | none => .error (.labelUnplaced b.label.id)
  | some target =>
    let delta := (target : Int) - (b.site : Int)
    if -32768 ≤ delta ∧ delta ≤ 32767 then .ok (patchWord code (b.site + 1) (offsetWord delta))
    else .error (.branchTooFar b.site target)

/-- The finished body. Line entries past the last instruction cover nothing and are dropped. -/
def finish (a : Assembly) (maxStack maxLocals : UInt16) : Except LimitError MethodBody :=
  let length := a.code.size
  if length > wordMax then .error (.codeTooLong length)
  else do
    let code ← a.branches.foldlM (resolve a.labels) a.code
    return {
      maxStack, maxLocals, code
      lines := a.lines.toList.filter (·.startPc < UInt16.ofNat length) }

end Assembly

/-! ### Operations as data -/

/-- The ways a body grows. -/
inductive Assembling where
  | op (op : Opcode)
  | byte (b : UInt8)
  | word (w : UInt16)
  | label
  | place (l : Label)
  | branch (op : Opcode) (l : Label)
  | line (line : UInt16)

/-- Performs one operation. -/
def Assembling.apply (a : Assembly) : Assembling → Except Defect Assembly
  | .op o => .ok (a.writeOp o)
  | .byte b => .ok (a.writeByte b)
  | .word w => .ok (a.writeWord w)
  | .label => .ok a.newLabel.2
  | .place l => a.placeLabel l
  | .branch o l => a.branch o l
  | .line n => .ok (a.markLine n)

end ClassForge
