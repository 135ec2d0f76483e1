import Std.Data.HashMap
import ClassForge.ClassFile.LimitError
import ClassForge.Defect
import ClassForge.Pool.Constant

/-!
# Constant pool

The constants of one class, by index. Index 0 is reserved and the index after a 64-bit number
stays empty. Interning shares: a constant that is present keeps its index.

Interning never fails on the spot. The first exceeded limit is remembered and `check` reports it;
the call that met it answers index 0.

* `ConstantPool.intern` adds one constant, the named operations after it add a constant with all
  it points at.
* `ConstantPool.append` adds a constant without sharing, the way a class file lists them.
* `Interning` lists the named operations as data, `Interning.apply` performs one.
-/

namespace ClassForge

/-- The constants of one class. -/
structure ConstantPool where
  /-- Constants by index; empty at index 0 and after each 64-bit number. -/
  slots : Array (Option Constant) := #[none]
  /-- Where each interned constant stands. -/
  index : Std.HashMap Constant UInt16 := ∅
  /-- The first limit exceeded so far. -/
  violation : Option LimitError := none

namespace ConstantPool

/-- The pool without constants. -/
def empty : ConstantPool := {}

/-- Remembers an exceeded limit unless an earlier one is remembered. -/
def reject (p : ConstantPool) (e : LimitError) : ConstantPool :=
  { p with violation := p.violation.or (some e) }

/-- The slots with a constant after them, and an empty slot after a 64-bit number. -/
def pushSlots (slots : Array (Option Constant)) (c : Constant) : Array (Option Constant) :=
  if c.width = 2 then (slots.push (some c)).push none else slots.push (some c)

/-- A constant at the next index, not shared with equal ones. -/
def append (p : ConstantPool) (c : Constant) : ConstantPool :=
  { p with slots := pushSlots p.slots c }

/-- The index of a constant, which is added unless it is present. A constant that does not fit
gets index 0. -/
def intern (p : ConstantPool) (c : Constant) : UInt16 × ConstantPool :=
  match p.index[c]? with
  | some i => (i, p)
  | none =>
    if p.slots.size + c.width > wordMax then (0, p.reject .poolFull)
    else
      let i := UInt16.ofNat p.slots.size
      (i, { p with slots := pushSlots p.slots c, index := p.index.insert c i })

/-! ### Named constants -/

/-- A text. One whose encoding is too long gets index 0. -/
def utf8 (p : ConstantPool) (text : String) : UInt16 × ConstantPool :=
  let length := ModifiedUtf8.encodedLength text
  if length > wordMax then (0, p.reject (.textTooLong length)) else p.intern (.utf8 text)

/-- A class, by internal name or array descriptor. -/
def classRef (p : ConstantPool) (name : String) : UInt16 × ConstantPool :=
  let (i, p) := p.utf8 name
  p.intern (.classRef i)

/-- A string literal. -/
def stringRef (p : ConstantPool) (text : String) : UInt16 × ConstantPool :=
  let (i, p) := p.utf8 text
  p.intern (.stringRef i)

/-- Name and descriptor of a member. -/
def nameAndType (p : ConstantPool) (name descriptor : String) : UInt16 × ConstantPool :=
  let (n, p) := p.utf8 name
  let (d, p) := p.utf8 descriptor
  p.intern (.nameAndType n d)

/-- A field. -/
def fieldRef (p : ConstantPool) (owner name descriptor : String) : UInt16 × ConstantPool :=
  let (c, p) := p.classRef owner
  let (m, p) := p.nameAndType name descriptor
  p.intern (.fieldRef c m)

/-- A method of a class. -/
def methodRef (p : ConstantPool) (owner name : String) (type : MethodType) :
    UInt16 × ConstantPool :=
  let (c, p) := p.classRef owner
  let (m, p) := p.nameAndType name type.descriptor
  p.intern (.methodRef c m)

/-- A method of an interface. -/
def interfaceMethodRef (p : ConstantPool) (owner name : String) (type : MethodType) :
    UInt16 × ConstantPool :=
  let (c, p) := p.classRef owner
  let (m, p) := p.nameAndType name type.descriptor
  p.intern (.interfaceMethodRef c m)

/-- Several classes, in order. -/
def classRefs (p : ConstantPool) (names : List String) : List UInt16 × ConstantPool :=
  let (indices, p) := names.foldl
    (fun (indices, p) name =>
      let (i, p) := ConstantPool.classRef p name
      (i :: indices, p))
    ([], p)
  (indices.reverse, p)

/-! ### Views -/

/-- The constant at an index. -/
def get? (p : ConstantPool) (i : UInt16) : Option Constant := p.slots[i.toNat]?.join

/-- The constants with their indices, in order. -/
def toList (p : ConstantPool) : List (Nat × Constant) :=
  p.slots.toList.zipIdx.filterMap fun (c?, i) => c?.map fun c => (i, c)

/-- The count a class file declares: one more than the highest index. -/
def count (p : ConstantPool) : UInt16 := UInt16.ofNat p.slots.size

/-- Number of constants, each counted once. -/
def size (p : ConstantPool) : Nat := p.slots.countP Option.isSome

/-- Has nothing been added? -/
def isEmpty (p : ConstantPool) : Bool := p.slots.size == 1

/-- Reports the first limit exceeded so far. -/
def check (p : ConstantPool) : Except LimitError Unit :=
  match p.violation with
  | some e => .error e
  | none => .ok ()

end ConstantPool

/-! ### Operations as data -/

/-- The named ways to add a constant. -/
inductive Interning where
  | utf8 (text : String)
  | classRef (name : String)
  | stringRef (text : String)
  | integer (value : Int32)
  | float (bits : UInt32)
  | long (value : Int64)
  | double (bits : UInt64)
  | nameAndType (name descriptor : String)
  | fieldRef (owner name descriptor : String)
  | methodRef (owner name : String) (type : MethodType)
  | interfaceMethodRef (owner name : String) (type : MethodType)

/-- Adds the constant that the operation names, and answers its index. -/
def Interning.apply (p : ConstantPool) : Interning → UInt16 × ConstantPool
  | .utf8 text => p.utf8 text
  | .classRef name => p.classRef name
  | .stringRef text => p.stringRef text
  | .integer value => p.intern (.integer value)
  | .float bits => p.intern (.float bits)
  | .long value => p.intern (.long value)
  | .double bits => p.intern (.double bits)
  | .nameAndType name descriptor => p.nameAndType name descriptor
  | .fieldRef owner name descriptor => p.fieldRef owner name descriptor
  | .methodRef owner name type => p.methodRef owner name type
  | .interfaceMethodRef owner name type => p.interfaceMethodRef owner name type

end ClassForge
