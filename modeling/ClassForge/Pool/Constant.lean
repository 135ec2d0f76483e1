import ClassForge.Bytes
import ClassForge.Text.ModifiedUtf8

/-!
# Constants

The entries of a constant pool. Floating-point numbers are kept as bit patterns, so equality of
constants is equality of what the class file stores.
-/

namespace ClassForge

/-- A constant of a class file. Indices point at other constants of the same pool. -/
inductive Constant where
  /-- A text: a name, a descriptor or a literal. -/
  | utf8 (text : String)
  | integer (value : Int32)
  /-- A 32-bit floating-point number, by its bit pattern. -/
  | float (bits : UInt32)
  | long (value : Int64)
  /-- A 64-bit floating-point number, by its bit pattern. -/
  | double (bits : UInt64)
  /-- A class, by the index of its name. -/
  | classRef (name : UInt16)
  /-- A string literal, by the index of its text. -/
  | stringRef (text : UInt16)
  | fieldRef (owner member : UInt16)
  | methodRef (owner member : UInt16)
  | interfaceMethodRef (owner member : UInt16)
  /-- Name and descriptor of a member. -/
  | nameAndType (name descriptor : UInt16)
deriving DecidableEq, Hashable

namespace Constant

/-- The byte that announces the kind of a constant. -/
def tag : Constant → UInt8
  | .utf8 _ => 1
  | .integer _ => 3
  | .float _ => 4
  | .long _ => 5
  | .double _ => 6
  | .classRef _ => 7
  | .stringRef _ => 8
  | .fieldRef .. => 9
  | .methodRef .. => 10
  | .interfaceMethodRef .. => 11
  | .nameAndType .. => 12

/-- Pool indices a constant takes up: two for the 64-bit numbers. -/
def width : Constant → Nat
  | .long _ | .double _ => 2
  | _ => 1

/-- The bytes after the tag. -/
def payload : Constant → List UInt8
  | .utf8 text =>
    let bytes := ModifiedUtf8.encode text
    count16 bytes.length ++ bytes
  | .integer value => word32 value.toUInt32
  | .float bits => word32 bits
  | .long value => word64 value.toUInt64
  | .double bits => word64 bits
  | .classRef name => word16 name
  | .stringRef text => word16 text
  | .fieldRef owner member
  | .methodRef owner member
  | .interfaceMethodRef owner member => word16 owner ++ word16 member
  | .nameAndType name descriptor => word16 name ++ word16 descriptor

/-- The bytes of a constant in a class file. -/
def encode (c : Constant) : List UInt8 := c.tag :: c.payload

end Constant

end ClassForge
