import ClassForge.Opcode
import ClassForge.MethodType

/-!
# Conversions between types

A value moves between the common representation of objects and the declared types of bindings.
`Conversion.plan` lists the steps of a conversion:

* between primitives: the machine's conversion instructions, and a test against zero for `boolean`;
* from a primitive to a string: the string form;
* from a primitive to another reference: the wrapper, cast unless the wrapper already is one of
  the target type;
* from a reference to a primitive: the wrapper's value, and zero for the null reference;
* between references: a cast, unless the target is the root class;
* to `void`: the value is discarded; from `void`: the target's zero.
-/

namespace ClassForge

/-- One step of a conversion. -/
inductive ConversionStep where
  /-- A conversion instruction between primitives. -/
  | primitive (op : Opcode)
  /-- One for a number other than zero, and zero for zero. -/
  | truthy (source : JavaType)
  /-- Wraps a primitive. -/
  | box (source : JavaType)
  /-- Takes a primitive out of its wrapper, zero out of the null reference; with a cast first
  unless the wrapper's class is known. -/
  | unbox (target : JavaType) (cast : Bool)
  /-- The string form of a primitive. -/
  | stringify (source : JavaType)
  /-- Checks the type of a reference. -/
  | checkCast (target : JavaType)
  /-- Discards a value. -/
  | discard (source : JavaType)
  /-- The zero of a type, out of nothing. -/
  | zero (target : JavaType)
deriving DecidableEq

namespace Conversion

/-- How the operand stack holds a primitive. -/
inductive Category where
  | int
  | long
  | float
  | double
deriving DecidableEq, Repr

/-- How the operand stack holds a primitive type. -/
def categoryOf : JavaType → Category
  | .long => .long
  | .float => .float
  | .double => .double
  | _ => .int

/-- The instruction that changes the category, unless it stays the same. -/
def categoryOp? : Category → Category → Option Opcode
  | .int, .long => some .i2l
  | .int, .float => some .i2f
  | .int, .double => some .i2d
  | .long, .int => some .l2i
  | .long, .float => some .l2f
  | .long, .double => some .l2d
  | .float, .int => some .f2i
  | .float, .long => some .f2l
  | .float, .double => some .f2d
  | .double, .int => some .d2i
  | .double, .long => some .d2l
  | .double, .float => some .d2f
  | _, _ => none

/-- The instruction that cuts an `int` down to a smaller type, unless every value of the source
fits it. -/
def truncateOp? (source target : JavaType) : Option Opcode :=
  match target with
  | .byte => if source = .byte ∨ source = .boolean then none else some .i2b
  | .short => if source = .byte ∨ source = .short ∨ source = .boolean then none else some .i2s
  | .char => if source = .char ∨ source = .boolean then none else some .i2c
  | _ => none

/-- Steps between two primitives. -/
def primitiveSteps (source target : JavaType) : List ConversionStep :=
  if target = .boolean then [.truthy source]
  else
    ((categoryOp? (categoryOf source) (categoryOf target)).toList ++
      (truncateOp? source target).toList).map .primitive

/-- Is the wrapper of the primitive known to have the target type? -/
def boxSatisfies (source target : JavaType) : Bool :=
  target.isAnyObject || source.boxClass?.map JavaType.ofClass == some target ||
    (source.isNumeric && target == .object JavaType.numberClass)

/-- Steps from a primitive to a reference. -/
def boxSteps (source target : JavaType) : List ConversionStep :=
  if target.isText then [.stringify source]
  else if boxSatisfies source target then [.box source]
  else [.box source, .checkCast target]

/-- The class whose accessor yields a primitive. -/
def unboxOwner : JavaType → String
  | .boolean => "java/lang/Boolean"
  | .char => "java/lang/Character"
  | _ => JavaType.numberClass

/-- The wrappers that are numbers. -/
def numberWrappers : List String :=
  ["java/lang/Byte", "java/lang/Short", "java/lang/Integer", "java/lang/Long", "java/lang/Float",
    "java/lang/Double"]

/-- Has every object of the source type the accessor that yields the target? -/
def unboxable (source target : JavaType) : Bool :=
  match source with
  | .object name =>
    name == unboxOwner target ||
      (unboxOwner target == JavaType.numberClass && numberWrappers.contains name)
  | _ => false

/-- Steps that turn a value of one type into a value of another. -/
def plan (source target : JavaType) : List ConversionStep :=
  if source = target then []
  else if target.isVoid then [.discard source]
  else if source.isVoid then [.zero target]
  else
    match source.isPrimitive, target.isPrimitive with
    | true, true => primitiveSteps source target
    | true, false => boxSteps source target
    | false, true => [.unbox target (!unboxable source target)]
    | false, false => if target.isAnyObject then [] else [.checkCast target]

/-- The type of the method that gives the string form of a primitive; the small integers use that
of `int`. -/
def stringifyType (source : JavaType) : MethodType :=
  ⟨[match source with
    | .byte | .short => .int
    | other => other], .text⟩

end Conversion

end ClassForge
