import ClassForge.Name

/-!
# Java types

The declared type of a binding, a field or a method parameter.

* `JavaType` with its classification (`isPrimitive`, `isReference`, ...), its width in operand
  slots (`slots`) and the wrapper class that boxes it (`boxClass?`).
* `JavaType.descriptor` prints a field descriptor, `JavaType.parse?` reads one type off the front
  of a text and returns the rest.
* `JavaType.WellFormed` holds of the types that a descriptor can express.
-/

namespace ClassForge

/-- A type of the Java virtual machine. -/
inductive JavaType where
  | void
  | boolean
  | byte
  | char
  | short
  | int
  | long
  | float
  | double
  /-- A class or interface, by internal name. -/
  | object (name : String)
  /-- An array of the element type. -/
  | array (elem : JavaType)
deriving DecidableEq, Repr

namespace JavaType

/-! ### Well-known classes -/

/-- Internal name of the root class. -/
def objectClass : String := "java/lang/Object"

/-- Internal name of the string class. -/
def stringClass : String := "java/lang/String"

/-- Internal name of the common superclass of the numeric wrappers. -/
def numberClass : String := "java/lang/Number"

/-- The root class, the common representation of every binding value. -/
def anyObject : JavaType := .object objectClass

/-- The string class. -/
def text : JavaType := .object stringClass

/-- A class type from a name in either spelling. -/
def ofClass (name : String) : JavaType := .object (internalName name)

/-! ### Classification -/

/-- Is it the root class? -/
def isAnyObject : JavaType → Bool
  | .object name => name == objectClass
  | _ => false

/-- Is it the string class? -/
def isText : JavaType → Bool
  | .object name => name == stringClass
  | _ => false

/-- Is it the absent type? -/
def isVoid : JavaType → Bool
  | .void => true
  | _ => false

/-- Is it a class, interface or array type? -/
def isReference : JavaType → Bool
  | .object _ | .array _ => true
  | _ => false

/-- Is it one of the eight primitive types? -/
def isPrimitive : JavaType → Bool
  | .void | .object _ | .array _ => false
  | _ => true

/-- Is it a primitive whose wrapper is a number? -/
def isNumeric : JavaType → Bool
  | .byte | .short | .int | .long | .float | .double => true
  | _ => false

/-- Do its values live on the operand stack as an `int`? -/
def isIntLike : JavaType → Bool
  | .boolean | .byte | .char | .short | .int => true
  | _ => false

/-- Storage width in bytes. A reference counts as one 32-bit slot. -/
def byteWidth : JavaType → Nat
  | .void => 0
  | .boolean | .byte => 1
  | .char | .short => 2
  | .int | .float | .object _ | .array _ => 4
  | .long | .double => 8

/-- Operand-stack or local-variable slots a value occupies. -/
def slots : JavaType → Nat
  | .void => 0
  | .long | .double => 2
  | _ => 1

/-- The wrapper class of a primitive. -/
def boxClass? : JavaType → Option String
  | .boolean => some "java/lang/Boolean"
  | .byte => some "java/lang/Byte"
  | .char => some "java/lang/Character"
  | .short => some "java/lang/Short"
  | .int => some "java/lang/Integer"
  | .long => some "java/lang/Long"
  | .float => some "java/lang/Float"
  | .double => some "java/lang/Double"
  | _ => none

/-- The wrapper's accessor that yields the primitive. -/
def unboxMethod? : JavaType → Option String
  | .boolean => some "booleanValue"
  | .byte => some "byteValue"
  | .char => some "charValue"
  | .short => some "shortValue"
  | .int => some "intValue"
  | .long => some "longValue"
  | .float => some "floatValue"
  | .double => some "doubleValue"
  | _ => none

/-- The class of the type itself, or of the innermost elements of an array. -/
def elementClass? : JavaType → Option String
  | .object name => some name
  | .array elem => elem.elementClass?
  | _ => none

/-! ### Printing -/

/-- The characters of the field descriptor. -/
def descriptorChars : JavaType → List Char
  | .void => ['V']
  | .boolean => ['Z']
  | .byte => ['B']
  | .char => ['C']
  | .short => ['S']
  | .int => ['I']
  | .long => ['J']
  | .float => ['F']
  | .double => ['D']
  | .object name => 'L' :: (name.toList ++ [';'])
  | .array elem => '[' :: elem.descriptorChars

/-- The field descriptor: `I`, `Ljava/lang/String;`, `[J`. -/
def descriptor (t : JavaType) : String := String.ofList t.descriptorChars

/-- The name that a class constant carries: the internal name of a class, the descriptor of an
array. -/
def className? : JavaType → Option String
  | .object name => some name
  | .array elem => some (descriptor (.array elem))
  | _ => none

/-- The type as a programmer writes it: `int`, `java.lang.String`, `long[]`. -/
def display : JavaType → String
  | .void => "void"
  | .boolean => "boolean"
  | .byte => "byte"
  | .char => "char"
  | .short => "short"
  | .int => "int"
  | .long => "long"
  | .float => "float"
  | .double => "double"
  | .object name => binaryName name
  | .array elem => elem.display ++ "[]"

/-! ### Reading -/

/-- A type that a descriptor can express: class names are non-empty and hold no semicolon, and no
array has void elements. -/
def WellFormed : JavaType → Prop
  | .object name => name.toList ≠ [] ∧ ';' ∉ name.toList
  | .array elem => elem ≠ .void ∧ elem.WellFormed
  | _ => True

/-- The class type whose non-empty name ends at the first semicolon. -/
def parseClass? (cs : List Char) : Option (JavaType × List Char) :=
  match cs.dropWhile (· ≠ ';') with
  | [] => none
  | _ :: rest =>
    match cs.takeWhile (· ≠ ';') with
    | [] => none
    | name => some (.object (String.ofList name), rest)

/-- One type off the front of a text, with the rest of the text. -/
def parse? : List Char → Option (JavaType × List Char)
  | 'V' :: rest => some (.void, rest)
  | 'Z' :: rest => some (.boolean, rest)
  | 'B' :: rest => some (.byte, rest)
  | 'C' :: rest => some (.char, rest)
  | 'S' :: rest => some (.short, rest)
  | 'I' :: rest => some (.int, rest)
  | 'J' :: rest => some (.long, rest)
  | 'F' :: rest => some (.float, rest)
  | 'D' :: rest => some (.double, rest)
  | 'L' :: rest => parseClass? rest
  | '[' :: rest =>
    match parse? rest with
    | none | some (.void, _) => none
    | some (elem, rest) => some (.array elem, rest)
  | _ => none

/-- A complete field descriptor. -/
def ofDescriptor? (text : String) : Option JavaType :=
  match parse? text.toList with
  | some (t, []) => some t
  | _ => none

/-- A class name and its semicolon take up at least one character. -/
theorem length_of_parseClass? {cs rest : List Char} {t : JavaType}
    (h : parseClass? cs = some (t, rest)) : rest.length < cs.length := by
  unfold parseClass? at h
  split at h
  · simp at h
  · rename_i hd
    split at h
    · simp at h
    · simp only [Option.some.injEq, Prod.mk.injEq] at h
      obtain ⟨-, rfl⟩ := h
      have hlen := congrArg List.length (List.takeWhile_append_dropWhile (p := (· ≠ ';')) (l := cs))
      rw [hd] at hlen
      simp only [List.length_append, List.length_cons] at hlen
      omega

/-- Reading a type takes up at least one character. -/
theorem length_of_parse? {cs rest : List Char} {t : JavaType}
    (h : parse? cs = some (t, rest)) : rest.length < cs.length := by
  fun_induction parse? cs generalizing t rest with
  | case1 | case2 | case3 | case4 | case5 | case6 | case7 | case8 | case9 =>
    cases h
    exact Nat.lt_succ_self _
  | case10 tail => exact Nat.lt_succ_of_lt (length_of_parseClass? h)
  | case13 tail elem after hvoid hparse ih =>
    cases h
    exact Nat.lt_succ_of_lt (ih hparse)
  | _ => cases h

end JavaType

end ClassForge
