import ClassForge.Body.Basic
import ClassForge.ClassFile.Header
import ClassForge.ClassFile.Reader
import ClassForge.Pool.Lookup

/-!
# Class images

A class as it is read from a class file, with all names looked up.

* `ClassImage.ofBytes` reads a complete class file.
* Attributes with a known name are read by their own structure, all others are skipped by their
  declared length.
-/

namespace ClassForge

/-- A field of a class image. -/
structure FieldImage where
  access : AccessFlags
  name : String
  descriptor : String
deriving DecidableEq

/-- A method of a class image. -/
structure MethodImage where
  access : AccessFlags
  name : String
  descriptor : String
  body : Option MethodBody
  /-- Internal names of the declared exceptions. -/
  exceptions : List String
deriving DecidableEq

/-- Name and descriptor, as reports show a method. -/
def MethodImage.signature (m : MethodImage) : String := m.name ++ m.descriptor

/-- A class as it stands in a class file. -/
structure ClassImage where
  version : ClassVersion
  pool : ConstantPool
  access : AccessFlags
  name : String
  superName : String
  interfaces : List String
  fields : List FieldImage
  methods : List MethodImage
  sourceFile : Option String
  sourceDebug : Option String

namespace ClassImage

/-- The first method with the given name and descriptor. -/
def method? (c : ClassImage) (name descriptor : String) : Option MethodImage :=
  c.methods.find? fun m => m.name == name && m.descriptor == descriptor

/-- The first field with the given name. -/
def field? (c : ClassImage) (name : String) : Option FieldImage :=
  c.fields.find? (·.name == name)

/-! ### Constants -/

open Reader in
/-- The constant that a tag announces; `index` is where it will stand. -/
def readConstant (index : Nat) : Reader Constant := do
  let tag ← u8
  match tag with
  | 1 =>
    let length ← u16
    let raw ← bytes length.toNat
    match ModifiedUtf8.decode? raw with
    | some text => return .utf8 text
    | none => throw (.badText index)
  | 3 => return .integer (← u32).toInt32
  | 4 => return .float (← u32)
  | 5 => return .long (← u64).toInt64
  | 6 => return .double (← u64)
  | 7 => return .classRef (← u16)
  | 8 => return .stringRef (← u16)
  | 9 => return .fieldRef (← u16) (← u16)
  | 10 => return .methodRef (← u16) (← u16)
  | 11 => return .interfaceMethodRef (← u16) (← u16)
  | 12 => return .nameAndType (← u16) (← u16)
  | tag => throw (.unknownTag tag index)

/-- Reads constants until the next index reaches `count`. The next index stops at the largest
16-bit word. At most `fuel` constants are read; each moves the index on, so `count` is enough. -/
def readConstants (count : Nat) : Nat → Nat → ConstantPool → Reader (Nat × ConstantPool)
  | 0, index, pool, input => .ok ((index, pool), input)
  | fuel + 1, index, pool, input =>
    if index < count then
      match readConstant index input with
      | .error e => .error e
      | .ok (c, input) =>
        readConstants count fuel (min (index + c.width) wordMax) (pool.append c) input
    else .ok ((index, pool), input)

/-- The constant pool. Its last constant has to end at the declared count. -/
def readPool : Reader ConstantPool := do
  let count ← Reader.u16
  let (index, pool) ← readConstants count.toNat count.toNat 1 .empty
  if index ≠ count.toNat then throw (.badIndex count)
  return pool

/-! ### Members -/

/-- The text that the next word points at. -/
def readText (pool : ConstantPool) : Reader String := do
  let i ← Reader.u16
  Reader.ofExcept (pool.utf8At i)

/-- The class name that the next word points at. -/
def readClassName (pool : ConstantPool) : Reader String := do
  let i ← Reader.u16
  Reader.ofExcept (pool.classAt i)

/-- An attribute that is skipped, name and all. -/
def skipAttribute : Reader Unit := do
  let _ ← Reader.u16
  let length ← Reader.u32
  let _ ← Reader.bytes length.toNat

/-- A field; its attributes are skipped. -/
def readField (pool : ConstantPool) : Reader FieldImage := do
  let access ← Reader.u16
  let name ← readText pool
  let descriptor ← readText pool
  let attributes ← Reader.u16
  Reader.iterate (fun _ => skipAttribute) attributes.toNat ()
  return ⟨⟨access⟩, name, descriptor⟩

/-- An exception-table entry. -/
def readHandler : Reader Handler := do
  let startPc ← Reader.u16
  let endPc ← Reader.u16
  let handlerPc ← Reader.u16
  let catchType ← Reader.u16
  return ⟨startPc, endPc, handlerPc, catchType⟩

/-- A line-table entry. -/
def readLine : Reader LineEntry := do
  let startPc ← Reader.u16
  let line ← Reader.u16
  return ⟨startPc, line⟩

/-- One attribute of a body: line tables add to the lines, all else is skipped. The lines so far
are listed backwards. -/
def readBodyAttribute (pool : ConstantPool) (lines : List LineEntry) :
    Reader (List LineEntry) := do
  let name ← readText pool
  let length ← Reader.u32
  if name = "LineNumberTable" then
    let more ← Reader.counted readLine
    return more.reverse ++ lines
  else
    let _ ← Reader.bytes length.toNat
    return lines

/-- A method body with its tables. -/
def readBody (pool : ConstantPool) : Reader MethodBody := do
  let maxStack ← Reader.u16
  let maxLocals ← Reader.u16
  let length ← Reader.u32
  let code ← Reader.bytes length.toNat
  let handlers ← Reader.counted readHandler
  let attributes ← Reader.u16
  let lines ← Reader.iterate (readBodyAttribute pool) attributes.toNat []
  return { maxStack, maxLocals, code := code.toArray, handlers, lines := lines.reverse }

/-- One attribute of a method: a body replaces an earlier one, exceptions add up, all else is
skipped. The exceptions so far are listed backwards. -/
def readMethodAttribute (pool : ConstantPool)
    (sofar : Option MethodBody × List String) : Reader (Option MethodBody × List String) := do
  let name ← readText pool
  let length ← Reader.u32
  if name = "Code" then
    let body ← readBody pool
    return (some body, sofar.2)
  else if name = "Exceptions" then
    let more ← Reader.counted (readClassName pool)
    return (sofar.1, more.reverse ++ sofar.2)
  else
    let _ ← Reader.bytes length.toNat
    return sofar

/-- A method with its attributes. -/
def readMethod (pool : ConstantPool) : Reader MethodImage := do
  let access ← Reader.u16
  let name ← readText pool
  let descriptor ← readText pool
  let attributes ← Reader.u16
  let (body, exceptions) ←
    Reader.iterate (readMethodAttribute pool) attributes.toNat (none, [])
  return ⟨⟨access⟩, name, descriptor, body, exceptions.reverse⟩

/-- One attribute of the class: source file or debug text, of which the last counts; all else is
skipped. -/
def readClassAttribute (pool : ConstantPool) (sofar : Option String × Option String) :
    Reader (Option String × Option String) := do
  let name ← readText pool
  let length ← Reader.u32
  if name = "SourceFile" then
    let file ← readText pool
    return (some file, sofar.2)
  else if name = "SourceDebugExtension" then
    let raw ← Reader.bytes length.toNat
    match ModifiedUtf8.decode? raw with
    | some text => return (sofar.1, some text)
    | none => throw (.badText 0)
  else
    let _ ← Reader.bytes length.toNat
    return sofar

/-! ### Classes -/

/-- A class off the front of the bytes. -/
def read : Reader ClassImage := do
  let magic ← Reader.u32
  if magic ≠ classMagic then throw (.badMagic magic)
  let minor ← Reader.u16
  let major ← Reader.u16
  let pool ← readPool
  let access ← Reader.u16
  let name ← readClassName pool
  let superName ← readClassName pool
  let interfaces ← Reader.counted (readClassName pool)
  let fields ← Reader.counted (readField pool)
  let methods ← Reader.counted (readMethod pool)
  let attributes ← Reader.u16
  let (sourceFile, sourceDebug) ←
    Reader.iterate (readClassAttribute pool) attributes.toNat (none, none)
  return {
    version := ⟨major, minor⟩, pool, access := ⟨access⟩, name, superName, interfaces, fields
    methods, sourceFile, sourceDebug }

/-- A complete class file: nothing may follow the class. -/
def ofBytes (input : List UInt8) : Except ReadError ClassImage :=
  match read input with
  | .error e => .error e
  | .ok (c, []) => .ok c
  | .ok (_, rest) => .error (.trailing rest.length)

end ClassImage

end ClassForge
