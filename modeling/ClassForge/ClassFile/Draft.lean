import ClassForge.Body.Basic
import ClassForge.ClassFile.Header
import ClassForge.Pool.Basic

/-!
# Class drafts

A class under construction: header, constants, fields, methods and attributes. Names are interned
when a member is added, so writing the class never grows the pool.

* `ClassDraft.encode` checks the pool and the member counts and writes the class.
* `ClassDraft.writeTo` writes to a receiver of limited size.
* `Drafting` lists the operations as data, `Drafting.apply` performs one.
-/

namespace ClassForge

/-- A field, by the indices of its texts. -/
structure FieldDraft where
  access : AccessFlags
  name : UInt16
  descriptor : UInt16
deriving DecidableEq

/-- A method, by the indices of its texts. -/
structure MethodDraft where
  access : AccessFlags
  name : UInt16
  descriptor : UInt16
  body : Option MethodBody
  /-- Class indices of the declared exceptions. -/
  exceptions : List UInt16
deriving DecidableEq

/-- Indices of the attribute names in use. -/
structure AttributeNames where
  code : UInt16 := 0
  lineNumbers : UInt16 := 0
  exceptions : UInt16 := 0
  sourceFile : UInt16 := 0
  sourceDebug : UInt16 := 0
deriving DecidableEq

/-- A class under construction. -/
structure ClassDraft where
  pool : ConstantPool
  version : ClassVersion
  access : AccessFlags
  thisClass : UInt16
  superClass : UInt16
  interfaces : List UInt16
  fields : Array FieldDraft := #[]
  methods : Array MethodDraft := #[]
  /-- Index of the source file's name. -/
  sourceFile : Option UInt16 := none
  /-- Bytes of the debug text. -/
  sourceDebug : Option (List UInt8) := none
  names : AttributeNames := {}

namespace ClassDraft

/-- A class with a header and no members. -/
def new (version : ClassVersion) (access : AccessFlags) (name superName : String)
    (interfaces : List String) : ClassDraft :=
  let (thisClass, pool) := ConstantPool.empty.classRef name
  let (superClass, pool) := pool.classRef superName
  let (interfaces, pool) := pool.classRefs interfaces
  { pool, version, access, thisClass, superClass, interfaces }

/-- The draft with another pool. -/
def withPool (d : ClassDraft) (pool : ConstantPool) : ClassDraft := { d with pool }

/-- Declares a field. -/
def addField (d : ClassDraft) (access : AccessFlags) (name : String) (type : JavaType) :
    ClassDraft :=
  let (n, pool) := d.pool.utf8 name
  let (t, pool) := pool.utf8 type.descriptor
  { d with pool, fields := d.fields.push ⟨access, n, t⟩ }

/-- The names of the attributes that a body brings along. -/
def nameBody (pool : ConstantPool) (names : AttributeNames) :
    Option MethodBody → AttributeNames × ConstantPool
  | none => (names, pool)
  | some body =>
    let (code, pool) := pool.utf8 "Code"
    if body.lines.isEmpty then ({ names with code }, pool)
    else
      let (lineNumbers, pool) := pool.utf8 "LineNumberTable"
      ({ names with code, lineNumbers }, pool)

/-- The name of the attribute that declared exceptions bring along. -/
def nameExceptions (pool : ConstantPool) (names : AttributeNames) (exceptions : List String) :
    AttributeNames × ConstantPool :=
  if exceptions.isEmpty then (names, pool)
  else
    let (i, pool) := pool.utf8 "Exceptions"
    ({ names with exceptions := i }, pool)

/-- Declares a method, with a body unless it is abstract or native. -/
def addMethod (d : ClassDraft) (access : AccessFlags) (name : String) (type : MethodType)
    (body : Option MethodBody) (exceptions : List String) : ClassDraft :=
  let (n, pool) := d.pool.utf8 name
  let (t, pool) := pool.utf8 type.descriptor
  let (names, pool) := nameBody pool d.names body
  let (names, pool) := nameExceptions pool names exceptions
  let (thrown, pool) := pool.classRefs exceptions
  { d with pool, names, methods := d.methods.push ⟨access, n, t, body, thrown⟩ }

/-- Sets the name of the source file. -/
def setSourceFile (d : ClassDraft) (file : String) : ClassDraft :=
  let (n, pool) := d.pool.utf8 "SourceFile"
  let (f, pool) := pool.utf8 file
  { d with pool, names := { d.names with sourceFile := n }, sourceFile := some f }

/-- Sets the debug text. -/
def setSourceDebug (d : ClassDraft) (text : String) : ClassDraft :=
  let (n, pool) := d.pool.utf8 "SourceDebugExtension"
  { d with
    pool, names := { d.names with sourceDebug := n }
    sourceDebug := some (ModifiedUtf8.encode text) }

/-! ### Writing -/

/-- A list with its 16-bit count in front. -/
def encodeCounted {α : Type} (encode : α → List UInt8) (items : List α) : List UInt8 :=
  count16 items.length ++ items.flatMap encode

/-- An attribute: name, declared length, content. -/
def encodeAttribute (name : UInt16) (length : Nat) (content : List UInt8) : List UInt8 :=
  word16 name ++ (count32 length ++ content)

/-- An exception-table entry. -/
def encodeHandler (h : Handler) : List UInt8 :=
  word16 h.startPc ++ (word16 h.endPc ++ (word16 h.handlerPc ++ word16 h.catchType))

/-- A line-table entry. -/
def encodeLine (l : LineEntry) : List UInt8 := word16 l.startPc ++ word16 l.line

/-- Bytes that a line table adds to its body's attribute, with its own header. -/
def linesLength (lines : List LineEntry) : Nat :=
  if lines.isEmpty then 0 else 6 + (2 + 4 * lines.length)

/-- The attributes of a body: its line table, if it has one. -/
def encodeLines (names : AttributeNames) (lines : List LineEntry) : List UInt8 :=
  if lines.isEmpty then word16 0
  else
    word16 1 ++
      encodeAttribute names.lineNumbers (2 + 4 * lines.length) (encodeCounted encodeLine lines)

/-- The attribute that holds a body. -/
def encodeBody (names : AttributeNames) (b : MethodBody) : List UInt8 :=
  encodeAttribute names.code
    (2 + 2 + 4 + b.code.size + 2 + 8 * b.handlers.length + 2 + linesLength b.lines)
    (word16 b.maxStack ++ (word16 b.maxLocals ++ (count32 b.code.size ++ (b.code.toList ++
      (encodeCounted encodeHandler b.handlers ++ encodeLines names b.lines)))))

/-- The attribute that holds the declared exceptions, if there are any. -/
def encodeExceptions (names : AttributeNames) (exceptions : List UInt16) : List UInt8 :=
  if exceptions.isEmpty then []
  else
    encodeAttribute names.exceptions (2 + 2 * exceptions.length)
      (encodeCounted word16 exceptions)

/-- A field, which has no attributes. -/
def encodeField (f : FieldDraft) : List UInt8 :=
  word16 f.access.bits ++ (word16 f.name ++ (word16 f.descriptor ++ word16 0))

/-- A method with its attributes. -/
def encodeMethod (names : AttributeNames) (m : MethodDraft) : List UInt8 :=
  let attributes := (if m.body.isSome then 1 else 0) + (if m.exceptions.isEmpty then 0 else 1)
  word16 m.access.bits ++ (word16 m.name ++ (word16 m.descriptor ++ (count16 attributes ++
    ((match m.body with
      | some body => encodeBody names body
      | none => []) ++
    encodeExceptions names m.exceptions))))

/-- The attributes of the class. -/
def encodeClassAttributes (d : ClassDraft) : List UInt8 :=
  let count := (if d.sourceFile.isSome then 1 else 0) + (if d.sourceDebug.isSome then 1 else 0)
  count16 count ++
    ((match d.sourceFile with
      | some file => encodeAttribute d.names.sourceFile 2 (word16 file)
      | none => []) ++
    (match d.sourceDebug with
      | some bytes => encodeAttribute d.names.sourceDebug bytes.length bytes
      | none => []))

/-- The bytes of the class, whatever its size. -/
def encodeUnchecked (d : ClassDraft) : List UInt8 :=
  word32 classMagic ++ (word16 d.version.minor ++ (word16 d.version.major ++
    (word16 d.pool.count ++ (d.pool.toList.flatMap (fun (_, c) => c.encode) ++
    (word16 d.access.bits ++ (word16 d.thisClass ++ (word16 d.superClass ++
    (encodeCounted word16 d.interfaces ++
    (encodeCounted encodeField d.fields.toList ++
    (encodeCounted (encodeMethod d.names) d.methods.toList ++
    encodeClassAttributes d))))))))))

/-- Refuses a number of members that a count cannot hold. -/
def checkCount (members : String) (count : Nat) : Except LimitError Unit :=
  if count > wordMax then .error (.tooMany members count) else .ok ()

/-- Refuses a class that exceeds a limit of the pool or of the member counts. -/
def check (d : ClassDraft) : Except LimitError Unit := do
  d.pool.check
  checkCount "fields" d.fields.size
  checkCount "methods" d.methods.size
  checkCount "interfaces" d.interfaces.length

/-- The bytes of the class. -/
def encode (d : ClassDraft) : Except LimitError (List UInt8) := do
  d.check
  return d.encodeUnchecked

/-- Writes the class to a receiver that takes `room` bytes and then fails for the given reason.
Answers what was received, and whether all of it was. -/
def writeTo (d : ClassDraft) (room : Nat) (reason : String) :
    Except LimitError Unit × List UInt8 :=
  match d.check with
  | .error e => (.error e, [])
  | .ok () =>
    let bytes := d.encodeUnchecked
    if bytes.length ≤ room then (.ok (), bytes)
    else (.error (.sinkFailed reason), bytes.take room)

end ClassDraft

/-! ### Operations as data -/

/-- The ways a draft grows. -/
inductive Drafting where
  | field (access : AccessFlags) (name : String) (type : JavaType)
  | method (access : AccessFlags) (name : String) (type : MethodType) (body : Option MethodBody)
      (exceptions : List String)
  | sourceFile (file : String)
  | sourceDebug (text : String)
  | constant (c : Interning)

/-- Performs one operation. -/
def Drafting.apply (d : ClassDraft) : Drafting → ClassDraft
  | .field access name type => d.addField access name type
  | .method access name type body exceptions => d.addMethod access name type body exceptions
  | .sourceFile file => d.setSourceFile file
  | .sourceDebug text => d.setSourceDebug text
  | .constant c => d.withPool (c.apply d.pool).2

end ClassForge
