import ClassForge.ClassFile.Image
import ClassForge.Inspection.Walk

/-!
# Inspection reports

The inspection of a whole class: it is read, and each method body is checked in order. The report
lists how deep the stack gets and which local slots are used, next to what the body declares.
-/

namespace ClassForge

/-- What the inspection found out about a method with a body. -/
structure MethodSummary where
  /-- Name and descriptor. -/
  signature : String
  declaredStack : Nat
  maxDepth : Nat
  declaredLocals : Nat
  localsUsed : Nat
deriving DecidableEq, Repr

/-- The inspected class and its methods with a body. -/
structure InspectionReport where
  image : ClassImage
  methods : List MethodSummary

/-- The first summary of a method with the given name. -/
def InspectionReport.method? (r : InspectionReport) (name : String) : Option MethodSummary :=
  r.methods.find? fun m => m.signature.toList.takeWhile (· ≠ '(') == name.toList

/-- An inspection: it may reject the class, and a defect ends it. -/
abbrev Inspect (α : Type) : Type := ExceptT InspectionError (Except Defect) α

namespace Inspection

/-- Names the method whose body is checked. -/
def forMethod {α : Type} (signature : String) (check : BodyCheck α) : Inspect α :=
  ExceptT.mk (match check.run with
    | .error d => .error d
    | .ok (.error fault) => .ok (.error (.body signature fault))
    | .ok (.ok a) => .ok (.ok a))

/-- The local slots of receiver and parameters, which have to fit the declared ones. -/
def checkParameters (m : MethodImage) (type : MethodType) (body : MethodBody) :
    BodyCheck Nat := do
  let needed ← ofCount (type.callWord (!m.access.isStatic))
  if needed > body.maxLocals.toNat then
    throw (.localOutOfRange 0 (needed - 1) body.maxLocals.toNat)
  return needed

/-- Checks a body against the pool and the type of its method. -/
def checkBody (pool : ConstantPool) (m : MethodImage) (type : MethodType) (body : MethodBody) :
    BodyCheck Walk := do
  let needed ← checkParameters m type body
  let starts ← ExceptT.mk (.ok (boundaries body.code))
  ExceptT.mk (.ok (checkLines starts body.lines))
  Walk.all ⟨pool, body, type, starts⟩ needed

/-- Inspects one method. Abstract and native methods without a body have no summary. -/
def inspectMethod (pool : ConstantPool) (m : MethodImage) : Inspect (Option MethodSummary) :=
  match m.body with
  | none =>
    if m.access.isBodyless then pure none else throw (.body m.signature .missing)
  | some body =>
    match MethodType.ofDescriptor? m.descriptor with
    | none => throw (.unreadable (.badDescriptor m.descriptor))
    | some type => do
      let walk ← forMethod m.signature (checkBody pool m type body)
      return some {
        signature := m.signature
        declaredStack := body.maxStack.toNat
        maxDepth := walk.maxDepth
        declaredLocals := body.maxLocals.toNat
        localsUsed := walk.localsUsed }

/-- Inspects methods in order; `done` holds the summaries so far, the last one first. -/
def inspectMethods (pool : ConstantPool) :
    List MethodImage → List MethodSummary → Inspect (List MethodSummary)
  | [], done => pure done.reverse
  | m :: rest, done => do
    let summary ← inspectMethod pool m
    inspectMethods pool rest (summary.toList ++ done)

/-- Reads a class file and inspects all its methods. -/
def inspectClass (bytes : List UInt8) : Inspect InspectionReport :=
  match ClassImage.ofBytes bytes with
  | .error e => throw (.unreadable e)
  | .ok image => do
    let methods ← inspectMethods image.pool image.methods []
    return ⟨image, methods⟩

end Inspection

end ClassForge
