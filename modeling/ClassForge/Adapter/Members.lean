import ClassForge.Adapter.EngineNames
import ClassForge.Emission.Convert
import ClassForge.Rule.Clause
import ClassForge.Rule.Helper

/-!
# Members of an adapter

The code of the methods that every adapter has, whatever its strategy: constructor, entry point,
access to bindings by name, and the methods that forward to the rule.
-/

namespace ClassForge.Adapter

open Emitter

/-- Name of the field that holds the rule. -/
def ruleField : String := "rule"

/-- Pushes the rule. -/
def loadRule (className : String) (names : EngineNames) : Emit Unit := do
  loadRef 0
  getField className ruleField names.ruleType

/-! ### Constructor -/

/-- Calls the helper's constructor and keeps the rule. -/
def constructorBody (className helper : String) (names : EngineNames)
    (chosen : SuperConstructor) : Emit Unit := do
  loadRef 0
  if chosen = .withRule then loadRef 1
  invokeSpecial helper "<init>" (chosen.type names.ruleType)
  checkBalanced
  loadRef 0
  loadRef 1
  putField className ruleField names.ruleType
  checkBalanced
  returnValue .void

/-! ### Entry point -/

/-- The class that joins strings. -/
def builderClass : String := "java/lang/StringBuilder"

/-- The class of output streams. -/
def streamClass : String := "java/io/PrintStream"

/-- The type of the method that appends a string. -/
def appendType : MethodType := ⟨[.text], .ofClass builderClass⟩

/-- Prints the rule's name when the engine traces runs. -/
def traceRun (className : String) (names : EngineNames) : Emit Unit := do
  let skip ← newLabel
  invokeStatic names.traceGate names.traceGateMethod (.returning .boolean)
  branch .ifeq skip
  getStatic "java/lang/System" "out" (.ofClass streamClass)
  newObject builderClass
  emit .dup
  invokeSpecial builderClass "<init>" .action
  loadRule className names
  invokeVirtual names.rule "getName" (.returning .text)
  invokeVirtual builderClass "append" appendType
  textConst " execute()"
  invokeVirtual builderClass "append" appendType
  invokeVirtual builderClass "toString" (.returning .text)
  invokeVirtual streamClass "println" ⟨[.text], .void⟩
  checkBalanced
  placeLabel skip

/-- An index of the argument array. -/
def argConst (b : Binding) : Emit Unit := intConst (Int32.ofNat b.argIndex.toNat)

/-- Stores the object on top into the field of a binding, below which the adapter lies. -/
def storeObject (className field : String) (type : JavaType) (convert : Bool) : Emit Unit := do
  if convert then fromObject type
  putField className field type

/-- Sets the field of a binding from the call: from the receiver, or from the argument array unless
the rule itself declares the binding. -/
def loadArgument (className : String) (p : PlannedBinding) : Emit Unit :=
  match p.storage with
  | .field field type _ =>
    if p.binding.isRecipient then do
      loadRef 0
      loadRef 1
      storeObject className field type p.needsConversion
      checkBalanced
    else if !p.binding.isBindVar then do
      loadRef 0
      loadRef 2
      argConst p.binding
      emit .aaload
      storeObject className field type p.needsConversion
      checkBalanced
    else pure ()
  | _ => pure ()

/-- Sets the fields of all bindings from the call. -/
def loadArguments (className : String) : Layout → Emit Unit
  | [] => pure ()
  | p :: rest => do
    loadArgument className p
    loadArguments className rest

/-- Copies an updated binding back into the argument array, unless the rule itself declares it. -/
def saveArgument (className : String) (p : PlannedBinding) : Emit Unit :=
  match p.storage with
  | .field field type _ =>
    if !p.binding.isUpdated || p.binding.isBindVar then pure ()
    else do
      loadRef 2
      argConst p.binding
      loadRef 0
      getField className field type
      toObject type
      emit .aastore
      checkBalanced
  | _ => pure ()

/-- Copies all updated bindings back into the argument array. -/
def saveArguments (className : String) : Layout → Emit Unit
  | [] => pure ()
  | p :: rest => do
    saveArgument className p
    saveArguments className rest

/-- Takes the values of the call, runs the rule, and hands updated values back. -/
def executeBody (className : String) (names : EngineNames) (trace : Bool) (layout : Layout) :
    Emit Unit := do
  if trace then traceRun className names
  loadArguments className layout
  loadRef 0
  invokeSpecial className "execute0" .action
  checkBalanced
  saveArguments className layout
  returnValue .void

/-! ### Access by name -/

/-- Branches to `skip` unless the first parameter is the given name. -/
def testName (name : String) (skip : Label) : Emit Unit := do
  textConst name
  loadRef 1
  invokeVirtual JavaType.stringClass "equals" ⟨[.anyObject], .boolean⟩
  branch .ifeq skip

/-- Stores the second parameter into a binding if the first is its name. -/
def setIfNamed (className : String) (p : PlannedBinding) : Emit Unit :=
  match p.storage with
  | .field field type _ => do
    let skip ← newLabel
    testName p.binding.name skip
    loadRef 0
    loadRef 2
    storeObject className field type p.needsConversion
    placeLabel skip
    checkBalanced
  | _ => pure ()

/-- Stores the second parameter into every binding that the first one names. -/
def setAllNamed (className : String) : Layout → Emit Unit
  | [] => pure ()
  | p :: rest => do
    setIfNamed className p
    setAllNamed className rest

/-- Sets bindings by name. -/
def setBindingBody (className : String) (layout : Layout) : Emit Unit := do
  setAllNamed className layout
  returnValue .void

/-- Returns the value that `value` pushes if the parameter is the name of the binding. -/
def returnIfNamed (name : String) (value : Emit Unit) : Emit Unit := do
  let skip ← newLabel
  testName name skip
  value
  returnValue .anyObject
  placeLabel skip
  checkBalanced

/-- Returns a binding if the parameter is its name. -/
def getIfNamed (className : String) (p : PlannedBinding) : Emit Unit :=
  match p.storage with
  | .none => pure ()
  | .adapter => returnIfNamed p.binding.name (loadRef 0)
  | .field field type _ => returnIfNamed p.binding.name do
    loadRef 0
    getField className field type
    toObject type

/-- Returns the first binding that the parameter names. -/
def getFirstNamed (className : String) : Layout → Emit Unit
  | [] => pure ()
  | p :: rest => do
    getIfNamed className p
    getFirstNamed className rest

/-- Gets a binding by name, the null reference for an unknown name. -/
def getBindingBody (className : String) (layout : Layout) : Emit Unit := do
  getFirstNamed className layout
  nullConst
  returnValue .anyObject

/-! ### Forwarding -/

/-- Returns the rule's name. -/
def getNameBody (className : String) (names : EngineNames) : Emit Unit := do
  loadRule className names
  invokeVirtual names.rule "getName" (.returning .text)
  returnValue .text

/-- Pushes parameters, the first of them from the given slot. -/
def loadParameters : List JavaType → Nat → Emit Unit
  | [], _ => pure ()
  | type :: rest, slot => do
    load type slot
    loadParameters rest (slot + type.slots)

/-- Calls the method of the same name on the rule. -/
def forwardBody (className : String) (names : EngineNames) (name : String) (type : MethodType) :
    Emit Unit := do
  loadRule className names
  loadParameters type.params 1
  invokeVirtual names.rule name type
  returnValue type.ret

/-- The forwarded methods. -/
def forwarded : List (String × MethodType) :=
  [("getAccessibleField", ⟨[.anyObject, .int], .anyObject⟩),
    ("setAccessibleField", ⟨[.anyObject, .anyObject, .int], .void⟩),
    ("invokeAccessibleMethod", ⟨[.anyObject, .array .anyObject, .int], .anyObject⟩)]

end ClassForge.Adapter
