import ClassForge.Adapter.Members
import ClassForge.Adapter.Options
import ClassForge.Adapter.Strategy
import ClassForge.ClassFile.Draft

/-!
# Building adapters

An adapter is a class that extends the helper class of a rule:

* private fields for the stored bindings and for the rule;
* the constructor, which takes the rule;
* `execute`, `setBinding`, `getBinding`, `getName` and the methods that forward to the rule;
* private methods that run the rule, by the strategy: either `execute0` holds the code of the
  clauses, or it calls `bind`, `test` and `fire`, which hand the clauses to the engine's evaluator.

The first failure ends the build.
-/

namespace ClassForge

/-- Work on a class draft: it may fail for a cause, and a defect ends it. -/
abbrev Build (α : Type) : Type := ExceptT Cause (StateT ClassDraft (Except Defect)) α

/-- Goes on with a value, or fails for its cause. -/
def Build.ofExcept {α : Type} : Except Cause α → Build α
  | .ok a => pure a
  | .error cause => throw cause

/-- Emits a method whose receiver and parameters take up `slots` local slots, and adds it to the
draft. On failure only the constants interned so far stay. -/
def ClassDraft.emitMethod (access : AccessFlags) (name : String) (type : MethodType)
    (exceptions : List String) (slots : Nat) (body : ClauseEmit Unit) : Build Unit := fun d =>
  match body.run (.ofPool d.pool slots) with
  | .error defect => .error defect
  | .ok (.error cause, e) => .ok (.error cause, d.withPool e.pool)
  | .ok (.ok (), e) =>
    match e.finish with
    | .error limit => .ok (.error (.limit limit), d.withPool e.pool)
    | .ok finished =>
      .ok (.ok (), (d.withPool e.pool).addMethod access name type (some finished) exceptions)

/-- All that determines an adapter. -/
structure AdapterPlan where
  rule : Rule
  helper : HelperClass
  /-- Internal name of the adapter. -/
  className : String
  strategy : Strategy
  options : Options

namespace AdapterPlan

/-- Names of the rule engine. -/
def names (p : AdapterPlan) : EngineNames := p.options.names

/-- The adapter, as clauses see it. -/
def view (p : AdapterPlan) : AdapterView := ⟨p.className, p.rule.layout⟩

/-- The class without members. -/
def emptyDraft (p : AdapterPlan) : ClassDraft :=
  .new p.options.version (AccessFlags.publicFlag.union .superFlag) p.className p.helper.name
    [p.names.helperAdapter]

/-- The text that tells where the class comes from. -/
def debugText (p : AdapterPlan) : String :=
  s!"// compiled from: {p.rule.file}\n// generated by {p.names.generator}\n"

/-- Adds a method with a receiver. -/
def addMethod (access : AccessFlags) (name : String) (type : MethodType)
    (exceptions : List String) (body : ClauseEmit Unit) : Build Unit := do
  let slots ← liftM (type.callWord true)
  ClassDraft.emitMethod access name type exceptions slots body

/-- Adds a public method of the adapter. -/
def addPublic (name : String) (type : MethodType) (exceptions : List String)
    (body : Emit Unit) : Build Unit :=
  addMethod .publicFlag name type exceptions (liftM body)

/-! ### Members of every adapter -/

/-- Adds the source file and the debug text. -/
def addHeader (p : AdapterPlan) (d : ClassDraft) : ClassDraft :=
  (d.setSourceFile p.rule.fileName).setSourceDebug p.debugText

/-- Adds the fields of bindings. -/
def addBindingFields (d : ClassDraft) : Layout → ClassDraft
  | [] => d
  | p :: rest =>
    match p.storage with
    | .field name type _ => addBindingFields (d.addField .privateFlag name type) rest
    | _ => addBindingFields d rest

/-- Adds the fields of bindings and of the rule. -/
def addFields (p : AdapterPlan) (d : ClassDraft) : ClassDraft :=
  (addBindingFields d p.rule.layout).addField .privateFlag Adapter.ruleField p.names.ruleType

/-- Picks the helper's constructor. -/
def superConstructor (p : AdapterPlan) : Except Cause SuperConstructor :=
  match SuperConstructor.choose p.helper p.names.ruleType with
  | .ok chosen => .ok chosen
  | .error .missing => .error (.noConstructor p.helper.displayName)
  | .error .inaccessible => .error (.hiddenConstructor p.helper.displayName)

/-- Adds the constructor. -/
def addConstructor (p : AdapterPlan) : Build Unit := do
  let chosen ← Build.ofExcept p.superConstructor
  addPublic "<init>" p.names.constructorType []
    (Adapter.constructorBody p.className p.helper.name p.names chosen)

/-- Adds the entry point. -/
def addExecute (p : AdapterPlan) : Build Unit :=
  addPublic "execute" ⟨[.anyObject, .array .anyObject], .void⟩ [p.names.executeException]
    (Adapter.executeBody p.className p.names p.options.trace p.rule.layout)

/-- Adds the access to bindings by name. -/
def addAccessors (p : AdapterPlan) : Build Unit := do
  addPublic "setBinding" ⟨[.text, .anyObject], .void⟩ []
    (Adapter.setBindingBody p.className p.rule.layout)
  addPublic "getBinding" ⟨[.text], .anyObject⟩ []
    (Adapter.getBindingBody p.className p.rule.layout)

/-- Adds forwarded methods. -/
def addForwarders (p : AdapterPlan) : List (String × MethodType) → Build Unit
  | [] => pure ()
  | (name, type) :: rest => do
    addPublic name type [] (Adapter.forwardBody p.className p.names name type)
    addForwarders p rest

/-! ### Strategies -/

/-- Adds a private method that may throw the engine's exception. -/
def addPrivate (p : AdapterPlan) (name : String) (type : MethodType) (body : ClauseEmit Unit) :
    Build Unit :=
  addMethod .privateFlag name type [p.names.executeException] body

/-- The code of the clauses in a row, the action under the condition. -/
def compiledBody (p : AdapterPlan) : ClauseEmit Unit := do
  Emitter.noteLine p.rule.line
  p.rule.event.compile p.view
  Emitter.checkBalanced
  p.rule.condition.compile p.view
  let depth := (← get).tracker.depth
  if depth ≠ 1 then throwThe Defect (.conditionDepth depth)
  let skip ← Emitter.newLabel
  Emitter.branch .ifeq skip
  p.rule.action.compile p.view
  Emitter.checkBalanced
  Emitter.placeLabel skip
  Emitter.noteEnd
  Emitter.returnValue .void

/-- Calls the methods of the interpreted strategy, `fire` under the result of `test`. -/
def dispatchBody (className : String) : Emit Unit := do
  let skip ← Emitter.newLabel
  Emitter.loadRef 0
  Emitter.invokeSpecial className "bind" .action
  Emitter.loadRef 0
  Emitter.invokeSpecial className "test" (.returning .boolean)
  Emitter.branch .ifeq skip
  Emitter.loadRef 0
  Emitter.invokeSpecial className "fire" .action
  Emitter.placeLabel skip
  Emitter.returnValue .void

/-- A method of the interpreted strategy that hands one clause to the evaluator. -/
structure ClauseMethod where
  name : String
  /-- The rule's method that gives the clause. -/
  getter : String
  /-- The clause's class, in either spelling. -/
  clauseClass : String
  /-- Is the result of the clause a condition? -/
  tests : Bool

/-- The return type of the method. -/
def ClauseMethod.ret (m : ClauseMethod) : JavaType := if m.tests then .boolean else .void

/-- Hands a clause to the evaluator; the result is a truth value or discarded. -/
def interpretBody (className : String) (names : EngineNames) (m : ClauseMethod) : Emit Unit := do
  Adapter.loadRule className names
  Emitter.invokeVirtual names.rule m.getter (.returning (.ofClass m.clauseClass))
  Emitter.loadRef 0
  Emitter.invokeVirtual m.clauseClass "interpret" names.interpretType
  if m.tests then
    Emitter.checkCast (.ofClass "java/lang/Boolean")
    Emitter.invokeVirtual "java/lang/Boolean" "booleanValue" (.returning .boolean)
  else Emitter.popValue .anyObject
  Emitter.returnValue m.ret

/-- The methods of the interpreted strategy, one for each clause. -/
def clauseMethods (names : EngineNames) : List ClauseMethod :=
  [⟨"bind", "getEvent", names.event, false⟩,
    ⟨"test", "getCondition", names.condition, true⟩,
    ⟨"fire", "getAction", names.action, false⟩]

/-- Adds methods that hand clauses to the evaluator. -/
def addClauseMethods (p : AdapterPlan) : List ClauseMethod → Build Unit
  | [] => pure ()
  | m :: rest => do
    p.addPrivate m.name (.returning m.ret) (liftM (interpretBody p.className p.names m))
    addClauseMethods p rest

/-- Adds the methods that run the rule. -/
def addStrategy (p : AdapterPlan) : Build Unit :=
  match p.strategy with
  | .compiled => p.addPrivate "execute0" .action p.compiledBody
  | .interpreted => do
    p.addPrivate "execute0" .action (liftM (dispatchBody p.className))
    p.addClauseMethods (clauseMethods p.names)

/-! ### The whole class -/

/-- Adds all methods, in order. -/
def addMethods (p : AdapterPlan) : Build Unit := do
  p.addConstructor
  p.addExecute
  p.addAccessors
  addPublic "getName" (.returning .text) [] (Adapter.getNameBody p.className p.names)
  p.addForwarders Adapter.forwarded
  p.addStrategy

/-- The draft of the adapter. -/
def draft (p : AdapterPlan) : Except Defect (Except Cause Unit × ClassDraft) :=
  p.addMethods.run (p.addFields (p.addHeader p.emptyDraft))

/-- The class file of the adapter. -/
def build (p : AdapterPlan) : Except Defect (Except Cause (List UInt8)) :=
  match p.draft with
  | .error defect => .error defect
  | .ok (.error cause, _) => .ok (.error cause)
  | .ok (.ok (), d) =>
    match d.encode with
    | .error limit => .ok (.error (.limit limit))
    | .ok bytes => .ok (.ok bytes)

end AdapterPlan

end ClassForge
