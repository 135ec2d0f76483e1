import ClassForge.MethodType

/-!
# Names of the rule engine

The classes of the rule engine that generated code refers to. An engine under other names
overrides them one by one.
-/

namespace ClassForge

/-- Names of the engine's classes, in either spelling, and of the generator. -/
structure EngineNames where
  /-- The rule that an adapter's constructor takes. -/
  rule : String := "org/jboss/byteman/rule/Rule"
  /-- The interface of all adapters. -/
  helperAdapter : String := "org/jboss/byteman/rule/helper/HelperAdapter"
  /-- The exception that running a rule may throw. -/
  executeException : String := "org/jboss/byteman/rule/exception/ExecuteException"
  /-- Type of a rule's event. -/
  event : String := "org/jboss/byteman/rule/Event"
  /-- Type of a rule's condition. -/
  condition : String := "org/jboss/byteman/rule/Condition"
  /-- Type of a rule's action. -/
  action : String := "org/jboss/byteman/rule/Action"
  /-- The class that decides whether runs are traced. -/
  traceGate : String := "org/jboss/byteman/agent/Transformer"
  /-- The static method of that class that says so. -/
  traceGateMethod : String := "isVerbose"
  /-- The name that generated classes give for their generator. -/
  generator : String := "rulegen"
deriving DecidableEq

namespace EngineNames

/-- The type of rules. -/
def ruleType (n : EngineNames) : JavaType := .ofClass n.rule

/-- The type of the method that evaluates a clause. -/
def interpretType (n : EngineNames) : MethodType := ⟨[.ofClass n.helperAdapter], .anyObject⟩

/-- The type of an adapter's constructor. -/
def constructorType (n : EngineNames) : MethodType := ⟨[n.ruleType], .void⟩

end EngineNames

end ClassForge
