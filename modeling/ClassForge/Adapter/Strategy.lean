/-!
# Strategies

An adapter can hold the code of its rule's clauses, or leave the clauses to the rule engine.
-/

namespace ClassForge

/-- How an adapter runs the clauses of its rule. -/
inductive Strategy where
  /-- The clauses are part of the generated code. -/
  | compiled
  /-- The clauses are handed to the rule engine's evaluator. -/
  | interpreted
deriving DecidableEq, Repr

namespace Strategy

/-- The strategy as class names show it. -/
def tag : Strategy → String
  | .compiled => "Compiled"
  | .interpreted => "Interpreted"

/-- The strategy as messages show it. -/
def display : Strategy → String
  | .compiled => "compiled"
  | .interpreted => "interpreted"

end Strategy

end ClassForge
