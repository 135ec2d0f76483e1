import ClassForge.JavaType

/-!
# Method types

Parameter types and return type of a method, with the descriptor text in both directions and the
operand slots of a call.
-/

namespace ClassForge

/-- Parameter types and return type of a method. -/
structure MethodType where
  /-- Parameter types in declaration order. -/
  params : List JavaType
  /-- Return type, `void` for none. -/
  ret : JavaType
deriving DecidableEq, Repr

namespace MethodType

/-- The method type without parameters that returns `ret`. -/
def returning (ret : JavaType) : MethodType := ⟨[], ret⟩

/-- The method type without parameters and without a result. -/
def action : MethodType := ⟨[], .void⟩

/-- Operand slots the arguments take up, receiver not counted. -/
def argSlots (m : MethodType) : Nat := m.params.foldr (fun t n => t.slots + n) 0

/-- Operand slots the result takes up. -/
def retSlots (m : MethodType) : Nat := m.ret.slots

/-- The characters of the descriptor. -/
def descriptorChars (m : MethodType) : List Char :=
  '(' :: (m.params.flatMap JavaType.descriptorChars ++ ')' :: m.ret.descriptorChars)

/-- The method descriptor: `(Ljava/lang/Object;I)V`. -/
def descriptor (m : MethodType) : String := String.ofList m.descriptorChars

/-- Reads parameter types up to the closing parenthesis; `read` holds those already read, the
last one first. Gives all parameters and the text after the parenthesis. -/
def parseParams? (cs : List Char) (read : List JavaType) :
    Option (List JavaType × List Char) :=
  match cs with
  | ')' :: rest => some (read.reverse, rest)
  | cs =>
    match _h : JavaType.parse? cs with
    | none | some (.void, _) => none
    | some (t, rest) => parseParams? rest (t :: read)
termination_by cs.length
decreasing_by exact JavaType.length_of_parse? _h

/-- A complete method descriptor: no parameter is void. -/
def ofDescriptor? (text : String) : Option MethodType :=
  match text.toList with
  | '(' :: cs =>
    match parseParams? cs [] with
    | none => none
    | some (params, rest) =>
      match JavaType.parse? rest with
      | some (ret, []) => some ⟨params, ret⟩
      | _ => none
  | _ => none

end MethodType

end ClassForge
