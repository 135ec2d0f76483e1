import ClassForge.Emission.Conversion
import ClassForge.Emission.Emitter

/-!
# Emitting conversions

The code for each step of a conversion plan.
-/

namespace ClassForge.Emitter

/-- Replaces a number by one, or by zero if it is zero. -/
def emitTruthy (source : JavaType) : Emit Unit := do
  match Conversion.categoryOf source with
  | .int => pure ()
  | .long =>
    longConst 0
    emit .lcmp
  | .float =>
    floatConst 0
    emit .fcmpl
  | .double =>
    doubleConst 0
    emit .dcmpl
  let zero ← newLabel
  let done ← newLabel
  branch .ifeq zero
  intConst 1
  goto done
  placeLabel zero
  intConst 0
  placeLabel done

/-- Replaces a wrapper by its value, and the null reference by zero. -/
def emitUnbox (target : JavaType) (cast : Bool) : Emit Unit :=
  match target.unboxMethod? with
  | none => pure ()
  | some accessor => do
    let owner := Conversion.unboxOwner target
    let present ← newLabel
    let done ← newLabel
    emit .dup
    branch .ifnonnull present
    popValue .anyObject
    zeroOf target
    goto done
    placeLabel present
    if cast then checkCast (.ofClass owner)
    invokeVirtual owner accessor (.returning target)
    placeLabel done

/-- The code of one step. -/
def emitStep : ConversionStep → Emit Unit
  | .primitive op => emit op
  | .truthy source => emitTruthy source
  | .box source =>
    match source.boxClass? with
    | none => pure ()
    | some wrapper => invokeStatic wrapper "valueOf" ⟨[source], .ofClass wrapper⟩
  | .unbox target cast => emitUnbox target cast
  | .stringify source =>
    invokeStatic JavaType.stringClass "valueOf" (Conversion.stringifyType source)
  | .checkCast target => checkCast target
  | .discard source => popValue source
  | .zero target => zeroOf target

/-- The code of several steps. -/
def emitSteps : List ConversionStep → Emit Unit
  | [] => pure ()
  | step :: rest => do
    emitStep step
    emitSteps rest

/-- Turns the value on top of one type into a value of another. -/
def convert (source target : JavaType) : Emit Unit := emitSteps (Conversion.plan source target)

/-- Turns the value on top into an object. -/
def toObject (source : JavaType) : Emit Unit := convert source .anyObject

/-- Turns the object on top into a value of a type. -/
def fromObject (target : JavaType) : Emit Unit := convert .anyObject target

end ClassForge.Emitter
