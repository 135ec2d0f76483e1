import ClassForge.Emission.Operation
import ClassForge.Proofs.Emission.Conversion
import Mathlib.Logic.Relation

/-!
# The pieces of a conversion

A conversion is the only operation that performs others. What holds of each of those carries over to
it by induction along its pieces.

* `Operation.isPiece` — the operations that conversions are made of; none accesses a local variable;
* `Emitter.Pieced` — **the contract** of an action that is made of them;
* `pieces_convert` — **PROVED**: every conversion is.
-/

namespace ClassForge

open Relation

/-- The operations that conversions are made of. -/
def Operation.isPiece : Operation → Bool
  | .emit op => op.localAccess?.isNone
  | .intConst _ | .longConst _ | .floatConst _ | .doubleConst _ | .zeroOf _ | .popValue _
  | .checkCast _ | .invokeVirtual _ _ _ | .invokeStatic _ _ _ | .branch _ _ | .newLabel
  | .placeLabel _ => true
  | _ => false

namespace Emitter

open Emit

variable {α β : Type} {e e' : Emitter}

/-- One piece of a conversion is performed. -/
def Piece (e e' : Emitter) : Prop := ∃ op : Operation, op.isPiece = true ∧ op.run e = .ok ((), e')

/-- **The contract of an action** that is made of pieces. -/
class Pieced (x : Emit α) : Prop where
  pieces : ∀ e a e', x e = .ok (a, e') → ReflTransGen Piece e e'

theorem pieced_run (op : Operation) (hop : op.isPiece = true) : Pieced op.run where
  pieces _ _ _ h := .single ⟨op, hop, h⟩

instance (a : α) : Pieced (pure a : Emit α) where
  pieces _ _ _ h := by
    obtain ⟨-, rfl⟩ := pure_eq_ok.1 h
    exact .refl

instance {x : Emit α} {k : α → Emit β} [hx : Pieced x] [hk : ∀ a, Pieced (k a)] :
    Pieced (x >>= k) where
  pieces e b e'' h := by
    obtain ⟨a, e', hrun, hrest⟩ := bind_eq_ok.1 h
    exact (hx.pieces e a e' hrun).trans ((hk a).pieces e' b e'' hrest)

instance {c : Prop} [Decidable c] {x y : Emit α} [Pieced x] [Pieced y] :
    Pieced (if c then x else y) := by
  split <;> infer_instance

/-! ### Single pieces -/

theorem pieced_emit {op : Opcode} (hop : op.localAccess? = none) : Pieced (emit op) :=
  pieced_run (.emit op) (by rw [Operation.isPiece, hop]; rfl)

instance (value : Int32) : Pieced (intConst value) := pieced_run (.intConst value) rfl

instance (value : Int64) : Pieced (longConst value) := pieced_run (.longConst value) rfl

instance (bits : UInt32) : Pieced (floatConst bits) := pieced_run (.floatConst bits) rfl

instance (bits : UInt64) : Pieced (doubleConst bits) := pieced_run (.doubleConst bits) rfl

instance (type : JavaType) : Pieced (zeroOf type) := pieced_run (.zeroOf type) rfl

instance (type : JavaType) : Pieced (popValue type) := pieced_run (.popValue type) rfl

instance (type : JavaType) : Pieced (checkCast type) := pieced_run (.checkCast type) rfl

instance (owner name : String) (type : MethodType) : Pieced (invokeVirtual owner name type) :=
  pieced_run (.invokeVirtual owner name type) rfl

instance (owner name : String) (type : MethodType) : Pieced (invokeStatic owner name type) :=
  pieced_run (.invokeStatic owner name type) rfl

instance (op : Opcode) (l : Label) : Pieced (branch op l) := pieced_run (.branch op l) rfl

instance (l : Label) : Pieced (placeLabel l) := pieced_run (.placeLabel l) rfl

instance : Pieced newLabel where
  pieces e l e' h := (pieced_run .newLabel rfl).pieces e () e' (bind_eq_ok.2 ⟨l, e', h, rfl⟩)

/-! ### Steps of a plan -/

instance {test x y : Emit Unit} [Pieced test] [Pieced x] [Pieced y] (op : Opcode) :
    Pieced (fork test op x y) := by
  unfold fork goto
  have hjoin (taken done : Label) :
      Pieced (do branch .goto done; placeLabel taken; y; placeLabel done) := inferInstance
  infer_instance

instance (source : JavaType) : Pieced (emitTruthy source) := by
  have hlong : Pieced (emit .lcmp) := pieced_emit rfl
  have hfloat : Pieced (emit .fcmpl) := pieced_emit rfl
  have hdouble : Pieced (emit .dcmpl) := pieced_emit rfl
  rw [emitTruthy_eq]
  cases Conversion.categoryOf source <;> infer_instance

instance (target : JavaType) (cast : Bool) : Pieced (emitUnbox target cast) := by
  cases hmethod : target.unboxMethod? with
  | none =>
    unfold emitUnbox
    rw [hmethod]
    infer_instance
  | some accessor =>
    have hdup : Pieced (emit .dup) := pieced_emit rfl
    rw [emitUnbox_eq hmethod]
    cases cast <;> infer_instance

/-- A step is made of pieces if its conversion instruction is one. -/
theorem pieced_emitStep {step : ConversionStep}
    (hstep : ∀ op, step = .primitive op → op.localAccess? = none) : Pieced (emitStep step) := by
  cases step with
  | primitive op => exact pieced_emit (hstep op rfl)
  | box source =>
    unfold emitStep
    dsimp only
    cases source.boxClass? <;> infer_instance
  | truthy | unbox | stringify | checkCast | discard | zero =>
    unfold emitStep
    infer_instance

theorem pieced_emitSteps {steps : List ConversionStep}
    (hsteps : ∀ op, .primitive op ∈ steps → op.localAccess? = none) : Pieced (emitSteps steps) := by
  induction steps with
  | nil =>
    unfold emitSteps
    infer_instance
  | cons step steps ih =>
    have hstep : Pieced (emitStep step) :=
      pieced_emitStep fun op hop => hsteps op (hop ▸ List.mem_cons_self)
    have hrest := ih fun op hop => hsteps op (List.mem_cons_of_mem step hop)
    unfold emitSteps
    infer_instance

theorem localAccess?_of_mem_primitiveSteps {source target : JavaType} {op : Opcode}
    (h : .primitive op ∈ Conversion.primitiveSteps source target) : op.localAccess? = none := by
  unfold Conversion.primitiveSteps at h
  by_cases hbool : target = .boolean
  · rw [if_pos hbool] at h
    simp at h
  · rw [if_neg hbool] at h
    obtain ⟨op', hop, heq⟩ := List.mem_map.1 h
    cases heq
    rcases List.mem_append.1 hop with hop | hop
    · exact (isInner_of_mem_categoryOp? (Option.mem_toList.1 hop)).2.2
    · exact (isInner_of_mem_truncateOp? (Option.mem_toList.1 hop)).2.2

/-- The conversion instructions of a plan stand between primitives. -/
theorem localAccess?_of_mem_plan {source target : JavaType} {op : Opcode}
    (h : .primitive op ∈ Conversion.plan source target) : op.localAccess? = none := by
  unfold Conversion.plan at h
  split at h
  · cases h
  split at h
  · simp at h
  split at h
  · simp at h
  split at h
  · exact localAccess?_of_mem_primitiveSteps h
  · unfold Conversion.boxSteps at h
    split_ifs at h <;> simp at h
  · simp at h
  · split at h <;> simp at h

/-- **A conversion is made of pieces.** -/
theorem pieces_convert {source target : JavaType} {u : Unit}
    (h : convert source target e = .ok (u, e')) : ReflTransGen Piece e e' :=
  (pieced_emitSteps fun _ hop => localAccess?_of_mem_plan hop).pieces e u e' h

end Emitter

end ClassForge
