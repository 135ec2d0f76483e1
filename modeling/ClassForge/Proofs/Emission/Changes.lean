import ClassForge.Emission.Operation
import ClassForge.Proofs.Emission.Conversion
import Mathlib.Logic.Relation

/-!
# Changes of an emitter

Operations make few kinds of changes to an emitter. Nothing is asked of the tracked depths here, or
of the types that are written, so that this holds in dead code as well.

* `Emitter.Change` — a basic change;
* `Emitter.Changing` — **the contract** of an action: it makes such changes, one after another;
* `changing_run` — **PROVED**: every operation has it;
* `Emitter.Reached` — the emitters that operations lead to, whatever else happens to their tracker
  and to the constants of the class;
* `Reached.neat` — **PROVED**: each of their labels has an entry for its depth.
-/

namespace ClassForge

open Relation

namespace Emitter

open Emit

variable {α β : Type} {e e' : Emitter}

/-- **What a basic change can be.** -/
inductive Change (e : Emitter) : Emitter → Prop where
  /-- Of the code or of the lines. -/
  | assembly {a : Assembly} (h : a.labels = e.assembly.labels) : Change e (e.withAssembly a)
  | tracker (t : Tracker) : Change e (e.withTracker t)
  | pool (p : ConstantPool) : Change e (e.withPool p)
  | reachable (r : Bool) : Change e (e.withReachable r)
  | newLabel : Change e
      ((e.withAssembly e.assembly.newLabel.2).withDepths (e.labelDepths.push none))
  | branch (op : Opcode) (l : Label) (h : op.operandSize = 2) : Change e (e.branched op l h)
  | placeLabel (l : Label) (d : Nat) : Change e (e.labelled l d)

/-- **The contract of an action** that is made up of changes. -/
class Changing (x : Emit α) : Prop where
  changes : ∀ e a e', x e = .ok (a, e') → ReflTransGen Change e e'

instance (a : α) : Changing (pure a : Emit α) where
  changes _ _ _ h := by
    obtain ⟨-, rfl⟩ := pure_eq_ok.1 h
    exact .refl

instance (d : Defect) : Changing (throw d : Emit α) where
  changes _ _ _ h := absurd h throw_ne_ok

instance (x : Except Defect α) : Changing (liftM x : Emit α) where
  changes _ _ _ h := by
    obtain ⟨-, rfl⟩ := liftM_eq_ok.1 h
    exact .refl

instance {x : Emit α} {k : α → Emit β} [hx : Changing x] [hk : ∀ a, Changing (k a)] :
    Changing (x >>= k) where
  changes e b e'' h := by
    obtain ⟨a, e', hrun, hrest⟩ := bind_eq_ok.1 h
    exact (hx.changes e a e' hrun).trans ((hk a).changes e' b e'' hrest)

instance {c : Prop} [Decidable c] {x y : Emit α} [Changing x] [Changing y] :
    Changing (if c then x else y) := by
  split <;> infer_instance

/-! ### Parts of the emitter -/

theorem changing_assemble {f : Assembly → Assembly} (h : ∀ a, (f a).labels = a.labels) :
    Changing (assemble f) where
  changes e _ e' hrun := by
    obtain rfl := assemble_eq_ok.1 hrun
    exact .single (.assembly (h e.assembly))

instance (op : Opcode) : Changing (writeOp op) := changing_assemble fun _ => rfl

instance (b : UInt8) : Changing (writeByte b) := changing_assemble fun _ => rfl

instance (op : Opcode) (w : UInt16) : Changing (writeLinked op w) := changing_assemble fun _ => rfl

theorem changing_track (f : Tracker → Except Defect Tracker) : Changing (track f) where
  changes e _ e' hrun := by
    obtain ⟨t, -, rfl⟩ := track_eq_ok.1 hrun
    exact .single (.tracker t)

instance (n : Nat) : Changing (push n) := changing_track _

instance (n : Nat) : Changing (pop n) := changing_track _

instance (slot width : Nat) : Changing (noteLocal slot width) := changing_track _

instance : Changing checkBalanced := changing_track _

instance (f : ConstantPool → UInt16 × ConstantPool) : Changing (intern f) where
  changes e _ e' h := by
    obtain ⟨-, rfl⟩ := intern_eq_ok.1 h
    exact .single (.pool _)

instance (op : Opcode) : Changing (leave op) where
  changes e _ e' h := by
    obtain rfl := leave_eq_ok.1 h
    exact .single (.reachable _)

instance : Changing newLabel where
  changes e _ e' h := by
    obtain ⟨-, rfl⟩ := newLabel_eq_ok.1 h
    exact .single .newLabel

instance (op : Opcode) (l : Label) : Changing (branch op l) where
  changes e _ e' h := by
    obtain ⟨hop, -, -, rfl⟩ := branch_eq_ok.1 h
    exact .single (.branch op l _)

instance (l : Label) : Changing (placeLabel l) where
  changes e _ e' h := by
    obtain ⟨-, d, -, -, rfl⟩ := placeLabel_eq_ok.1 h
    exact .single (.placeLabel l d)

theorem changing_markLine (noted : Tracker → Option UInt32 × Tracker) :
    Changing (markLine noted) where
  changes e _ e' h := by
    unfold markLine at h
    cases hnoted : noted e.tracker with
    | mk line? t =>
      rw [hnoted] at h
      have ht : ReflTransGen Change e (e.withTracker t) := .single (.tracker t)
      cases line? with
      | none =>
        cases h
        exact ht
      | some line =>
        cases h
        refine ht.tail (.assembly ?_)
        rw [Assembly.markLine_eq]
        rfl

/-! ### Operations -/

instance (op : Opcode) : Changing (emit op) := by
  unfold emit
  cases op.fixedEffect? <;> infer_instance

instance (index : UInt16) : Changing (loadConstant index) := by
  unfold loadConstant
  infer_instance

instance (index : UInt16) : Changing (loadWideConstant index) := by
  unfold loadWideConstant
  infer_instance

instance (value : Int32) : Changing (intConst value) := by
  unfold intConst
  infer_instance

instance (value : Int64) : Changing (longConst value) := by
  unfold longConst
  infer_instance

instance (bits : UInt32) : Changing (floatConst bits) := by
  unfold floatConst
  infer_instance

instance (bits : UInt64) : Changing (doubleConst bits) := by
  unfold doubleConst
  infer_instance

instance (type : JavaType) : Changing (zeroOf type) := by
  unfold zeroOf nullConst
  cases type <;> infer_instance

instance (first general : Opcode) (slot width : Nat) :
    Changing (accessLocal first general slot width) := by
  unfold accessLocal slotByte
  infer_instance

instance (type : JavaType) : Changing (popValue type) := by
  unfold popValue
  split <;> infer_instance

instance (type : JavaType) : Changing (dupValue type) := by
  unfold dupValue
  split <;> infer_instance

instance (type : MethodType) (receiver : Bool) : Changing (call type receiver) := by
  unfold call
  infer_instance

instance (type : JavaType) : Changing (checkCast type) := by
  unfold checkCast
  cases type.className? <;> infer_instance

instance (type : JavaType) : Changing (instanceOf type) := by
  unfold instanceOf
  cases type.className? <;> infer_instance

instance (element : JavaType) : Changing (newRefArray element) := by
  unfold newRefArray
  cases element.className? <;> infer_instance

instance {test x y : Emit Unit} [Changing test] [Changing x] [Changing y] (op : Opcode) :
    Changing (fork test op x y) := by
  unfold fork goto
  have hjoin (taken done : Label) :
      Changing (do branch .goto done; placeLabel taken; y; placeLabel done) := inferInstance
  infer_instance

instance (source : JavaType) : Changing (emitTruthy source) := by
  rw [emitTruthy_eq]
  cases Conversion.categoryOf source <;> infer_instance

instance (target : JavaType) (cast : Bool) : Changing (emitUnbox target cast) := by
  cases hmethod : target.unboxMethod? with
  | none =>
    unfold emitUnbox
    rw [hmethod]
    infer_instance
  | some accessor =>
    rw [emitUnbox_eq hmethod]
    unfold invokeVirtual
    cases cast <;> infer_instance

instance (step : ConversionStep) : Changing (emitStep step) := by
  cases step with
  | box source =>
    unfold emitStep invokeStatic
    dsimp only
    cases source.boxClass? <;> infer_instance
  | _ =>
    unfold emitStep
    dsimp only [invokeStatic]
    infer_instance

instance (steps : List ConversionStep) : Changing (emitSteps steps) := by
  induction steps with
  | nil =>
    unfold emitSteps
    infer_instance
  | cons step steps ih =>
    unfold emitSteps
    infer_instance

/-- **Every operation makes such changes.** -/
theorem changing_run (op : Operation) : Changing op.run := by
  cases op with
  | noteLine line => exact changing_markLine (·.noteLine line)
  | noteEnd => exact changing_markLine (·.noteEnd)
  | _ =>
    dsimp only [Operation.run, nullConst, textConst, load, store, loadRef, storeRef, increment,
      slotByte, getField, putField, getStatic, putStatic, invokeVirtual, invokeSpecial,
      invokeStatic, invokeInterface, newObject, goto, returnValue, convert]
    infer_instance

/-! ### Reached emitters -/

/-- **The emitters that operations lead to.** Between two operations the tracker may be changed, and
so may the constants, which all methods of a class share. -/
inductive Reached : Emitter → Prop where
  | start (pool : ConstantPool) (slots : Nat) : Reached (ofPool pool slots)
  | run {e e' : Emitter} (op : Operation) (he : Reached e) (h : op.run e = .ok ((), e')) :
      Reached e'
  | tracker {e : Emitter} (t : Tracker) (he : Reached e) : Reached (e.withTracker t)
  | pool {e : Emitter} (p : ConstantPool) (he : Reached e) : Reached (e.withPool p)

theorem Reached.runAll {ops : List Operation} (he : Reached e)
    (h : Operation.runAll ops e = .ok ((), e')) : Reached e' := by
  induction ops generalizing e with
  | nil =>
    obtain ⟨-, rfl⟩ := pure_eq_ok.1 h
    exact he
  | cons op ops ih =>
    obtain ⟨_, e₁, hop, hrest⟩ := bind_eq_ok.1 h
    exact ih (he.run op hop) hrest

/-- Each label has an entry for its depth. -/
def Neat (e : Emitter) : Prop := e.assembly.labels.size = e.labelDepths.size

theorem Change.neat (h : Change e e') (he : e.Neat) : e'.Neat := by
  unfold Neat at he ⊢
  cases h with
  | assembly h => exact (congrArg Array.size h).trans he
  | tracker | pool | reachable => exact he
  | newLabel =>
    show (e.assembly.labels.push none).size = (e.labelDepths.push none).size
    rw [Array.size_push, Array.size_push, he]
  | branch op l h =>
    show e.assembly.labels.size = (e.labelDepths.setIfInBounds l.id _).size
    rw [Array.size_setIfInBounds, he]
  | placeLabel l d =>
    show (e.assembly.labels.setIfInBounds l.id _).size = (e.labelDepths.setIfInBounds l.id _).size
    rw [Array.size_setIfInBounds, Array.size_setIfInBounds, he]

theorem neat_of_changes (h : ReflTransGen Change e e') (he : e.Neat) : e'.Neat := by
  induction h with
  | refl => exact he
  | tail _ hchange ih => exact hchange.neat ih

theorem Reached.neat (h : Reached e) : e.Neat := by
  induction h with
  | start => rfl
  | run op _ hrun ih => exact neat_of_changes ((changing_run op).changes _ _ _ hrun) ih
  | tracker t _ ih => exact (Change.tracker t).neat ih
  | pool p _ ih => exact (Change.pool p).neat ih

end Emitter

end ClassForge
