import ClassForge.Proofs.Machine.Linking

/-!
# Every operation continues the code

Whatever an operation emits, the instructions, the branches, the places of labels and the constants
so far stay as they are.

* `Emitter.regular_convert` — **PROVED**: this holds of conversions, which consist of such code;
* `Operation.regular_run` — **PROVED**: and of every operation;
* `Operation.regular_runAll` — **PROVED**: so that a body is continued by any number of them.
-/

namespace ClassForge

open ConstantPool

namespace Emitter

open Emit

/-! ### Constants, locals and members -/

theorem regular_loadWideConstant (index : UInt16) : Regular (loadWideConstant index) :=
  fun e _ e' h => by
    obtain ⟨-, rfl⟩ := loadWideConstant_eq_ok.1 h
    exact follows_written _ _ _

/-- A constant is interned and loaded. -/
theorem regular_interned {c : Constant} (hc : c.Storable) {load : UInt16 → Emit Unit}
    (hload : ∀ index, Regular (load index)) : Regular (intern (·.intern c) >>= load) :=
  (regular_intern fun p => grows_intern p hc).bind hload

theorem regular_longConst (value : Int64) : Regular (longConst value) :=
  .ite (regular_emit _) <| .ite (regular_emit _) <|
    regular_interned (c := .long value) trivial regular_loadWideConstant

theorem regular_floatConst (bits : UInt32) : Regular (floatConst bits) :=
  .ite (regular_emit _) <| .ite (regular_emit _) <| .ite (regular_emit _) <|
    regular_interned (c := .float bits) trivial regular_loadConstant

theorem regular_doubleConst (bits : UInt64) : Regular (doubleConst bits) :=
  .ite (regular_emit _) <| .ite (regular_emit _) <|
    regular_interned (c := .double bits) trivial regular_loadWideConstant

theorem regular_store (type : JavaType) (slot : Nat) : Regular (store type slot) :=
  fun e _ e' h => by
    obtain ⟨_, _, -, haccess⟩ := bind_eq_ok.1 h
    obtain ⟨i, -, hrun⟩ := exists_store type (slot_le_of_accessLocal haccess)
    obtain ⟨-, rfl⟩ := (hrun e _ e').1 h
    exact follows_written _ _ _

theorem regular_increment (slot : Nat) (delta : Int8) : Regular (increment slot delta) :=
  fun e _ e' h => by
    obtain ⟨-, rfl⟩ := increment_eq_ok.1 h
    exact follows_written _ _ _

theorem regular_popValue (type : JavaType) : Regular (popValue type) := by
  unfold popValue
  split
  · exact .pure ()
  · exact regular_emit .pop
  · exact regular_emit .pop2

theorem regular_dupValue (type : JavaType) : Regular (dupValue type) := by
  unfold dupValue
  split
  · exact .pure ()
  · exact regular_emit .dup
  · exact regular_emit .dup2

theorem regular_putStatic (owner name : String) (type : JavaType) :
    Regular (putStatic owner name type) := fun e _ e' h => by
  obtain ⟨-, rfl⟩ := putStatic_eq_ok.1 h
  exact follows_linked (grows_fieldRef _ _ _ _) _ _

theorem regular_invokeInterface (owner name : String) (type : MethodType) :
    Regular (invokeInterface owner name type) := fun e _ e' h => by
  obtain ⟨-, -, -, rfl⟩ := invokeInterface_eq_ok.1 h
  refine follows_linked ?_ _ _
  rw [interfaceMethodRef_eq]
  exact grows_memberRef _ _ _ _ _

theorem regular_instanceOf (type : JavaType) : Regular (instanceOf type) := fun e _ e' h => by
  obtain ⟨name, -, rfl⟩ := instanceOf_eq_ok.1 h
  exact follows_linked (grows_classRef _ _) _ _

theorem regular_newRefArray (element : JavaType) : Regular (newRefArray element) :=
  fun e _ e' h => by
    obtain ⟨name, -, rfl⟩ := newRefArray_eq_ok.1 h
    exact follows_linked (grows_classRef _ _) _ _

/-- Lines are noted beside the code. -/
theorem regular_markLine {noted : Tracker → Option UInt32 × Tracker}
    (hnoted : ∀ t : Tracker, t.SameSlots (noted t).2) : Regular (markLine noted) :=
  fun e _ e' h => by
    obtain ⟨t, lines, -, -, hrun⟩ := exists_markLine hnoted e
    obtain ⟨-, rfl⟩ := Prod.mk.inj (Except.ok.inj (hrun.symm.trans h))
    exact fun he => ⟨⟨⟨he.assembly.apart, he.assembly.inside⟩, he.coherent⟩,
      ⟨List.prefix_rfl, ⟨[], (List.append_nil _).symm, nofun⟩, fun _ _ hk => hk⟩, .refl _⟩

/-! ### Conversions -/

theorem regular_emitTruthy (source : JavaType) : Regular (emitTruthy source) := by
  rw [emitTruthy_eq]
  refine Regular.bind ?_ fun _ =>
    regular_fork (.pure ()) (regular_intConst 1) (regular_intConst 0)
  split
  · exact .pure ()
  · exact (regular_longConst 0).seq (regular_emit .lcmp)
  · exact (regular_floatConst 0).seq (regular_emit .fcmpl)
  · exact (regular_doubleConst 0).seq (regular_emit .dcmpl)

theorem regular_emitUnbox (type : JavaType) (cast : Bool) : Regular (emitUnbox type cast) := by
  cases haccessor : type.unboxMethod? with
  | none =>
    unfold emitUnbox
    rw [haccessor]
    exact .pure ()
  | some accessor =>
    rw [emitUnbox_eq haccessor]
    refine regular_fork (regular_emit _) ((regular_emit .pop).seq (regular_zeroOf type)) ?_
    cases cast with
    | false => exact regular_invokeVirtual _ _ _
    | true => exact (regular_checkCast _).seq (regular_invokeVirtual _ _ _)

theorem regular_emitStep (step : ConversionStep) : Regular (emitStep step) := by
  cases step with
  | primitive op => exact regular_emit op
  | truthy source => exact regular_emitTruthy source
  | box source =>
    unfold emitStep
    cases hbox : source.boxClass? with
    | none =>
      simp only [hbox]
      exact .pure ()
    | some wrapper =>
      simp only [hbox]
      exact regular_invokeStatic _ _ _
  | unbox target cast => exact regular_emitUnbox target cast
  | stringify source => exact regular_invokeStatic _ _ _
  | checkCast target => exact regular_checkCast target
  | discard source => exact regular_popValue source
  | zero target => exact regular_zeroOf target

theorem regular_emitSteps (steps : List ConversionStep) : Regular (emitSteps steps) := by
  induction steps with
  | nil => exact .pure ()
  | cons step steps ih => exact (regular_emitStep step).seq ih

theorem regular_convert (source target : JavaType) : Regular (convert source target) :=
  regular_emitSteps _

end Emitter

/-! ### Operations -/

namespace Operation

open Emitter

/-- **Every operation continues the code.** -/
theorem regular_run (op : Operation) : Regular op.run := by
  cases op with
  | emit op => exact regular_emit op
  | nullConst => exact regular_emit .aconstNull
  | intConst value => exact regular_intConst value
  | longConst value => exact regular_longConst value
  | floatConst bits => exact regular_floatConst bits
  | doubleConst bits => exact regular_doubleConst bits
  | textConst text => exact regular_textConst text
  | zeroOf type => exact regular_zeroOf type
  | load type slot => exact regular_load type slot
  | store type slot => exact regular_store type slot
  | loadRef slot => exact regular_load .anyObject slot
  | storeRef slot => exact regular_store .anyObject slot
  | increment slot delta => exact regular_increment slot delta
  | popValue type => exact regular_popValue type
  | dupValue type => exact regular_dupValue type
  | getField owner name type => exact regular_getField owner name type
  | putField owner name type => exact regular_putField owner name type
  | getStatic owner name type => exact regular_getStatic owner name type
  | putStatic owner name type => exact regular_putStatic owner name type
  | invokeVirtual owner name type => exact regular_invokeVirtual owner name type
  | invokeSpecial owner name type => exact regular_invokeSpecial owner name type
  | invokeStatic owner name type => exact regular_invokeStatic owner name type
  | invokeInterface owner name type => exact regular_invokeInterface owner name type
  | newObject name => exact regular_newObject name
  | checkCast type => exact regular_checkCast type
  | instanceOf type => exact regular_instanceOf type
  | newRefArray element => exact regular_newRefArray element
  | newLabel => exact regular_newLabel.bind fun _ => .pure ()
  | branch op l => exact regular_branch op l
  | goto l => exact regular_branch .goto l
  | placeLabel l => exact regular_placeLabel l
  | returnValue type => exact regular_emit (returnOp type)
  | noteLine line => exact regular_markLine fun t => sameSlots_noteLine t line
  | noteEnd => exact regular_markLine sameSlots_noteEnd
  | convert source target => exact regular_convert source target
  | checkBalanced => exact regular_checkBalanced

theorem regular_runAll (ops : List Operation) : Regular (runAll ops) := by
  induction ops with
  | nil => exact .pure ()
  | cons op ops ih => exact (regular_run op).seq ih

end Operation

end ClassForge
