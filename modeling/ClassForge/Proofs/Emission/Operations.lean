import ClassForge.Proofs.Body.Lines
import ClassForge.Proofs.Descriptor
import ClassForge.Proofs.Emission.Step

/-!
# Operations are emissions

Each operation of an emitter that succeeds is a sequence of steps. What an operation needs for the
tracker to move as its instructions do is asked only where control can get to it.

* `straight_emit`, `straight_getField` and their siblings — one lemma per operation;
* `CallFits`, `FieldFits` — what the types that an operation names have to meet.
-/

namespace ClassForge

open ConstantPool

namespace Opcode

/-- The instruction neither branches nor ends the path nor touches a local variable. -/
def IsInner (op : Opcode) : Prop :=
  op.isBranch = false ∧ op.isTerminal = false ∧ op.localAccess? = none

theorem not_isBranch_of_operandSize {op : Opcode} (h : op.operandSize = 0) :
    op.isBranch = false ∧ op.namesClass = false := by
  revert h
  cases op <;> decide

theorem not_isBranch_of_localAccess? {op : Opcode} (h : op.localAccess?.isSome = true) :
    op.isBranch = false ∧ op.namesClass = false := by
  revert h
  cases op <;> decide

end Opcode

namespace Emitter

open Emit Instruction

variable {ret : JavaType} {e e' : Emitter} {u : Unit}

/-! ### Written instructions -/

/-- Writing an instruction that neither branches nor ends the path. -/
theorem straight_written {i : Instruction} {t : Tracker} (hop : i.op.isBranch = false)
    (hterm : i.op.isTerminal = false) (ht : e.tracker.Moves t)
    (hsound : e.reachable = true → ∃ effect, Sound ret e i effect t) :
    Straight ret e (e.written t i) := by
  have hstep : ∃ new, Step ret e new
      ((e.written t i).withReachable (e.reachable && !i.op.isTerminal)) := by
    by_cases hr : e.reachable = true
    · obtain ⟨effect, heffect⟩ := hsound hr
      exact ⟨_, .write hop ht fun _ => heffect⟩
    · have hdead : e.reachable = true → Sound ret e i ⟨0, 0⟩ t := fun h => absurd h hr
      exact ⟨_, .write hop ht hdead⟩
  obtain ⟨new, hstep⟩ := hstep
  rw [hterm, Bool.not_false, Bool.and_true] at hstep
  exact ⟨hstep.emits, id⟩

/-- Interning alone. -/
theorem straight_withPool {pool : ConstantPool} (hgrows : Grows e.pool pool) :
    Straight ret e (e.withPool pool) :=
  ⟨(Step.intern hgrows).emits, id⟩

/-- Interning constants and writing an instruction that may name them. -/
theorem straight_linked {pool : ConstantPool} {i : Instruction} {effect : StackEffect}
    {t : Tracker} (hgrows : Grows e.pool pool) (hop : i.op.IsInner) (ht : e.tracker.Moves t)
    (hlocals : t.maxLocals = e.tracker.maxLocals)
    (hlive : e.reachable = true → (pool.violation = none → i.effect? pool = some effect) ∧
      effect.pop ≤ e.tracker.depth ∧ t.depth = e.tracker.depth - effect.pop + effect.push) :
    Straight ret e ((e.withPool pool).written t i) := by
  refine (straight_withPool hgrows).trans (straight_written hop.1 hop.2.1 ht fun hr => ?_)
  obtain ⟨hresolves, hpops, hdepth⟩ := hlive hr
  refine ⟨effect, hresolves, hpops, hdepth, ?_, Opcode.returnFits_of_not_isTerminal hop.2.1 ret⟩
  rw [localEnd?_of_none hop.2.2, Option.getD_none, Nat.max_zero]
  exact hlocals

/-- A plain instruction is one step. -/
theorem emits_emit {op : Opcode} (h : emit op e = .ok (u, e'))
    (hfits : e.reachable = true → op.localAccess? = none ∧ Inspection.returnFits op ret = true) :
    Emits ret e e' := by
  obtain ⟨hsize, effect, heffect, hdepth, hword, rfl⟩ := emit_eq_ok.1 h
  obtain ⟨hbranch, hclass⟩ := Opcode.not_isBranch_of_operandSize hsize
  refine (Step.write (i := .plain op hsize) hbranch (Tracker.moves_moved hword)
    fun hlive => (?_ : Sound ret e _ effect _)).emits
  obtain ⟨hlocal, hret⟩ := hfits hlive
  refine ⟨fun _ => effect?_of_fixed _ heffect hclass, hdepth, rfl, ?_, hret⟩
  rw [localEnd?_of_none hlocal, Option.getD_none, Nat.max_zero]
  rfl

theorem straight_emit {op : Opcode} (h : emit op e = .ok (u, e')) (hop : op.IsInner) :
    Straight ret e e' := by
  refine ⟨emits_emit h fun _ => ⟨hop.2.2, Opcode.returnFits_of_not_isTerminal hop.2.1 ret⟩,
    fun hr => ?_⟩
  obtain ⟨hsize, effect, heffect, hdepth, hword, rfl⟩ := emit_eq_ok.1 h
  rw [withReachable_reachable, hr, hop.2.1]
  rfl

/-! ### Constants -/

theorem effect?_constantLoad {pool : ConstantPool} {index : UInt16}
    (h : Inspection.loadsOneSlot pool index = true) :
    (constantLoad index).effect? pool = some ⟨0, 1⟩ := by
  unfold constantLoad
  by_cases hshort : index.toNat ≤ 255
  · have hindex : index.toUInt8.toUInt16 = index := by
      apply UInt16.toNat_inj.1
      rw [UInt8.toNat_toUInt16, UInt16.toNat_toUInt8]
      exact Nat.mod_eq_of_lt (by omega)
    rw [if_pos hshort]
    exact if_pos (hindex.symm ▸ h)
  · rw [if_neg hshort]
    exact if_pos ((word_linked .ldcW index rfl).symm ▸ h)

theorem isInner_constantLoad (index : UInt16) : (constantLoad index).op.IsInner := by
  unfold constantLoad
  split <;> exact ⟨rfl, rfl, rfl⟩

/-- A single-slot constant is interned and loaded. -/
theorem straight_internLoad {f : ConstantPool → UInt16 × ConstantPool}
    (h : (intern f >>= loadConstant) e = .ok (u, e')) (hgrows : Grows e.pool (f e.pool).2)
    (hslot : (f e.pool).2.violation = none →
      Inspection.loadsOneSlot (f e.pool).2 (f e.pool).1 = true) : Straight ret e e' := by
  obtain ⟨hword, rfl⟩ := loadConstant_eq_ok.1 (interned_eq_ok.1 h)
  exact straight_linked hgrows (isInner_constantLoad _) (Tracker.moves_moved hword) rfl fun _ =>
    ⟨fun hv => effect?_constantLoad (hslot hv), Nat.zero_le _, rfl⟩

/-- A two-slot constant is interned and loaded. -/
theorem straight_internLoadWide {f : ConstantPool → UInt16 × ConstantPool}
    (h : (intern f >>= loadWideConstant) e = .ok (u, e')) (hgrows : Grows e.pool (f e.pool).2)
    (hslots : (f e.pool).2.violation = none →
      Inspection.loadsTwoSlots (f e.pool).2 (f e.pool).1 = true) : Straight ret e e' := by
  obtain ⟨hword, rfl⟩ := loadWideConstant_eq_ok.1 (interned_eq_ok.1 h)
  refine straight_linked hgrows ⟨rfl, rfl, rfl⟩ (Tracker.moves_moved hword) rfl
    fun _ => ⟨fun hv => ?_, Nat.zero_le _, rfl⟩
  exact if_pos ((word_linked .ldc2W _ rfl).symm ▸ hslots hv)

theorem straight_nullConst (h : nullConst e = .ok (u, e')) : Straight ret e e' :=
  straight_emit h ⟨rfl, rfl, rfl⟩

theorem straight_intConst (hcoh : e.pool.Coherent) {value : Int32}
    (h : intConst value e = .ok (u, e')) : Straight ret e e' := by
  unfold intConst at h
  split_ifs at h
  -- The numbers from -1 to 5 have instructions of their own.
  iterate 7 (· exact straight_emit h ⟨rfl, rfl, rfl⟩)
  · obtain ⟨hword, rfl⟩ := (short_push_eq_ok rfl).1 h
    exact straight_written rfl rfl (Tracker.moves_moved hword) fun _ =>
      ⟨⟨0, 1⟩, fun _ => rfl, Nat.zero_le _, rfl, (Nat.max_zero _).symm, rfl⟩
  · obtain ⟨hword, rfl⟩ := (linked_push_eq_ok rfl).1 h
    exact straight_written rfl rfl (Tracker.moves_moved hword) fun _ =>
      ⟨⟨0, 1⟩, fun _ => rfl, Nat.zero_le _, rfl, (Nat.max_zero _).symm, rfl⟩
  · refine straight_internLoad h (grows_intern _ trivial) fun hv => ?_
    rw [Inspection.loadsOneSlot, get?_intern hcoh hv]

theorem straight_longConst (hcoh : e.pool.Coherent) {value : Int64}
    (h : longConst value e = .ok (u, e')) : Straight ret e e' := by
  unfold longConst at h
  split_ifs at h
  · exact straight_emit h ⟨rfl, rfl, rfl⟩
  · exact straight_emit h ⟨rfl, rfl, rfl⟩
  · refine straight_internLoadWide h (grows_intern _ trivial) fun hv => ?_
    rw [Inspection.loadsTwoSlots, get?_intern hcoh hv]

theorem straight_floatConst (hcoh : e.pool.Coherent) {bits : UInt32}
    (h : floatConst bits e = .ok (u, e')) : Straight ret e e' := by
  unfold floatConst at h
  split_ifs at h
  iterate 3 (· exact straight_emit h ⟨rfl, rfl, rfl⟩)
  · refine straight_internLoad h (grows_intern _ trivial) fun hv => ?_
    rw [Inspection.loadsOneSlot, get?_intern hcoh hv]

theorem straight_doubleConst (hcoh : e.pool.Coherent) {bits : UInt64}
    (h : doubleConst bits e = .ok (u, e')) : Straight ret e e' := by
  unfold doubleConst at h
  split_ifs at h
  · exact straight_emit h ⟨rfl, rfl, rfl⟩
  · exact straight_emit h ⟨rfl, rfl, rfl⟩
  · refine straight_internLoadWide h (grows_intern _ trivial) fun hv => ?_
    rw [Inspection.loadsTwoSlots, get?_intern hcoh hv]

theorem straight_textConst (hcoh : e.pool.Coherent) {text : String}
    (h : textConst text e = .ok (u, e')) : Straight ret e e' := by
  refine straight_internLoad h (grows_stringRef _ text) fun hv => ?_
  rw [Inspection.loadsOneSlot, get?_stringRef hcoh hv]

theorem straight_zeroOf (hcoh : e.pool.Coherent) {type : JavaType}
    (h : zeroOf type e = .ok (u, e')) : Straight ret e e' := by
  cases type with
  | void =>
    obtain ⟨-, rfl⟩ := pure_eq_ok.1 h
    exact .refl ret e
  | boolean | byte | char | short | int =>
    exact straight_intConst hcoh (show intConst 0 e = _ from h)
  | long => exact straight_longConst hcoh h
  | float => exact straight_floatConst hcoh h
  | double => exact straight_doubleConst hcoh h
  | object | array => exact straight_nullConst h

/-! ### Local variables -/

/-- An access to a local variable, with the slots that it notes. -/
theorem straight_access {i : Instruction} {effect : StackEffect} {stop : Nat} {t : Tracker}
    (hi : IsAccess i effect stop) (ht : e.tracker.Moves t)
    (hlive : e.reachable = true → effect.pop ≤ e.tracker.depth ∧
      t.depth = e.tracker.depth - effect.pop + effect.push ∧
      t.maxLocals = max e.tracker.maxLocals stop) : Straight ret e (e.written t i) := by
  have haccess : i.op.localAccess?.isSome = true := by
    have hstop := hi.stop
    rw [localEnd?, Option.map_eq_some_iff] at hstop
    obtain ⟨access, haccess, -⟩ := hstop
    rw [haccess, Option.isSome_some]
  obtain ⟨hbranch, hclass⟩ := Opcode.not_isBranch_of_localAccess? haccess
  refine straight_written hbranch hi.terminal ht fun hr => ?_
  obtain ⟨hpops, hdepth, hlocals⟩ := hlive hr
  refine ⟨effect, fun _ => effect?_of_fixed _ hi.effect hclass, hpops, hdepth, ?_,
    Opcode.returnFits_of_not_isTerminal hi.terminal ret⟩
  rw [hi.stop]
  exact hlocals

theorem accessWidth_of_ne_void {type : JavaType} (h : type ≠ .void) :
    accessWidth type = type.slots :=
  if_neg h

/-- The slots of a variable that one byte can name are within a word. -/
theorem slot_add_slots_le {slot : Nat} (h : slot ≤ 255) (type : JavaType) :
    slot + type.slots ≤ wordMax := by
  have hslots := type.slots_le_two
  unfold wordMax
  omega

theorem straight_load {type : JavaType} {slot : Nat} (h : load type slot e = .ok (u, e'))
    (hfits : e.reachable = true → type ≠ .void) : Straight ret e e' := by
  obtain ⟨_, _, haccess, -⟩ := bind_eq_ok.1 h
  have hslot := slot_le_of_accessLocal haccess
  obtain ⟨i, hi, hrun⟩ := exists_load type hslot
  obtain ⟨hword, rfl⟩ := (hrun _ _ _).1 h
  have hmoves : e.tracker.Moves (e.tracker.moved ⟨0, type.slots⟩) := Tracker.moves_moved hword
  refine straight_access hi (hmoves.noted rfl (slot_add_slots_le hslot type)) fun hr => ?_
  rw [accessWidth_of_ne_void (hfits hr)]
  exact ⟨Nat.zero_le _, rfl, rfl⟩

theorem straight_store {type : JavaType} {slot : Nat} (h : store type slot e = .ok (u, e'))
    (hfits : e.reachable = true → type ≠ .void) : Straight ret e e' := by
  obtain ⟨_, _, -, haccess⟩ := bind_eq_ok.1 h
  have hslot := slot_le_of_accessLocal haccess
  obtain ⟨i, hi, hrun⟩ := exists_store type hslot
  obtain ⟨hle, rfl⟩ := (hrun _ _ _).1 h
  refine straight_access hi
    ((Tracker.moves_lowered _ type.slots).noted rfl (slot_add_slots_le hslot type)) fun hr => ?_
  rw [accessWidth_of_ne_void (hfits hr)]
  exact ⟨hle, rfl, rfl⟩

theorem straight_increment {slot : Nat} {delta : Int8}
    (h : increment slot delta e = .ok (u, e')) : Straight ret e e' := by
  obtain ⟨hslot, rfl⟩ := increment_eq_ok.1 h
  have hindex : (UInt8.ofNat slot).toNat = slot := by
    rw [UInt8.toNat_ofNat']
    exact Nat.mod_eq_of_lt (by omega)
  have hi : IsAccess ⟨.iinc, [UInt8.ofNat slot, delta.toUInt8], rfl⟩ ⟨0, 0⟩ (slot + 1) := by
    refine ⟨Nat.le_refl _, rfl, rfl, ?_⟩
    show some ((UInt8.ofNat slot).toNat + 1) = _
    rw [hindex]
  exact straight_access hi
    ((Tracker.Moves.refl _).noted rfl (by unfold wordMax; omega)) fun _ =>
      ⟨Nat.zero_le _, rfl, rfl⟩

/-! ### Stack operations -/

theorem straight_popValue {type : JavaType} (h : popValue type e = .ok (u, e')) :
    Straight ret e e' := by
  unfold popValue at h
  cases type with
  | void =>
    obtain ⟨-, rfl⟩ := pure_eq_ok.1 h
    exact .refl ret e
  | long | double => exact straight_emit h ⟨rfl, rfl, rfl⟩
  | boolean | byte | char | short | int | float | object | array =>
    exact straight_emit h ⟨rfl, rfl, rfl⟩

theorem straight_dupValue {type : JavaType} (h : dupValue type e = .ok (u, e')) :
    Straight ret e e' := by
  unfold dupValue at h
  cases type with
  | void =>
    obtain ⟨-, rfl⟩ := pure_eq_ok.1 h
    exact .refl ret e
  | long | double => exact straight_emit h ⟨rfl, rfl, rfl⟩
  | boolean | byte | char | short | int | float | object | array =>
    exact straight_emit h ⟨rfl, rfl, rfl⟩

/-! ### Members -/

/-- A type that a field can have, and that its descriptor is read back as. -/
def FieldFits (type : JavaType) : Prop :=
  type ≠ .void ∧ JavaType.ofDescriptor? type.descriptor = some type

theorem fieldType?_fieldRef {pool : ConstantPool} (hcoh : pool.Coherent) (owner name : String)
    {type : JavaType} (htype : FieldFits type)
    (hv : (pool.fieldRef owner name type.descriptor).2.violation = none) :
    (pool.fieldRef owner name type.descriptor).2.fieldType?
      (pool.fieldRef owner name type.descriptor).1 = some type := by
  obtain ⟨hvoid, hparse⟩ := htype
  generalize type.descriptor = descriptor at hparse hv ⊢
  rw [fieldRef_eq] at hv ⊢
  rw [fieldType?, memberAt_memberRef hcoh hv]
  simp [hparse, hvoid]

theorem grows_fieldRef (pool : ConstantPool) (owner name descriptor : String) :
    Grows pool (pool.fieldRef owner name descriptor).2 := by
  rw [fieldRef_eq]
  exact grows_memberRef pool .field owner name descriptor

/-- A field access: the constant is interned, and the effect depends on its type. -/
theorem straight_fieldAccess (hcoh : e.pool.Coherent) {op : Opcode} (hsize : op.operandSize = 2)
    (hop : op.IsInner) {f : Nat → StackEffect} (hfield : op.fieldEffect? = some f)
    {owner name : String} {type : JavaType} (hfits : e.reachable = true → FieldFits type)
    {t : Tracker} (ht : e.tracker.Moves t) (hlocals : t.maxLocals = e.tracker.maxLocals)
    (hpops : (f type.slots).pop ≤ e.tracker.depth)
    (hdepth : t.depth = e.tracker.depth - (f type.slots).pop + (f type.slots).push) :
    Straight ret e ((e.withPool (e.pool.fieldRef owner name type.descriptor).2).written t
      (.linked op (e.pool.fieldRef owner name type.descriptor).1 hsize)) := by
  have hgrows := grows_fieldRef e.pool owner name type.descriptor
  have htype := fun hr => fieldType?_fieldRef hcoh owner name (hfits hr)
  generalize e.pool.fieldRef owner name type.descriptor = r at hgrows htype ⊢
  refine straight_linked hgrows hop ht hlocals fun hr => ⟨fun hv => ?_, hpops, hdepth⟩
  rw [effect?_of_field hfield, word_linked, htype hr hv]
  rfl

theorem straight_getField (hcoh : e.pool.Coherent) {owner name : String} {type : JavaType}
    (h : getField owner name type e = .ok (u, e')) (hfits : e.reachable = true → FieldFits type) :
    Straight ret e e' := by
  obtain ⟨hpop, hword, rfl⟩ := getField_eq_ok.1 h
  exact straight_fieldAccess (f := fun n => ⟨1, n⟩) hcoh rfl ⟨rfl, rfl, rfl⟩ rfl
    hfits (Tracker.moves_moved hword) rfl hpop rfl

theorem straight_putField (hcoh : e.pool.Coherent) {owner name : String} {type : JavaType}
    (h : putField owner name type e = .ok (u, e')) (hfits : e.reachable = true → FieldFits type) :
    Straight ret e e' := by
  obtain ⟨hpop, rfl⟩ := putField_eq_ok.1 h
  exact straight_fieldAccess (f := fun n => ⟨1 + n, 0⟩) hcoh rfl ⟨rfl, rfl, rfl⟩ rfl
    hfits (Tracker.moves_lowered _ _) rfl hpop rfl

theorem straight_getStatic (hcoh : e.pool.Coherent) {owner name : String} {type : JavaType}
    (h : getStatic owner name type e = .ok (u, e')) (hfits : e.reachable = true → FieldFits type) :
    Straight ret e e' := by
  obtain ⟨hword, rfl⟩ := getStatic_eq_ok.1 h
  exact straight_fieldAccess (f := fun n => ⟨0, n⟩) hcoh rfl ⟨rfl, rfl, rfl⟩ rfl
    hfits (Tracker.moves_moved hword) rfl (Nat.zero_le _) rfl

theorem straight_putStatic (hcoh : e.pool.Coherent) {owner name : String} {type : JavaType}
    (h : putStatic owner name type e = .ok (u, e')) (hfits : e.reachable = true → FieldFits type) :
    Straight ret e e' := by
  obtain ⟨hpop, rfl⟩ := putStatic_eq_ok.1 h
  exact straight_fieldAccess (f := fun n => ⟨n, 0⟩) hcoh rfl ⟨rfl, rfl, rfl⟩ rfl
    hfits (Tracker.moves_lowered _ _) rfl hpop rfl

/-! ### Calls -/

/-- A method type that its descriptor is read back as. -/
def CallFits (type : MethodType) : Prop := MethodType.ofDescriptor? type.descriptor = some type

theorem methodType?_memberRef {pool : ConstantPool} (hcoh : pool.Coherent) {kind : MemberKind}
    {op : Opcode} (hkind : Inspection.callsKind op kind = true) (owner name : String)
    {type : MethodType} (htype : CallFits type)
    (hv : (pool.memberRef kind owner name type.descriptor).2.violation = none) :
    (pool.memberRef kind owner name type.descriptor).2.methodType? op
      (pool.memberRef kind owner name type.descriptor).1 = some type := by
  unfold CallFits at htype
  generalize type.descriptor = descriptor at htype hv ⊢
  rw [methodType?, memberAt_memberRef hcoh hv]
  simp only [hkind, if_true]
  exact htype

/-- A call: the constant is interned, and the effect is that of the method type. -/
theorem straight_invoke (hcoh : e.pool.Coherent) {i : Instruction} {kind : MemberKind}
    {receiver : Bool} {owner name : String} {type : MethodType} (hop : i.op.IsInner)
    (hcall : i.op.IsCall) (hkind : Inspection.callsKind i.op kind = true)
    (hword : i.word 0 = (e.pool.memberRef kind owner name type.descriptor).1)
    (hfits : e.reachable = true → CallFits type ∧
      i.callEffect? type = some (callEffect type receiver))
    (hpop : (callEffect type receiver).pop ≤ e.tracker.depth)
    (hpush : e.tracker.depth - (callEffect type receiver).pop + type.retSlots ≤ wordMax) :
    Straight ret e ((e.withPool (e.pool.memberRef kind owner name type.descriptor).2).written
      (e.tracker.moved (callEffect type receiver)) i) := by
  have hgrows := grows_memberRef e.pool kind owner name type.descriptor
  have htype := fun hr => methodType?_memberRef hcoh hkind owner name (hfits hr).1
  generalize e.pool.memberRef kind owner name type.descriptor = r at hgrows htype hword ⊢
  refine straight_linked hgrows hop (Tracker.moves_moved hpush) rfl fun hr =>
    ⟨fun hv => ?_, hpop, rfl⟩
  rw [effect?_of_isCall hcall, hword, htype hr hv]
  exact (hfits hr).2

theorem straight_invokeVirtual (hcoh : e.pool.Coherent) {owner name : String} {type : MethodType}
    (h : invokeVirtual owner name type e = .ok (u, e'))
    (hfits : e.reachable = true → CallFits type) : Straight ret e e' := by
  obtain ⟨-, hpop, hpush, rfl⟩ := invokeVirtual_eq_ok.1 h
  rw [methodRef_eq]
  exact straight_invoke hcoh ⟨rfl, rfl, rfl⟩ (.inl rfl) rfl (word_linked _ _ _)
    (fun hr => ⟨hfits hr, rfl⟩) hpop hpush

theorem straight_invokeSpecial (hcoh : e.pool.Coherent) {owner name : String} {type : MethodType}
    (h : invokeSpecial owner name type e = .ok (u, e'))
    (hfits : e.reachable = true → CallFits type) : Straight ret e e' := by
  obtain ⟨-, hpop, hpush, rfl⟩ := invokeSpecial_eq_ok.1 h
  rw [methodRef_eq]
  exact straight_invoke hcoh ⟨rfl, rfl, rfl⟩ (.inr (.inl rfl)) rfl (word_linked _ _ _)
    (fun hr => ⟨hfits hr, rfl⟩) hpop hpush

theorem straight_invokeStatic (hcoh : e.pool.Coherent) {owner name : String} {type : MethodType}
    (h : invokeStatic owner name type e = .ok (u, e'))
    (hfits : e.reachable = true → CallFits type) : Straight ret e e' := by
  obtain ⟨-, hpop, hpush, rfl⟩ := invokeStatic_eq_ok.1 h
  rw [methodRef_eq]
  exact straight_invoke hcoh ⟨rfl, rfl, rfl⟩ (.inr (.inr (.inl rfl))) rfl (word_linked _ _ _)
    (fun hr => ⟨hfits hr, rfl⟩) hpop hpush

/-- The slots that an interface call repeats are those it takes, if a byte can hold them. -/
theorem callEffect?_interfaceCall {index : UInt16} {type : MethodType}
    (h : type.argSlots + 1 ≤ 255) :
    (interfaceCall index (callEffect type true).pop).callEffect? type =
      some (callEffect type true) := by
  have hrepeated : ((interfaceCall index (callEffect type true).pop).operand 2).toNat =
      type.argSlots + 1 := by
    show (UInt8.ofNat (type.argSlots + 1)).toNat = _
    rw [UInt8.toNat_ofNat']
    exact Nat.mod_eq_of_lt (by omega)
  unfold Instruction.callEffect?
  rw [if_neg fun hne => hne.2 hrepeated]
  rfl

theorem straight_invokeInterface (hcoh : e.pool.Coherent) {owner name : String}
    {type : MethodType} (h : invokeInterface owner name type e = .ok (u, e'))
    (hfits : e.reachable = true → CallFits type ∧ type.argSlots + 1 ≤ 255) :
    Straight ret e e' := by
  obtain ⟨-, hpop, hpush, rfl⟩ := invokeInterface_eq_ok.1 h
  rw [interfaceMethodRef_eq]
  exact straight_invoke hcoh ⟨rfl, rfl, rfl⟩ (.inr (.inr (.inr rfl))) rfl (word_zero rfl)
    (fun hr => ⟨(hfits hr).1, callEffect?_interfaceCall (hfits hr).2⟩) hpop hpush

/-! ### Objects and arrays -/

theorem isClass_classRef {pool : ConstantPool} (hcoh : pool.Coherent) {name : String}
    (hv : (pool.classRef name).2.violation = none) :
    Inspection.isClass (pool.classRef name).2 (pool.classRef name).1 = true := by
  rw [Inspection.isClass, (classAt_classRef hcoh hv).1]

theorem effect?_linked_class {op : Opcode} {effect : StackEffect} {pool : ConstantPool}
    {index : UInt16} (hsize : op.operandSize = 2) (heffect : op.fixedEffect? = some effect)
    (hclass : Inspection.isClass pool index = true) :
    (linked op index hsize).effect? pool = some effect := by
  have hop : (linked op index hsize).op.fixedEffect? = some effect := heffect
  unfold effect?
  simp only [hop, word_linked, hclass, Bool.not_true, Bool.and_false, Bool.false_eq_true, if_false]

/-- An instruction that names a class. -/
theorem straight_class (hcoh : e.pool.Coherent) {op : Opcode} (hsize : op.operandSize = 2)
    (hop : op.IsInner) {effect : StackEffect} (heffect : op.fixedEffect? = some effect)
    {name : String} {t : Tracker} (ht : e.tracker.Moves t)
    (hlocals : t.maxLocals = e.tracker.maxLocals)
    (hlive : e.reachable = true → effect.pop ≤ e.tracker.depth ∧
      t.depth = e.tracker.depth - effect.pop + effect.push) :
    Straight ret e ((e.withPool (e.pool.classRef name).2).written t
      (.linked op (e.pool.classRef name).1 hsize)) :=
  straight_linked (grows_classRef _ name) hop ht hlocals fun hr =>
    ⟨fun hv => effect?_linked_class hsize heffect (isClass_classRef hcoh hv), hlive hr⟩

theorem straight_newObject (hcoh : e.pool.Coherent) {name : String}
    (h : newObject name e = .ok (u, e')) : Straight ret e e' := by
  obtain ⟨hword, rfl⟩ := newObject_eq_ok.1 h
  exact straight_class hcoh rfl ⟨rfl, rfl, rfl⟩ rfl (Tracker.moves_moved hword) rfl fun _ =>
    ⟨Nat.zero_le _, rfl⟩

/-- An instruction that replaces a slot by a slot, which the tracker takes no note of. -/
theorem straight_replace (hcoh : e.pool.Coherent) {op : Opcode} (hsize : op.operandSize = 2)
    (hop : op.IsInner) (heffect : op.fixedEffect? = some ⟨1, 1⟩) {name : String}
    (hfits : e.reachable = true → 1 ≤ e.tracker.depth) :
    Straight ret e ((e.withPool (e.pool.classRef name).2).written e.tracker
      (.linked op (e.pool.classRef name).1 hsize)) :=
  straight_class hcoh hsize hop heffect (.refl _) rfl fun hr =>
    ⟨hfits hr, (Nat.sub_add_cancel (hfits hr)).symm⟩

theorem straight_checkCast (hcoh : e.pool.Coherent) {type : JavaType}
    (h : checkCast type e = .ok (u, e')) (hfits : e.reachable = true → 1 ≤ e.tracker.depth) :
    Straight ret e e' := by
  obtain ⟨name, -, rfl⟩ := checkCast_eq_ok.1 h
  exact straight_replace hcoh rfl ⟨rfl, rfl, rfl⟩ rfl hfits

theorem straight_instanceOf (hcoh : e.pool.Coherent) {type : JavaType}
    (h : instanceOf type e = .ok (u, e')) (hfits : e.reachable = true → 1 ≤ e.tracker.depth) :
    Straight ret e e' := by
  obtain ⟨name, -, rfl⟩ := instanceOf_eq_ok.1 h
  exact straight_replace hcoh rfl ⟨rfl, rfl, rfl⟩ rfl hfits

theorem straight_newRefArray (hcoh : e.pool.Coherent) {type : JavaType}
    (h : newRefArray type e = .ok (u, e')) (hfits : e.reachable = true → 1 ≤ e.tracker.depth) :
    Straight ret e e' := by
  obtain ⟨name, -, rfl⟩ := newRefArray_eq_ok.1 h
  exact straight_replace hcoh rfl ⟨rfl, rfl, rfl⟩ rfl hfits

/-! ### Labels and lines -/

theorem straight_newLabel {l : Label} (h : newLabel e = .ok (l, e')) : Straight ret e e' := by
  obtain ⟨-, rfl⟩ := newLabel_eq_ok.1 h
  exact ⟨Step.label.emits, id⟩

theorem emits_branch {op : Opcode} {l : Label} (h : branch op l e = .ok (u, e')) :
    Emits ret e e' := by
  obtain ⟨hop, hpop, hdepth, rfl⟩ := branch_eq_ok.1 h
  exact (Step.branch hop hpop hdepth).emits

theorem straight_branch {op : Opcode} {l : Label} (h : branch op l e = .ok (u, e'))
    (hterm : op.isTerminal = false) : Straight ret e e' := by
  refine ⟨emits_branch h, fun hr => ?_⟩
  obtain ⟨hop, hpop, hdepth, rfl⟩ := branch_eq_ok.1 h
  rw [branched, hr, hterm]
  rfl

/-- **After a label control goes on**, whatever went before it. -/
theorem Emits.placeLabel {e'' : Emitter} {l : Label} (h : Emits ret e e')
    (hp : Emitter.placeLabel l e' = .ok (u, e'')) : Straight ret e e'' := by
  obtain ⟨hplace, depth, hfalls, hdepth, rfl⟩ := placeLabel_eq_ok.1 hp
  exact h.place (.place hplace hfalls hdepth) rfl

theorem straight_placeLabel {l : Label} (h : Emitter.placeLabel l e = .ok (u, e')) :
    Straight ret e e' :=
  (Straight.refl ret e).emits.placeLabel h

/-- Noting a source line changes nothing but the line table and the line that the tracker knows. -/
theorem exists_markLine {noted : Tracker → Option UInt32 × Tracker}
    (hnoted : ∀ t : Tracker, t.SameSlots (noted t).2) (e : Emitter) :
    ∃ t lines, e.tracker.SameSlots t ∧
      (lines = e.assembly.lines ∨ ∃ line, lines = (e.assembly.markLine line).lines) ∧
      markLine noted e = .ok ((), (e.withTracker t).withAssembly { e.assembly with lines }) := by
  unfold markLine
  have hslots := hnoted e.tracker
  generalize noted e.tracker = r at hslots
  obtain ⟨line?, t⟩ := r
  cases line? with
  | none => exact ⟨t, e.assembly.lines, hslots, .inl rfl, rfl⟩
  | some line =>
    refine ⟨t, (e.assembly.markLine (lineWord line)).lines, hslots, .inr ⟨_, rfl⟩, ?_⟩
    rw [← Assembly.markLine_eq]
    rfl

theorem straight_markLine {noted : Tracker → Option UInt32 × Tracker}
    (hnoted : ∀ t : Tracker, t.SameSlots (noted t).2) (h : markLine noted e = .ok (u, e')) :
    Straight ret e e' := by
  obtain ⟨t, lines, ht, hlines, hrun⟩ := exists_markLine hnoted e
  obtain ⟨-, rfl⟩ := Prod.mk.inj (Except.ok.inj (hrun.symm.trans h))
  exact ⟨(Step.line ht hlines).emits, id⟩

theorem sameSlots_noteLine (t : Tracker) (line : UInt32) : t.SameSlots (t.noteLine line).2 := by
  unfold Tracker.noteLine
  split <;> exact ⟨rfl, rfl, rfl⟩

theorem sameSlots_noteEnd (t : Tracker) : t.SameSlots t.noteEnd.2 := by
  unfold Tracker.noteEnd
  split
  · exact ⟨rfl, rfl, rfl⟩
  · split <;> exact ⟨rfl, rfl, rfl⟩

theorem straight_noteLine {line : UInt32} (h : noteLine line e = .ok (u, e')) :
    Straight ret e e' :=
  straight_markLine (fun t => sameSlots_noteLine t line) h

theorem straight_noteEnd (h : noteEnd e = .ok (u, e')) : Straight ret e e' :=
  straight_markLine sameSlots_noteEnd h

end Emitter

end ClassForge
