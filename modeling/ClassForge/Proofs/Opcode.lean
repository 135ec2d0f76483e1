import ClassForge.Opcode

/-!
# Facts of the instruction table

What the rest of the theory needs to know about single instructions, read off the table once:
which forms carry operands, which of them have a fixed effect and what decides the effect of the
others, and that a code byte determines its instruction.
-/

namespace ClassForge.Opcode

theorem encodedLength_pos (op : Opcode) : 0 < op.encodedLength := by
  rw [encodedLength]
  omega

/-- A byte stands for at most one instruction, the one that is written with it. -/
theorem byte_of_ofByte? {b : UInt8} {op : Opcode} (h : ofByte? b = some op) : op.byte = b := by
  have table : ∀ n : Fin 256, ∀ op : Opcode,
      ofByte? (UInt8.ofNat n.val) = some op → op.byte = UInt8.ofNat n.val := by
    decide +kernel
  have hb : UInt8.ofNat b.toNat = b := UInt8.ofNat_toNat
  have hop := table ⟨b.toNat, b.toNat_lt⟩ op
  rw [hb] at hop
  exact hop h

/-! ### Operands -/

theorem two_le_operandSize_of_isBranch {op : Opcode} (h : op.isBranch = true) :
    2 ≤ op.operandSize := by
  revert h
  cases op <;> decide

/-- A local variable is named by the code itself or by the first operand byte. -/
theorem operandSize_pos_of_localAccess? {op : Opcode} {access : LocalAccess}
    (h : op.localAccess? = some access) (hi : access.index? = none) : 0 < op.operandSize := by
  have table : op.localAccess?.all (fun a => a.index?.isSome || 0 < op.operandSize) = true := by
    cases op <;> decide
  rw [h] at table
  simpa [hi] using table

/-- A local variable has at most two slots, and a code by itself names none past index 3. -/
theorem localAccess?_le {op : Opcode} {access : LocalAccess} (h : op.localAccess? = some access) :
    access.width ≤ 2 ∧ access.index?.getD 0 ≤ 3 := by
  have table : op.localAccess?.all (fun a => a.width ≤ 2 ∧ a.index?.getD 0 ≤ 3) = true := by
    cases op <;> decide
  rw [h] at table
  simpa using table

/-- The instructions whose operand names a class and whose effect does not depend on it. -/
def namesClass : Opcode → Bool
  | .new | .anewarray | .checkcast | .instanceof => true
  | _ => false

theorem namesClass_eq_false {op : Opcode} (hnew : op ≠ .new) (harray : op ≠ .anewarray)
    (hcast : op ≠ .checkcast) (htest : op ≠ .instanceof) : op.namesClass = false := by
  unfold namesClass
  split
  · exact absurd rfl hnew
  · exact absurd rfl harray
  · exact absurd rfl hcast
  · exact absurd rfl htest
  · rfl

/-! ### Effects -/

/-- The instruction calls a method. -/
def IsCall (op : Opcode) : Prop :=
  op = .invokevirtual ∨ op = .invokespecial ∨ op = .invokestatic ∨ op = .invokeinterface

instance (op : Opcode) : Decidable op.IsCall := inferInstanceAs (Decidable (_ ∨ _))

/-- The slots of the constant that an instruction loads. -/
def loadSlots? : Opcode → Option Nat
  | .ldc | .ldcW => some 1
  | .ldc2W => some 2
  | _ => none

/-- The effect of an instruction that accesses a field, by the width of the field. -/
def fieldEffect? : Opcode → Option (Nat → StackEffect)
  | .getstatic => some fun n => ⟨0, n⟩
  | .putstatic => some fun n => ⟨n, 0⟩
  | .getfield => some fun n => ⟨1, n⟩
  | .putfield => some fun n => ⟨1 + n, 0⟩
  | _ => none

/-- An instruction whose effect is not fixed loads a constant, accesses a field or calls a
method. -/
theorem linked_cases {op : Opcode} (h : op.fixedEffect? = none) :
    (∃ n, op.loadSlots? = some n) ∨ (∃ f, op.fieldEffect? = some f) ∨ op.IsCall := by
  rw [← Option.isSome_iff_exists, ← Option.isSome_iff_exists]
  revert h
  cases op <;> decide

theorem loadSlots?_cases {op : Opcode} {n : Nat} (h : op.loadSlots? = some n) :
    op = .ldc ∧ n = 1 ∨ op = .ldcW ∧ n = 1 ∨ op = .ldc2W ∧ n = 2 := by
  unfold loadSlots? at h
  split at h
  · exact .inl ⟨rfl, (Option.some.inj h).symm⟩
  · exact .inr (.inl ⟨rfl, (Option.some.inj h).symm⟩)
  · exact .inr (.inr ⟨rfl, (Option.some.inj h).symm⟩)
  · cases h

theorem fieldEffect?_cases {op : Opcode} {f : Nat → StackEffect} (h : op.fieldEffect? = some f) :
    op = .getstatic ∧ (f = fun n => ⟨0, n⟩) ∨ op = .putstatic ∧ (f = fun n => ⟨n, 0⟩) ∨
      op = .getfield ∧ (f = fun n => ⟨1, n⟩) ∨ op = .putfield ∧ (f = fun n => ⟨1 + n, 0⟩) := by
  unfold fieldEffect? at h
  split at h
  · exact .inl ⟨rfl, (Option.some.inj h).symm⟩
  · exact .inr (.inl ⟨rfl, (Option.some.inj h).symm⟩)
  · exact .inr (.inr (.inl ⟨rfl, (Option.some.inj h).symm⟩))
  · exact .inr (.inr (.inr ⟨rfl, (Option.some.inj h).symm⟩))
  · cases h

theorem operandSize_of_fieldEffect? {op : Opcode} {f : Nat → StackEffect}
    (h : op.fieldEffect? = some f) : op.operandSize = 2 := by
  rcases fieldEffect?_cases h with ⟨rfl, -⟩ | ⟨rfl, -⟩ | ⟨rfl, -⟩ | ⟨rfl, -⟩ <;> rfl

theorem slots_le_of_fieldEffect? {op : Opcode} {f : Nat → StackEffect}
    (h : op.fieldEffect? = some f) (n : Nat) : (f n).pop ≤ 1 + n ∧ (f n).push ≤ n := by
  rcases fieldEffect?_cases h with ⟨-, rfl⟩ | ⟨-, rfl⟩ | ⟨-, rfl⟩ | ⟨-, rfl⟩
  · exact ⟨Nat.zero_le _, Nat.le_refl n⟩
  · exact ⟨Nat.le_add_left n 1, Nat.zero_le n⟩
  · exact ⟨Nat.le_add_right 1 n, Nat.le_refl n⟩
  · exact ⟨Nat.le_refl _, Nat.zero_le n⟩

/-- A call names its method in a word, and an interface call has two more operand bytes. -/
theorem IsCall.operandSize_le {op : Opcode} (h : op.IsCall) :
    2 ≤ op.operandSize ∧ (op = .invokeinterface → 4 ≤ op.operandSize) := by
  rcases h with rfl | rfl | rfl | rfl <;> decide

/-- A fixed effect never pops or pushes more than six slots. -/
theorem slots_le_of_fixedEffect? {op : Opcode} {e : StackEffect} (h : op.fixedEffect? = some e) :
    e.pop ≤ 6 ∧ e.push ≤ 6 := by
  have table : op.fixedEffect?.all (fun e => e.pop ≤ 6 ∧ e.push ≤ 6) = true := by
    cases op <;> decide
  rw [h] at table
  simpa using table

end ClassForge.Opcode
