import Mathlib
import ClassForge.Inspection.Walk
import ClassForge.Proofs.JavaType
import ClassForge.Proofs.Opcode

/-!
# Decoded instructions

The checks of an inspection read single bytes of the code. This module states what they find out
in terms of whole instructions:

* `Instruction` is a code byte with exactly its operands, and `Instruction.at?` decodes one;
* `Instruction.effect?`, `Instruction.localEnd?` and `Instruction.target` are its stack effect, the
  end of the local slots it touches, and where it branches to;
* `effectAt_eq_pure` and the lemmas after it: each check succeeds exactly when the decoded
  instruction is in order. Slots are natural numbers here; the checks count them in 16-bit words,
  which shows only for an instruction that pops more than such a word holds.
-/

namespace ClassForge

open Inspection

/-! ### Outcomes of checks -/

namespace BodyCheck

variable {α β : Type}

theorem pure_eq_pure {a b : α} : (pure a : BodyCheck α) = pure b ↔ a = b := by
  constructor
  · intro h
    injection h with h
    injection h
  · rintro rfl
    rfl

theorem throw_ne_pure (f : BodyFault) (a : α) : (throw f : BodyCheck α) ≠ pure a := by
  intro h
  injection h with h
  cases h

theorem abort_ne_pure (d : Defect) (a : α) : (abort d : BodyCheck α) ≠ pure a := by
  intro h
  cases h

/-- A sequence of two checks succeeds when both do. -/
theorem bind_eq_pure {x : BodyCheck α} {f : α → BodyCheck β} {b : β} :
    x >>= f = pure b ↔ ∃ a, x = pure a ∧ f a = pure b := by
  rcases x with d | (fault | a)
  · constructor
    · intro h
      exact absurd h (abort_ne_pure d b)
    · rintro ⟨a, h, -⟩
      exact absurd h (abort_ne_pure d a)
  · constructor
    · intro h
      exact absurd h (throw_ne_pure fault b)
    · rintro ⟨a, h, -⟩
      exact absurd h (throw_ne_pure fault a)
  · constructor
    · intro h
      exact ⟨a, rfl, h⟩
    · rintro ⟨a', h, hf⟩
      rw [← pure_eq_pure.1 h] at hf
      exact hf

/-- A guard in front of a check. -/
theorem guard_eq_pure {c : Prop} [Decidable c] {f : BodyFault} {x : BodyCheck α} {a : α} :
    (if c then throw f else x) = pure a ↔ ¬c ∧ x = pure a := by
  by_cases hc : c
  · rw [if_pos hc]
    constructor
    · intro h
      exact absurd h (throw_ne_pure f a)
    · rintro ⟨hn, -⟩
      exact absurd hc hn
  · rw [if_neg hc]
    constructor
    · intro h
      exact ⟨hc, h⟩
    · rintro ⟨-, h⟩
      exact h

/-- A guard in front of a check, in the form that it has before a continuation. -/
theorem guard_bind_eq_pure {c : Prop} [Decidable c] {f : BodyFault} {k : Unit → BodyCheck α}
    {a : α} : (if c then throw f >>= k else k ()) = pure a ↔ ¬c ∧ k () = pure a := by
  rw [show (throw f >>= k : BodyCheck α) = throw f from rfl]
  exact guard_eq_pure

theorem ofCount_eq_pure {x : Except Defect α} {a : α} :
    (ofCount x : BodyCheck α) = pure a ↔ x = .ok a := by
  cases x with
  | error d =>
    constructor
    · intro h
      exact absurd h (abort_ne_pure d a)
    · intro h
      cases h
  | ok b =>
    rw [show (ofCount (.ok b) : BodyCheck α) = pure b from rfl, pure_eq_pure]
    simp only [Except.ok.injEq]

end BodyCheck

/-- The count itself is the answer when it fits a word. -/
theorem Defect.checkWord_eq_ok {n m : Nat} :
    Defect.checkWord n = .ok m ↔ n ≤ wordMax ∧ m = n := by
  unfold Defect.checkWord
  by_cases h : n ≤ wordMax
  · rw [if_pos h, Except.ok.injEq]
    constructor
    · rintro rfl
      exact ⟨h, rfl⟩
    · rintro ⟨-, rfl⟩
      rfl
  · rw [if_neg h]
    constructor
    · intro hn
      cases hn
    · rintro ⟨hle, -⟩
      exact absurd hle h

/-- The slots of a call as a word: arguments and receiver, if both sums fit. -/
theorem MethodType.callWord_eq_ok {m : MethodType} {receiver : Bool} {n : Nat} :
    m.callWord receiver = .ok n ↔
      n = m.argSlots + (if receiver then 1 else 0) ∧ n ≤ wordMax := by
  unfold MethodType.callWord MethodType.argWord
  by_cases h : m.argSlots ≤ wordMax
  · rw [Defect.checkWord_eq_ok.2 ⟨h, rfl⟩]
    show Defect.checkWord _ = .ok n ↔ _
    rw [Defect.checkWord_eq_ok]
    constructor
    · rintro ⟨hle, rfl⟩
      exact ⟨rfl, hle⟩
    · rintro ⟨rfl, hle⟩
      exact ⟨hle, rfl⟩
  · have hov : Defect.checkWord m.argSlots = .error .wordOverflow := if_neg h
    rw [hov]
    constructor
    · intro hn
      cases hn
    · rintro ⟨rfl, hle⟩
      omega

/-! ### Instructions -/

/-- An instruction: a code byte with exactly the operand bytes that it calls for. -/
structure Instruction where
  op : Opcode
  operands : List UInt8
  sized : operands.length = op.operandSize

namespace Instruction

/-- The instruction as it stands in the code. -/
def bytes (i : Instruction) : List UInt8 := i.op.byte :: i.operands

theorem length_bytes (i : Instruction) : i.bytes.length = i.op.encodedLength := by
  rw [bytes, List.length_cons, i.sized, Opcode.encodedLength, Nat.add_comm]

/-- The instruction at an offset of the code, if its operands are complete. -/
def at? (code : Array UInt8) (pc : Nat) : Option Instruction :=
  match code.toList.drop pc with
  | [] => none
  | b :: rest =>
    match Opcode.ofByte? b with
    | none => none
    | some op =>
      if h : (rest.take op.operandSize).length = op.operandSize then
        some ⟨op, rest.take op.operandSize, h⟩
      else none

/-- **Decoding is reading back.**  An instruction stands at an offset when its bytes do. -/
theorem at?_eq_some_iff {code : Array UInt8} {pc : Nat} {i : Instruction} :
    at? code pc = some i ↔ ∃ after, code.toList.drop pc = i.bytes ++ after := by
  rcases i with ⟨op, operands, hsized⟩
  unfold at?
  constructor
  · intro h
    split at h
    · cases h
    · rename_i b rest hdrop
      split at h
      · cases h
      · rename_i op' hop
        split at h
        · simp only [Option.some.injEq, mk.injEq] at h
          obtain ⟨rfl, rfl⟩ := h
          refine ⟨rest.drop op'.operandSize, ?_⟩
          rw [hdrop, bytes, Opcode.byte_of_ofByte? hop, List.cons_append,
            List.take_append_drop]
        · cases h
  · rintro ⟨after, hdrop⟩
    rw [hdrop]
    simp only [bytes, List.cons_append, Opcode.ofByte?_byte]
    have htake : (operands ++ after).take op.operandSize = operands := by
      rw [← hsized, List.take_left]
    simp only [htake, hsized, dite_true]

theorem at?_length_of_toList_eq {code : Array UInt8} {before after : List UInt8} {i : Instruction}
    (h : code.toList = before ++ (i.bytes ++ after)) : at? code before.length = some i :=
  at?_eq_some_iff.2 ⟨after, by rw [h, List.drop_left]⟩

theorem end_le_size_of_at? {code : Array UInt8} {pc : Nat} {i : Instruction}
    (h : at? code pc = some i) : pc + i.op.encodedLength ≤ code.size := by
  obtain ⟨after, hdrop⟩ := at?_eq_some_iff.1 h
  have hlen := congrArg List.length hdrop
  rw [List.length_drop, List.length_append, length_bytes, Array.length_toList] at hlen
  have := i.op.encodedLength_pos
  omega

/-- The code byte of a decoded instruction. -/
theorem getElem?_of_at? {code : Array UInt8} {pc : Nat} {i : Instruction}
    (h : at? code pc = some i) : code[pc]? = some i.op.byte := by
  obtain ⟨after, hdrop⟩ := at?_eq_some_iff.1 h
  rw [← Array.getElem?_toList, ← List.head?_drop, hdrop]
  rfl

/-- Decoding succeeds where a known code byte has all its operands. -/
theorem exists_at? {code : Array UInt8} {pc : Nat} {b : UInt8} {op : Opcode}
    (hb : code[pc]? = some b) (hop : Opcode.ofByte? b = some op)
    (hlen : pc + op.encodedLength ≤ code.size) : ∃ i, at? code pc = some i ∧ i.op = op := by
  rw [← Array.getElem?_toList] at hb
  obtain ⟨hlt, hget⟩ := List.getElem?_eq_some_iff.1 hb
  have hdrop : code.toList.drop pc = b :: code.toList.drop (pc + 1) := by
    rw [List.drop_eq_getElem_cons hlt, hget]
  have hsized : ((code.toList.drop (pc + 1)).take op.operandSize).length = op.operandSize := by
    rw [Opcode.encodedLength] at hlen
    rw [List.length_take, List.length_drop, Array.length_toList]
    omega
  refine ⟨⟨op, _, hsized⟩, ?_, rfl⟩
  rw [at?_eq_some_iff]
  refine ⟨(code.toList.drop (pc + 1)).drop op.operandSize, ?_⟩
  rw [hdrop, bytes, Opcode.byte_of_ofByte? hop, List.cons_append, List.take_append_drop]

/-! ### What an instruction does -/

/-- An operand byte. -/
def operand (i : Instruction) (k : Nat) : UInt8 := i.operands.getD k 0

/-- Two operand bytes as a word. -/
def word (i : Instruction) (k : Nat) : UInt16 :=
  UInt16.ofNat (256 * (i.operand k).toNat + (i.operand (k + 1)).toNat)

/-- Where the instruction branches to if it stands at `pc`. -/
def target (i : Instruction) (pc : Nat) : Int :=
  if i.op = .gotoW then
    pc + Int.bmod (65536 * (i.word 0).toNat + (i.word 2).toNat) 4294967296
  else pc + Int.bmod (i.word 0).toNat 65536

/-- The end of the local slots that the instruction touches. -/
def localEnd? (i : Instruction) : Option Nat :=
  i.op.localAccess?.map fun access => access.index?.getD (i.operand 0).toNat + access.width

end Instruction

namespace ConstantPool

/-- The type of the field at an index; no field is void. -/
def fieldType? (pool : ConstantPool) (index : UInt16) : Option JavaType :=
  match pool.memberAt index with
  | .error _ => none
  | .ok member =>
    if member.kind = .field then (JavaType.ofDescriptor? member.descriptor).filter (· ≠ .void)
    else none

/-- The type of the method at an index, if the call instruction may name it. -/
def methodType? (pool : ConstantPool) (op : Opcode) (index : UInt16) : Option MethodType :=
  match pool.memberAt index with
  | .error _ => none
  | .ok member =>
    if callsKind op member.kind then MethodType.ofDescriptor? member.descriptor else none

end ConstantPool

namespace Instruction

/-- The stack effect of a call of the given type, unless an interface call repeats another number
of slots. -/
def callEffect? (i : Instruction) (type : MethodType) : Option StackEffect :=
  if i.op = .invokeinterface ∧ (i.operand 2).toNat ≠ type.argSlots + 1 then none
  else some ⟨type.argSlots + (if i.op = .invokestatic then 0 else 1), type.retSlots⟩

/-- The stack effect of an instruction, if the constant that it names is of the right kind. -/
def effect? (pool : ConstantPool) (i : Instruction) : Option StackEffect :=
  match i.op.fixedEffect? with
  | some effect => if i.op.namesClass && !isClass pool (i.word 0) then none else some effect
  | none =>
    match i.op with
    | .ldc => if loadsOneSlot pool (i.operand 0).toUInt16 then some ⟨0, 1⟩ else none
    | .ldcW => if loadsOneSlot pool (i.word 0) then some ⟨0, 1⟩ else none
    | .ldc2W => if loadsTwoSlots pool (i.word 0) then some ⟨0, 2⟩ else none
    | .getstatic => (pool.fieldType? (i.word 0)).map fun type => ⟨0, type.slots⟩
    | .putstatic => (pool.fieldType? (i.word 0)).map fun type => ⟨type.slots, 0⟩
    | .getfield => (pool.fieldType? (i.word 0)).map fun type => ⟨1, type.slots⟩
    | .putfield => (pool.fieldType? (i.word 0)).map fun type => ⟨1 + type.slots, 0⟩
    | op => (pool.methodType? op (i.word 0)).bind i.callEffect?

/-- The index of the constant that an instruction loads: `ldc` has only a byte for it. -/
def loadIndex (i : Instruction) : UInt16 :=
  if i.op = .ldc then (i.operand 0).toUInt16 else i.word 0

/-- Does the constant at the index load as that many slots? -/
def loadsSlots (pool : ConstantPool) (n : Nat) (index : UInt16) : Bool :=
  if n = 2 then loadsTwoSlots pool index else loadsOneSlot pool index

theorem effect?_of_load {pool : ConstantPool} {i : Instruction} {n : Nat}
    (h : i.op.loadSlots? = some n) :
    i.effect? pool = if loadsSlots pool n i.loadIndex then some ⟨0, n⟩ else none := by
  unfold effect? loadIndex
  rcases Opcode.loadSlots?_cases h with ⟨hop, rfl⟩ | ⟨hop, rfl⟩ | ⟨hop, rfl⟩ <;> rw [hop] <;> rfl

theorem effect?_of_field {pool : ConstantPool} {i : Instruction} {f : Nat → StackEffect}
    (h : i.op.fieldEffect? = some f) :
    i.effect? pool = (pool.fieldType? (i.word 0)).map fun type => f type.slots := by
  unfold effect?
  rcases Opcode.fieldEffect?_cases h with ⟨hop, rfl⟩ | ⟨hop, rfl⟩ | ⟨hop, rfl⟩ | ⟨hop, rfl⟩ <;>
    rw [hop] <;> rfl

theorem effect?_of_isCall {pool : ConstantPool} {i : Instruction} (h : i.op.IsCall) :
    i.effect? pool = (pool.methodType? i.op (i.word 0)).bind i.callEffect? := by
  unfold effect?
  rcases h with h | h | h | h <;> rw [h] <;> rfl

end Instruction

/-! ### Reading operands -/

namespace Inspection

open BodyCheck Instruction

variable {code : Array UInt8} {pc : Nat} {i : Instruction}

theorem byteAt_eq_pure {k : Nat} {b : UInt8} :
    byteAt code k = pure b ↔ code[k]? = some b := by
  unfold byteAt
  cases hk : code[k]? with
  | none => simp [abort_ne_pure]
  | some b' => simp [pure_eq_pure]

/-- The operands of a decoded instruction are the bytes after its code byte. -/
theorem byteAt_operand (h : at? code pc = some i) {k : Nat} (hk : k < i.op.operandSize) :
    byteAt code (pc + 1 + k) = pure (i.operand k) := by
  obtain ⟨after, hdrop⟩ := at?_eq_some_iff.1 h
  rw [byteAt_eq_pure, ← Array.getElem?_toList,
    show pc + 1 + k = pc + (k + 1) by omega, ← List.getElem?_drop, hdrop, bytes,
    List.cons_append, List.getElem?_cons_succ,
    List.getElem?_append_left (by rw [i.sized]; exact hk), operand,
    List.getD_eq_getElem?_getD, List.getElem?_eq_getElem (by rw [i.sized]; exact hk)]
  rfl

theorem wordAt_operand (h : at? code pc = some i) {k : Nat} (hk : k + 1 < i.op.operandSize) :
    wordAt code (pc + 1 + k) = pure (i.word k) := by
  unfold wordAt
  rw [byteAt_operand h (by omega : k < i.op.operandSize),
    show pc + 1 + k + 1 = pc + 1 + (k + 1) by omega, byteAt_operand h hk]
  rfl

theorem branchTarget_of_at? (h : at? code pc = some i) (hb : i.op.isBranch = true) :
    branchTarget code i.op pc = pure (i.target pc) := by
  have htwo := Opcode.two_le_operandSize_of_isBranch hb
  unfold branchTarget
  rw [wordAt_operand (k := 0) h (by omega)]
  by_cases hg : i.op = .gotoW
  · have hfour : i.op.operandSize = 4 := by rw [hg]; rfl
    rw [show pc + 3 = pc + 1 + 2 by omega, wordAt_operand (k := 2) h (by omega)]
    simp only [pure_bind, target, if_pos hg]
  · simp only [pure_bind, target, if_neg hg]

/-! ### Checks of single instructions -/

theorem fieldSlots_eq_pure {pool : ConstantPool} {k : UInt16} {n : Nat} :
    fieldSlots pool pc k = pure n ↔ ∃ type, pool.fieldType? k = some type ∧ type.slots = n := by
  unfold fieldSlots ConstantPool.fieldType?
  cases pool.memberAt k with
  | error e => simp [throw_ne_pure]
  | ok member =>
    by_cases hkind : member.kind = .field
    · simp only [hkind, ne_eq, not_true_eq_false, if_false, if_true]
      split
      · simp_all [throw_ne_pure]
      · simp_all [throw_ne_pure]
      · rename_i type hvoid htype
        have hkeep : (some type).filter (fun t => decide (¬t = JavaType.void)) = some type := by
          simpa [Option.filter] using hvoid
        rw [htype, hkeep]
        simp [pure_eq_pure]
    · simp [hkind, throw_ne_pure]

theorem calledType_eq_pure {pool : ConstantPool} {op : Opcode} {k : UInt16} {type : MethodType} :
    calledType pool op pc k = pure type ↔ pool.methodType? op k = some type := by
  unfold calledType ConstantPool.methodType?
  cases pool.memberAt k with
  | error e => simp [throw_ne_pure]
  | ok member =>
    by_cases hkind : callsKind op member.kind = true
    · simp only [hkind, if_true]
      split <;> simp_all [throw_ne_pure, pure_eq_pure]
    · simp [hkind, throw_ne_pure]

/-- What a call pops and pushes, its slots counted as a word. -/
theorem callSlots_eq_pure {type : MethodType} {receiver : Bool} {e : StackEffect} :
    (do
      let popped ← ofCount (type.callWord receiver)
      return ⟨popped, type.retSlots⟩ : BodyCheck StackEffect) = pure e ↔
      (⟨type.argSlots + (if receiver then 1 else 0), type.retSlots⟩ : StackEffect) = e ∧
        e.pop ≤ wordMax := by
  rw [bind_eq_pure]
  constructor
  · rintro ⟨n, hn, he⟩
    obtain ⟨rfl, hle⟩ := MethodType.callWord_eq_ok.1 (ofCount_eq_pure.1 hn)
    obtain rfl := pure_eq_pure.1 he
    exact ⟨rfl, hle⟩
  · rintro ⟨rfl, hle⟩
    exact ⟨_, ofCount_eq_pure.2 (MethodType.callWord_eq_ok.2 ⟨rfl, hle⟩), rfl⟩

theorem callEffect_eq_pure {pool : ConstantPool} {e : StackEffect} (h : at? code pc = some i)
    (hop : 2 ≤ i.op.operandSize) (hi : i.op = .invokeinterface → 3 ≤ i.op.operandSize) :
    callEffect pool code i.op pc = pure e ↔
      (pool.methodType? i.op (i.word 0)).bind i.callEffect? = some e ∧ e.pop ≤ wordMax := by
  unfold callEffect
  rw [wordAt_operand (k := 0) h (by omega), pure_bind, bind_eq_pure]
  simp only [calledType_eq_pure, Option.bind_eq_some_iff]
  rw [← exists_and_right]
  refine exists_congr fun type => ?_
  rw [and_assoc]
  refine and_congr_right fun _ => ?_
  by_cases hint : i.op = .invokeinterface
  · rw [if_pos hint, show pc + 3 = pc + 1 + 2 by omega,
      byteAt_operand (k := 2) h (by have := hi hint; omega), pure_bind, bind_eq_pure]
    simp only [guard_bind_eq_pure, callSlots_eq_pure, ofCount_eq_pure, MethodType.callWord_eq_ok,
      if_true, callEffect?, hint]
    constructor
    · rintro ⟨n, ⟨rfl, -⟩, hcount, rfl, hpop⟩
      refine ⟨?_, hpop⟩
      rw [if_neg (by simpa using hcount)]
      rfl
    · rintro ⟨heff, hpop⟩
      split at heff
      · cases heff
      · rename_i hcount
        obtain rfl := Option.some.inj heff
        exact ⟨_, ⟨rfl, hpop⟩, by simpa using hcount, rfl, hpop⟩
  · rw [if_neg hint, callSlots_eq_pure]
    simp only [callEffect?, hint, false_and, if_false, Option.some.injEq]
    by_cases hstatic : i.op = .invokestatic <;> simp [hstatic]

/-- The effect that a class operand leaves as the table gives it. -/
theorem classEffect_eq_pure {pool : ConstantPool} {effect e : StackEffect}
    (h : at? code pc = some i) (hop : i.op.operandSize = 2) :
    (do
      let k ← wordAt code (pc + 1)
      if isClass pool k then return effect else throw (.badConstant pc k) :
        BodyCheck StackEffect) = pure e ↔ isClass pool (i.word 0) = true ∧ effect = e := by
  rw [wordAt_operand (k := 0) h (by omega), pure_bind]
  by_cases hc : isClass pool (i.word 0) = true
  · simp only [hc, if_true, true_and]
    exact pure_eq_pure
  · simp only [hc, Bool.false_eq_true, if_false, false_and, iff_false]
    exact throw_ne_pure _ _

/-- An instruction with a fixed effect: only a class operand can be at fault. -/
theorem effectAt_eq_pure_of_fixed {pool : ConstantPool} {effect e : StackEffect}
    (h : at? code pc = some i) (hfixed : i.op.fixedEffect? = some effect) :
    effectAt pool code i.op pc = pure e ↔ i.effect? pool = some e := by
  unfold effectAt effect?
  simp only [hfixed]
  split
  case h_1 | h_2 | h_3 | h_4 =>
    rename_i hop
    rw [classEffect_eq_pure h (by rw [hop]; rfl), hop]
    by_cases hc : isClass pool (i.word 0) = true <;> simp [hc, Opcode.namesClass]
  case h_5 hnew harray hcast htest =>
    rw [Opcode.namesClass_eq_false hnew harray hcast htest, pure_eq_pure]
    simp

theorem loadEffect_eq_pure {c : Bool} {k : UInt16} {n : Nat} {e : StackEffect} :
    (if c then pure ⟨0, n⟩ else throw (.badConstant pc k) : BodyCheck StackEffect) = pure e ↔
      (if c then some ⟨0, n⟩ else none) = some e ∧ e.pop ≤ wordMax := by
  cases c with
  | false => simp [throw_ne_pure]
  | true =>
    simp only [if_true, Option.some.injEq]
    rw [pure_eq_pure]
    constructor
    · rintro rfl
      exact ⟨rfl, Nat.zero_le _⟩
    · rintro ⟨rfl, -⟩
      rfl

/-- The effect of a field access, which depends on the width `n` of the field as `f n`. -/
theorem fieldEffect_eq_pure {pool : ConstantPool} {k : UInt16} {e : StackEffect}
    (f : Nat → StackEffect) (hf : ∀ n, (f n).pop ≤ 1 + n) :
    (fieldSlots pool pc k >>= fun n => pure (f n)) = pure e ↔
      (pool.fieldType? k).map (fun type => f type.slots) = some e ∧ e.pop ≤ wordMax := by
  rw [bind_eq_pure]
  simp only [fieldSlots_eq_pure, pure_eq_pure, Option.map_eq_some_iff]
  constructor
  · rintro ⟨n, ⟨type, htype, rfl⟩, rfl⟩
    refine ⟨⟨type, htype, rfl⟩, ?_⟩
    have h₁ := hf type.slots
    have h₂ := type.slots_le_two
    have h₃ : 3 ≤ wordMax := by decide
    omega
  · rintro ⟨⟨type, htype, rfl⟩, -⟩
    exact ⟨type.slots, ⟨type, htype, rfl⟩, rfl⟩

theorem effectAt_of_load {pool : ConstantPool} {n : Nat} (h : at? code pc = some i)
    (hload : i.op.loadSlots? = some n) : effectAt pool code i.op pc =
      if loadsSlots pool n i.loadIndex then pure ⟨0, n⟩
      else throw (.badConstant pc i.loadIndex) := by
  have hword (hldc : i.op ≠ .ldc) (hsize : 2 ≤ i.op.operandSize) :
      wordAt code (pc + 1) = pure i.loadIndex := by
    rw [loadIndex, if_neg hldc]
    exact wordAt_operand (k := 0) h hsize
  rcases Opcode.loadSlots?_cases hload with ⟨hop, rfl⟩ | ⟨hop, rfl⟩ | ⟨hop, rfl⟩
  · have hindex : i.loadIndex = (i.operand 0).toUInt16 := if_pos hop
    have hbyte : byteAt code (pc + 1) = pure (i.operand 0) :=
      byteAt_operand (k := 0) h (by rw [hop]; decide)
    rw [hindex, hop]
    show (byteAt code (pc + 1) >>= _) = _
    rw [hbyte]
    rfl
  · have hindex := hword (by rw [hop]; decide) (by rw [hop]; decide)
    rw [hop]
    show (wordAt code (pc + 1) >>= _) = _
    rw [hindex]
    rfl
  · have hindex := hword (by rw [hop]; decide) (by rw [hop]; decide)
    rw [hop]
    show (wordAt code (pc + 1) >>= _) = _
    rw [hindex]
    rfl

theorem effectAt_of_field {pool : ConstantPool} {f : Nat → StackEffect} (h : at? code pc = some i)
    (hfield : i.op.fieldEffect? = some f) :
    effectAt pool code i.op pc = fieldSlots pool pc (i.word 0) >>= fun n => pure (f n) := by
  have hword : wordAt code (pc + 1) = pure (i.word 0) :=
    wordAt_operand (k := 0) h (by rw [Opcode.operandSize_of_fieldEffect? hfield]; decide)
  have hform : effectAt pool code i.op pc =
      wordAt code (pc + 1) >>= fun k => fieldSlots pool pc k >>= fun n => pure (f n) := by
    rcases Opcode.fieldEffect?_cases hfield with
      ⟨hop, rfl⟩ | ⟨hop, rfl⟩ | ⟨hop, rfl⟩ | ⟨hop, rfl⟩ <;>
      rw [hop] <;> rfl
  rw [hform, hword, pure_bind]

theorem effectAt_of_isCall {pool : ConstantPool} {op : Opcode} (h : op.IsCall) :
    effectAt pool code op pc = callEffect pool code op pc := by
  rcases h with rfl | rfl | rfl | rfl <;> rfl

/-- An instruction whose effect a constant decides: the constant has to be of the right kind. -/
theorem effectAt_eq_pure_of_linked {pool : ConstantPool} {e : StackEffect}
    (h : at? code pc = some i) (hlinked : i.op.fixedEffect? = none) :
    effectAt pool code i.op pc = pure e ↔ i.effect? pool = some e ∧ e.pop ≤ wordMax := by
  rcases Opcode.linked_cases hlinked with ⟨n, hload⟩ | ⟨f, hfield⟩ | hcall
  · rw [effectAt_of_load h hload, effect?_of_load hload]
    exact loadEffect_eq_pure
  · rw [effectAt_of_field h hfield, effect?_of_field hfield]
    exact fieldEffect_eq_pure f fun n => (Opcode.slots_le_of_fieldEffect? hfield n).1
  · obtain ⟨htwo, hfour⟩ := hcall.operandSize_le
    rw [effectAt_of_isCall hcall, effect?_of_isCall hcall]
    exact callEffect_eq_pure h htwo fun hint => Nat.le_of_succ_le (hfour hint)

/-- **The effect of an instruction is what its decoded form says**, as long as it pops no more
than a word counts. -/
theorem effectAt_eq_pure {pool : ConstantPool} {e : StackEffect} (h : at? code pc = some i) :
    effectAt pool code i.op pc = pure e ↔ i.effect? pool = some e ∧ e.pop ≤ wordMax := by
  cases hfixed : i.op.fixedEffect? with
  | none => exact effectAt_eq_pure_of_linked h hfixed
  | some effect =>
    rw [effectAt_eq_pure_of_fixed h hfixed]
    constructor
    · intro he
      refine ⟨he, ?_⟩
      unfold effect? at he
      simp only [hfixed] at he
      split at he
      · cases he
      · obtain rfl := Option.some.inj he
        exact le_trans (Opcode.slots_le_of_fixedEffect? hfixed).1 (by decide)
    · rintro ⟨he, -⟩
      exact he

end Inspection

end ClassForge
