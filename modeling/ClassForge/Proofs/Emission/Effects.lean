import ClassForge.Proofs.Emission.Pieces

/-!
# What one operation does

Every operation but a conversion appends one instruction or none. Here it is said once, for each of
them, which slots that instruction pops, which member and which local variable it names, and what
the tracker is told about it. What is known of these matters along whole runs is derived from it.

* `Operation.Unchecked` — the operations whose slots the tracker is not asked for;
* `Operation.member?`, `Operation.accessEnd?`, `Operation.notedEnd?` — the member that an operation
  names, and the local slots that it accesses and notes;
* `Emitter.Lays` — one instruction, and the tracker moved along with it;
* `performs_run` — **PROVED**: each operation but a conversion lays one instruction or none.
-/

namespace ClassForge

open ConstantPool

/-- The end of the local slots that an instruction without operands accesses. -/
def Opcode.impliedEnd? (op : Opcode) : Option Nat :=
  op.localAccess?.map fun access => access.index?.getD 0 + access.width

namespace Operation

/-- Every operation but a conversion. -/
def isBasic : Operation → Bool
  | .convert _ _ => false
  | _ => true

theorem isBasic_of_isPiece {op : Operation} (h : op.isPiece = true) : op.isBasic = true := by
  cases op with
  | convert => cases h
  | _ => rfl

/-- The operations whose instruction pops a slot that the tracker is not asked for. -/
def Unchecked : Operation → Prop
  | .checkCast _ | .instanceOf _ | .newRefArray _ | .store .void _ => True
  | _ => False

/-- The member that an operation names. -/
def member? : Operation → Option MemberRef
  | .getField owner name type | .putField owner name type | .getStatic owner name type
  | .putStatic owner name type => some ⟨.field, owner, name, type.descriptor⟩
  | .invokeVirtual owner name type | .invokeSpecial owner name type
  | .invokeStatic owner name type => some ⟨.method, owner, name, type.descriptor⟩
  | .invokeInterface owner name type => some ⟨.interfaceMethod, owner, name, type.descriptor⟩
  | _ => none

/-- The slots of the member's type: those of a field, or of the arguments of a method. -/
def memberSlots : Operation → Nat
  | .getField _ _ type | .putField _ _ type | .getStatic _ _ type
  | .putStatic _ _ type => type.slots
  | .invokeVirtual _ _ type | .invokeSpecial _ _ type | .invokeStatic _ _ type
  | .invokeInterface _ _ type => type.argSlots
  | _ => 0

/-- The end of the local slots that an operation notes. -/
def notedEnd? : Operation → Option Nat
  | .load type slot | .store type slot => some (slot + type.slots)
  | .loadRef slot | .storeRef slot | .increment slot _ => some (slot + 1)
  | _ => none

/-- The end of the local slots that the instruction of an operation accesses. -/
def accessEnd? : Operation → Option Nat
  | .emit op => op.impliedEnd?
  | .load type slot | .store type slot => some (slot + Emitter.accessWidth type)
  | .loadRef slot | .storeRef slot | .increment slot _ => some (slot + 1)
  | _ => none

/-- Operations that name no member and note no local slots, and whose slots are checked. -/
structure IsPlain (op : Operation) : Prop where
  checked : ¬op.Unchecked
  memberless : op.member? = none
  noteless : op.notedEnd? = none

/-- Operations on a local variable, for which the slots of a type are noted. -/
structure IsAccess (op : Operation) (type : JavaType) (slot : Nat) : Prop where
  memberless : op.member? = none
  access : op.accessEnd? = some (slot + Emitter.accessWidth type)
  noted : op.notedEnd? = some (slot + type.slots)

end Operation

/-- An appended instruction. -/
structure Appended where
  /-- The operation that appended it. -/
  cause : Operation
  instr : Instruction
  /-- The tracked depth before it. -/
  depth : Nat

/-- The slots that an instruction pops whose member has a type of so many slots; those that load a
constant or a static field pop none. -/
def Opcode.memberPops (op : Opcode) (slots : Nat) : Nat :=
  match op with
  | .getfield => 1
  | .putfield | .invokevirtual | .invokespecial | .invokeinterface => slots + 1
  | .putstatic | .invokestatic => slots
  | _ => 0

namespace Appended

/-- **The slots that an instruction pops**: by the table, or else by the type of its member. -/
def pops (x : Appended) : Nat :=
  match x.instr.op.fixedEffect? with
  | some effect => effect.pop
  | none => x.instr.op.memberPops x.cause.memberSlots

theorem pops_of_fixed {x : Appended} {effect : StackEffect}
    (h : x.instr.op.fixedEffect? = some effect) : x.pops = effect.pop := by
  unfold pops
  rw [h]

theorem pops_of_member {x : Appended} (h : x.instr.op.fixedEffect? = none) :
    x.pops = x.instr.op.memberPops x.cause.memberSlots := by
  unfold pops
  rw [h]

end Appended

namespace Instruction

/-- The bytes of an instruction tell which one it is, whatever follows. -/
theorem append_bytes_inj {i j : Instruction} {xs ys : List UInt8}
    (h : i.bytes ++ xs = j.bytes ++ ys) : i = j ∧ xs = ys := by
  obtain ⟨op, operands, hsized⟩ := i
  obtain ⟨op', operands', hsized'⟩ := j
  obtain ⟨hbyte, htail⟩ := List.cons.inj h
  have hop : some op = some op' := by
    rw [← Opcode.ofByte?_byte op, ← Opcode.ofByte?_byte op', hbyte]
  cases hop
  obtain ⟨rfl, rfl⟩ := List.append_inj htail (hsized.trans hsized'.symm)
  exact ⟨rfl, rfl⟩

theorem eq_of_bytes_eq {i j : Instruction} (h : i.bytes = j.bytes) : i = j := by
  rw [← List.append_nil i.bytes, ← List.append_nil j.bytes] at h
  exact (append_bytes_inj h).1

/-- Instructions in a row can be told from their bytes. -/
theorem eq_of_flatMap_bytes_eq {is js : List Instruction}
    (h : is.flatMap bytes = js.flatMap bytes) : is = js := by
  induction is generalizing js with
  | nil =>
    cases js with
    | nil => rfl
    | cons j js => cases h
  | cons i is ih =>
    cases js with
    | nil => cases h
    | cons j js =>
      rw [List.flatMap_cons, List.flatMap_cons] at h
      obtain ⟨rfl, hrest⟩ := append_bytes_inj h
      rw [ih hrest]

end Instruction

namespace Emitter

open Emit Instruction

variable {e e' : Emitter} {u : Unit} {cause : Operation} {i : Instruction}

/-- The operand of an instruction is the index that the pool answers for a member. -/
def Links (e e' : Emitter) (i : Instruction) (m : MemberRef) : Prop :=
  i.word 0 = (e.pool.memberRef m.kind m.owner m.name m.descriptor).1 ∧
    e'.pool = (e.pool.memberRef m.kind m.owner m.name m.descriptor).2

/-- **An operation lays an instruction**, and the tracker is told what the operation tells it. -/
structure Lays (cause : Operation) (e e' : Emitter) (i : Instruction) : Prop where
  code : e'.assembly.code.toList = e.assembly.code.toList ++ i.bytes
  /-- The tracked depth falls short of the slots that are popped only if they are not checked. -/
  depth : e.tracker.depth < Appended.pops ⟨cause, i, e.tracker.depth⟩ ↔
    cause.Unchecked ∧ e.tracker.depth = 0
  member : ∀ m, cause.member? = some m → Links e e' i m
  access : i.localEnd? = cause.accessEnd?
  noted : e'.tracker.maxLocals = max e.tracker.maxLocals (cause.notedEnd?.getD 0)
  word : cause.notedEnd?.getD 0 ≤ wordMax

/-- **What an operation does**: it lays one instruction, or none and notes nothing. -/
inductive Performs (cause : Operation) (e e' : Emitter) : Prop where
  | quiet (hcode : e'.assembly.code = e.assembly.code)
      (hmax : e'.tracker.maxLocals = e.tracker.maxLocals) (hnoted : cause.notedEnd? = none)
  | lays (i : Instruction) (h : Lays cause e e' i)

/-- The one instruction that was appended is the one that the operation lays. -/
theorem Performs.lays_of_append (h : Performs cause e e')
    (hcode : e'.assembly.code.toList = e.assembly.code.toList ++ i.bytes) : Lays cause e e' i := by
  cases h with
  | quiet hsame =>
    rw [hsame] at hcode
    cases List.self_eq_append_right.1 hcode
  | lays j hj =>
    have hbytes := hj.code
    rw [hcode] at hbytes
    obtain rfl := eq_of_bytes_eq (List.append_cancel_left hbytes)
    exact hj

/-! ### Kinds of instructions -/

theorem depth_iff_of_checked (hcause : ¬cause.Unchecked)
    (hpops : Appended.pops ⟨cause, i, e.tracker.depth⟩ ≤ e.tracker.depth) :
    e.tracker.depth < Appended.pops ⟨cause, i, e.tracker.depth⟩ ↔
      cause.Unchecked ∧ e.tracker.depth = 0 := by
  constructor
  · intro hlt
    omega
  · rintro ⟨hun, -⟩
    exact absurd hun hcause

theorem depth_iff_of_unchecked {effect : StackEffect} (hcause : cause.Unchecked)
    (heffect : i.op.fixedEffect? = some effect) (hpop : effect.pop = 1) :
    e.tracker.depth < Appended.pops ⟨cause, i, e.tracker.depth⟩ ↔
      cause.Unchecked ∧ e.tracker.depth = 0 := by
  rw [Appended.pops_of_fixed heffect, hpop, and_iff_right hcause, Nat.lt_one_iff]

theorem links_of_memberless (h : cause.member? = none) :
    ∀ m, cause.member? = some m → Links e e' i m := by
  intro m hm
  rw [h] at hm
  cases hm

/-- Nothing is noted. -/
theorem noted_of_noteless (h : cause.notedEnd? = none) {n n' : Nat} (hmax : n' = n) :
    n' = max n (cause.notedEnd?.getD 0) ∧ cause.notedEnd?.getD 0 ≤ wordMax := by
  rw [h, hmax]
  exact ⟨(Nat.max_zero _).symm, Nat.zero_le _⟩

/-- An instruction of the table that pops a slot which the tracker is not asked for. -/
theorem performs_unchecked {effect : StackEffect}
    (hcode : e'.assembly.code.toList = e.assembly.code.toList ++ i.bytes)
    (hcause : cause.Unchecked) (hmember : cause.member? = none)
    (heffect : i.op.fixedEffect? = some effect) (hpop : effect.pop = 1)
    (haccess : i.localEnd? = cause.accessEnd?) (hnoted : cause.notedEnd? = none)
    (hmax : e'.tracker.maxLocals = e.tracker.maxLocals) : Performs cause e e' := by
  obtain ⟨hmax', hword⟩ := noted_of_noteless hnoted hmax
  exact .lays i ⟨hcode, depth_iff_of_unchecked hcause heffect hpop, links_of_memberless hmember,
    haccess, hmax', hword⟩

section Plain

variable (hcause : cause.IsPlain)
include hcause

/-- An instruction whose slots were checked and that names no member. -/
theorem performs_plain (hcode : e'.assembly.code.toList = e.assembly.code.toList ++ i.bytes)
    (hpops : Appended.pops ⟨cause, i, e.tracker.depth⟩ ≤ e.tracker.depth)
    (haccess : i.localEnd? = cause.accessEnd?)
    (hmax : e'.tracker.maxLocals = e.tracker.maxLocals) : Performs cause e e' := by
  obtain ⟨hmax', hword⟩ := noted_of_noteless hcause.noteless hmax
  exact .lays i ⟨hcode, depth_iff_of_checked hcause.checked hpops,
    links_of_memberless hcause.memberless, haccess, hmax', hword⟩

/-- An instruction of the table. -/
theorem performs_fixed {effect : StackEffect}
    (hcode : e'.assembly.code.toList = e.assembly.code.toList ++ i.bytes)
    (heffect : i.op.fixedEffect? = some effect) (hpop : effect.pop ≤ e.tracker.depth)
    (haccess : i.localEnd? = cause.accessEnd?)
    (hmax : e'.tracker.maxLocals = e.tracker.maxLocals) : Performs cause e e' := by
  refine performs_plain hcause hcode ?_ haccess hmax
  rw [Appended.pops_of_fixed heffect]
  exact hpop

theorem performs_emit {op : Opcode} (haccess : op.impliedEnd? = cause.accessEnd?)
    (h : emit op e = .ok (u, e')) : Performs cause e e' := by
  obtain ⟨hsize, effect, heffect, hpop, -, rfl⟩ := emit_eq_ok.1 h
  exact performs_fixed hcause (Assembly.toList_append e.assembly (.plain op hsize)) heffect hpop
    haccess rfl

theorem performs_nothing (h : (pure () : Emit Unit) e = .ok (u, e')) : Performs cause e e' := by
  obtain ⟨-, rfl⟩ := pure_eq_ok.1 h
  exact .quiet rfl rfl hcause.noteless

theorem performs_markLine {noted : Tracker → Option UInt32 × Tracker}
    (hnoted : ∀ t : Tracker, t.SameSlots (noted t).2) (h : markLine noted e = .ok (u, e')) :
    Performs cause e e' := by
  obtain ⟨t, lines, ht, -, hrun⟩ := exists_markLine hnoted e
  obtain ⟨-, rfl⟩ := Prod.mk.inj (Except.ok.inj (hrun.symm.trans h))
  exact .quiet rfl ht.maxLocals hcause.noteless

/-! ### Constants, values and branches -/

section Spares

variable (hspares : cause.accessEnd? = none)
include hspares

/-- An instruction without a local variable. -/
theorem performs_spare {op : Opcode} (h : emit op e = .ok (u, e')) (hop : op.localAccess? = none) :
    Performs cause e e' := by
  refine performs_emit hcause ?_ h
  rw [Opcode.impliedEnd?, hop, hspares]
  rfl

theorem performs_loadConstant {index : UInt16} {p : ConstantPool}
    (h : loadConstant index (e.withPool p) = .ok (u, e')) : Performs cause e e' := by
  obtain ⟨-, rfl⟩ := loadConstant_eq_ok.1 h
  refine performs_plain hcause (Assembly.toList_append e.assembly (constantLoad index)) ?_ ?_ rfl
  · unfold constantLoad
    split <;> exact Nat.zero_le _
  · rw [hspares]
    unfold constantLoad
    split <;> exact localEnd?_of_none rfl

theorem performs_loadWideConstant {index : UInt16} {p : ConstantPool}
    (h : loadWideConstant index (e.withPool p) = .ok (u, e')) : Performs cause e e' := by
  obtain ⟨-, rfl⟩ := loadWideConstant_eq_ok.1 h
  exact performs_plain hcause (Assembly.toList_append ..) (Nat.zero_le _) hspares.symm rfl

theorem performs_intConst {value : Int32} (h : intConst value e = .ok (u, e')) :
    Performs cause e e' := by
  unfold intConst at h
  split_ifs at h
  iterate 7 exact performs_spare hcause hspares h rfl
  · obtain ⟨-, rfl⟩ := (short_push_eq_ok rfl).1 h
    exact performs_fixed hcause (Assembly.toList_append ..) rfl (Nat.zero_le _) hspares.symm rfl
  · obtain ⟨-, rfl⟩ := (linked_push_eq_ok rfl).1 h
    exact performs_fixed hcause (Assembly.toList_append ..) rfl (Nat.zero_le _) hspares.symm rfl
  · exact performs_loadConstant hcause hspares (interned_eq_ok.1 h)

theorem performs_longConst {value : Int64} (h : longConst value e = .ok (u, e')) :
    Performs cause e e' := by
  unfold longConst at h
  split_ifs at h
  iterate 2 exact performs_spare hcause hspares h rfl
  exact performs_loadWideConstant hcause hspares (interned_eq_ok.1 h)

theorem performs_floatConst {bits : UInt32} (h : floatConst bits e = .ok (u, e')) :
    Performs cause e e' := by
  unfold floatConst at h
  split_ifs at h
  iterate 3 exact performs_spare hcause hspares h rfl
  exact performs_loadConstant hcause hspares (interned_eq_ok.1 h)

theorem performs_doubleConst {bits : UInt64} (h : doubleConst bits e = .ok (u, e')) :
    Performs cause e e' := by
  unfold doubleConst at h
  split_ifs at h
  iterate 2 exact performs_spare hcause hspares h rfl
  exact performs_loadWideConstant hcause hspares (interned_eq_ok.1 h)

theorem performs_zeroOf {type : JavaType} (h : zeroOf type e = .ok (u, e')) :
    Performs cause e e' := by
  cases type with
  | void => exact performs_nothing hcause h
  | long => exact performs_longConst hcause hspares h
  | float => exact performs_floatConst hcause hspares h
  | double => exact performs_doubleConst hcause hspares h
  | object | array =>
    have hnull : emit .aconstNull e = .ok (u, e') := h
    exact performs_spare hcause hspares hnull rfl
  | boolean | byte | char | short | int =>
    have hzero : intConst 0 e = .ok (u, e') := h
    exact performs_intConst hcause hspares hzero

/-- A value is discarded or duplicated by its number of slots. -/
theorem performs_bySlots {n : Nat} {one two : Opcode} (hone : one.localAccess? = none)
    (htwo : two.localAccess? = none)
    (h : (match n with
      | 0 => pure ()
      | 1 => emit one
      | _ => emit two : Emit Unit) e = .ok (u, e')) : Performs cause e e' := by
  rcases n with _ | _ | n
  · exact performs_nothing hcause h
  · exact performs_spare hcause hspares h hone
  · exact performs_spare hcause hspares h htwo

theorem performs_branch {op : Opcode} {l : Label} (h : branch op l e = .ok (u, e')) :
    Performs cause e e' := by
  obtain ⟨hop, hpop, -, rfl⟩ := branch_eq_ok.1 h
  obtain ⟨heffect, -, hlocal, -⟩ := Opcode.shortBranch_facts hop
  exact performs_fixed hcause (Assembly.toList_append e.assembly (.linked op 0xffff _)) heffect hpop
    ((localEnd?_of_none hlocal).trans hspares.symm) rfl

end Spares

end Plain

/-! ### Local variables -/

section Access

variable {type : JavaType} {slot : Nat} (hcause : cause.IsAccess type slot)
include hcause

theorem performs_load (hchecked : ¬cause.Unchecked) (h : load type slot e = .ok (u, e')) :
    Performs cause e e' := by
  obtain ⟨_, e₁, haccess, -⟩ := bind_eq_ok.1 h
  have hslot := slot_le_of_accessLocal haccess
  obtain ⟨i, hi, hrun⟩ := exists_load type hslot
  obtain ⟨-, rfl⟩ := (hrun _ _ _).1 h
  refine .lays i ⟨Assembly.toList_append .., depth_iff_of_checked hchecked ?_,
    links_of_memberless hcause.memberless, hi.stop.trans hcause.access.symm, ?_, ?_⟩
  · rw [Appended.pops_of_fixed hi.effect]
    exact Nat.zero_le _
  · rw [hcause.noted]
    rfl
  · rw [hcause.noted]
    exact slot_add_slots_le hslot type

/-- Of all types only `void` is stored without its slots being popped. -/
theorem performs_store (hchecked : cause.Unchecked ↔ type = .void)
    (h : store type slot e = .ok (u, e')) : Performs cause e e' := by
  obtain ⟨_, e₁, -, haccess⟩ := bind_eq_ok.1 h
  have hslot := slot_le_of_accessLocal haccess
  obtain ⟨i, hi, hrun⟩ := exists_store type hslot
  obtain ⟨hle, rfl⟩ := (hrun _ _ _).1 h
  refine .lays i ⟨Assembly.toList_append .., ?_, links_of_memberless hcause.memberless,
    hi.stop.trans hcause.access.symm, ?_, ?_⟩
  · by_cases htype : type = .void
    · refine depth_iff_of_unchecked (hchecked.2 htype) hi.effect ?_
      rw [accessWidth, if_pos htype]
    · refine depth_iff_of_checked (mt hchecked.1 htype) ?_
      rw [Appended.pops_of_fixed hi.effect, accessWidth, if_neg htype]
      exact hle
  · rw [hcause.noted]
    rfl
  · rw [hcause.noted]
    exact slot_add_slots_le hslot type

end Access

theorem performs_increment {slot : Nat} {delta : Int8} (h : increment slot delta e = .ok (u, e')) :
    Performs (.increment slot delta) e e' := by
  obtain ⟨hslot, rfl⟩ := increment_eq_ok.1 h
  have hindex : (UInt8.ofNat slot).toNat = slot := by
    rw [UInt8.toNat_ofNat']
    exact Nat.mod_eq_of_lt (by omega)
  refine .lays _ ⟨Assembly.toList_append .., depth_iff_of_checked id (Nat.zero_le _),
    links_of_memberless rfl, ?_, rfl, slot_add_slots_le hslot .int⟩
  show some ((UInt8.ofNat slot).toNat + 1) = some (slot + 1)
  rw [hindex]

/-! ### Members -/

theorem pool_written (e : Emitter) (p : ConstantPool) (t : Tracker) (i : Instruction) :
    ((e.withPool p).written t i).pool = p := rfl

/-- Operations that name a member, and whose slots are checked. -/
structure NamesMember (cause : Operation) (m : MemberRef) : Prop where
  checked : ¬cause.Unchecked
  member : cause.member? = some m
  accessless : cause.accessEnd? = none
  noteless : cause.notedEnd? = none

/-- An instruction that names the member of its operation. -/
theorem performs_member {m : MemberRef} {t : Tracker} (hcause : NamesMember cause m)
    (htable : i.op.fixedEffect? = none) (hlocal : i.op.localAccess? = none)
    (hpops : i.op.memberPops cause.memberSlots ≤ e.tracker.depth)
    (hword : i.word 0 = (e.pool.memberRef m.kind m.owner m.name m.descriptor).1)
    (hmax : t.maxLocals = e.tracker.maxLocals) :
    Performs cause e
      ((e.withPool (e.pool.memberRef m.kind m.owner m.name m.descriptor).2).written t i) := by
  obtain ⟨hmax', hword'⟩ := noted_of_noteless hcause.noteless hmax
  refine .lays i ⟨Assembly.toList_append .., depth_iff_of_checked hcause.checked ?_,
    fun m' hm' => ?_, (localEnd?_of_none hlocal).trans hcause.accessless.symm, hmax', hword'⟩
  · rw [Appended.pops_of_member htable]
    exact hpops
  · rw [hcause.member, Option.some.injEq] at hm'
    subst hm'
    exact ⟨hword, pool_written ..⟩

/-! ### All operations -/

/-- **Each operation other than a conversion** lays one instruction or none. -/
theorem performs_run {op : Operation} (hop : op.isBasic = true) (h : op.run e = .ok (u, e')) :
    Performs op e e' := by
  cases op with
  | emit => exact performs_emit ⟨id, rfl, rfl⟩ rfl h
  | returnValue type => exact performs_emit ⟨id, rfl, rfl⟩ (by cases type <;> rfl) h
  | nullConst =>
    exact performs_emit ⟨id, rfl, rfl⟩ rfl (show emit .aconstNull e = .ok (u, e') from h)
  | intConst => exact performs_intConst ⟨id, rfl, rfl⟩ rfl h
  | longConst => exact performs_longConst ⟨id, rfl, rfl⟩ rfl h
  | floatConst => exact performs_floatConst ⟨id, rfl, rfl⟩ rfl h
  | doubleConst => exact performs_doubleConst ⟨id, rfl, rfl⟩ rfl h
  | textConst => exact performs_loadConstant ⟨id, rfl, rfl⟩ rfl (interned_eq_ok.1 h)
  | zeroOf => exact performs_zeroOf ⟨id, rfl, rfl⟩ rfl h
  | load => exact performs_load ⟨rfl, rfl, rfl⟩ id h
  | loadRef slot =>
    have hload : load .anyObject slot e = .ok (u, e') := h
    exact performs_load ⟨rfl, rfl, rfl⟩ id hload
  | store type slot =>
    refine performs_store ⟨rfl, rfl, rfl⟩ ?_ h
    cases type <;> simp [Operation.Unchecked]
  | storeRef slot =>
    have hstore : store .anyObject slot e = .ok (u, e') := h
    have haccess : (Operation.storeRef slot).IsAccess .anyObject slot := ⟨rfl, rfl, rfl⟩
    exact performs_store haccess ⟨False.elim, nofun⟩ hstore
  | increment => exact performs_increment h
  | popValue | dupValue => exact performs_bySlots ⟨id, rfl, rfl⟩ rfl rfl rfl h
  | newObject =>
    obtain ⟨-, rfl⟩ := newObject_eq_ok.1 h
    exact performs_fixed ⟨id, rfl, rfl⟩ (Assembly.toList_append ..) rfl (Nat.zero_le _) rfl rfl
  | checkCast =>
    obtain ⟨name, -, rfl⟩ := checkCast_eq_ok.1 h
    exact performs_unchecked (Assembly.toList_append ..) trivial rfl rfl rfl rfl rfl rfl
  | instanceOf =>
    obtain ⟨name, -, rfl⟩ := instanceOf_eq_ok.1 h
    exact performs_unchecked (Assembly.toList_append ..) trivial rfl rfl rfl rfl rfl rfl
  | newRefArray =>
    obtain ⟨name, -, rfl⟩ := newRefArray_eq_ok.1 h
    exact performs_unchecked (Assembly.toList_append ..) trivial rfl rfl rfl rfl rfl rfl
  | branch => exact performs_branch ⟨id, rfl, rfl⟩ rfl h
  | goto l =>
    have hgoto : branch .goto l e = .ok (u, e') := h
    exact performs_branch ⟨id, rfl, rfl⟩ rfl hgoto
  | newLabel =>
    obtain ⟨l, e₁, hnew, hpure⟩ := bind_eq_ok.1 h
    obtain ⟨-, rfl⟩ := newLabel_eq_ok.1 hnew
    obtain ⟨-, rfl⟩ := pure_eq_ok.1 hpure
    exact .quiet rfl rfl rfl
  | placeLabel =>
    obtain ⟨-, d, -, -, rfl⟩ := placeLabel_eq_ok.1 h
    exact .quiet rfl rfl rfl
  | noteLine line =>
    have hmark : markLine (·.noteLine line) e = .ok (u, e') := h
    exact performs_markLine ⟨id, rfl, rfl⟩ (fun t => sameSlots_noteLine t line) hmark
  | noteEnd =>
    have hmark : markLine (·.noteEnd) e = .ok (u, e') := h
    exact performs_markLine ⟨id, rfl, rfl⟩ sameSlots_noteEnd hmark
  | checkBalanced =>
    obtain ⟨-, rfl⟩ := checkBalanced_eq_ok.1 h
    exact .quiet rfl rfl rfl
  | convert => cases hop
  | getField owner name type =>
    obtain ⟨hpop, -, rfl⟩ := getField_eq_ok.1 h
    rw [fieldRef_eq]
    exact performs_member (m := ⟨.field, owner, name, type.descriptor⟩) ⟨id, rfl, rfl, rfl⟩ rfl rfl
      hpop (word_linked ..) rfl
  | putField owner name type =>
    obtain ⟨hpop, rfl⟩ := putField_eq_ok.1 h
    rw [fieldRef_eq]
    exact performs_member (m := ⟨.field, owner, name, type.descriptor⟩) ⟨id, rfl, rfl, rfl⟩ rfl rfl
      ((Nat.add_comm ..).trans_le hpop) (word_linked ..) rfl
  | getStatic owner name type =>
    obtain ⟨-, rfl⟩ := getStatic_eq_ok.1 h
    rw [fieldRef_eq]
    exact performs_member (m := ⟨.field, owner, name, type.descriptor⟩) ⟨id, rfl, rfl, rfl⟩ rfl rfl
      (Nat.zero_le _) (word_linked ..) rfl
  | putStatic owner name type =>
    obtain ⟨hpop, rfl⟩ := putStatic_eq_ok.1 h
    rw [fieldRef_eq]
    exact performs_member (m := ⟨.field, owner, name, type.descriptor⟩) ⟨id, rfl, rfl, rfl⟩ rfl rfl
      hpop (word_linked ..) rfl
  | invokeVirtual owner name type =>
    obtain ⟨-, hpop, -, rfl⟩ := invokeVirtual_eq_ok.1 h
    rw [methodRef_eq]
    exact performs_member (m := ⟨.method, owner, name, type.descriptor⟩) ⟨id, rfl, rfl, rfl⟩ rfl rfl
      hpop (word_linked ..) rfl
  | invokeSpecial owner name type =>
    obtain ⟨-, hpop, -, rfl⟩ := invokeSpecial_eq_ok.1 h
    rw [methodRef_eq]
    exact performs_member (m := ⟨.method, owner, name, type.descriptor⟩) ⟨id, rfl, rfl, rfl⟩ rfl rfl
      hpop (word_linked ..) rfl
  | invokeStatic owner name type =>
    obtain ⟨-, hpop, -, rfl⟩ := invokeStatic_eq_ok.1 h
    rw [methodRef_eq]
    exact performs_member (m := ⟨.method, owner, name, type.descriptor⟩) ⟨id, rfl, rfl, rfl⟩ rfl rfl
      hpop (word_linked ..) rfl
  | invokeInterface owner name type =>
    obtain ⟨-, hpop, -, rfl⟩ := invokeInterface_eq_ok.1 h
    rw [interfaceMethodRef_eq]
    exact performs_member (m := ⟨.interfaceMethod, owner, name, type.descriptor⟩)
      ⟨id, rfl, rfl, rfl⟩ rfl rfl hpop (word_zero rfl) rfl

end Emitter

end ClassForge
