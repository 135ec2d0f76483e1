import ClassForge.Proofs.Emission.Block

/-!
# Operations are blocks

The contracts of single operations. Depths stay far below the limit of a word in all code that is
put together here, so that each contract asks for a depth of at most `shallow`.

* `Block.emit`, `Block.load`, `Block.invokeVirtual` and their siblings — one contract per operation;
* `Block.toObject`, `Block.fromObject` — **PROVED**: the conversions between an object and a value
  of any type are blocks, `void` included.
-/

namespace ClassForge.Emitter

open ConstantPool Emit Instruction

variable {ret : JavaType} {fits short : Prop} {n r d d' : Nat} {x : Emit Unit}

/-- A depth that leaves enough slots of a word for any operation. -/
def shallow : Nat := 1000

/-! ### Written instructions -/

/-- An instruction after the code keeps the frame. -/
theorem frame_written {e : Emitter} (hneat : e.assembly.labels.size = e.labelDepths.size)
    (pool : ConstantPool) (t : Tracker) (i : Instruction) :
    Frame [] i.op.encodedLength e ((e.withPool pool).written t i) where
  grows := by
    refine Nat.le_trans (Nat.le_add_right _ _) (Nat.le_of_eq (Assembly.size_append _ i).symm)
  size := Nat.le_of_eq (Assembly.size_append _ i)
  neat := hneat
  labels _ _ := ⟨rfl, rfl⟩
  waits := nofun
  distinct := .nil
  branches _ hb := .inl hb

theorem Frame.withReachable {waiting : Waiting} {e e' : Emitter} (h : Frame waiting n e e')
    (reachable : Bool) : Frame waiting n e (e'.withReachable reachable) :=
  ⟨h.grows, h.size, h.neat, h.labels, h.waits, h.distinct, h.branches⟩

/-- An operation that writes one instruction is a block. -/
theorem Block.of_written
    (hrun : ∀ e : Emitter, e.reachable = true → e.tracker.depth = d → ∃ pool t i,
      x e = .ok ((), (e.withPool pool).written t i) ∧ t.depth = d' ∧ i.op.encodedLength ≤ n ∧
        Grows e.pool pool ∧ (short → ∀ k, e.pool.HasRoom (k + r) → pool.HasRoom k))
    (hstraight : ∀ e e' : Emitter, fits → e.pool.Coherent → e.tracker.depth = d →
      x e = .ok ((), e') → Straight ret e e') :
    Block ret fits short n r d (some d') x := by
  intro e hneat hreach hdepth
  obtain ⟨pool, t, i, hx, ht, hi, hgrows, hroom⟩ := hrun e hreach hdepth
  exact ⟨_, hx, (frame_written hneat pool t i).mono hi, ⟨hreach, ht⟩, hgrows,
    fun hfits hcoh => (hstraight e _ hfits hcoh hdepth hx).emits, hroom⟩

/-- An instruction without operands. -/
theorem Block.emit {op : Opcode} {effect : StackEffect} (hsize : op.operandSize = 0)
    (heffect : op.fixedEffect? = some effect) (hop : op.IsInner) (hd : d ≤ shallow)
    (hpop : effect.pop ≤ d) (hpush : d - effect.pop + effect.push = d' ∧ effect.push ≤ 4) :
    Block ret fits short 1 0 d (some d') (emit op) := by
  refine Block.of_written (fun e hreach hdepth => ?_) fun e e' _ _ _ h => straight_emit h hop
  subst hdepth
  refine ⟨e.pool, e.tracker.moved effect, .plain op hsize, ?_, hpush.1, ?_, .refl _,
    fun _ k hk => hk⟩
  · refine emit_eq_ok.2 ⟨hsize, effect, heffect, hpop, ?_, ?_⟩
    · unfold shallow at hd
      unfold wordMax
      omega
    · obtain ⟨assembly, pool, tracker, depths, reachable⟩ := e
      obtain rfl : reachable = true := hreach
      rw [hop.2.1]
      rfl
  · exact Nat.le_of_eq (congrArg (1 + ·) hsize)

/-- A return ends the block. -/
theorem Block.returnValue {type : JavaType} (hd : type.slots = d)
    (hret : fits → Inspection.returnFits (returnOp type) ret = true) :
    Block ret fits short 1 0 d none (returnValue type) := by
  intro e hneat hreach hdepth
  have hfacts : (returnOp type).operandSize = 0 ∧
      (returnOp type).fixedEffect? = some ⟨type.slots, 0⟩ ∧
      (returnOp type).isTerminal = true ∧ (returnOp type).localAccess? = none := by
    cases type <;> exact ⟨rfl, rfl, rfl, rfl⟩
  obtain ⟨hsize, heffect, hterm, hlocal⟩ := hfacts
  have hword : e.tracker.depth - type.slots + 0 ≤ wordMax := by
    have := type.slots_le_two
    unfold wordMax
    omega
  have hrun : Emitter.returnValue type e = .ok ((), _) :=
    emit_eq_ok.2 ⟨hsize, _, heffect, Nat.le_of_eq (hd.trans hdepth.symm), hword, rfl⟩
  have hframe := (frame_written hneat e.pool (e.tracker.moved ⟨type.slots, 0⟩)
    (.plain _ hsize)).mono (Nat.le_of_eq (congrArg (1 + ·) hsize))
  refine ⟨_, hrun, hframe.withReachable _, ?_, .refl _, fun hfits _ =>
    emits_emit hrun fun _ => ⟨hlocal, hret hfits⟩, fun _ k hk => hk⟩
  show (e.reachable && !(returnOp type).isTerminal) = false
  rw [hterm, Bool.not_true, Bool.and_false]

/-! ### Constants and local variables -/

theorem encodedLength_linked (op : Opcode) (w : UInt16) (h : op.operandSize = 2) :
    (linked op w h).op.encodedLength ≤ 3 :=
  Nat.le_of_eq (congrArg (1 + ·) h)

theorem add_two_le_wordMax (hd : d ≤ shallow) : d + 2 ≤ wordMax := by
  unfold shallow at hd
  unfold wordMax
  omega

theorem encodedLength_constantLoad (index : UInt16) :
    (constantLoad index).op.encodedLength ≤ 3 := by
  unfold constantLoad
  split
  · exact (by decide : Opcode.ldc.encodedLength ≤ 3)
  · exact (by decide : Opcode.ldcW.encodedLength ≤ 3)

theorem Block.textConst {text : String} (hd : d ≤ shallow) (hshort : short → ShortText text) :
    Block ret fits short 3 2 d (some (d + 1)) (textConst text) := by
  refine Block.of_written (fun e hreach hdepth => ?_) fun e e' _ hcoh _ h =>
    straight_textConst hcoh h
  subst hdepth
  have hword := add_two_le_wordMax hd
  exact ⟨_, _, _, textConst_eq_ok.2 ⟨by omega, rfl⟩, rfl, encodedLength_constantLoad _,
    grows_stringRef _ _, fun hs k hk => hk.stringRef (hshort hs)⟩

theorem Block.intConst (value : Int32) (hd : d ≤ shallow) :
    Block ret fits short 3 1 d (some (d + 1)) (intConst value) := by
  refine Block.of_written (fun e hreach hdepth => ?_) fun e e' _ hcoh _ h =>
    straight_intConst hcoh h
  subst hdepth
  have hword := add_two_le_wordMax hd
  have hemit (op : Opcode) (hsize : op.operandSize = 0) (heffect : op.fixedEffect? = some ⟨0, 1⟩)
      (hterm : op.isTerminal = false) : ∃ pool t i,
        Emitter.emit op e = .ok ((), (e.withPool pool).written t i) ∧
          t.depth = e.tracker.depth + 1 ∧ i.op.encodedLength ≤ 3 ∧ Grows e.pool pool ∧
          (short → ∀ k, e.pool.HasRoom (k + 1) → pool.HasRoom k) := by
    refine ⟨e.pool, e.tracker.moved ⟨0, 1⟩, .plain op hsize,
      emit_eq_ok.2 ⟨hsize, _, heffect, Nat.zero_le _, ?_, ?_⟩, rfl, ?_, .refl _,
      fun _ k hk => hk.mono (Nat.le_add_right k 1)⟩
    · show e.tracker.depth - 0 + 1 ≤ wordMax
      omega
    · rw [hreach, hterm]
      obtain ⟨assembly, pool, tracker, depths, reachable⟩ := e
      obtain rfl : reachable = true := hreach
      rfl
    · show 1 + op.operandSize ≤ 3
      omega
  unfold Emitter.intConst
  split_ifs
  -- The numbers from -1 to 5 have instructions of their own.
  iterate 7 (· exact hemit _ rfl rfl rfl)
  · exact ⟨e.pool, _, _, (short_push_eq_ok rfl).2 ⟨by omega, rfl⟩, rfl,
      (by decide : Opcode.bipush.encodedLength ≤ 3), .refl _,
      fun _ k hk => hk.mono (Nat.le_add_right k 1)⟩
  · exact ⟨e.pool, _, _, (linked_push_eq_ok rfl).2 ⟨by omega, rfl⟩, rfl,
      encodedLength_linked _ _ _, .refl _, fun _ k hk => hk.mono (Nat.le_add_right k 1)⟩
  · exact ⟨_, _, _, interned_eq_ok.2 (loadConstant_eq_ok.2 ⟨by rw [withPool_tracker]; omega, rfl⟩),
      rfl, encodedLength_constantLoad _, grows_intern _ trivial,
      fun _ k hk => HasRoom.intern (c := .integer value) hk⟩

theorem Block.load {type : JavaType} {slot : Nat} (hslot : slot ≤ 255) (hd : d ≤ shallow)
    (htype : fits → type ≠ .void) :
    Block ret fits short 3 0 d (some (d + type.slots)) (load type slot) := by
  obtain ⟨i, hi, hrun⟩ := exists_load type hslot
  refine Block.of_written (fun e hreach hdepth => ?_) fun e e' hfits _ _ h =>
    straight_load h fun _ => htype hfits
  subst hdepth
  have hword := add_two_le_wordMax hd
  have hslots := type.slots_le_two
  exact ⟨e.pool, _, i, (hrun _ _ _).2 ⟨by omega, rfl⟩, rfl, Nat.add_le_add_left hi.size 1,
    .refl _, fun _ k hk => hk⟩

theorem Block.loadRef {slot : Nat} (hslot : slot ≤ 255) (hd : d ≤ shallow) :
    Block ret fits short 3 0 d (some (d + 1)) (loadRef slot) :=
  Block.load hslot hd fun _ => nofun

/-- Between statements the stack is empty. -/
theorem Block.checkBalanced : Block ret fits short 0 0 0 (some 0) checkBalanced :=
  fun e hneat hreach hdepth =>
    ⟨e, checkBalanced_eq_ok.2 ⟨hdepth, rfl⟩, .refl hneat hreach hdepth⟩

theorem Block.markLine {noted : Tracker → Option UInt32 × Tracker}
    (hnoted : ∀ t : Tracker, t.SameSlots (noted t).2) :
    Block ret fits short 0 0 d (some d) (markLine noted) := by
  intro e hneat hreach hdepth
  obtain ⟨t, lines, ht, -, hrun⟩ := exists_markLine hnoted e
  refine ⟨_, hrun, ⟨Nat.le.refl, Nat.le.refl, hneat, fun _ _ => ⟨rfl, rfl⟩, nofun, .nil,
    fun _ hb => .inl hb⟩, ⟨hreach, ht.depth.trans hdepth⟩, .refl _, fun _ _ => ?_,
    fun _ _ hk => hk⟩
  exact (straight_markLine hnoted hrun).emits

/-! ### Members -/

theorem Block.getField {owner name : String} {type : JavaType} (hd : d ≤ shallow)
    (hfits : fits → FieldFits type)
    (hshort : short → ShortText owner ∧ ShortText name ∧ ShortText type.descriptor) :
    Block ret fits short 3 6 (d + 1) (some (d + type.slots)) (getField owner name type) := by
  refine Block.of_written (fun e hreach hdepth => ?_) fun e e' hf hcoh _ h =>
    straight_getField hcoh h fun _ => hfits hf
  have hword := add_two_le_wordMax hd
  have hslots := type.slots_le_two
  refine ⟨_, _, _, getField_eq_ok.2 ⟨by omega, by omega, rfl⟩, ?_, encodedLength_linked _ _ _,
    grows_fieldRef _ _ _ _, fun hs k hk => ?_⟩
  · show e.tracker.depth - 1 + type.slots = d + type.slots
    omega
  · obtain ⟨howner, hname, hdescriptor⟩ := hshort hs
    rw [fieldRef_eq]
    exact hk.memberRef howner hname hdescriptor

theorem Block.putField {owner name : String} {type : JavaType} (hfits : fits → FieldFits type)
    (hshort : short → ShortText owner ∧ ShortText name ∧ ShortText type.descriptor) :
    Block ret fits short 3 6 (d + 1 + type.slots) (some d) (putField owner name type) := by
  refine Block.of_written (fun e hreach hdepth => ?_) fun e e' hf hcoh _ h =>
    straight_putField hcoh h fun _ => hfits hf
  refine ⟨_, _, _, putField_eq_ok.2 ⟨by omega, rfl⟩, ?_, encodedLength_linked _ _ _,
    grows_fieldRef _ _ _ _, fun hs k hk => ?_⟩
  · show e.tracker.depth - (1 + type.slots) = d
    omega
  · obtain ⟨howner, hname, hdescriptor⟩ := hshort hs
    rw [fieldRef_eq]
    exact hk.memberRef howner hname hdescriptor

theorem Block.getStatic {owner name : String} {type : JavaType} (hd : d ≤ shallow)
    (hfits : fits → FieldFits type)
    (hshort : short → ShortText owner ∧ ShortText name ∧ ShortText type.descriptor) :
    Block ret fits short 3 6 d (some (d + type.slots)) (getStatic owner name type) := by
  refine Block.of_written (fun e hreach hdepth => ?_) fun e e' hf hcoh _ h =>
    straight_getStatic hcoh h fun _ => hfits hf
  subst hdepth
  have hword := add_two_le_wordMax hd
  have hslots := type.slots_le_two
  refine ⟨_, _, _, getStatic_eq_ok.2 ⟨by omega, rfl⟩, rfl, encodedLength_linked _ _ _,
    grows_fieldRef _ _ _ _, fun hs k hk => ?_⟩
  obtain ⟨howner, hname, hdescriptor⟩ := hshort hs
  rw [fieldRef_eq]
  exact hk.memberRef howner hname hdescriptor

/-- A call, by the instruction for it. -/
theorem Block.of_call {op : Opcode} {receiver : Bool} {owner name : String} {type : MethodType}
    (hsize : op.operandSize = 2)
    (hrun : ∀ e e' : Emitter, x e = .ok ((), e') ↔
      (callEffect type receiver).pop ≤ wordMax ∧ (callEffect type receiver).pop ≤ e.tracker.depth ∧
        e.tracker.depth - (callEffect type receiver).pop + type.retSlots ≤ wordMax ∧
        e' = (e.withPool (e.pool.methodRef owner name type).2).written
          (e.tracker.moved (callEffect type receiver))
          (.linked op (e.pool.methodRef owner name type).1 hsize))
    (hstraight : ∀ e e' : Emitter, fits → e.pool.Coherent → x e = .ok ((), e') →
      Straight ret e e')
    (hd : d ≤ shallow) (hentry : (callEffect type receiver).pop + d' = d)
    (hshort : short → ShortText owner ∧ ShortText name ∧ ShortText type.descriptor) :
    Block ret fits short 3 6 d (some (d' + type.retSlots)) x := by
  refine Block.of_written (fun e hreach hdepth => ?_) fun e e' hf hcoh _ h =>
    hstraight e e' hf hcoh h
  have hword := add_two_le_wordMax hd
  have hslots : type.retSlots ≤ 2 := type.ret.slots_le_two
  refine ⟨_, _, _, (hrun e _).2 ⟨by omega, by omega, by omega, rfl⟩, ?_, encodedLength_linked _ _ _,
    ?_, fun hs k hk => ?_⟩
  · show e.tracker.depth - (callEffect type receiver).pop + type.retSlots = d' + type.retSlots
    omega
  · rw [methodRef_eq]
    exact grows_memberRef _ _ _ _ _
  · obtain ⟨howner, hname, hdescriptor⟩ := hshort hs
    rw [methodRef_eq]
    exact hk.memberRef howner hname hdescriptor

section Calls

variable {owner name : String} {type : MethodType}

theorem Block.invokeVirtual (hd : d ≤ shallow) (hentry : (callEffect type true).pop + d' = d)
    (hfits : fits → CallFits type)
    (hshort : short → ShortText owner ∧ ShortText name ∧ ShortText type.descriptor) :
    Block ret fits short 3 6 d (some (d' + type.retSlots)) (invokeVirtual owner name type) :=
  Block.of_call rfl (fun _ _ => invokeVirtual_eq_ok) (fun _ _ hf hcoh h =>
    straight_invokeVirtual hcoh h fun _ => hfits hf) hd hentry hshort

theorem Block.invokeSpecial (hd : d ≤ shallow) (hentry : (callEffect type true).pop + d' = d)
    (hfits : fits → CallFits type)
    (hshort : short → ShortText owner ∧ ShortText name ∧ ShortText type.descriptor) :
    Block ret fits short 3 6 d (some (d' + type.retSlots)) (invokeSpecial owner name type) :=
  Block.of_call rfl (fun _ _ => invokeSpecial_eq_ok) (fun _ _ hf hcoh h =>
    straight_invokeSpecial hcoh h fun _ => hfits hf) hd hentry hshort

theorem Block.invokeStatic (hd : d ≤ shallow) (hentry : (callEffect type false).pop + d' = d)
    (hfits : fits → CallFits type)
    (hshort : short → ShortText owner ∧ ShortText name ∧ ShortText type.descriptor) :
    Block ret fits short 3 6 d (some (d' + type.retSlots)) (invokeStatic owner name type) :=
  Block.of_call rfl (fun _ _ => invokeStatic_eq_ok) (fun _ _ hf hcoh h =>
    straight_invokeStatic hcoh h fun _ => hfits hf) hd hentry hshort

end Calls

/-! ### Objects -/

theorem Block.newObject {name : String} (hd : d ≤ shallow) (hshort : short → ShortText name) :
    Block ret fits short 3 2 d (some (d + 1)) (newObject name) := by
  refine Block.of_written (fun e hreach hdepth => ?_) fun e e' _ hcoh _ h =>
    straight_newObject hcoh h
  subst hdepth
  have hword := add_two_le_wordMax hd
  exact ⟨_, _, _, newObject_eq_ok.2 ⟨by omega, rfl⟩, rfl, encodedLength_linked _ _ _,
    grows_classRef _ _, fun hs k hk => hk.classRef (hshort hs)⟩

/-- A cast asks for a slot only so that the tracker moves as the instruction does. -/
theorem Block.checkCast {type : JavaType} {name : String} (htype : type.className? = some name)
    (hd : fits → 1 ≤ d) (hshort : short → ShortText name) :
    Block ret fits short 3 2 d (some d) (checkCast type) := by
  refine Block.of_written (fun e hreach hdepth => ?_) fun e e' hf hcoh hdepth h =>
    straight_checkCast hcoh h fun _ => hdepth ▸ hd hf
  exact ⟨_, _, _, checkCast_eq_ok.2 ⟨name, htype, rfl⟩, hdepth, encodedLength_linked _ _ _,
    grows_classRef _ _, fun hs k hk => hk.classRef (hshort hs)⟩

/-- Pops slots and pushes none. -/
theorem Block.emitPop {op : Opcode} {k : Nat} (hsize : op.operandSize = 0)
    (heffect : op.fixedEffect? = some ⟨k, 0⟩) (hop : op.IsInner) (hd : d + k ≤ shallow) :
    Block ret fits short 1 0 (d + k) (some d) (Emitter.emit op) :=
  Block.emit hsize heffect hop hd (Nat.le_add_left k d) ⟨Nat.add_sub_cancel d k, Nat.zero_le 4⟩

theorem Block.popValue (type : JavaType) (hd : d + type.slots ≤ shallow) :
    Block ret fits short 1 0 (d + type.slots) (some d) (popValue type) := by
  cases type with
  | void => exact Block.pure.mono (Nat.zero_le 1) (Nat.le_refl 0)
  | long | double =>
    show Block ret fits short 1 0 (d + 2) (some d) (Emitter.emit .pop2)
    exact Block.emitPop rfl rfl ⟨rfl, rfl, rfl⟩ hd
  | boolean | byte | char | short | int | float | object | array =>
    show Block ret fits short 1 0 (d + 1) (some d) (Emitter.emit .pop)
    exact Block.emitPop rfl rfl ⟨rfl, rfl, rfl⟩ hd

/-- Pushes a constant that has an instruction of its own. -/
theorem Block.emitConst {op : Opcode} {k : Nat} (hsize : op.operandSize = 0)
    (heffect : op.fixedEffect? = some ⟨0, k⟩) (hop : op.IsInner) (hk : k ≤ 4)
    (hd : d ≤ shallow) : Block ret fits short 3 1 d (some (d + k)) (Emitter.emit op) :=
  (Block.emit hsize heffect hop hd (Nat.zero_le d) ⟨rfl, hk⟩).mono (by decide) (by decide)

theorem Block.zeroOf (type : JavaType) (hd : d ≤ shallow) :
    Block ret fits short 3 1 d (some (d + type.slots)) (zeroOf type) := by
  cases type with
  | void => exact Block.pure.mono (Nat.zero_le 3) (Nat.zero_le 1)
  | boolean | byte | char | short | int => exact Block.intConst 0 hd
  | long =>
    show Block ret fits short 3 1 d (some (d + 2)) (Emitter.emit .lconst0)
    exact Block.emitConst rfl rfl ⟨rfl, rfl, rfl⟩ (by decide) hd
  | float =>
    show Block ret fits short 3 1 d (some (d + 1)) (Emitter.emit .fconst0)
    exact Block.emitConst rfl rfl ⟨rfl, rfl, rfl⟩ (by decide) hd
  | double =>
    show Block ret fits short 3 1 d (some (d + 2)) (Emitter.emit .dconst0)
    exact Block.emitConst rfl rfl ⟨rfl, rfl, rfl⟩ (by decide) hd
  | object | array =>
    show Block ret fits short 3 1 d (some (d + 1)) (Emitter.emit .aconstNull)
    exact Block.emitConst rfl rfl ⟨rfl, rfl, rfl⟩ (by decide) hd

/-! ### Conversions -/

theorem plan_anyObject_right (type : JavaType) : Conversion.plan type .anyObject =
    match type with
    | .void => [.zero .anyObject]
    | .object _ | .array _ => []
    | _ => [.box type] := by
  cases type with
  | object name =>
    show (if _ then _ else _) = _
    split <;> rfl
  | array => rfl
  | void | boolean | byte | char | short | int | long | float | double => decide +kernel

theorem plan_anyObject_left (type : JavaType) : Conversion.plan .anyObject type =
    match type with
    | .void => [.discard .anyObject]
    | .object name => if name = JavaType.objectClass then [] else [.checkCast type]
    | .array _ => [.checkCast type]
    | _ => [.unbox type true] := by
  cases type with
  | object name =>
    show _ = if name = JavaType.objectClass then [] else [ConversionStep.checkCast (.object name)]
    unfold Conversion.plan
    by_cases hname : name = JavaType.objectClass
    · have heq : JavaType.anyObject = .object name := congrArg JavaType.object hname.symm
      rw [if_pos hname, if_pos heq]
    · have hne : JavaType.anyObject ≠ .object name := fun h =>
        hname (JavaType.object.inj h).symm
      have hany : (JavaType.object name).isAnyObject = false := beq_eq_false_iff_ne.2 hname
      rw [if_neg hname, if_neg hne]
      simp only [JavaType.isVoid, JavaType.isPrimitive, JavaType.anyObject, hany,
        Bool.false_eq_true, if_false]
  | array => rfl
  | void | boolean | byte | char | short | int | long | float | double => decide +kernel

theorem shortText_box {source : JavaType} {wrapper : String}
    (h : source.boxClass? = some wrapper) :
    ShortText wrapper ∧ ShortText (⟨[source], .ofClass wrapper⟩ : MethodType).descriptor := by
  cases source <;> cases h <;> exact ⟨by decide +kernel, by decide +kernel⟩

theorem shortText_unbox {target : JavaType} {accessor : String}
    (h : target.unboxMethod? = some accessor) :
    ShortText (internalName (Conversion.unboxOwner target)) ∧
      ShortText (Conversion.unboxOwner target) ∧ ShortText accessor ∧
      ShortText (MethodType.returning target).descriptor := by
  cases target <;> cases h <;>
    exact ⟨by decide +kernel, by decide +kernel, by decide +kernel, by decide +kernel⟩

theorem Block.box {source : JavaType} {wrapper : String} (h : source.boxClass? = some wrapper)
    (hd : d + source.slots ≤ shallow) :
    Block ret fits short 3 6 (d + source.slots) (some (d + 1)) (emitStep (.box source)) := by
  have hentry : (callEffect ⟨[source], .ofClass wrapper⟩ false).pop + d = d + source.slots := by
    show source.slots + 0 + 0 + d = d + source.slots
    omega
  unfold emitStep
  simp only [h]
  exact Block.invokeStatic hd hentry (fun _ => callFits_box h) fun _ =>
    ⟨(shortText_box h).1, by decide, (shortText_box h).2⟩

theorem Block.unbox {target : JavaType} {accessor : String}
    (h : target.unboxMethod? = some accessor) (hd : d + 2 ≤ shallow) :
    Block ret fits short 17 9 (d + 1) (some (d + target.slots)) (emitUnbox target true) := by
  obtain ⟨hclass, howner, haccessor, hdescriptor⟩ := shortText_unbox h
  rw [emitUnbox_eq h, if_pos rfl]
  have htest : Block ret fits short 1 0 (d + 1) (some (d + 1 + branchPop .ifnonnull))
      (Emitter.emit .dup) :=
    Block.emit rfl rfl ⟨rfl, rfl, rfl⟩ (by omega) (Nat.le_add_left 1 d) ⟨rfl, by decide⟩
  -- The null reference becomes the zero of the type.
  have hnull : Block ret fits short (1 + 3) (0 + 1) (d + 1) (some (d + target.slots))
      (do Emitter.popValue .anyObject; Emitter.zeroOf target) :=
    (Block.popValue .anyObject (show d + 1 ≤ shallow by omega)).seq (Block.zeroOf target (by omega))
  have hvalue : Block ret fits short (3 + 3) (2 + 6) (d + 1) (some (d + target.slots))
      (do
        Emitter.checkCast (.ofClass (Conversion.unboxOwner target))
        Emitter.invokeVirtual (Conversion.unboxOwner target) accessor (.returning target)) :=
    (Block.checkCast rfl (fun _ => Nat.le_add_left 1 d) fun _ => hclass).seq
      (Block.invokeVirtual (by omega) (Nat.add_comm 1 d) (fun _ => callFits_unbox h) fun _ =>
        ⟨howner, haccessor, hdescriptor⟩)
  exact Block.fork rfl rfl htest hnull hvalue (by decide)

/-- **Every value becomes an object**; nothing becomes the null reference. -/
theorem Block.toObject (type : JavaType) (hd : d + 2 ≤ shallow) :
    Block ret fits short 3 6 (d + type.slots) (some (d + 1)) (toObject type) := by
  have hslots := type.slots_le_two
  unfold Emitter.toObject convert
  rw [plan_anyObject_right]
  cases type with
  | void =>
    rw [emitSteps_singleton]
    exact (Block.zeroOf .anyObject (by omega)).mono (by decide) (by decide)
  | object | array => exact Block.pure.mono (by decide) (by decide)
  | boolean | byte | char | short | int | long | float | double =>
    rw [emitSteps_singleton]
    exact Block.box rfl (by omega)

/-- **An object becomes a value of every type**, or is discarded. -/
theorem Block.fromObject (type : JavaType) (hd : d + 2 ≤ shallow)
    (hshort : short → ∀ name, type.className? = some name → ShortText name) :
    Block ret fits short 17 9 (d + 1) (some (d + type.slots)) (fromObject type) := by
  have hcast {type : JavaType} {name : String} (htype : type.className? = some name)
      (hname : short → ShortText name) : Block ret fits short 17 9 (d + 1) (some (d + 1))
        (emitSteps [.checkCast type]) := by
    rw [emitSteps_singleton]
    exact (Block.checkCast htype (fun _ => Nat.le_add_left 1 d) hname).mono (by decide) (by decide)
  unfold Emitter.fromObject convert
  rw [plan_anyObject_left]
  cases type with
  | void =>
    rw [emitSteps_singleton]
    exact (Block.popValue .anyObject (show d + 1 ≤ shallow by omega)).mono (by decide) (by decide)
  | object name =>
    dsimp only
    split
    · exact Block.pure.mono (by decide) (by decide)
    · exact hcast rfl fun hs => hshort hs name rfl
  | array elem => exact hcast rfl fun hs => hshort hs _ rfl
  | boolean | byte | char | short | int | long | float | double =>
    rw [emitSteps_singleton]
    exact Block.unbox rfl hd

end ClassForge.Emitter
