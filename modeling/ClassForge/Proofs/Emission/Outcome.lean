import ClassForge.Proofs.Emission.Action

/-!
# Outcomes of operations

When an operation of an emitter succeeds, and the emitter it leaves behind: a constant interned, one
instruction written, the tracker moved. Everything else about operations is derived from these
equivalences, in either direction.
-/

namespace ClassForge

/-- The slots after an instruction with the given effect. -/
def Tracker.moved (t : Tracker) (effect : StackEffect) : Tracker :=
  { t with
    depth := t.depth - effect.pop + effect.push
    maxDepth := max t.maxDepth (t.depth - effect.pop + effect.push) }

/-- The slots after an instruction that only pops. -/
def Tracker.lowered (t : Tracker) (n : Nat) : Tracker := { t with depth := t.depth - n }

/-- The slots with an access to some of the local ones. -/
def Tracker.noted (t : Tracker) (stop : Nat) : Tracker :=
  { t with maxLocals := max t.maxLocals stop }

namespace Emitter

open Emit Instruction

variable {e e' : Emitter} {u : Unit}

/-- The emitter with an instruction after its code. -/
def written (e : Emitter) (t : Tracker) (i : Instruction) : Emitter :=
  { e with tracker := t, assembly := e.assembly.append i }

/-! ### Moves and writes -/

theorem interned_eq_ok {α : Type} {f : ConstantPool → UInt16 × ConstantPool}
    {k : UInt16 → Emit α} {a : α} :
    (intern f >>= k) e = .ok (a, e') ↔ k (f e.pool).1 (e.withPool (f e.pool).2) = .ok (a, e') :=
  Iff.rfl

theorem move_eq_ok {n m : Nat} :
    (do pop n; push m) e = .ok (u, e') ↔
      n ≤ e.tracker.depth ∧ e.tracker.depth - n + m ≤ wordMax ∧
        e' = e.withTracker (e.tracker.moved ⟨n, m⟩) := by
  rw [bind_eq_ok]
  constructor
  · rintro ⟨_, e₁, hpop, hpush⟩
    obtain ⟨hle, rfl⟩ := pop_eq_ok.1 hpop
    obtain ⟨hword, rfl⟩ := push_eq_ok.1 hpush
    exact ⟨hle, hword, rfl⟩
  · rintro ⟨hle, hword, rfl⟩
    exact ⟨(), _, pop_eq_ok.2 ⟨hle, rfl⟩, push_eq_ok.2 ⟨hword, rfl⟩⟩

theorem writeLinked_eq {op : Opcode} (h : op.operandSize = 2) (w : UInt16) (e : Emitter) :
    writeLinked op w e = .ok ((), e.withAssembly (e.assembly.append (.linked op w h))) := by
  rw [← Assembly.writeOp_writeWord_eq]
  rfl

/-- An instruction that names a constant, and the slots it moves. -/
theorem linked_move_eq_ok {op : Opcode} (h : op.operandSize = 2) {w : UInt16} {n m : Nat} :
    (do writeLinked op w; pop n; push m) e = .ok (u, e') ↔
      n ≤ e.tracker.depth ∧ e.tracker.depth - n + m ≤ wordMax ∧
        e' = e.written (e.tracker.moved ⟨n, m⟩) (.linked op w h) := by
  show (writeLinked op w >>= fun _ => do pop n; push m) e = .ok (u, e') ↔ _
  rw [bind_eq_ok, writeLinked_eq h]
  constructor
  · rintro ⟨_, _, ⟨⟩, hmove⟩
    obtain ⟨hle, hword, rfl⟩ := move_eq_ok.1 hmove
    exact ⟨hle, hword, rfl⟩
  · rintro ⟨hle, hword, rfl⟩
    exact ⟨_, _, rfl, move_eq_ok.2 ⟨hle, hword, rfl⟩⟩

/-- An instruction that names a constant and pushes. -/
theorem linked_push_eq_ok {op : Opcode} (h : op.operandSize = 2) {w : UInt16} {n : Nat} :
    (do writeLinked op w; push n) e = .ok (u, e') ↔
      e.tracker.depth + n ≤ wordMax ∧ e' = e.written (e.tracker.moved ⟨0, n⟩) (.linked op w h) := by
  rw [bind_eq_ok, writeLinked_eq h]
  constructor
  · rintro ⟨_, _, ⟨⟩, hpush⟩
    obtain ⟨hword, rfl⟩ := push_eq_ok.1 hpush
    exact ⟨hword, rfl⟩
  · rintro ⟨hword, rfl⟩
    exact ⟨_, _, rfl, push_eq_ok.2 ⟨hword, rfl⟩⟩

/-- An instruction that names a constant and pops. -/
theorem linked_pop_eq_ok {op : Opcode} (h : op.operandSize = 2) {w : UInt16} {n : Nat} :
    (do writeLinked op w; pop n) e = .ok (u, e') ↔
      n ≤ e.tracker.depth ∧ e' = e.written (e.tracker.lowered n) (.linked op w h) := by
  rw [bind_eq_ok, writeLinked_eq h]
  constructor
  · rintro ⟨_, _, ⟨⟩, hpop⟩
    obtain ⟨hle, rfl⟩ := pop_eq_ok.1 hpop
    exact ⟨hle, rfl⟩
  · rintro ⟨hle, rfl⟩
    exact ⟨_, _, rfl, pop_eq_ok.2 ⟨hle, rfl⟩⟩

/-! ### Plain instructions -/

theorem emit_eq_ok {op : Opcode} :
    emit op e = .ok (u, e') ↔
      ∃ (h : op.operandSize = 0) (effect : StackEffect), op.fixedEffect? = some effect ∧
        effect.pop ≤ e.tracker.depth ∧ e.tracker.depth - effect.pop + effect.push ≤ wordMax ∧
        e' = (e.written (e.tracker.moved effect) (.plain op h)).withReachable
          (e.reachable && !op.isTerminal) := by
  unfold emit
  rw [guard_eq_ok, not_not]
  constructor
  · rintro ⟨hsize, h⟩
    cases heffect : op.fixedEffect? with
    | none =>
      simp only [heffect] at h
      exact absurd h throw_ne_ok
    | some effect =>
      simp only [heffect] at h
      obtain ⟨_, e₁, hpop, h⟩ := bind_eq_ok.1 h
      obtain ⟨_, e₂, hpush, h⟩ := bind_eq_ok.1 h
      obtain ⟨_, e₃, hwrite, hleave⟩ := bind_eq_ok.1 h
      obtain ⟨hdepth, rfl⟩ := pop_eq_ok.1 hpop
      obtain ⟨hword, rfl⟩ := push_eq_ok.1 hpush
      obtain rfl := assemble_eq_ok.1 hwrite
      obtain rfl := leave_eq_ok.1 hleave
      refine ⟨hsize, effect, rfl, hdepth, hword, ?_⟩
      rw [Assembly.writeOp_eq _ hsize]
      rfl
  · rintro ⟨hsize, effect, heffect, hdepth, hword, rfl⟩
    refine ⟨hsize, ?_⟩
    simp only [heffect]
    refine bind_eq_ok.2 ⟨(), _, pop_eq_ok.2 ⟨hdepth, rfl⟩, bind_eq_ok.2
      ⟨(), _, push_eq_ok.2 ⟨hword, rfl⟩, bind_eq_ok.2 ⟨(), _, assemble_eq_ok.2 rfl,
        leave_eq_ok.2 ?_⟩⟩⟩
    rw [Assembly.writeOp_eq _ hsize]
    rfl

/-! ### Constants -/

/-- The instruction that pushes a single-slot constant of the pool. -/
def constantLoad (index : UInt16) : Instruction :=
  if index.toNat ≤ 255 then .short .ldc index.toUInt8 rfl else .linked .ldcW index rfl

/-- An instruction with an operand byte that pushes. -/
theorem short_push_eq_ok {op : Opcode} (h : op.operandSize = 1) {b : UInt8} {n : Nat} :
    (do writeOp op; writeByte b; push n) e = .ok (u, e') ↔
      e.tracker.depth + n ≤ wordMax ∧ e' = e.written (e.tracker.moved ⟨0, n⟩) (.short op b h) := by
  rw [bind_eq_ok]
  constructor
  · rintro ⟨_, e₁, hop, hrest⟩
    obtain ⟨_, e₂, hbyte, hpush⟩ := bind_eq_ok.1 hrest
    obtain rfl := assemble_eq_ok.1 hop
    obtain rfl := assemble_eq_ok.1 hbyte
    obtain ⟨hword, rfl⟩ := push_eq_ok.1 hpush
    refine ⟨hword, ?_⟩
    rw [written, ← Assembly.writeOp_writeByte_eq]
    rfl
  · rintro ⟨hword, rfl⟩
    refine ⟨(), _, assemble_eq_ok.2 rfl, bind_eq_ok.2 ⟨(), _, assemble_eq_ok.2 rfl,
      push_eq_ok.2 ⟨hword, ?_⟩⟩⟩
    rw [written, ← Assembly.writeOp_writeByte_eq]
    rfl

theorem loadConstant_eq_ok {index : UInt16} :
    loadConstant index e = .ok (u, e') ↔
      e.tracker.depth + 1 ≤ wordMax ∧
        e' = e.written (e.tracker.moved ⟨0, 1⟩) (constantLoad index) := by
  unfold loadConstant constantLoad
  by_cases hshort : index.toNat ≤ 255
  · rw [if_pos hshort, if_pos hshort]
    exact short_push_eq_ok rfl
  · rw [if_neg hshort, if_neg hshort]
    exact linked_push_eq_ok rfl

theorem loadWideConstant_eq_ok {index : UInt16} :
    loadWideConstant index e = .ok (u, e') ↔
      e.tracker.depth + 2 ≤ wordMax ∧
        e' = e.written (e.tracker.moved ⟨0, 2⟩) (.linked .ldc2W index rfl) :=
  linked_push_eq_ok rfl

theorem textConst_eq_ok {text : String} :
    textConst text e = .ok (u, e') ↔
      e.tracker.depth + 1 ≤ wordMax ∧
        e' = (e.withPool (e.pool.stringRef text).2).written (e.tracker.moved ⟨0, 1⟩)
          (constantLoad (e.pool.stringRef text).1) :=
  interned_eq_ok.trans loadConstant_eq_ok

/-! ### Local variables -/

/-- The instructions that access a local variable: one for each of the slots 0 to 3, in a row from
`first` on, and a general one. -/
structure LocalFamily (first general : Opcode) (effect : StackEffect) (width : Nat) : Prop where
  row : ∀ slot ≤ 3, ∃ op : Opcode, op.byte = first.byte + UInt8.ofNat slot ∧
    op.operandSize = 0 ∧ op.fixedEffect? = some effect ∧ op.isTerminal = false ∧
    op.localAccess? = some ⟨width, some slot⟩
  size : general.operandSize = 1
  effect : general.fixedEffect? = some effect
  terminal : general.isTerminal = false
  access : general.localAccess? = some ⟨width, none⟩

/-- An instruction that accesses local slots up to `stop`. -/
structure IsAccess (i : Instruction) (effect : StackEffect) (stop : Nat) : Prop where
  size : i.op.operandSize ≤ 2
  effect : i.op.fixedEffect? = some effect
  terminal : i.op.isTerminal = false
  stop : i.localEnd? = some stop

/-- Every slot that one byte can name has its instruction. -/
theorem LocalFamily.exists_access {first general : Opcode} {effect : StackEffect} {width : Nat}
    (h : LocalFamily first general effect width) {slot : Nat} (hslot : slot ≤ 255) (w : Nat) :
    ∃ i, IsAccess i effect (slot + width) ∧ ∀ e u e',
      accessLocal first general slot w e = .ok (u, e') ↔
        slot + w ≤ wordMax ∧ e' = e.written (e.tracker.noted (slot + w)) i := by
  by_cases hshort : slot ≤ 3
  · obtain ⟨op, hbyte, hsize, heffect, hterm, haccess⟩ := h.row slot hshort
    refine ⟨.plain op hsize, ⟨by rw [plain, hsize]; omega, heffect, hterm, ?_⟩, fun e u e' => ?_⟩
    · rw [localEnd?, plain, haccess]
      rfl
    · unfold accessLocal
      rw [if_pos hshort, bind_eq_ok]
      constructor
      · rintro ⟨_, e₁, hnote, hwrite⟩
        obtain ⟨hword, rfl⟩ := noteLocal_eq_ok.1 hnote
        obtain rfl := assemble_eq_ok.1 hwrite
        refine ⟨hword, ?_⟩
        rw [written, ← Assembly.writeOp_eq _ hsize, ← hbyte]
        rfl
      · rintro ⟨hword, rfl⟩
        refine ⟨(), _, noteLocal_eq_ok.2 ⟨hword, rfl⟩, assemble_eq_ok.2 ?_⟩
        rw [written, ← Assembly.writeOp_eq _ hsize, ← hbyte]
        rfl
  · have hindex : (UInt8.ofNat slot).toNat = slot := by
      rw [UInt8.toNat_ofNat']
      exact Nat.mod_eq_of_lt (by omega)
    refine ⟨.short general (UInt8.ofNat slot) h.size,
      ⟨by rw [short, h.size]; omega, h.effect, h.terminal, ?_⟩, fun e u e' => ?_⟩
    · rw [localEnd?, short, h.access]
      show some ((UInt8.ofNat slot).toNat + width) = _
      rw [hindex]
    · unfold accessLocal
      rw [if_neg hshort, bind_eq_ok]
      constructor
      · rintro ⟨_, e₁, hnote, hrest⟩
        obtain ⟨_, e₂, hop, hrest⟩ := bind_eq_ok.1 hrest
        obtain ⟨b, e₃, hslotByte, hbyte⟩ := bind_eq_ok.1 hrest
        obtain ⟨hword, rfl⟩ := noteLocal_eq_ok.1 hnote
        obtain rfl := assemble_eq_ok.1 hop
        obtain ⟨-, rfl, rfl⟩ := slotByte_eq_ok.1 hslotByte
        obtain rfl := assemble_eq_ok.1 hbyte
        refine ⟨hword, ?_⟩
        rw [written, ← Assembly.writeOp_writeByte_eq]
        rfl
      · rintro ⟨hword, rfl⟩
        refine ⟨(), _, noteLocal_eq_ok.2 ⟨hword, rfl⟩, bind_eq_ok.2 ⟨(), _, assemble_eq_ok.2 rfl,
          bind_eq_ok.2 ⟨_, _, slotByte_eq_ok.2 ⟨hslot, rfl, rfl⟩, assemble_eq_ok.2 ?_⟩⟩⟩
        rw [written, ← Assembly.writeOp_writeByte_eq]
        rfl

theorem slot_le_of_accessLocal {first general : Opcode} {slot w : Nat}
    (h : accessLocal first general slot w e = .ok (u, e')) : slot ≤ 255 := by
  unfold accessLocal at h
  by_cases hshort : slot ≤ 3
  · omega
  · rw [if_neg hshort] at h
    obtain ⟨_, e₁, -, h⟩ := bind_eq_ok.1 h
    obtain ⟨_, e₂, -, h⟩ := bind_eq_ok.1 h
    obtain ⟨b, e₃, hslotByte, -⟩ := bind_eq_ok.1 h
    exact (slotByte_eq_ok.1 hslotByte).1

/-- The width of a variable of a type as its instructions see it: `void` counts as an `int`. -/
def accessWidth (type : JavaType) : Nat := if type = .void then 1 else type.slots

/-- A family, read off the table of instructions. -/
theorem localFamily_of_table {first general : Opcode} {effect : StackEffect} {width : Nat}
    (hrow : ∀ slot : Fin 4, ((Opcode.ofByte? (first.byte + UInt8.ofNat slot)).any fun op =>
      op.byte == first.byte + UInt8.ofNat slot && op.operandSize == 0 &&
        op.fixedEffect? == some effect && !op.isTerminal &&
        op.localAccess? == some ⟨width, some slot⟩) = true)
    (hgeneral : general.operandSize = 1 ∧ general.fixedEffect? = some effect ∧
      general.isTerminal = false ∧ general.localAccess? = some ⟨width, none⟩) :
    LocalFamily first general effect width := by
  refine ⟨fun slot hslot => ?_, hgeneral.1, hgeneral.2.1, hgeneral.2.2.1, hgeneral.2.2.2⟩
  have hop := hrow ⟨slot, by omega⟩
  cases hbyte : Opcode.ofByte? (first.byte + UInt8.ofNat slot) with
  | none =>
    simp only [hbyte, Option.any_none] at hop
    cases hop
  | some op =>
    simp only [hbyte, Option.any_some, Bool.and_eq_true, beq_iff_eq, Bool.not_eq_true'] at hop
    exact ⟨op, hop.1.1.1.1, hop.1.1.1.2, hop.1.1.2, hop.1.2, hop.2⟩

theorem loadFamily (type : JavaType) :
    LocalFamily (loadOps type).1 (loadOps type).2 ⟨0, accessWidth type⟩ (accessWidth type) := by
  have hint : LocalFamily .iload0 .iload ⟨0, 1⟩ 1 :=
    localFamily_of_table (by decide +kernel) (by decide)
  have href : LocalFamily .aload0 .aload ⟨0, 1⟩ 1 :=
    localFamily_of_table (by decide +kernel) (by decide)
  cases type with
  | void | boolean | byte | char | short | int => exact hint
  | long => exact localFamily_of_table (by decide +kernel) (by decide)
  | float => exact localFamily_of_table (by decide +kernel) (by decide)
  | double => exact localFamily_of_table (by decide +kernel) (by decide)
  | object | array => exact href

theorem storeFamily (type : JavaType) :
    LocalFamily (storeOps type).1 (storeOps type).2 ⟨accessWidth type, 0⟩ (accessWidth type) := by
  have hint : LocalFamily .istore0 .istore ⟨1, 0⟩ 1 :=
    localFamily_of_table (by decide +kernel) (by decide)
  have href : LocalFamily .astore0 .astore ⟨1, 0⟩ 1 :=
    localFamily_of_table (by decide +kernel) (by decide)
  cases type with
  | void | boolean | byte | char | short | int => exact hint
  | long => exact localFamily_of_table (by decide +kernel) (by decide)
  | float => exact localFamily_of_table (by decide +kernel) (by decide)
  | double => exact localFamily_of_table (by decide +kernel) (by decide)
  | object | array => exact href

theorem exists_load (type : JavaType) {slot : Nat} (hslot : slot ≤ 255) :
    ∃ i, IsAccess i ⟨0, accessWidth type⟩ (slot + accessWidth type) ∧ ∀ e u e',
      load type slot e = .ok (u, e') ↔
        e.tracker.depth + type.slots ≤ wordMax ∧
          e' = e.written ((e.tracker.noted (slot + type.slots)).moved ⟨0, type.slots⟩) i := by
  obtain ⟨i, hi, hrun⟩ := (loadFamily type).exists_access hslot type.slots
  have hslots := type.slots_le_two
  refine ⟨i, hi, fun e u e' => ?_⟩
  unfold load
  rw [bind_eq_ok]
  constructor
  · rintro ⟨_, e₁, haccess, hpush⟩
    obtain ⟨-, rfl⟩ := (hrun _ _ _).1 haccess
    obtain ⟨hword, rfl⟩ := push_eq_ok.1 hpush
    exact ⟨hword, rfl⟩
  · rintro ⟨hword, rfl⟩
    refine ⟨(), _, (hrun _ _ _).2 ⟨?_, rfl⟩, push_eq_ok.2 ⟨hword, rfl⟩⟩
    unfold wordMax
    omega

theorem exists_store (type : JavaType) {slot : Nat} (hslot : slot ≤ 255) :
    ∃ i, IsAccess i ⟨accessWidth type, 0⟩ (slot + accessWidth type) ∧ ∀ e u e',
      store type slot e = .ok (u, e') ↔
        type.slots ≤ e.tracker.depth ∧
          e' = e.written ((e.tracker.lowered type.slots).noted (slot + type.slots)) i := by
  obtain ⟨i, hi, hrun⟩ := (storeFamily type).exists_access hslot type.slots
  have hslots := type.slots_le_two
  refine ⟨i, hi, fun e u e' => ?_⟩
  unfold store
  rw [bind_eq_ok]
  constructor
  · rintro ⟨_, e₁, hpop, haccess⟩
    obtain ⟨hle, rfl⟩ := pop_eq_ok.1 hpop
    obtain ⟨-, rfl⟩ := (hrun _ _ _).1 haccess
    exact ⟨hle, rfl⟩
  · rintro ⟨hle, rfl⟩
    refine ⟨(), _, pop_eq_ok.2 ⟨hle, rfl⟩, (hrun _ _ _).2 ⟨?_, rfl⟩⟩
    unfold wordMax
    omega

theorem increment_eq_ok {slot : Nat} {delta : Int8} :
    increment slot delta e = .ok (u, e') ↔
      slot ≤ 255 ∧ e' = e.written (e.tracker.noted (slot + 1))
        ⟨.iinc, [UInt8.ofNat slot, delta.toUInt8], rfl⟩ := by
  have hcode : ∀ a : Assembly, ((a.writeOp .iinc).writeByte (UInt8.ofNat slot)).writeByte
      delta.toUInt8 = a.append ⟨.iinc, [UInt8.ofNat slot, delta.toUInt8], rfl⟩ := by
    intro a
    simp only [Assembly.writeOp, Assembly.writeByte, Assembly.append, bytes, Assembly.mk.injEq,
      and_true]
    exact Array.ext' (by simp)
  unfold increment
  rw [bind_eq_ok]
  constructor
  · rintro ⟨b, e₀, hslotByte, h⟩
    obtain ⟨_, e₁, hnote, h⟩ := bind_eq_ok.1 h
    obtain ⟨_, e₂, hop, h⟩ := bind_eq_ok.1 h
    obtain ⟨_, e₃, hbyte, hdelta⟩ := bind_eq_ok.1 h
    obtain ⟨hslot, rfl, rfl⟩ := slotByte_eq_ok.1 hslotByte
    obtain ⟨-, rfl⟩ := noteLocal_eq_ok.1 hnote
    obtain rfl := assemble_eq_ok.1 hop
    obtain rfl := assemble_eq_ok.1 hbyte
    obtain rfl := assemble_eq_ok.1 hdelta
    refine ⟨hslot, ?_⟩
    rw [written, ← hcode]
    rfl
  · rintro ⟨hslot, rfl⟩
    have hword : slot + 1 ≤ wordMax := by
      unfold wordMax
      omega
    refine ⟨_, _, slotByte_eq_ok.2 ⟨hslot, rfl, rfl⟩, bind_eq_ok.2 ⟨(), _,
      noteLocal_eq_ok.2 ⟨hword, rfl⟩, bind_eq_ok.2 ⟨(), _, assemble_eq_ok.2 rfl,
        bind_eq_ok.2 ⟨(), _, assemble_eq_ok.2 rfl, assemble_eq_ok.2 ?_⟩⟩⟩⟩
    rw [written, ← hcode]
    rfl

/-! ### Members -/

theorem getField_eq_ok {owner name : String} {type : JavaType} :
    getField owner name type e = .ok (u, e') ↔
      1 ≤ e.tracker.depth ∧ e.tracker.depth - 1 + type.slots ≤ wordMax ∧
        e' = (e.withPool (e.pool.fieldRef owner name type.descriptor).2).written
          (e.tracker.moved ⟨1, type.slots⟩)
          (.linked .getfield (e.pool.fieldRef owner name type.descriptor).1 rfl) := by
  unfold getField
  rw [interned_eq_ok, linked_move_eq_ok rfl, withPool_tracker]

theorem putField_eq_ok {owner name : String} {type : JavaType} :
    putField owner name type e = .ok (u, e') ↔
      1 + type.slots ≤ e.tracker.depth ∧
        e' = (e.withPool (e.pool.fieldRef owner name type.descriptor).2).written
          (e.tracker.lowered (1 + type.slots))
          (.linked .putfield (e.pool.fieldRef owner name type.descriptor).1 rfl) := by
  unfold putField
  rw [interned_eq_ok, linked_pop_eq_ok rfl, withPool_tracker]

theorem getStatic_eq_ok {owner name : String} {type : JavaType} :
    getStatic owner name type e = .ok (u, e') ↔
      e.tracker.depth + type.slots ≤ wordMax ∧
        e' = (e.withPool (e.pool.fieldRef owner name type.descriptor).2).written
          (e.tracker.moved ⟨0, type.slots⟩)
          (.linked .getstatic (e.pool.fieldRef owner name type.descriptor).1 rfl) := by
  unfold getStatic
  rw [interned_eq_ok, linked_push_eq_ok rfl, withPool_tracker]

theorem putStatic_eq_ok {owner name : String} {type : JavaType} :
    putStatic owner name type e = .ok (u, e') ↔
      type.slots ≤ e.tracker.depth ∧
        e' = (e.withPool (e.pool.fieldRef owner name type.descriptor).2).written
          (e.tracker.lowered type.slots)
          (.linked .putstatic (e.pool.fieldRef owner name type.descriptor).1 rfl) := by
  unfold putStatic
  rw [interned_eq_ok, linked_pop_eq_ok rfl, withPool_tracker]

/-! ### Calls -/

/-- The effect of a call, with or without a receiver. -/
def callEffect (type : MethodType) (receiver : Bool) : StackEffect :=
  ⟨type.argSlots + (if receiver then 1 else 0), type.retSlots⟩

theorem call_eq_ok {type : MethodType} {receiver : Bool} :
    call type receiver e = .ok (u, e') ↔
      (callEffect type receiver).pop ≤ wordMax ∧
        (callEffect type receiver).pop ≤ e.tracker.depth ∧
        e.tracker.depth - (callEffect type receiver).pop + type.retSlots ≤ wordMax ∧
        e' = e.withTracker (e.tracker.moved (callEffect type receiver)) := by
  unfold call
  rw [bind_eq_ok]
  constructor
  · rintro ⟨n, e₁, hlift, hmove⟩
    obtain ⟨hword, rfl⟩ := liftM_eq_ok.1 hlift
    obtain ⟨rfl, hn⟩ := MethodType.callWord_eq_ok.1 hword
    obtain ⟨hle, hpush, rfl⟩ := move_eq_ok.1 hmove
    exact ⟨hn, hle, hpush, rfl⟩
  · rintro ⟨hn, hle, hpush, rfl⟩
    exact ⟨_, _, liftM_eq_ok.2 ⟨MethodType.callWord_eq_ok.2 ⟨rfl, hn⟩, rfl⟩,
      move_eq_ok.2 ⟨hle, hpush, rfl⟩⟩

theorem linked_call_eq_ok {op : Opcode} (h : op.operandSize = 2) {w : UInt16} {type : MethodType}
    {receiver : Bool} :
    (do writeLinked op w; call type receiver) e = .ok (u, e') ↔
      (callEffect type receiver).pop ≤ wordMax ∧
        (callEffect type receiver).pop ≤ e.tracker.depth ∧
        e.tracker.depth - (callEffect type receiver).pop + type.retSlots ≤ wordMax ∧
        e' = e.written (e.tracker.moved (callEffect type receiver)) (.linked op w h) := by
  rw [bind_eq_ok, writeLinked_eq h]
  constructor
  · rintro ⟨_, _, ⟨⟩, hcall⟩
    obtain ⟨hn, hle, hpush, rfl⟩ := call_eq_ok.1 hcall
    exact ⟨hn, hle, hpush, rfl⟩
  · rintro ⟨hn, hle, hpush, rfl⟩
    exact ⟨_, _, rfl, call_eq_ok.2 ⟨hn, hle, hpush, rfl⟩⟩

theorem invokeVirtual_eq_ok {owner name : String} {type : MethodType} :
    invokeVirtual owner name type e = .ok (u, e') ↔
      (callEffect type true).pop ≤ wordMax ∧ (callEffect type true).pop ≤ e.tracker.depth ∧
        e.tracker.depth - (callEffect type true).pop + type.retSlots ≤ wordMax ∧
        e' = (e.withPool (e.pool.methodRef owner name type).2).written
          (e.tracker.moved (callEffect type true))
          (.linked .invokevirtual (e.pool.methodRef owner name type).1 rfl) := by
  unfold invokeVirtual
  rw [interned_eq_ok, linked_call_eq_ok rfl, withPool_tracker]

theorem invokeSpecial_eq_ok {owner name : String} {type : MethodType} :
    invokeSpecial owner name type e = .ok (u, e') ↔
      (callEffect type true).pop ≤ wordMax ∧ (callEffect type true).pop ≤ e.tracker.depth ∧
        e.tracker.depth - (callEffect type true).pop + type.retSlots ≤ wordMax ∧
        e' = (e.withPool (e.pool.methodRef owner name type).2).written
          (e.tracker.moved (callEffect type true))
          (.linked .invokespecial (e.pool.methodRef owner name type).1 rfl) := by
  unfold invokeSpecial
  rw [interned_eq_ok, linked_call_eq_ok rfl, withPool_tracker]

theorem invokeStatic_eq_ok {owner name : String} {type : MethodType} :
    invokeStatic owner name type e = .ok (u, e') ↔
      (callEffect type false).pop ≤ wordMax ∧ (callEffect type false).pop ≤ e.tracker.depth ∧
        e.tracker.depth - (callEffect type false).pop + type.retSlots ≤ wordMax ∧
        e' = (e.withPool (e.pool.methodRef owner name type).2).written
          (e.tracker.moved (callEffect type false))
          (.linked .invokestatic (e.pool.methodRef owner name type).1 rfl) := by
  unfold invokeStatic
  rw [interned_eq_ok, linked_call_eq_ok rfl, withPool_tracker]

/-- The instruction of an interface call: the slots it takes are repeated after the constant. -/
def interfaceCall (index : UInt16) (slots : Nat) : Instruction :=
  ⟨.invokeinterface, word16 index ++ [UInt8.ofNat slots, 0], rfl⟩

theorem writeOp_interfaceCall (a : Assembly) (index : UInt16) (slots : Nat) :
    (((a.writeOp .invokeinterface).writeWord index).writeByte (UInt8.ofNat slots)).writeByte 0 =
      a.append (interfaceCall index slots) := by
  simp only [Assembly.writeOp, Assembly.writeByte, Assembly.writeWord, Assembly.append,
    interfaceCall, bytes, Assembly.mk.injEq, and_true]
  exact Array.ext' (by simp [word16, beBytes])

theorem invokeInterface_eq_ok {owner name : String} {type : MethodType} :
    invokeInterface owner name type e = .ok (u, e') ↔
      (callEffect type true).pop ≤ wordMax ∧ (callEffect type true).pop ≤ e.tracker.depth ∧
        e.tracker.depth - (callEffect type true).pop + type.retSlots ≤ wordMax ∧
        e' = (e.withPool (e.pool.interfaceMethodRef owner name type).2).written
          (e.tracker.moved (callEffect type true))
          (interfaceCall (e.pool.interfaceMethodRef owner name type).1
            (callEffect type true).pop) := by
  unfold invokeInterface
  rw [interned_eq_ok]
  generalize e.pool.interfaceMethodRef owner name type = r
  rw [bind_eq_ok]
  constructor
  · rintro ⟨_, e₁, hwrite, h⟩
    obtain ⟨n, e₂, hlift, h⟩ := bind_eq_ok.1 h
    obtain ⟨_, e₃, hslots, h⟩ := bind_eq_ok.1 h
    obtain ⟨_, e₄, hzero, hcall⟩ := bind_eq_ok.1 h
    obtain rfl := assemble_eq_ok.1 hwrite
    obtain ⟨hword, rfl⟩ := liftM_eq_ok.1 hlift
    obtain ⟨rfl, -⟩ := MethodType.callWord_eq_ok.1 hword
    obtain rfl := assemble_eq_ok.1 hslots
    obtain rfl := assemble_eq_ok.1 hzero
    obtain ⟨hn, hle, hpush, rfl⟩ := call_eq_ok.1 hcall
    refine ⟨hn, hle, hpush, ?_⟩
    rw [written, ← writeOp_interfaceCall]
    rfl
  · rintro ⟨hn, hle, hpush, rfl⟩
    refine ⟨(), _, assemble_eq_ok.2 rfl, bind_eq_ok.2 ⟨_, _,
      liftM_eq_ok.2 ⟨MethodType.callWord_eq_ok.2 ⟨rfl, hn⟩, rfl⟩, bind_eq_ok.2 ⟨(), _,
        assemble_eq_ok.2 rfl, bind_eq_ok.2 ⟨(), _, assemble_eq_ok.2 rfl,
          call_eq_ok.2 ⟨hn, hle, hpush, ?_⟩⟩⟩⟩⟩
    rw [written, ← writeOp_interfaceCall]
    rfl

/-! ### Objects and arrays -/

theorem newObject_eq_ok {name : String} :
    newObject name e = .ok (u, e') ↔
      e.tracker.depth + 1 ≤ wordMax ∧
        e' = (e.withPool (e.pool.classRef name).2).written (e.tracker.moved ⟨0, 1⟩)
          (.linked .new (e.pool.classRef name).1 rfl) := by
  unfold newObject
  rw [interned_eq_ok, linked_push_eq_ok rfl, withPool_tracker]

/-- An instruction that names the class of a type and leaves the tracked slots alone. -/
theorem linked_class_eq_ok {op : Opcode} (h : op.operandSize = 2) {type : JavaType} {d : Defect} :
    (match type.className? with
      | none => throw d
      | some name => do
        let index ← intern (·.classRef name)
        writeLinked op index : Emit Unit) e = .ok (u, e') ↔
      ∃ name, type.className? = some name ∧
        e' = (e.withPool (e.pool.classRef name).2).written e.tracker
          (.linked op (e.pool.classRef name).1 h) := by
  cases type.className? with
  | none =>
    constructor
    · intro hok
      exact absurd hok throw_ne_ok
    · rintro ⟨name, hname, -⟩
      cases hname
  | some name =>
    simp only [Option.some.injEq, exists_eq_left']
    rw [interned_eq_ok, writeLinked_eq h, Except.ok.injEq, Prod.mk.injEq]
    exact ⟨fun hok => hok.2.symm, fun he => ⟨rfl, he.symm⟩⟩

theorem checkCast_eq_ok {type : JavaType} :
    checkCast type e = .ok (u, e') ↔
      ∃ name, type.className? = some name ∧
        e' = (e.withPool (e.pool.classRef name).2).written e.tracker
          (.linked .checkcast (e.pool.classRef name).1 rfl) :=
  linked_class_eq_ok rfl

theorem instanceOf_eq_ok {type : JavaType} :
    instanceOf type e = .ok (u, e') ↔
      ∃ name, type.className? = some name ∧
        e' = (e.withPool (e.pool.classRef name).2).written e.tracker
          (.linked .instanceof (e.pool.classRef name).1 rfl) :=
  linked_class_eq_ok rfl

theorem newRefArray_eq_ok {type : JavaType} :
    newRefArray type e = .ok (u, e') ↔
      ∃ name, type.className? = some name ∧
        e' = (e.withPool (e.pool.classRef name).2).written e.tracker
          (.linked .anewarray (e.pool.classRef name).1 rfl) :=
  linked_class_eq_ok rfl

/-! ### Labels -/

theorem newLabel_eq_ok {l : Label} :
    newLabel e = .ok (l, e') ↔
      l = ⟨e.assembly.labels.size⟩ ∧
        e' = (e.withAssembly e.assembly.newLabel.2).withDepths (e.labelDepths.push none) := by
  show Except.ok (_, _) = .ok (l, e') ↔ _
  rw [Except.ok.injEq, Prod.mk.injEq, eq_comm (b := l), eq_comm (b := e')]
  exact Iff.rfl

/-- Writing what already stands there. -/
theorem setIfInBounds_self {α : Type} {xs : Array α} {k : Nat} {x : α} (h : xs[k]? = some x) :
    xs.setIfInBounds k x = xs := by
  apply Array.ext_getElem?
  intro j
  rw [Array.getElem?_setIfInBounds]
  by_cases hj : k = j
  · subst hj
    obtain ⟨hlt, -⟩ := Array.getElem?_eq_some_iff.1 h
    rw [if_pos rfl, if_pos hlt, h]
  · rw [if_neg hj]

theorem expectDepth_eq_ok {l : Label} :
    expectDepth l e = .ok (u, e') ↔
      (e.labelDepths[l.id]? = some none ∨
        e.labelDepths[l.id]? = some (some e.tracker.depth)) ∧
        e' = e.withDepths (e.labelDepths.setIfInBounds l.id (some e.tracker.depth)) := by
  unfold expectDepth
  cases hl : e.labelDepths[l.id]? with
  | none => simp
  | some expected? =>
    cases expected? with
    | none =>
      simp only [Except.ok.injEq, Prod.mk.injEq, true_and, true_or]
      exact eq_comm
    | some expected =>
      simp only [Option.some.injEq, reduceCtorEq, false_or]
      by_cases heq : expected = e.tracker.depth
      · subst heq
        simp only [if_true, Except.ok.injEq, Prod.mk.injEq, true_and]
        rw [setIfInBounds_self hl]
        exact eq_comm
      · simp [heq]

/-- The slots that a branch pops. -/
def branchPop (op : Opcode) : Nat := (op.fixedEffect?.map StackEffect.pop).getD 0

/-- The emitter after a branch. -/
def branched (e : Emitter) (op : Opcode) (l : Label) (h : op.operandSize = 2) : Emitter where
  assembly := ({ e.assembly with
    branches := e.assembly.branches.push ⟨e.assembly.code.size, l⟩ } : Assembly).append
      (.linked op 0xffff h)
  pool := e.pool
  tracker := e.tracker.lowered (branchPop op)
  labelDepths := e.labelDepths.setIfInBounds l.id (some (e.tracker.depth - branchPop op))
  reachable := e.reachable && !op.isTerminal

theorem operandSize_of_isShortBranch {op : Opcode} (h : op.isShortBranch = true) :
    op.operandSize = 2 := by
  revert h
  cases op <;> decide

theorem branch_eq_ok {op : Opcode} {l : Label} :
    branch op l e = .ok (u, e') ↔
      ∃ h : op.isShortBranch = true, branchPop op ≤ e.tracker.depth ∧
        (e.labelDepths[l.id]? = some none ∨
          e.labelDepths[l.id]? = some (some (e.tracker.depth - branchPop op))) ∧
        e' = e.branched op l (operandSize_of_isShortBranch h) := by
  unfold branch
  rw [guard_eq_ok]
  simp only [Bool.not_eq_true', Bool.not_eq_false]
  constructor
  · rintro ⟨hshort, h⟩
    obtain ⟨_, e₁, hpop, h⟩ := bind_eq_ok.1 h
    obtain ⟨_, e₂, hassemble, h⟩ := bind_eq_ok.1 h
    obtain ⟨_, e₃, hexpect, hleave⟩ := bind_eq_ok.1 h
    obtain ⟨hle, rfl⟩ := pop_eq_ok.1 hpop
    obtain ⟨a, ha, rfl⟩ := tryAssemble_eq_ok.1 hassemble
    obtain ⟨hdepth, rfl⟩ := expectDepth_eq_ok.1 hexpect
    obtain rfl := leave_eq_ok.1 hleave
    refine ⟨hshort, hle, hdepth, ?_⟩
    unfold Assembly.branch at ha
    rw [if_pos hshort] at ha
    obtain rfl := Except.ok.inj ha
    unfold branched
    rw [← Assembly.writeOp_writeWord_eq]
    rfl
  · rintro ⟨hshort, hle, hdepth, rfl⟩
    refine ⟨hshort, bind_eq_ok.2 ⟨(), _, pop_eq_ok.2 ⟨hle, rfl⟩, bind_eq_ok.2 ⟨(), _,
      tryAssemble_eq_ok.2 ⟨_, if_pos hshort, rfl⟩, bind_eq_ok.2 ⟨(), _,
        expectDepth_eq_ok.2 ⟨hdepth, rfl⟩, leave_eq_ok.2 ?_⟩⟩⟩⟩
    unfold branched
    rw [← Assembly.writeOp_writeWord_eq]
    rfl

/-- The emitter after a label, with the depth there. -/
def labelled (e : Emitter) (l : Label) (depth : Nat) : Emitter where
  assembly := { e.assembly with
    labels := e.assembly.labels.setIfInBounds l.id (some e.assembly.code.size) }
  pool := e.pool
  tracker := { e.tracker with depth }
  labelDepths := e.labelDepths.setIfInBounds l.id (some depth)
  reachable := true

theorem joinDepth_eq_ok {l : Label} :
    joinDepth l e = .ok (u, e') ↔
      ∃ depth, (e.reachable = true → depth = e.tracker.depth) ∧
        (e.labelDepths[l.id]? = some none ∧ e.reachable = true ∨
          e.labelDepths[l.id]? = some (some depth)) ∧
        e' = (e.withTracker { e.tracker with depth }).withDepths
          (e.labelDepths.setIfInBounds l.id (some depth)) := by
  -- The emitter is taken apart, for `reachable` decides between the cases.
  obtain ⟨assembly, pool, tracker, depths, reachable⟩ := e
  unfold joinDepth
  cases hl : depths[l.id]? with
  | none => cases reachable <;> simp
  | some expected? =>
    cases expected? with
    | none => cases reachable <;> simp [withTracker, withDepths, eq_comm]
    | some expected =>
      have hkeep : ∀ depth, expected = depth → depths.setIfInBounds l.id (some depth) = depths := by
        rintro depth rfl
        exact setIfInBounds_self hl
      cases reachable with
      | false =>
        simp only [Option.some.injEq, reduceCtorEq, and_false, false_or]
        simp [Tracker.withDepth, withTracker, withDepths, hkeep, eq_comm]
      | true =>
        by_cases heq : expected = tracker.depth
        · subst heq
          simp [withTracker, withDepths, hkeep, eq_comm]
        · simp [heq]

theorem assembly_placeLabel_eq_ok {a a' : Assembly} {l : Label} :
    a.placeLabel l = .ok a' ↔
      a.labels[l.id]? = some none ∧
        a' = { a with labels := a.labels.setIfInBounds l.id (some a.code.size) } := by
  unfold Assembly.placeLabel
  cases hl : a.labels[l.id]? with
  | none => simp
  | some place? =>
    cases place? with
    | none =>
      simp only [Except.ok.injEq, true_and]
      exact eq_comm
    | some place => simp

theorem placeLabel_eq_ok {l : Label} :
    placeLabel l e = .ok (u, e') ↔
      e.assembly.labels[l.id]? = some none ∧ ∃ depth,
        (e.reachable = true → depth = e.tracker.depth) ∧
        (e.labelDepths[l.id]? = some none ∧ e.reachable = true ∨
          e.labelDepths[l.id]? = some (some depth)) ∧
        e' = e.labelled l depth := by
  unfold placeLabel
  rw [bind_eq_ok]
  constructor
  · rintro ⟨_, e₁, hjoin, h⟩
    obtain ⟨_, e₂, hmodify, hassemble⟩ := bind_eq_ok.1 h
    obtain ⟨depth, hdepth, hlabel, rfl⟩ := joinDepth_eq_ok.1 hjoin
    obtain ⟨⟩ := hmodify
    obtain ⟨a, ha, rfl⟩ := tryAssemble_eq_ok.1 hassemble
    obtain ⟨hplace, rfl⟩ := assembly_placeLabel_eq_ok.1 ha
    exact ⟨hplace, depth, hdepth, hlabel, rfl⟩
  · rintro ⟨hplace, depth, hdepth, hlabel, rfl⟩
    exact ⟨(), _, joinDepth_eq_ok.2 ⟨depth, hdepth, hlabel, rfl⟩, bind_eq_ok.2 ⟨(), _, rfl,
      tryAssemble_eq_ok.2 ⟨_, assembly_placeLabel_eq_ok.2 ⟨hplace, rfl⟩, rfl⟩⟩⟩

end Emitter

end ClassForge
