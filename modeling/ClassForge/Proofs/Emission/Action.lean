import ClassForge.Emission.Operation
import ClassForge.Proofs.Inspection.Instruction
import ClassForge.Proofs.Pool.Growth

/-!
# Actions of an emitter

What the small actions do that all operations consist of. Each lemma is an equivalence: it says when
the action succeeds, and what the emitter is like afterwards.
-/

namespace ClassForge

variable {e e' : Emitter}

namespace Emit

variable {α β : Type}

/-- **Actions in sequence succeed when each does.** -/
theorem bind_eq_ok {x : Emit α} {f : α → Emit β} {b : β} {e e'' : Emitter} :
    (x >>= f) e = .ok (b, e'') ↔ ∃ a e', x e = .ok (a, e') ∧ f a e' = .ok (b, e'') := by
  show (x e >>= fun r => f r.1 r.2) = .ok (b, e'') ↔ _
  rw [Except.bind_eq_ok]
  constructor
  · rintro ⟨⟨a, e'⟩, hx, hf⟩
    exact ⟨a, e', hx, hf⟩
  · rintro ⟨a, e', hx, hf⟩
    exact ⟨(a, e'), hx, hf⟩

theorem pure_eq_ok {a b : α} : (pure a : Emit α) e = .ok (b, e') ↔ a = b ∧ e = e' := by
  show Except.ok (a, e) = .ok (b, e') ↔ _
  rw [Except.ok.injEq, Prod.mk.injEq]

theorem throw_ne_ok {d : Defect} {b : α} : (throw d : Emit α) e ≠ .ok (b, e') := by
  intro h
  cases h

theorem liftM_eq_ok {x : Except Defect α} {a : α} :
    (liftM x : Emit α) e = .ok (a, e') ↔ x = .ok a ∧ e = e' := by
  cases x with
  | error d =>
    constructor
    · intro h
      cases h
    · rintro ⟨h, -⟩
      cases h
  | ok b =>
    show Except.ok (b, e) = .ok (a, e') ↔ _
    rw [Except.ok.injEq, Prod.mk.injEq, Except.ok.injEq]

/-- A check in front of an action. -/
theorem guard_eq_ok {c : Prop} [Decidable c] {d : Defect} {k : Unit → Emit α} {b : α} :
    (if c then throw d >>= k else k ()) e = .ok (b, e') ↔ ¬c ∧ k () e = .ok (b, e') := by
  by_cases hc : c
  · rw [if_pos hc]
    constructor
    · intro h
      cases h
    · rintro ⟨hn, -⟩
      exact absurd hc hn
  · rw [if_neg hc]
    constructor
    · intro h
      exact ⟨hc, h⟩
    · rintro ⟨-, h⟩
      exact h

end Emit

theorem Operation.runAll_append_eq_ok {xs ys : List Operation} {e e'' : Emitter} :
    runAll (xs ++ ys) e = .ok ((), e'') ↔
      ∃ e', runAll xs e = .ok ((), e') ∧ runAll ys e' = .ok ((), e'') := by
  induction xs generalizing e with
  | nil =>
    constructor
    · intro h
      exact ⟨e, rfl, h⟩
    · rintro ⟨e', hnil, h⟩
      cases hnil
      exact h
  | cons op xs ih =>
    constructor
    · intro h
      obtain ⟨_, e₁, hop, hrest⟩ := Emit.bind_eq_ok.1 h
      obtain ⟨e', hxs, hys⟩ := ih.1 hrest
      exact ⟨e', Emit.bind_eq_ok.2 ⟨(), e₁, hop, hxs⟩, hys⟩
    · rintro ⟨e', hxs, hys⟩
      obtain ⟨_, e₁, hop, hrest⟩ := Emit.bind_eq_ok.1 hxs
      exact Emit.bind_eq_ok.2 ⟨(), e₁, hop, ih.2 ⟨e', hrest, hys⟩⟩

/-! ### Instructions at the end of the code -/

namespace Instruction

/-- An instruction without operands. -/
def plain (op : Opcode) (h : op.operandSize = 0) : Instruction := ⟨op, [], h.symm⟩

/-- An instruction with one operand byte. -/
def short (op : Opcode) (b : UInt8) (h : op.operandSize = 1) : Instruction := ⟨op, [b], h.symm⟩

/-- An instruction with one operand word. -/
def linked (op : Opcode) (w : UInt16) (h : op.operandSize = 2) : Instruction :=
  ⟨op, word16 w, h.symm⟩

theorem word_zero {i : Instruction} {w : UInt16} {rest : List UInt8}
    (h : i.operands = word16 w ++ rest) : i.word 0 = w := by
  have hw : w.toNat < 65536 := w.toNat_lt
  have hhi : (UInt8.ofNat (w.toNat / 256)).toNat = w.toNat / 256 := by
    rw [UInt8.toNat_ofNat']
    exact Nat.mod_eq_of_lt (by omega)
  have hlo : (UInt8.ofNat w.toNat).toNat = w.toNat % 256 := UInt8.toNat_ofNat'
  have hbytes : word16 w = [UInt8.ofNat (w.toNat / 256), UInt8.ofNat w.toNat] := by
    simp [word16, beBytes]
  rw [word, operand, operand, h, hbytes]
  show UInt16.ofNat (256 * (UInt8.ofNat (w.toNat / 256)).toNat + (UInt8.ofNat w.toNat).toNat) = w
  rw [hhi, hlo, Nat.div_add_mod, UInt16.ofNat_toNat]

theorem word_linked (op : Opcode) (w : UInt16) (h : op.operandSize = 2) :
    (linked op w h).word 0 = w := by
  have hoperands : (linked op w h).operands = word16 w ++ [] := (List.append_nil _).symm
  exact word_zero hoperands

/-- The effect of an instruction that names no constant. -/
theorem effect?_of_fixed {i : Instruction} {effect : StackEffect} (pool : ConstantPool)
    (h : i.op.fixedEffect? = some effect) (hclass : i.op.namesClass = false) :
    i.effect? pool = some effect := by
  unfold effect?
  simp only [h, hclass, Bool.false_and, Bool.false_eq_true, if_false]

/-- An effect of the table is the only one that an instruction can have. -/
theorem eq_of_effect? {pool : ConstantPool} {i : Instruction} {fixed effect : StackEffect}
    (h : i.op.fixedEffect? = some fixed) (he : i.effect? pool = some effect) : effect = fixed := by
  simp only [effect?, h] at he
  split at he
  · cases he
  · exact (Option.some.inj he).symm

theorem localEnd?_of_none {i : Instruction} (h : i.op.localAccess? = none) :
    i.localEnd? = none := by
  rw [localEnd?, h]
  rfl

end Instruction

namespace Assembly

/-- The body with an instruction after it. -/
def append (a : Assembly) (i : Instruction) : Assembly :=
  { a with code := a.code ++ i.bytes.toArray }

theorem toList_append (a : Assembly) (i : Instruction) :
    (a.append i).code.toList = a.code.toList ++ i.bytes := by
  simp [append]

/-- The size of the code with an instruction after it. -/
theorem size_append (a : Assembly) (i : Instruction) :
    (a.append i).code.size = a.code.size + i.op.encodedLength := by
  rw [← Array.length_toList, toList_append, List.length_append, Instruction.length_bytes,
    Array.length_toList]

theorem writeOp_eq (a : Assembly) {op : Opcode} (h : op.operandSize = 0) :
    a.writeOp op = a.append (.plain op h) := by
  simp [writeOp, writeByte, append, Instruction.plain, Instruction.bytes]

theorem writeOp_writeByte_eq (a : Assembly) {op : Opcode} (b : UInt8) (h : op.operandSize = 1) :
    (a.writeOp op).writeByte b = a.append (.short op b h) := by
  simp only [writeOp, writeByte, append, Instruction.short, Instruction.bytes, mk.injEq, and_true]
  exact Array.ext' (by simp)

theorem writeOp_writeWord_eq (a : Assembly) {op : Opcode} (w : UInt16)
    (h : op.operandSize = 2) : (a.writeOp op).writeWord w = a.append (.linked op w h) := by
  simp only [writeOp, writeByte, writeWord, append, Instruction.linked, Instruction.bytes,
    mk.injEq, and_true]
  exact Array.ext' (by simp [word16, beBytes])

end Assembly

namespace Emitter

open Emit

/-! ### Parts -/

/-- The emitter with other instructions. -/
def withAssembly (e : Emitter) (assembly : Assembly) : Emitter := { e with assembly }

/-- The emitter with another tracker. -/
def withTracker (e : Emitter) (tracker : Tracker) : Emitter := { e with tracker }

/-- The emitter with other constants. -/
def withPool (e : Emitter) (pool : ConstantPool) : Emitter := { e with pool }

/-- The emitter with other depths at its labels. -/
def withDepths (e : Emitter) (labelDepths : Array (Option Nat)) : Emitter := { e with labelDepths }

/-- The emitter with another answer to whether control gets here. -/
def withReachable (e : Emitter) (reachable : Bool) : Emitter := { e with reachable }

section Projections

variable (e : Emitter) (a : Assembly) (t : Tracker) (p : ConstantPool) (r : Bool)

@[simp] theorem withAssembly_assembly : (e.withAssembly a).assembly = a := rfl
@[simp] theorem withAssembly_tracker : (e.withAssembly a).tracker = e.tracker := rfl
@[simp] theorem withAssembly_pool : (e.withAssembly a).pool = e.pool := rfl
@[simp] theorem withAssembly_reachable : (e.withAssembly a).reachable = e.reachable := rfl
@[simp] theorem withTracker_assembly : (e.withTracker t).assembly = e.assembly := rfl
@[simp] theorem withTracker_tracker : (e.withTracker t).tracker = t := rfl
@[simp] theorem withTracker_pool : (e.withTracker t).pool = e.pool := rfl
@[simp] theorem withTracker_reachable : (e.withTracker t).reachable = e.reachable := rfl
@[simp] theorem withPool_assembly : (e.withPool p).assembly = e.assembly := rfl
@[simp] theorem withPool_tracker : (e.withPool p).tracker = e.tracker := rfl
@[simp] theorem withPool_pool : (e.withPool p).pool = p := rfl
@[simp] theorem withPool_reachable : (e.withPool p).reachable = e.reachable := rfl
@[simp] theorem withReachable_assembly : (e.withReachable r).assembly = e.assembly := rfl
@[simp] theorem withReachable_tracker : (e.withReachable r).tracker = e.tracker := rfl
@[simp] theorem withReachable_pool : (e.withReachable r).pool = e.pool := rfl
@[simp] theorem withReachable_reachable : (e.withReachable r).reachable = r := rfl

end Projections

theorem assemble_eq_ok {f : Assembly → Assembly} {u : Unit} :
    assemble f e = .ok (u, e') ↔ e' = e.withAssembly (f e.assembly) := by
  show Except.ok ((), _) = .ok (u, e') ↔ _
  rw [Except.ok.injEq, Prod.mk.injEq, eq_comm (b := e')]
  exact ⟨And.right, fun h => ⟨rfl, h⟩⟩

theorem tryAssemble_eq_ok {f : Assembly → Except Defect Assembly} {u : Unit} :
    tryAssemble f e = .ok (u, e') ↔
      ∃ assembly, f e.assembly = .ok assembly ∧ e' = e.withAssembly assembly := by
  unfold tryAssemble withAssembly
  cases f e.assembly with
  | error d => simp
  | ok assembly => simp [eq_comm]

theorem track_eq_ok {f : Tracker → Except Defect Tracker} {u : Unit} :
    track f e = .ok (u, e') ↔
      ∃ tracker, f e.tracker = .ok tracker ∧ e' = e.withTracker tracker := by
  unfold track withTracker
  cases f e.tracker with
  | error d => simp
  | ok tracker => simp [eq_comm]

theorem intern_eq_ok {f : ConstantPool → UInt16 × ConstantPool} {i : UInt16} :
    intern f e = .ok (i, e') ↔ i = (f e.pool).1 ∧ e' = e.withPool (f e.pool).2 := by
  show Except.ok ((f e.pool).1, _) = .ok (i, e') ↔ _
  rw [Except.ok.injEq, Prod.mk.injEq, eq_comm (b := e'), eq_comm (b := i)]
  exact Iff.rfl

theorem leave_eq_ok {op : Opcode} {u : Unit} :
    leave op e = .ok (u, e') ↔ e' = e.withReachable (e.reachable && !op.isTerminal) := by
  unfold withReachable
  show Except.ok ((), if op.isTerminal then { e with reachable := false } else e) = .ok (u, e') ↔ _
  rw [Except.ok.injEq, Prod.mk.injEq, eq_comm (b := e')]
  cases op.isTerminal <;> simp

/-! ### Slots -/

theorem push_eq_ok {n : Nat} {u : Unit} :
    push n e = .ok (u, e') ↔ e.tracker.depth + n ≤ wordMax ∧ e' = e.withTracker { e.tracker with
      depth := e.tracker.depth + n
      maxDepth := max e.tracker.maxDepth (e.tracker.depth + n) } := by
  unfold push
  rw [track_eq_ok]
  constructor
  · rintro ⟨t, ht, rfl⟩
    obtain ⟨depth, hdepth, hr⟩ := Except.bind_eq_ok.1 ht
    obtain ⟨hle, rfl⟩ := Defect.checkWord_eq_ok.1 hdepth
    cases hr
    exact ⟨hle, rfl⟩
  · rintro ⟨hle, rfl⟩
    exact ⟨_, Except.bind_eq_ok.2 ⟨_, Defect.checkWord_eq_ok.2 ⟨hle, rfl⟩, rfl⟩, rfl⟩

theorem pop_eq_ok {n : Nat} {u : Unit} :
    pop n e = .ok (u, e') ↔ n ≤ e.tracker.depth ∧ e' = e.withTracker { e.tracker with
      depth := e.tracker.depth - n } := by
  unfold pop
  rw [track_eq_ok]
  unfold Tracker.pop
  by_cases h : n ≤ e.tracker.depth
  · simp [h]
  · simp [h]

theorem noteLocal_eq_ok {slot width : Nat} {u : Unit} :
    noteLocal slot width e = .ok (u, e') ↔ slot + width ≤ wordMax ∧
      e' = e.withTracker { e.tracker with
        maxLocals := max e.tracker.maxLocals (slot + width) } := by
  unfold noteLocal
  rw [track_eq_ok]
  constructor
  · rintro ⟨t, ht, rfl⟩
    obtain ⟨stop, hstop, hr⟩ := Except.bind_eq_ok.1 ht
    obtain ⟨hle, rfl⟩ := Defect.checkWord_eq_ok.1 hstop
    cases hr
    exact ⟨hle, rfl⟩
  · rintro ⟨hle, rfl⟩
    exact ⟨_, Except.bind_eq_ok.2 ⟨_, Defect.checkWord_eq_ok.2 ⟨hle, rfl⟩, rfl⟩, rfl⟩

theorem checkBalanced_eq_ok {u : Unit} :
    checkBalanced e = .ok (u, e') ↔ e.tracker.depth = 0 ∧ e' = e := by
  unfold checkBalanced
  rw [track_eq_ok]
  by_cases h : e.tracker.depth = 0
  · simp [Tracker.checkBalanced, h, bind, Except.bind, pure, Except.pure]
    exact Iff.rfl
  · simp [Tracker.checkBalanced, h, bind, Except.bind]

theorem slotByte_eq_ok {slot : Nat} {b : UInt8} :
    slotByte slot e = .ok (b, e') ↔ slot ≤ 255 ∧ b = UInt8.ofNat slot ∧ e' = e := by
  unfold slotByte
  by_cases h : slot ≤ 255
  · rw [if_pos h, pure_eq_ok]
    exact ⟨fun ⟨hb, he⟩ => ⟨h, hb.symm, he.symm⟩, fun ⟨_, hb, he⟩ => ⟨hb.symm, he.symm⟩⟩
  · rw [if_neg h]
    exact ⟨fun hok => absurd hok throw_ne_ok, fun ⟨hle, _⟩ => absurd hle h⟩

end Emitter

end ClassForge
