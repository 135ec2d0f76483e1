import ClassForge.Emission.Operation
import ClassForge.Proofs.ClassFile.RoundTrip
import ClassForge.Proofs.Emission.Acceptance
import ClassForge.Proofs.Emission.Conversion

/-!
# The composition of emitted code

What every operation of an emitter writes, whether or not the tracked depths and types are right:
whole instructions, among which those that store into a field are known.

* `Emitter.Orderly` — the instructions make up the code, and the line table is in order;
* `Emitter.Appends` — further instructions have been written, and the fields that they store into;
* `Emitter.Writes` — **the contract** of an action, in terms of the fields that it stores into;
* `writes_run` — **PROVED**: every operation has such a contract, and only one stores at all;
* `Orderly.sized`, `Orderly.stores` — **PROVED**: a finished body can be encoded, and its code
  stores into exactly the fields that were named.
-/

namespace ClassForge

open ConstantPool Inspection

/-! ### Fields that code stores into -/

/-- The instruction is one of the body's, read from the start of the code. -/
def MethodBody.Has (b : MethodBody) (i : Instruction) : Prop :=
  ∃ pc, Sweep b.code 0 pc ∧ Instruction.at? b.code pc = some i

/-- The code stores into a field of an object. -/
def MethodBody.StoresInto (b : MethodBody) (pool : ConstantPool) (m : MemberRef) : Prop :=
  ∃ i, b.Has i ∧ i.op = .putfield ∧ pool.memberAt (i.word 0) = .ok m

/-- The code stores into exactly these fields of objects. -/
structure MethodBody.Stores (b : MethodBody) (pool : ConstantPool) (fields : List MemberRef) :
    Prop where
  named : ∀ i, b.Has i → i.op = .putfield → ∃ m ∈ fields, pool.memberAt (i.word 0) = .ok m
  stored : ∀ m ∈ fields, b.StoresInto pool m

section Stores

variable {b : MethodBody} {pool pool' : ConstantPool} {fields : List MemberRef} {m : MemberRef}

theorem MethodBody.Stores.storesInto_iff (h : b.Stores pool fields) :
    b.StoresInto pool m ↔ m ∈ fields := by
  refine ⟨fun ⟨i, hi, hop, hm⟩ => ?_, h.stored m⟩
  obtain ⟨m', hm', hmember⟩ := h.named i hi hop
  rw [hm, Except.ok.injEq] at hmember
  exact hmember ▸ hm'

theorem MethodBody.Stores.extend (h : b.Stores pool fields) (hext : Extends pool pool') :
    b.Stores pool' fields where
  named i hi hop := by
    obtain ⟨m, hm, hmember⟩ := h.named i hi hop
    exact ⟨m, hm, hext.memberAt hmember⟩
  stored m hm := by
    obtain ⟨i, hi, hop, hmember⟩ := h.stored m hm
    exact ⟨i, hi, hop, hext.memberAt hmember⟩

end Stores

theorem Opcode.ne_putfield_of_operandSize {op : Opcode} (h : op.operandSize = 0) :
    op ≠ .putfield := by
  rintro rfl
  cases h

theorem Opcode.ne_putfield_of_localAccess? {op : Opcode} (h : op.localAccess?.isSome = true) :
    op ≠ .putfield := by
  rintro rfl
  cases h

theorem Opcode.ne_putfield_of_isShortBranch {op : Opcode} (h : op.isShortBranch = true) :
    op ≠ .putfield := by
  rintro rfl
  cases h

namespace Emitter

open Emit Instruction

variable {α β : Type} {e e' f : Emitter} {x : Placed} {xs new later : List Placed}
  {pool pool' : ConstantPool} {fields others : List MemberRef} {body : MethodBody}

/-- The instructions that store into a field of an object, in the order of the code. -/
def fieldStores (xs : List Placed) : List Placed := (xs.filter (·.instr.op == .putfield)).reverse

theorem mem_fieldStores : x ∈ fieldStores xs ↔ x ∈ xs ∧ x.instr.op = .putfield := by
  rw [fieldStores, List.mem_reverse, List.mem_filter, beq_iff_eq]

theorem fieldStores_append (new xs : List Placed) :
    fieldStores (new ++ xs) = fieldStores xs ++ fieldStores new := by
  rw [fieldStores, List.filter_append, List.reverse_append]
  rfl

theorem fieldStores_of_ne (h : x.instr.op ≠ .putfield) : fieldStores [x] = [] := by
  rw [fieldStores, List.filter_cons_of_neg (by rwa [beq_iff_eq])]
  rfl

/-- The instructions store into these fields, in order. -/
def Puts (pool : ConstantPool) (xs : List Placed) (fields : List MemberRef) : Prop :=
  List.Forall₂ (fun x m => pool.memberAt (x.instr.word 0) = .ok m) (fieldStores xs) fields

theorem Puts.extend (h : Puts pool xs fields) (hext : Extends pool pool') :
    Puts pool' xs fields :=
  h.imp fun _ _ hm => hext.memberAt hm

theorem Puts.exists_of_mem (h : Puts pool xs fields) :
    (∀ x ∈ fieldStores xs, ∃ m ∈ fields, pool.memberAt (x.instr.word 0) = .ok m) ∧
      ∀ m ∈ fields, ∃ x ∈ fieldStores xs, pool.memberAt (x.instr.word 0) = .ok m := by
  unfold Puts at h
  generalize fieldStores xs = ys at h ⊢
  induction h with
  | nil => exact ⟨List.forall_mem_nil _, List.forall_mem_nil _⟩
  | @cons y m ys ms hm _ ih =>
    refine ⟨List.forall_mem_cons.2 ⟨⟨m, List.mem_cons_self, hm⟩, fun x hx => ?_⟩,
      List.forall_mem_cons.2 ⟨⟨y, List.mem_cons_self, hm⟩, fun m' hm' => ?_⟩⟩
    · obtain ⟨m', hm', hx⟩ := ih.1 x hx
      exact ⟨m', List.mem_cons_of_mem m hm', hx⟩
    · obtain ⟨x, hx, hm'⟩ := ih.2 m' hm'
      exact ⟨x, List.mem_cons_of_mem y hx, hm'⟩

theorem Puts.append (h : Puts pool xs fields) (h' : Puts pool new others) :
    Puts pool (new ++ xs) (fields ++ others) := by
  unfold Puts
  rw [fieldStores_append]
  exact List.rel_append h h'

/-! ### Instructions in order -/

/-- The instructions make up the code, and the line table is in order. -/
structure Orderly (e : Emitter) (xs : List Placed) : Prop where
  composed : Composed e xs
  lines : e.assembly.code.size ≤ wordMax → e.assembly.OrderedLines

theorem orderly_ofPool (pool : ConstantPool) (slots : Nat) : Orderly (ofPool pool slots) [] := by
  have hflow : Flow .void (ofPool pool slots) [] := flow_ofPool pool slots
  exact ⟨hflow.composed, (lineMarks_ofPool pool slots).ordered⟩

/-- Only code, branches and lines matter. -/
theorem Orderly.congr (h : Orderly e xs) (hcode : e'.assembly.code = e.assembly.code)
    (hbranches : e'.assembly.branches = e.assembly.branches)
    (hlines : e'.assembly.lines = e.assembly.lines) : Orderly e' xs where
  composed := ⟨hcode ▸ h.composed.tiles, hbranches ▸ h.composed.branches, h.composed.formed⟩
  lines hsize := (h.lines (hcode ▸ hsize)).mono hlines (Nat.le_of_eq (by rw [hcode]))

/-- The instruction at the end of the code, as far as the composition of the code goes. -/
def placedAt (e : Emitter) (i : Instruction) (label? : Option Label) : Placed :=
  ⟨e.assembly.code.size, i, 0, ⟨0, 0⟩, true, label?⟩

theorem Orderly.append (h : Orderly e xs) {i : Instruction} {label? : Option Label}
    (hcode : e'.assembly.code = (e.assembly.append i).code)
    (hlines : e'.assembly.lines = e.assembly.lines)
    (hbranches : e'.assembly.branches.toList =
      e.assembly.branches.toList ++ (e.placedAt i label?).branch?.toList)
    (hformed : (e.placedAt i label?).Formed) : Orderly e' (e.placedAt i label? :: xs) := by
  have hle : e.assembly.code.size ≤ e'.assembly.code.size := by
    rw [hcode, Assembly.size_append]
    exact Nat.le_add_right _ _
  refine ⟨⟨?_, ?_, ?_⟩, fun hsize => (h.lines (Nat.le_trans hle hsize)).mono hlines hle⟩
  · rw [hcode, Assembly.toList_append]
    exact h.composed.tiles.cons Array.length_toList.symm
  · rw [hbranches, h.composed.branches, List.reverse_cons, List.filterMap_append]
    cases hb : (e.placedAt i label?).branch? with
    | none => rw [List.filterMap_cons_none hb]; rfl
    | some b => rw [List.filterMap_cons_some hb]; rfl
  · exact List.forall_mem_cons.2 ⟨hformed, h.composed.formed⟩

/-- An instruction without operands is placed at the end of the code. -/
theorem Orderly.exists_emit {op : Opcode} (h : Orderly e xs) (hemit : emit op e = .ok ((), e'))
    (hop : op.isBranch = false) :
    ∃ x, x.pc = e.assembly.code.size ∧ x.instr.op = op ∧ Orderly e' (x :: xs) ∧
      e'.assembly.code.size = e.assembly.code.size + op.encodedLength := by
  obtain ⟨hsize, effect, -, -, -, rfl⟩ := emit_eq_ok.1 hemit
  exact ⟨e.placedAt (.plain op hsize) none, rfl, rfl,
    h.append rfl rfl (List.append_nil _).symm (.inl ⟨rfl, hop⟩), Assembly.size_append ..⟩

/-- So is a branch. -/
theorem Orderly.exists_branch {op : Opcode} {l : Label} (h : Orderly e xs)
    (hbranch : branch op l e = .ok ((), e')) :
    ∃ x, x.pc = e.assembly.code.size ∧ x.instr.op = op ∧ Orderly e' (x :: xs) ∧
      e'.assembly.code.size = e.assembly.code.size + op.encodedLength := by
  obtain ⟨hshort, -, -, rfl⟩ := branch_eq_ok.1 hbranch
  exact ⟨e.placedAt (.linked op 0xffff (operandSize_of_isShortBranch hshort)) (some l), rfl, rfl,
    h.append rfl rfl (Array.toList_push ..) (.inr ⟨l, rfl, hshort⟩), Assembly.size_append ..⟩

/-! ### Finished bodies -/

theorem Orderly.sized (h : Orderly e xs) (hfinish : e.finish = .ok body) : body.Sized := by
  obtain ⟨hsize, -, hbody⟩ := Assembly.finish_eq_ok hfinish
  refine ⟨?_, ?_, ?_⟩
  · rw [h.composed.size_code hfinish]
    unfold wordMax at hsize
    omega
  · rw [hbody]
    exact Nat.zero_le _
  · rw [hbody]
    exact Nat.le_trans (h.lines hsize).length_le (Nat.le_of_lt_succ (UInt16.toNat_lt _))

/-- An instruction that stores into a field stands in the finished code as it was written. -/
theorem Orderly.at?_of_putfield (h : Orderly e xs) (hfinish : e.finish = .ok body) (hx : x ∈ xs)
    (hop : x.instr.op = .putfield) : at? body.code x.pc = some x.instr := by
  refine h.composed.at?_finish hfinish hx ?_
  rcases h.composed.formed x hx with ⟨hnone, -⟩ | ⟨_, -, hshort⟩
  · exact hnone
  · exact absurd hop (Opcode.ne_putfield_of_isShortBranch hshort)

/-- **The finished code stores into the fields that were named**, as any later pool has them. -/
theorem Orderly.stores (h : Orderly e xs) (hfinish : e.finish = .ok body)
    (hputs : Puts pool xs fields) : body.Stores pool fields where
  named i hi hop := by
    obtain ⟨pc, hsweep, hat⟩ := hi
    rcases h.composed.exists_of_sweep hfinish hsweep with rfl | ⟨x, hx, rfl⟩
    · have hend := end_le_size_of_at? hat
      have hpos := i.op.encodedLength_pos
      omega
    · obtain ⟨j, hj, hop'⟩ := h.composed.exists_at? hfinish x hx
      rw [hat, Option.some.injEq] at hj
      subst hj
      have hput : x.instr.op = .putfield := hop'.symm.trans hop
      rw [h.at?_of_putfield hfinish hx hput, Option.some.injEq] at hat
      subst hat
      exact hputs.exists_of_mem.1 x (mem_fieldStores.2 ⟨hx, hput⟩)
  stored m hm := by
    obtain ⟨x, hx, hmember⟩ := hputs.exists_of_mem.2 m hm
    obtain ⟨hx, hop⟩ := mem_fieldStores.1 hx
    have hsweep := (h.composed.tiles.sweep (h.composed.exists_at? hfinish)).2 x hx
    exact ⟨x.instr, ⟨x.pc, hsweep, h.at?_of_putfield hfinish hx hop⟩, hop, hmember⟩

/-! ### Parts of a body -/

/-- **What a part of a body leaves behind**: further instructions after those that are there, which
store into the given fields. -/
def Appends (fields : List MemberRef) (e e' : Emitter) : Prop :=
  ∃ new : List Placed, Grows e.pool e'.pool ∧ (∀ xs, Orderly e xs → Orderly e' (new ++ xs)) ∧
    (e.pool.Coherent → e'.pool.violation = none → Puts e'.pool new fields)

/-- Nothing is written. -/
theorem appends_of_same (hgrows : Grows e.pool e'.pool)
    (hcode : e'.assembly.code = e.assembly.code)
    (hbranches : e'.assembly.branches = e.assembly.branches)
    (hlines : e'.assembly.lines = e.assembly.lines) : Appends [] e e' :=
  ⟨[], hgrows, fun _ h => h.congr hcode hbranches hlines, fun _ _ => .nil⟩

theorem Appends.refl (e : Emitter) : Appends [] e e := appends_of_same (.refl _) rfl rfl rfl

theorem Appends.trans (h : Appends fields e e') (h' : Appends others e' f) :
    Appends (fields ++ others) e f := by
  obtain ⟨new, hgrows, horderly, hputs⟩ := h
  obtain ⟨later, hgrows', horderly', hputs'⟩ := h'
  refine ⟨later ++ new, hgrows.trans hgrows', fun xs hxs => ?_, fun hcoh hv => ?_⟩
  · rw [List.append_assoc]
    exact horderly' _ (horderly xs hxs)
  · have hfirst := (hputs hcoh (hgrows'.clean hv)).extend hgrows'.keeps
    exact hfirst.append (hputs' (hgrows.coherent hcoh) hv)

/-- One instruction that does not branch. -/
theorem appends_write {i : Instruction} (hop : i.op.isBranch = false)
    (hpool : e'.pool = e.pool) (hassembly : e'.assembly = e.assembly.append i)
    (hputs : e.pool.Coherent → e.pool.violation = none →
      Puts e.pool [e.placedAt i none] fields) : Appends fields e e' := by
  refine ⟨[e.placedAt i none], hpool ▸ .refl _, fun xs hxs => ?_, fun hcoh hv => ?_⟩
  · exact hxs.append (by rw [hassembly]) (by rw [hassembly]; rfl)
      (by rw [hassembly]; exact (List.append_nil _).symm) (.inl ⟨rfl, hop⟩)
  · rw [hpool] at hv ⊢
    exact hputs hcoh hv

theorem appends_written (t : Tracker) {i : Instruction} (hop : i.op.isBranch = false)
    (hput : i.op ≠ .putfield) : Appends [] e (e.written t i) := by
  refine appends_write hop rfl rfl fun _ _ => ?_
  unfold Puts
  rw [fieldStores_of_ne (x := e.placedAt i none) hput]
  exact .nil

theorem appends_withPool (h : Grows e.pool pool) : Appends [] e (e.withPool pool) :=
  appends_of_same h rfl rfl rfl

theorem appends_withReachable (e : Emitter) (r : Bool) : Appends [] e (e.withReachable r) :=
  appends_of_same (.refl e.pool) rfl rfl rfl

theorem appends_linked (h : Grows e.pool pool) (t : Tracker) {i : Instruction}
    (hop : i.op.isBranch = false) (hput : i.op ≠ .putfield) :
    Appends [] e ((e.withPool pool).written t i) :=
  (appends_withPool h).trans (appends_written t hop hput)

/-! ### Actions -/

/-- **The contract of an action**: it writes whole instructions, and they store into the given
fields, in this order. -/
def Writes (fields : List MemberRef) (x : Emit α) : Prop :=
  ∀ e a e', x e = .ok (a, e') → Appends fields e e'

theorem Writes.pure (a : α) : Writes [] (pure a : Emit α) := by
  intro e b e' h
  obtain ⟨-, rfl⟩ := pure_eq_ok.1 h
  exact .refl e

theorem Writes.bind {x : Emit α} {k : α → Emit β} (hx : Writes fields x)
    (hk : ∀ a, Writes others (k a)) : Writes (fields ++ others) (x >>= k) := by
  intro e b e'' h
  obtain ⟨a, e', hrun, hrest⟩ := bind_eq_ok.1 h
  exact (hx e a e' hrun).trans (hk a e' b e'' hrest)

/-- What comes first stores into no field. -/
theorem Writes.before {x : Emit α} {k : α → Emit β} (hx : Writes [] x)
    (hk : ∀ a, Writes fields (k a)) : Writes fields (x >>= k) := hx.bind hk

theorem Writes.seq {x y : Emit Unit} (hx : Writes [] x) (hy : Writes fields y) :
    Writes fields (do x; y) := hx.bind fun _ => hy

/-- What comes last stores into no field. -/
theorem Writes.after {x y : Emit Unit} (hx : Writes fields x) (hy : Writes [] y) :
    Writes fields (do x; y) := by
  have h := hx.bind fun _ => hy
  rwa [List.append_nil] at h

theorem Writes.ite {c : Prop} [Decidable c] {x y : Emit α} (hx : Writes fields x)
    (hy : Writes fields y) : Writes fields (if c then x else y) := by
  split
  · exact hx
  · exact hy

/-- An action that may be left out stores into no field. -/
theorem Writes.optional {c : Prop} [Decidable c] {x : Emit Unit} (hx : Writes [] x) :
    Writes [] (if c then x else Pure.pure ()) := hx.ite (.pure ())

theorem writes_emit (op : Opcode) : Writes [] (emit op) := by
  intro e _ e' h
  obtain ⟨hsize, effect, -, -, -, rfl⟩ := emit_eq_ok.1 h
  have hwrite : Appends [] e (e.written (e.tracker.moved effect) (.plain op hsize)) :=
    appends_written _ (Opcode.not_isBranch_of_operandSize hsize).1
      (Opcode.ne_putfield_of_operandSize hsize)
  exact hwrite.trans (appends_withReachable _ _)

theorem writes_checkBalanced : Writes [] checkBalanced := by
  intro e _ e' h
  obtain ⟨-, rfl⟩ := checkBalanced_eq_ok.1 h
  exact .refl e'

/-! ### Constants -/

theorem writes_loadConstant (index : UInt16) : Writes [] (loadConstant index) := by
  intro e _ e' h
  obtain ⟨-, rfl⟩ := loadConstant_eq_ok.1 h
  refine appends_written _ (isInner_constantLoad index).1 ?_
  intro hput
  unfold constantLoad at hput
  split at hput <;> cases hput

theorem writes_loadWideConstant (index : UInt16) : Writes [] (loadWideConstant index) := by
  intro e _ e' h
  obtain ⟨-, rfl⟩ := loadWideConstant_eq_ok.1 h
  exact appends_written _ rfl nofun

theorem writes_intern {f : ConstantPool → UInt16 × ConstantPool} (h : ∀ p, Grows p (f p).2) :
    Writes [] (intern f) := by
  intro e _ e' hrun
  obtain ⟨-, rfl⟩ := intern_eq_ok.1 hrun
  exact appends_withPool (h e.pool)

theorem writes_internLoad {c : Constant} (h : c.Storable) :
    Writes [] (intern (·.intern c) >>= loadConstant) :=
  (writes_intern fun p => grows_intern p h).before writes_loadConstant

theorem writes_internLoadWide {c : Constant} (h : c.Storable) :
    Writes [] (intern (·.intern c) >>= loadWideConstant) :=
  (writes_intern fun p => grows_intern p h).before writes_loadWideConstant

theorem writes_textConst (text : String) : Writes [] (textConst text) :=
  (writes_intern fun p => grows_stringRef p text).before writes_loadConstant

theorem writes_intConst (value : Int32) : Writes [] (intConst value) := by
  have hshort : Writes [] (do
      writeOp .bipush
      writeByte (UInt8.ofNat (value.toInt % 256).toNat)
      push 1) := by
    intro e _ e' h
    obtain ⟨-, rfl⟩ := (short_push_eq_ok rfl).1 h
    exact appends_written _ rfl nofun
  have hlinked : Writes [] (do
      writeLinked .sipush (UInt16.ofNat (value.toInt % 65536).toNat); push 1) := by
    intro e _ e' h
    obtain ⟨-, rfl⟩ := (linked_push_eq_ok rfl).1 h
    exact appends_written _ rfl nofun
  exact .ite (writes_emit _) <| .ite (writes_emit _) <| .ite (writes_emit _) <|
    .ite (writes_emit _) <| .ite (writes_emit _) <| .ite (writes_emit _) <|
    .ite (writes_emit _) <| .ite hshort <| .ite hlinked (writes_internLoad trivial)

theorem writes_longConst (value : Int64) : Writes [] (longConst value) :=
  .ite (writes_emit _) <| .ite (writes_emit _) (writes_internLoadWide trivial)

theorem writes_floatConst (bits : UInt32) : Writes [] (floatConst bits) :=
  .ite (writes_emit _) <| .ite (writes_emit _) <| .ite (writes_emit _) (writes_internLoad trivial)

theorem writes_doubleConst (bits : UInt64) : Writes [] (doubleConst bits) :=
  .ite (writes_emit _) <| .ite (writes_emit _) (writes_internLoadWide trivial)

theorem writes_zeroOf (type : JavaType) : Writes [] (zeroOf type) := by
  cases type with
  | void => exact .pure ()
  | boolean | byte | char | short | int => exact writes_intConst 0
  | long => exact writes_longConst 0
  | float => exact writes_floatConst 0
  | double => exact writes_doubleConst 0
  | object | array => exact writes_emit .aconstNull

/-! ### Local variables and the stack -/

theorem appends_access {i : Instruction} {effect : StackEffect} {stop : Nat}
    (hi : IsAccess i effect stop) (t : Tracker) : Appends [] e (e.written t i) := by
  have haccess : i.op.localAccess?.isSome = true := by
    obtain ⟨access, haccess, -⟩ := Option.map_eq_some_iff.1 hi.stop
    rw [haccess, Option.isSome_some]
  exact appends_written t (Opcode.not_isBranch_of_localAccess? haccess).1
    (Opcode.ne_putfield_of_localAccess? haccess)

theorem writes_load (type : JavaType) (slot : Nat) : Writes [] (load type slot) := by
  intro e _ e' h
  obtain ⟨_, e₁, haccess, -⟩ := bind_eq_ok.1 h
  obtain ⟨i, hi, hrun⟩ := exists_load type (slot_le_of_accessLocal haccess)
  obtain ⟨-, rfl⟩ := (hrun e _ e').1 h
  exact appends_access hi _

theorem writes_store (type : JavaType) (slot : Nat) : Writes [] (store type slot) := by
  intro e _ e' h
  obtain ⟨_, e₁, -, haccess⟩ := bind_eq_ok.1 h
  obtain ⟨i, hi, hrun⟩ := exists_store type (slot_le_of_accessLocal haccess)
  obtain ⟨-, rfl⟩ := (hrun e _ e').1 h
  exact appends_access hi _

theorem writes_increment (slot : Nat) (delta : Int8) : Writes [] (increment slot delta) := by
  intro e _ e' h
  obtain ⟨-, rfl⟩ := increment_eq_ok.1 h
  exact appends_written _ rfl nofun

theorem writes_popValue (type : JavaType) : Writes [] (popValue type) := by
  unfold popValue
  split
  · exact .pure ()
  · exact writes_emit .pop
  · exact writes_emit .pop2

theorem writes_dupValue (type : JavaType) : Writes [] (dupValue type) := by
  unfold dupValue
  split
  · exact .pure ()
  · exact writes_emit .dup
  · exact writes_emit .dup2

/-! ### Members -/

theorem writes_getField (owner name : String) (type : JavaType) :
    Writes [] (getField owner name type) := by
  intro e _ e' h
  obtain ⟨-, -, rfl⟩ := getField_eq_ok.1 h
  exact appends_linked (grows_fieldRef _ _ _ _) _ rfl nofun

/-- **Storing into a field is the one operation that does.** -/
theorem writes_putField (owner name : String) (type : JavaType) :
    Writes [⟨.field, owner, name, type.descriptor⟩] (putField owner name type) := by
  intro e _ e' h
  obtain ⟨-, rfl⟩ := putField_eq_ok.1 h
  have hgrows := grows_fieldRef e.pool owner name type.descriptor
  have hmember : e.pool.Coherent →
      (e.pool.fieldRef owner name type.descriptor).2.violation = none →
      (e.pool.fieldRef owner name type.descriptor).2.memberAt
        (e.pool.fieldRef owner name type.descriptor).1 =
          .ok ⟨.field, owner, name, type.descriptor⟩ := by
    rw [fieldRef_eq]
    exact fun hcoh hv => memberAt_memberRef hcoh hv
  generalize e.pool.fieldRef owner name type.descriptor = r at hgrows hmember ⊢
  -- The constant is found if the pool was in order before it was interned.
  refine ⟨[(e.withPool r.2).placedAt (.linked .putfield r.1 rfl) none], hgrows, fun xs hxs => ?_,
    fun hcoh hv => ?_⟩
  · have hinterned : Orderly (e.withPool r.2) xs := hxs.congr rfl rfl rfl
    exact hinterned.append rfl rfl (List.append_nil _).symm (.inl ⟨rfl, rfl⟩)
  · refine .cons ((congrArg r.2.memberAt ?_).trans (hmember hcoh hv)) .nil
    exact word_linked .putfield r.1 rfl

theorem writes_getStatic (owner name : String) (type : JavaType) :
    Writes [] (getStatic owner name type) := by
  intro e _ e' h
  obtain ⟨-, rfl⟩ := getStatic_eq_ok.1 h
  exact appends_linked (grows_fieldRef _ _ _ _) _ rfl nofun

theorem writes_putStatic (owner name : String) (type : JavaType) :
    Writes [] (putStatic owner name type) := by
  intro e _ e' h
  obtain ⟨-, rfl⟩ := putStatic_eq_ok.1 h
  exact appends_linked (grows_fieldRef _ _ _ _) _ rfl nofun

theorem writes_invokeVirtual (owner name : String) (type : MethodType) :
    Writes [] (invokeVirtual owner name type) := by
  intro e _ e' h
  obtain ⟨-, -, -, rfl⟩ := invokeVirtual_eq_ok.1 h
  exact appends_linked (grows_apply _ (.methodRef owner name type)) _ rfl nofun

theorem writes_invokeSpecial (owner name : String) (type : MethodType) :
    Writes [] (invokeSpecial owner name type) := by
  intro e _ e' h
  obtain ⟨-, -, -, rfl⟩ := invokeSpecial_eq_ok.1 h
  exact appends_linked (grows_apply _ (.methodRef owner name type)) _ rfl nofun

theorem writes_invokeStatic (owner name : String) (type : MethodType) :
    Writes [] (invokeStatic owner name type) := by
  intro e _ e' h
  obtain ⟨-, -, -, rfl⟩ := invokeStatic_eq_ok.1 h
  exact appends_linked (grows_apply _ (.methodRef owner name type)) _ rfl nofun

theorem writes_invokeInterface (owner name : String) (type : MethodType) :
    Writes [] (invokeInterface owner name type) := by
  intro e _ e' h
  obtain ⟨-, -, -, rfl⟩ := invokeInterface_eq_ok.1 h
  exact appends_linked (grows_apply _ (.interfaceMethodRef owner name type)) _ rfl nofun

theorem writes_newObject (name : String) : Writes [] (newObject name) := by
  intro e _ e' h
  obtain ⟨-, rfl⟩ := newObject_eq_ok.1 h
  exact appends_linked (grows_classRef _ _) _ rfl nofun

theorem writes_checkCast (type : JavaType) : Writes [] (checkCast type) := by
  intro e _ e' h
  obtain ⟨name, -, rfl⟩ := checkCast_eq_ok.1 h
  exact appends_linked (grows_classRef _ _) _ rfl nofun

theorem writes_instanceOf (type : JavaType) : Writes [] (instanceOf type) := by
  intro e _ e' h
  obtain ⟨name, -, rfl⟩ := instanceOf_eq_ok.1 h
  exact appends_linked (grows_classRef _ _) _ rfl nofun

theorem writes_newRefArray (element : JavaType) : Writes [] (newRefArray element) := by
  intro e _ e' h
  obtain ⟨name, -, rfl⟩ := newRefArray_eq_ok.1 h
  exact appends_linked (grows_classRef _ _) _ rfl nofun

/-! ### Labels, branches and lines -/

theorem writes_newLabel : Writes [] newLabel := by
  intro e l e' h
  obtain ⟨-, rfl⟩ := newLabel_eq_ok.1 h
  exact appends_of_same (.refl _) rfl rfl rfl

theorem writes_branch (op : Opcode) (l : Label) : Writes [] (branch op l) := by
  intro e _ e' h
  obtain ⟨hshort, -, -, rfl⟩ := branch_eq_ok.1 h
  refine ⟨[e.placedAt (.linked op 0xffff (operandSize_of_isShortBranch hshort)) (some l)],
    .refl _, fun xs hxs => ?_, fun _ _ => ?_⟩
  · exact hxs.append rfl rfl (Array.toList_push ..) (.inr ⟨l, rfl, hshort⟩)
  · unfold Puts
    rw [fieldStores_of_ne]
    · exact .nil
    · exact Opcode.ne_putfield_of_isShortBranch hshort

theorem writes_placeLabel (l : Label) : Writes [] (placeLabel l) := by
  intro e _ e' h
  obtain ⟨-, depth, -, -, rfl⟩ := placeLabel_eq_ok.1 h
  exact appends_of_same (.refl _) rfl rfl rfl

theorem writes_markLine {noted : Tracker → Option UInt32 × Tracker}
    (hnoted : ∀ t : Tracker, t.SameSlots (noted t).2) : Writes [] (markLine noted) := by
  intro e _ e' h
  obtain ⟨t, lines, -, hlines, hrun⟩ := exists_markLine hnoted e
  obtain ⟨-, rfl⟩ := Prod.mk.inj (Except.ok.inj (hrun.symm.trans h))
  refine ⟨[], .refl _, fun xs hxs => ⟨⟨hxs.composed.tiles, hxs.composed.branches,
    hxs.composed.formed⟩, fun hsize => ?_⟩, fun _ _ => .nil⟩
  rcases hlines with rfl | ⟨line, rfl⟩
  · exact hxs.lines hsize
  · have hmarked := (hxs.lines hsize).markLine hsize line
    rwa [Assembly.markLine_eq] at hmarked

theorem writes_noteLine (line : UInt32) : Writes [] (noteLine line) :=
  writes_markLine fun t => sameSlots_noteLine t line

/-- Only the line table changes. -/
theorem code_of_noteLine {line : UInt32} (h : noteLine line e = .ok ((), e')) :
    e'.assembly.code = e.assembly.code ∧ e'.assembly.labels = e.assembly.labels := by
  obtain ⟨t, lines, -, -, hmark⟩ := exists_markLine (fun t => sameSlots_noteLine t line) e
  cases hmark.symm.trans h
  exact ⟨rfl, rfl⟩

theorem writes_noteEnd : Writes [] noteEnd := writes_markLine sameSlots_noteEnd

/-! ### Conversions -/

theorem writes_fork {test x y : Emit Unit} {op : Opcode} (htest : Writes [] test)
    (hx : Writes [] x) (hy : Writes [] y) : Writes [] (fork test op x y) :=
  writes_newLabel.before fun taken => writes_newLabel.before fun done => htest.seq <|
    (writes_branch op taken).seq <| hx.seq <| (writes_branch .goto done).seq <|
    (writes_placeLabel taken).seq <| hy.seq (writes_placeLabel done)

theorem writes_emitTruthy (source : JavaType) : Writes [] (emitTruthy source) := by
  rw [emitTruthy_eq]
  refine Writes.before ?_ fun _ => writes_fork (.pure ()) (writes_intConst 1) (writes_intConst 0)
  split
  · exact .pure ()
  · exact (writes_longConst 0).seq (writes_emit .lcmp)
  · exact (writes_floatConst 0).seq (writes_emit .fcmpl)
  · exact (writes_doubleConst 0).seq (writes_emit .dcmpl)

theorem writes_emitUnbox (target : JavaType) (cast : Bool) :
    Writes [] (emitUnbox target cast) := by
  cases hmethod : target.unboxMethod? with
  | none =>
    unfold emitUnbox
    rw [hmethod]
    exact .pure ()
  | some accessor =>
    rw [emitUnbox_eq hmethod]
    refine writes_fork (writes_emit .dup) ((writes_popValue _).seq (writes_zeroOf target)) ?_
    cases cast with
    | false => exact writes_invokeVirtual _ _ _
    | true => exact (writes_checkCast _).seq (writes_invokeVirtual _ _ _)

theorem writes_emitStep (step : ConversionStep) : Writes [] (emitStep step) := by
  cases step with
  | primitive op => exact writes_emit op
  | truthy source => exact writes_emitTruthy source
  | box source =>
    unfold emitStep
    cases hbox : source.boxClass? with
    | none =>
      simp only [hbox]
      exact .pure ()
    | some wrapper =>
      simp only [hbox]
      exact writes_invokeStatic _ _ _
  | unbox target cast => exact writes_emitUnbox target cast
  | stringify source => exact writes_invokeStatic _ _ _
  | checkCast target => exact writes_checkCast target
  | discard source => exact writes_popValue source
  | zero target => exact writes_zeroOf target

theorem writes_emitSteps (steps : List ConversionStep) : Writes [] (emitSteps steps) := by
  induction steps with
  | nil => exact .pure ()
  | cons step steps ih => exact (writes_emitStep step).seq ih

theorem writes_convert (source target : JavaType) : Writes [] (convert source target) :=
  writes_emitSteps _

end Emitter

/-! ### Operations -/

namespace Operation

open Emitter

/-- The fields of objects that an operation stores into. -/
def stores : Operation → List MemberRef
  | .putField owner name type => [⟨.field, owner, name, type.descriptor⟩]
  | _ => []

/-- **Every operation writes whole instructions**, and only one stores into a field. -/
theorem writes_run (op : Operation) : Writes op.stores op.run := by
  cases op with
  | emit op => exact writes_emit op
  | nullConst => exact writes_emit .aconstNull
  | intConst value => exact writes_intConst value
  | longConst value => exact writes_longConst value
  | floatConst bits => exact writes_floatConst bits
  | doubleConst bits => exact writes_doubleConst bits
  | textConst text => exact writes_textConst text
  | zeroOf type => exact writes_zeroOf type
  | load type slot => exact writes_load type slot
  | store type slot => exact writes_store type slot
  | loadRef slot => exact writes_load .anyObject slot
  | storeRef slot => exact writes_store .anyObject slot
  | increment slot delta => exact writes_increment slot delta
  | popValue type => exact writes_popValue type
  | dupValue type => exact writes_dupValue type
  | getField owner name type => exact writes_getField owner name type
  | putField owner name type => exact writes_putField owner name type
  | getStatic owner name type => exact writes_getStatic owner name type
  | putStatic owner name type => exact writes_putStatic owner name type
  | invokeVirtual owner name type => exact writes_invokeVirtual owner name type
  | invokeSpecial owner name type => exact writes_invokeSpecial owner name type
  | invokeStatic owner name type => exact writes_invokeStatic owner name type
  | invokeInterface owner name type => exact writes_invokeInterface owner name type
  | newObject name => exact writes_newObject name
  | checkCast type => exact writes_checkCast type
  | instanceOf type => exact writes_instanceOf type
  | newRefArray element => exact writes_newRefArray element
  | newLabel => exact writes_newLabel.before fun _ => .pure ()
  | branch op l => exact writes_branch op l
  | goto l => exact writes_branch .goto l
  | placeLabel l => exact writes_placeLabel l
  | returnValue type => exact writes_emit (returnOp type)
  | noteLine line => exact writes_noteLine line
  | noteEnd => exact writes_noteEnd
  | convert source target => exact writes_convert source target
  | checkBalanced => exact writes_checkBalanced

end Operation

end ClassForge
