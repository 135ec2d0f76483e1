import ClassForge.Proofs.Body.Patching
import ClassForge.Proofs.Emission.Block
import ClassForge.Proofs.Machine.Basic

/-!
# Emitted code in a machine

Code is emitted piece by piece, and run once it is finished. What a piece leaves in the emitter is
still there at the end:

* `Assembly.Precedes` — later code comes after the code so far, and so do later branches;
* `Assembly.at?_of_precedes` — **PROVED**: an instruction stands in the finished code where it was
  written;
* `Assembly.branch_of_precedes` — **PROVED**: a branch leads to the place of its label;
* `Emitter.Regular` — the actions that respect all this, whatever their instructions do.
-/

namespace ClassForge

open ConstantPool Instruction

namespace Assembly

/-- The open branches are apart from each other, and inside of the code. -/
structure Ready (a : Assembly) : Prop where
  apart : a.branches.toList.Pairwise fun b b' => b.site + 3 ≤ b'.site
  inside : ∀ b ∈ a.branches.toList, b.site + 3 ≤ a.code.size

/-- The second body continues the first. -/
structure Precedes (a f : Assembly) : Prop where
  code : a.code.toList <+: f.code.toList
  branches : ∃ later, f.branches.toList = a.branches.toList ++ later ∧
    ∀ b ∈ later, a.code.size ≤ b.site
  labels : ∀ (k place : Nat), a.labels[k]? = some (some place) → f.labels[k]? = some (some place)

variable {a a' f : Assembly} {i : Instruction}

theorem Precedes.refl (a : Assembly) : a.Precedes a where
  code := List.prefix_rfl
  branches := ⟨[], (List.append_nil _).symm, nofun⟩
  labels _ _ h := h

theorem Precedes.size_le (h : a.Precedes f) : a.code.size ≤ f.code.size := by
  rw [← Array.length_toList, ← Array.length_toList]
  exact h.code.length_le

theorem Precedes.trans (h : a.Precedes a') (h' : a'.Precedes f) : a.Precedes f where
  code := h.code.trans h'.code
  branches := by
    obtain ⟨later, hlater, hsites⟩ := h.branches
    obtain ⟨later', hlater', hsites'⟩ := h'.branches
    refine ⟨later ++ later', by rw [hlater', hlater, List.append_assoc], fun b hb => ?_⟩
    rcases List.mem_append.1 hb with hb | hb
    · exact hsites b hb
    · exact h.size_le.trans (hsites' b hb)
  labels k place hk := h'.labels k place (h.labels k place hk)

theorem precedes_append (a : Assembly) (i : Instruction) : a.Precedes (a.append i) where
  code := by
    rw [toList_append]
    exact List.prefix_append _ _
  branches := ⟨[], (List.append_nil _).symm, nofun⟩
  labels _ _ h := h

theorem Ready.append (h : a.Ready) (i : Instruction) : (a.append i).Ready where
  apart := h.apart
  inside b hb := by
    rw [size_append]
    exact (h.inside b hb).trans (Nat.le_add_right _ _)

/-- The body with a branch after it. -/
def appendBranch (a : Assembly) (op : Opcode) (l : Label) (h : op.operandSize = 2) : Assembly :=
  ({ a with branches := a.branches.push ⟨a.code.size, l⟩ } : Assembly).append (.linked op 0xffff h)

section Branch

variable {op : Opcode} {l : Label} {hop : op.operandSize = 2}

theorem size_appendBranch : (a.appendBranch op l hop).code.size = a.code.size + 3 := by
  show (append _ _).code.size = _
  rw [size_append]
  show a.code.size + op.encodedLength = _
  rw [Opcode.encodedLength, hop]

theorem branches_appendBranch :
    (a.appendBranch op l hop).branches.toList = a.branches.toList ++ [⟨a.code.size, l⟩] :=
  Array.toList_push

theorem precedes_appendBranch : a.Precedes (a.appendBranch op l hop) where
  code := (precedes_append { a with branches := a.branches.push ⟨a.code.size, l⟩ } _).code
  branches := by
    refine ⟨[⟨a.code.size, l⟩], branches_appendBranch, fun b hb => ?_⟩
    rw [List.mem_singleton.1 hb]
  labels _ _ h := h

theorem Ready.appendBranch (h : a.Ready) : (a.appendBranch op l hop).Ready where
  apart := by
    rw [branches_appendBranch, List.pairwise_append]
    refine ⟨h.apart, List.pairwise_singleton _ _, fun b hb b' hb' => ?_⟩
    rw [List.mem_singleton.1 hb']
    exact h.inside b hb
  inside b hb := by
    rw [branches_appendBranch] at hb
    rw [size_appendBranch]
    rcases List.mem_append.1 hb with hb | hb
    · exact (h.inside b hb).trans (Nat.le_add_right _ _)
    · rw [List.mem_singleton.1 hb]

end Branch

/-- A byte of the code so far stands in the finished code, unless it belongs to the offset of a
branch. -/
theorem getElem?_of_precedes {code : Array UInt8} (hf : f.Ready) (h : a.Precedes f)
    (hcode : f.branches.toList.foldlM (resolve f.labels) f.code = .ok code) {k : Nat}
    (hk : k < a.code.size) (hopen : ∀ b ∈ a.branches.toList, k ≠ b.site + 1 ∧ k ≠ b.site + 2) :
    code[k]? = a.code[k]? := by
  obtain ⟨later, hlater, hsites⟩ := h.branches
  rw [(resolves_of_foldlM hf.apart hcode).others k ?_]
  · rw [← Array.getElem?_toList, ← Array.getElem?_toList]
    obtain ⟨rest, hrest⟩ := h.code
    rw [← hrest, List.getElem?_append_left (by rwa [Array.length_toList])]
  · intro b hb
    rw [hlater] at hb
    rcases List.mem_append.1 hb with hb | hb
    · exact hopen b hb
    · have := hsites b hb
      omega

/-- **An instruction stands where it was written.** -/
theorem at?_of_precedes {code : Array UInt8} (ha : a.Ready) (hf : f.Ready)
    (h : (a.append i).Precedes f)
    (hcode : f.branches.toList.foldlM (resolve f.labels) f.code = .ok code) :
    at? code a.code.size = some i := by
  rw [at?_eq_some_iff_getElem?]
  intro k b hb
  have hk : k < i.op.encodedLength := by
    rw [← length_bytes]
    exact (List.getElem?_eq_some_iff.1 hb).1
  rw [getElem?_of_precedes hf h hcode (by rw [size_append]; omega) ?_]
  · rw [← Array.getElem?_toList, toList_append, List.getElem?_append_right (by simp)]
    simpa using hb
  · -- The branches so far end before the instruction.
    intro b' hb'
    have := ha.inside b' hb'
    omega

/-- **A branch leads to the place of its label.** -/
theorem branch_of_precedes {code : Array UInt8} {op : Opcode} {l : Label} {place : Nat}
    (hshort : op.isShortBranch = true) {hop : op.operandSize = 2} (ha : a.Ready) (hf : f.Ready)
    (h : (a.appendBranch op l hop).Precedes f) (hl : f.labels[l.id]? = some (some place))
    (hcode : f.branches.toList.foldlM (resolve f.labels) f.code = .ok code) :
    ∃ i, at? code a.code.size = some i ∧ i.op = op ∧ i.target a.code.size = place := by
  have hmem : (⟨a.code.size, l⟩ : PendingBranch) ∈ f.branches.toList := by
    obtain ⟨later, hlater, -⟩ := h.branches
    rw [hlater, branches_appendBranch]
    simp
  obtain ⟨target, htarget, hlo, hhi, hbytes⟩ :=
    (resolves_of_foldlM hf.apart hcode).offsets _ hmem (hf.inside _ hmem)
  obtain rfl : target = place := by
    rw [htarget] at hl
    exact Option.some.inj (Option.some.inj hl)
  refine ⟨linked op (offsetWord (target - a.code.size)) hop, ?_, rfl,
    target_linked_offsetWord hshort hop hlo hhi⟩
  rw [at?_eq_some_iff_getElem?]
  intro k b hb
  cases k with
  | zero =>
    rw [getElem?_of_precedes hf h hcode (by rw [size_appendBranch]; omega) ?_]
    · rw [← Array.getElem?_toList]
      show (append _ _).code.toList[_]? = _
      rw [toList_append, List.getElem?_append_right (by simp), Array.length_toList, Nat.add_zero,
        Nat.sub_self]
      exact hb
    · intro b' hb'
      rw [branches_appendBranch] at hb'
      rcases List.mem_append.1 hb' with hb' | hb'
      · have := ha.inside b' hb'
        omega
      · rw [List.mem_singleton.1 hb']
        show a.code.size + 0 ≠ a.code.size + 1 ∧ a.code.size + 0 ≠ a.code.size + 2
        omega
  | succ k =>
    have hk := hbytes k b hb
    rwa [Nat.add_assoc, Nat.add_comm 1 k] at hk

end Assembly

namespace Emitter

open Emit

/-! ### Regular actions -/

/-- The open branches are apart, and the pool can look its constants up. -/
structure Ready (e : Emitter) : Prop where
  assembly : e.assembly.Ready
  coherent : e.pool.Coherent

/-- The second emitter continues the first. -/
structure Precedes (e f : Emitter) : Prop where
  assembly : e.assembly.Precedes f.assembly
  pool : Grows e.pool f.pool

variable {α β : Type} {e e' f : Emitter}

theorem Precedes.trans (h : e.Precedes e') (h' : e'.Precedes f) : e.Precedes f :=
  ⟨h.assembly.trans h'.assembly, h.pool.trans h'.pool⟩

theorem ready_ofPool {pool : ConstantPool} (h : pool.Coherent) (slots : Nat) :
    (ofPool pool slots).Ready :=
  ⟨⟨List.Pairwise.nil, nofun⟩, h⟩

/-- The second emitter continues the first if that is ready, and then is ready, too. -/
def Follows (e e' : Emitter) : Prop := e.Ready → e'.Ready ∧ e.Precedes e'

theorem Follows.refl (e : Emitter) : e.Follows e := fun h => ⟨h, .refl _, .refl _⟩

theorem Follows.trans (h : e.Follows e') (h' : e'.Follows f) : e.Follows f := fun he => by
  obtain ⟨he', hpre⟩ := h he
  obtain ⟨hf, hpre'⟩ := h' he'
  exact ⟨hf, hpre.trans hpre'⟩

theorem follows_written (e : Emitter) (t : Tracker) (i : Instruction) :
    e.Follows (e.written t i) := fun h =>
  ⟨⟨h.assembly.append i, h.coherent⟩, e.assembly.precedes_append i, .refl _⟩

theorem follows_withPool {pool : ConstantPool} (h : Grows e.pool pool) :
    e.Follows (e.withPool pool) := fun he =>
  ⟨⟨he.assembly, h.coherent he.coherent⟩, .refl _, h⟩

theorem Follows.withReachable (h : e.Follows e') (r : Bool) : e.Follows (e'.withReachable r) :=
  fun he => ⟨⟨(h he).1.assembly, (h he).1.coherent⟩, (h he).2.assembly, (h he).2.pool⟩

/-- What an instruction with a constant leaves behind. -/
theorem follows_linked {pool : ConstantPool} (h : Grows e.pool pool) (t : Tracker)
    (i : Instruction) : e.Follows ((e.withPool pool).written t i) :=
  (follows_withPool h).trans (follows_written _ t i)

/-- An action that leaves the code and the constants so far in place. -/
def Regular (x : Emit α) : Prop := ∀ e a e', x e = .ok (a, e') → e.Follows e'

theorem Regular.pure (a : α) : Regular (pure a : Emit α) := fun e b e' h => by
  obtain ⟨-, rfl⟩ := pure_eq_ok.1 h
  exact .refl e

theorem Regular.bind {x : Emit α} {k : α → Emit β} (hx : Regular x) (hk : ∀ a, Regular (k a)) :
    Regular (x >>= k) := fun e b e'' h => by
  obtain ⟨a, e', hrun, hrest⟩ := bind_eq_ok.1 h
  exact (hx e a e' hrun).trans (hk a e' b e'' hrest)

theorem Regular.seq {x y : Emit Unit} (hx : Regular x) (hy : Regular y) :
    Regular (do x; y) := hx.bind fun _ => hy

theorem Regular.ite {c : Prop} [Decidable c] {x y : Emit α} (hx : Regular x) (hy : Regular y) :
    Regular (if c then x else y) := by
  split
  · exact hx
  · exact hy

theorem regular_emit (op : Opcode) : Regular (emit op) := fun e _ e' h => by
  obtain ⟨hsize, effect, -, -, -, rfl⟩ := emit_eq_ok.1 h
  exact (follows_written _ _ _).withReachable _

theorem regular_loadConstant (index : UInt16) : Regular (loadConstant index) := fun e _ e' h => by
  obtain ⟨-, rfl⟩ := loadConstant_eq_ok.1 h
  exact follows_written _ _ _

/-- Interning leaves the code alone. -/
theorem regular_intern {f : ConstantPool → UInt16 × ConstantPool} (h : ∀ p, Grows p (f p).2) :
    Regular (intern f) := fun e _ e' hrun => by
  obtain ⟨-, rfl⟩ := intern_eq_ok.1 hrun
  exact follows_withPool (h e.pool)

theorem regular_textConst (text : String) : Regular (textConst text) :=
  (regular_intern fun p => grows_stringRef p text).bind regular_loadConstant

theorem regular_intConst (value : Int32) : Regular (intConst value) := by
  have hshort : Regular (do
      writeOp .bipush
      writeByte (UInt8.ofNat (value.toInt % 256).toNat)
      push 1) := fun e _ e' h => by
    obtain ⟨-, rfl⟩ := (short_push_eq_ok rfl).1 h
    exact follows_written _ _ _
  have hlinked : Regular (do
      writeLinked .sipush (UInt16.ofNat (value.toInt % 65536).toNat); push 1) := fun e _ e' h => by
    obtain ⟨-, rfl⟩ := (linked_push_eq_ok rfl).1 h
    exact follows_written _ _ _
  have hconstant := (regular_intern fun p => grows_intern p (c := .integer value) trivial).bind
    regular_loadConstant
  exact .ite (regular_emit _) <| .ite (regular_emit _) <| .ite (regular_emit _) <|
    .ite (regular_emit _) <| .ite (regular_emit _) <| .ite (regular_emit _) <|
    .ite (regular_emit _) <| .ite hshort <| .ite hlinked hconstant

theorem regular_zeroOf (type : JavaType) : Regular (zeroOf type) := by
  cases type with
  | void => exact .pure ()
  | boolean | byte | char | short | int => exact regular_intConst 0
  | long => exact regular_emit .lconst0
  | float => exact regular_emit .fconst0
  | double => exact regular_emit .dconst0
  | object | array => exact regular_emit .aconstNull

theorem regular_load (type : JavaType) (slot : Nat) : Regular (load type slot) := fun e _ e' h => by
  have hslot : slot ≤ 255 := by
    obtain ⟨_, e₁, haccess, -⟩ := bind_eq_ok.1 h
    exact slot_le_of_accessLocal haccess
  obtain ⟨i, -, hrun⟩ := exists_load type hslot
  obtain ⟨-, rfl⟩ := (hrun e _ e').1 h
  exact follows_written _ _ _

theorem grows_methodRef (p : ConstantPool) (owner name : String) (type : MethodType) :
    Grows p (p.methodRef owner name type).2 := by
  rw [methodRef_eq]
  exact grows_memberRef p .method owner name type.descriptor

theorem regular_getField (owner name : String) (type : JavaType) :
    Regular (getField owner name type) := fun e _ e' h => by
  obtain ⟨-, -, rfl⟩ := getField_eq_ok.1 h
  exact follows_linked (grows_fieldRef _ _ _ _) _ _

theorem regular_putField (owner name : String) (type : JavaType) :
    Regular (putField owner name type) := fun e _ e' h => by
  obtain ⟨-, rfl⟩ := putField_eq_ok.1 h
  exact follows_linked (grows_fieldRef _ _ _ _) _ _

theorem regular_getStatic (owner name : String) (type : JavaType) :
    Regular (getStatic owner name type) := fun e _ e' h => by
  obtain ⟨-, rfl⟩ := getStatic_eq_ok.1 h
  exact follows_linked (grows_fieldRef _ _ _ _) _ _

theorem regular_invokeVirtual (owner name : String) (type : MethodType) :
    Regular (invokeVirtual owner name type) := fun e _ e' h => by
  obtain ⟨-, -, -, rfl⟩ := invokeVirtual_eq_ok.1 h
  exact follows_linked (grows_methodRef _ _ _ _) _ _

theorem regular_invokeSpecial (owner name : String) (type : MethodType) :
    Regular (invokeSpecial owner name type) := fun e _ e' h => by
  obtain ⟨-, -, -, rfl⟩ := invokeSpecial_eq_ok.1 h
  exact follows_linked (grows_methodRef _ _ _ _) _ _

theorem regular_invokeStatic (owner name : String) (type : MethodType) :
    Regular (invokeStatic owner name type) := fun e _ e' h => by
  obtain ⟨-, -, -, rfl⟩ := invokeStatic_eq_ok.1 h
  exact follows_linked (grows_methodRef _ _ _ _) _ _

theorem regular_newObject (name : String) : Regular (newObject name) := fun e _ e' h => by
  obtain ⟨-, rfl⟩ := newObject_eq_ok.1 h
  exact follows_linked (grows_classRef _ _) _ _

theorem regular_checkCast (type : JavaType) : Regular (checkCast type) := fun e _ e' h => by
  obtain ⟨name, -, rfl⟩ := checkCast_eq_ok.1 h
  exact follows_linked (grows_classRef _ _) _ _

theorem regular_checkBalanced : Regular checkBalanced := fun e _ e' h => by
  obtain ⟨-, rfl⟩ := checkBalanced_eq_ok.1 h
  exact .refl e'

/-! ### Labels and branches -/

theorem regular_newLabel : Regular newLabel := fun e l e' h => by
  obtain ⟨-, rfl⟩ := newLabel_eq_ok.1 h
  refine fun he => ⟨⟨⟨he.assembly.apart, he.assembly.inside⟩, he.coherent⟩,
    ⟨List.prefix_rfl, ⟨[], (List.append_nil _).symm, nofun⟩, fun k place hk => ?_⟩, .refl _⟩
  obtain ⟨hlt, hget⟩ := Array.getElem?_eq_some_iff.1 hk
  show (e.assembly.labels.push none)[k]? = _
  rw [Array.getElem?_push_lt hlt, hget]

theorem regular_branch (op : Opcode) (l : Label) : Regular (branch op l) := fun e _ e' h => by
  obtain ⟨hshort, -, -, rfl⟩ := branch_eq_ok.1 h
  exact fun he => ⟨⟨he.assembly.appendBranch, he.coherent⟩, Assembly.precedes_appendBranch, .refl _⟩

/-- Placing a label moves no other one. -/
theorem regular_placeLabel (l : Label) : Regular (placeLabel l) := fun e _ e' h => by
  obtain ⟨hopen, depth, -, -, rfl⟩ := placeLabel_eq_ok.1 h
  refine fun he => ⟨⟨⟨he.assembly.apart, he.assembly.inside⟩, he.coherent⟩,
    ⟨List.prefix_rfl, ⟨[], (List.append_nil _).symm, nofun⟩, fun k place hk => ?_⟩, .refl _⟩
  show (e.assembly.labels.setIfInBounds l.id _)[k]? = _
  rw [Array.getElem?_setIfInBounds_ne ?_]
  · exact hk
  · rintro rfl
    rw [hopen] at hk
    cases hk

/-- Where a label stands once it is placed. -/
theorem label_of_placeLabel {l : Label} {u : Unit} (h : placeLabel l e = .ok (u, e')) :
    e'.assembly.labels[l.id]? = some (some e.assembly.code.size) ∧
      e'.assembly.code = e.assembly.code := by
  obtain ⟨hopen, depth, -, -, rfl⟩ := placeLabel_eq_ok.1 h
  refine ⟨?_, rfl⟩
  show (e.assembly.labels.setIfInBounds l.id _)[l.id]? = _
  rw [Array.getElem?_setIfInBounds_self_of_lt (Array.getElem?_eq_some_iff.1 hopen).1]

theorem code_of_newLabel {l : Label} (h : newLabel e = .ok (l, e')) :
    e'.assembly.code = e.assembly.code := by
  obtain ⟨-, rfl⟩ := newLabel_eq_ok.1 h
  rfl

theorem regular_skipping {test x : Emit Unit} (htest : Regular test) (hx : Regular x) :
    Regular (skipping test x) :=
  regular_newLabel.bind fun skip => htest.seq <| (regular_branch _ skip).seq <|
    hx.seq (regular_placeLabel skip)

theorem regular_fork {test x y : Emit Unit} {op : Opcode} (htest : Regular test) (hx : Regular x)
    (hy : Regular y) : Regular (fork test op x y) :=
  regular_newLabel.bind fun taken => regular_newLabel.bind fun done => htest.seq <|
    (regular_branch op taken).seq <| hx.seq <| (regular_branch .goto done).seq <|
    (regular_placeLabel taken).seq <| hy.seq (regular_placeLabel done)

end Emitter

end ClassForge
