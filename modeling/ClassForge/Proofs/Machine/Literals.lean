import ClassForge.Proofs.Machine.Linking
import ClassForge.Proofs.Pool.Resolution

/-!
# Literals

The code for a literal is one instruction, and the shortest one that there is: with the value
implied, as an operand, or as an index of the pool. Whichever it is, the machine pushes the literal.

* `Literal`, `Literal.Stands` — a literal, and the value that stands for it. Numbers with a point
  are bit patterns, so that both zeros and all that is not a number are told apart;
* `Addition` — the ways a pool grows, a constant of any kind among them;
* `Literal.LoadedBy` — **the contract** of code for a literal, whatever the pool holds before it and
  after it;
* `Literal.loadedBy_interned` — **PROVED**: a constant of the pool keeps its index;
* `Literal.loadedBy_emit` — **PROVED**: the contract holds of the code for every literal;
* `Literal.step_emit` — **PROVED**: so that a machine pushes the literal in one step.
-/

namespace ClassForge

open ConstantPool Emitter Instruction Machine

/-! ### Pools before and after -/

/-- The ways a pool grows. -/
inductive Addition where
  /-- A constant of any kind, with whatever indices it may have. -/
  | constant (c : Constant)
  | named (op : Interning)

/-- The pool with the addition made. -/
def Addition.apply (p : ConstantPool) : Addition → ConstantPool
  | .constant c => (p.intern c).2
  | .named op => (op.apply p).2

namespace ConstantPool

/-- The pool with additions made. -/
def after (p : ConstantPool) (additions : List Addition) : ConstantPool :=
  additions.foldl Addition.apply p

variable {p : ConstantPool}

theorem extends_after (additions : List Addition) : Extends p (p.after additions) := by
  induction additions generalizing p with
  | nil => exact .refl p
  | cons a additions ih =>
    have hstep : Extends p (a.apply p) := by
      cases a with
      | constant c => exact extends_intern p c
      | named op => exact (grows_apply p op).keeps
    exact fun i c hget => ih i c (hstep i c hget)

theorem Coherent.after (h : p.Coherent) (additions : List Addition) :
    (p.after additions).Coherent := by
  induction additions generalizing p with
  | nil => exact h
  | cons a additions ih =>
    refine ih (p := a.apply p) ?_
    cases a with
    | constant c => exact coherent_intern c h
    | named op => exact (grows_apply p op).coherent h

/-- A pool as a class file lists it interns nothing. -/
theorem coherent_foldl_append (cs : List Constant) : (cs.foldl append empty).Coherent := by
  have hindex : (cs.foldl append empty).index = ∅ := by
    induction cs using List.reverseRecOn with
    | nil => rfl
    | append_singleton cs c ih =>
      rw [List.foldl_append]
      exact ih
  intro c i h
  rw [hindex] at h
  simp at h

end ConstantPool

/-! ### Operands and constants -/

namespace Machine

variable {σ : Type} {M : Machine σ}

theorem operate_constantLoad (index : UInt16) (s : Activation σ) :
    branch? (constantLoad index).op s.stack = none ∧
      M.operate (constantLoad index) s = s.pushConstant M.platform M.pool 1 index := by
  unfold constantLoad
  split
  · rename_i hshort
    have hindex : index.toUInt8.toUInt16 = index := by
      rw [← UInt16.toNat_inj, UInt8.toNat_toUInt16, UInt16.toNat_toUInt8]
      omega
    exact ⟨rfl, congrArg (fun k => s.pushConstant M.platform M.pool 1 k) hindex⟩
  · exact ⟨rfl, congrArg (fun k => s.pushConstant M.platform M.pool 1 k)
      (word_linked .ldcW index rfl)⟩

theorem operate_wideLoad (index : UInt16) (s : Activation σ) :
    M.operate (.linked .ldc2W index rfl) s = s.pushConstant M.platform M.pool 2 index :=
  congrArg (fun k => s.pushConstant M.platform M.pool 2 k) (word_linked .ldc2W index rfl)

theorem toInt32_bipush {n : Int32} (hlo : -128 ≤ n.toInt) (hhi : n.toInt ≤ 127) :
    (UInt8.ofNat (n.toInt % 256).toNat).toInt8.toInt32 = n := by
  rw [← Int32.toInt_inj, Int8.toInt_toInt32, UInt8.toInt8_ofNat', Int8.toInt_ofNat', Int.bmod_def]
  unfold Int8.size
  omega

theorem toInt32_sipush {n : Int32} (hlo : -32768 ≤ n.toInt) (hhi : n.toInt ≤ 32767) :
    (UInt16.ofNat (n.toInt % 65536).toNat).toInt16.toInt32 = n := by
  rw [← Int32.toInt_inj, Int16.toInt_toInt32, UInt16.toInt16_ofNat', Int16.toInt_ofNat',
    Int.bmod_def]
  unfold Int16.size
  omega

end Machine

/-! ### Literals and their values -/

/-- What a single instruction can push. -/
inductive Literal where
  | int (value : Int32)
  | long (value : Int64)
  | float (bits : UInt32)
  | double (bits : UInt64)
  | text (content : String)

namespace Literal

/-- Pushes the literal. -/
def emit : Literal → Emit Unit
  | .int value => intConst value
  | .long value => longConst value
  | .float bits => floatConst bits
  | .double bits => doubleConst bits
  | .text content => textConst content

/-- The slots of the value. -/
def slots : Literal → Nat
  | .int _ | .float _ | .text _ => 1
  | .long _ | .double _ => 2

variable {σ : Type}

/-- **The value stands for the literal**; for a text this is an object with that text. -/
def Stands (w : World σ) : Literal → Value → Prop
  | .int value, v => v = .int value
  | .long value, v => v = .long value
  | .float bits, v => v = .float bits
  | .double bits, v => v = .double bits
  | .text content, v => ∃ r, v = .ref (some r) ∧ w.objects r = some (.text content)

/-- The frame with the literal pushed. -/
def push (P : Platform σ) : Literal → Activation σ → Activation σ
  | .int value, s => s.push (.int value)
  | .long value, s => s.push (.long value)
  | .float bits, s => s.push (.float bits)
  | .double bits, s => s.push (.double bits)
  | .text content, s =>
    { s with
      stack := .ref (some (P.provide (.text content) s.world).1) :: s.stack
      world := (P.provide (.text content) s.world).2 }

/-- A value that stands for the literal is on top, and nothing that was there has changed. -/
theorem exists_push_eq (P : Platform σ) (lit : Literal) (s : Activation σ) :
    ∃ v w, lit.push P s = ⟨v :: s.stack, s.locals, w, s.calls⟩ ∧ lit.Stands w v ∧
      s.world.Keeps w := by
  cases lit with
  | int | long | float | double => exact ⟨_, s.world, rfl, rfl, .refl _⟩
  | text content =>
    exact ⟨_, _, rfl, ⟨_, rfl, P.provide_objects _ _⟩, P.provide_keeps (.text content) s.world⟩

/-- The instruction pushes the literal. -/
def Pushed (lit : Literal) (M : Machine σ) (i : Instruction) (s : Activation σ) : Prop :=
  branch? i.op s.stack = none ∧ M.operate i s = some (lit.push M.platform s)

/-- **The contract of code for a literal**: it is one instruction, which pushes the literal on every
machine that has the constants of the pool, among others. -/
def LoadedBy (lit : Literal) (x : Emit Unit) : Prop :=
  ∀ e : Emitter, ∃ pool i,
    (∀ e', x e = .ok ((), e') ↔ e.tracker.depth + lit.slots ≤ wordMax ∧
      e' = (e.withPool pool).written (e.tracker.moved ⟨0, lit.slots⟩) i) ∧
    (e.pool.Coherent → pool.violation = none →
      ∀ {σ : Type} {M : Machine σ}, Extends pool M.pool → ∀ s, lit.Pushed M i s)

variable {lit : Literal}

/-- An instruction that implies the value. -/
theorem loadedBy_plain {op : Opcode} (hsize : op.operandSize = 0)
    (heffect : op.fixedEffect? = some ⟨0, lit.slots⟩) (hterm : op.isTerminal = false)
    (hop : ∀ {σ : Type} (M : Machine σ) (s : Activation σ), lit.Pushed M (.plain op hsize) s) :
    lit.LoadedBy (Emitter.emit op) := by
  refine fun e => ⟨e.pool, .plain op hsize, fun e' => ?_, fun _ _ _ M _ s => hop M s⟩
  rw [emit_eq_ok, hterm, Bool.not_false, Bool.and_true]
  constructor
  · rintro ⟨_, effect, heffect', -, hdepth, rfl⟩
    obtain rfl := Option.some.inj (heffect.symm.trans heffect')
    exact ⟨hdepth, rfl⟩
  · rintro ⟨hdepth, rfl⟩
    exact ⟨hsize, _, heffect, Nat.zero_le _, hdepth, rfl⟩

/-- **A constant of the pool**, loaded by its index. -/
theorem loadedBy_interned {c : Constant} {load : UInt16 → Emit Unit}
    (instr : UInt16 → Instruction)
    (hrun : ∀ {e e' : Emitter} {index : UInt16}, load index e = .ok ((), e') ↔
      e.tracker.depth + lit.slots ≤ wordMax ∧
        e' = e.written (e.tracker.moved ⟨0, lit.slots⟩) (instr index))
    (hop : ∀ {σ : Type} (M : Machine σ) (s : Activation σ) (index : UInt16),
      M.pool.get? index = some c → lit.Pushed M (instr index) s) :
    lit.LoadedBy (intern (·.intern c) >>= load) :=
  fun e => ⟨(e.pool.intern c).2, instr (e.pool.intern c).1,
    fun _ => interned_eq_ok.trans hrun,
    fun hcoh hclean _ M hkeeps s => hop M s _ (hkeeps _ _ (get?_intern hcoh hclean))⟩

theorem loadedBy_loadConstant {c : Constant} (hslots : lit.slots = 1)
    (hconst : ∀ {σ : Type} (M : Machine σ) (s : Activation σ) (index : UInt16),
      M.pool.get? index = some c →
      s.pushConstant M.platform M.pool 1 index = some (lit.push M.platform s)) :
    lit.LoadedBy (intern (·.intern c) >>= loadConstant) := by
  refine loadedBy_interned constantLoad ?_ fun M s index hget => ?_
  · rw [hslots]
    exact loadConstant_eq_ok
  · obtain ⟨hbranch, hload⟩ := operate_constantLoad (M := M) index s
    exact ⟨hbranch, hload.trans (hconst M s index hget)⟩

theorem loadedBy_loadWideConstant {c : Constant} (hslots : lit.slots = 2)
    (hconst : ∀ {σ : Type} (M : Machine σ) (s : Activation σ) (index : UInt16),
      M.pool.get? index = some c →
      s.pushConstant M.platform M.pool 2 index = some (lit.push M.platform s)) :
    lit.LoadedBy (intern (·.intern c) >>= loadWideConstant) := by
  refine loadedBy_interned (fun index => .linked .ldc2W index rfl) ?_ fun M s index hget => ?_
  · rw [hslots]
    exact loadWideConstant_eq_ok
  · exact ⟨rfl, (operate_wideLoad index s).trans (hconst M s index hget)⟩

/-! ### The kinds of literals -/

theorem loadedBy_intConst (n : Int32) : (Literal.int n).LoadedBy (intConst n) := by
  have hplain : ∀ {op : Opcode} {k : Int32}, n.toInt = k.toInt → (hsize : op.operandSize = 0) →
      op.fixedEffect? = some ⟨0, 1⟩ → op.isTerminal = false →
      (∀ {σ : Type} (M : Machine σ) (s : Activation σ),
        (Literal.int k).Pushed M (.plain op hsize) s) →
      (Literal.int n).LoadedBy (Emitter.emit op) := by
    intro op k hk hsize heffect hterm hop
    obtain rfl := Int32.toInt_inj.1 hk
    exact loadedBy_plain hsize heffect hterm hop
  unfold intConst
  dsimp only
  split_ifs with h h h h h h h hbyte hword
  · exact hplain (k := -1) h rfl rfl rfl fun _ _ => ⟨rfl, rfl⟩
  · exact hplain (k := 0) h rfl rfl rfl fun _ _ => ⟨rfl, rfl⟩
  · exact hplain (k := 1) h rfl rfl rfl fun _ _ => ⟨rfl, rfl⟩
  · exact hplain (k := 2) h rfl rfl rfl fun _ _ => ⟨rfl, rfl⟩
  · exact hplain (k := 3) h rfl rfl rfl fun _ _ => ⟨rfl, rfl⟩
  · exact hplain (k := 4) h rfl rfl rfl fun _ _ => ⟨rfl, rfl⟩
  · exact hplain (k := 5) h rfl rfl rfl fun _ _ => ⟨rfl, rfl⟩
  · refine fun e => ⟨e.pool, .short .bipush (UInt8.ofNat (n.toInt % 256).toNat) rfl,
      fun _ => short_push_eq_ok rfl, fun _ _ _ M _ s => ⟨rfl, ?_⟩⟩
    exact congrArg (fun k => some (s.push (.int k))) (toInt32_bipush hbyte.1 hbyte.2)
  · refine fun e => ⟨e.pool, .linked .sipush (UInt16.ofNat (n.toInt % 65536).toNat) rfl,
      fun _ => linked_push_eq_ok rfl, fun _ _ _ M _ s => ⟨rfl, ?_⟩⟩
    have hvalue := (congrArg (fun w : UInt16 => w.toInt16.toInt32)
      (word_linked .sipush _ rfl)).trans (toInt32_sipush hword.1 hword.2)
    exact congrArg (fun k => some (s.push (.int k))) hvalue
  · refine loadedBy_loadConstant rfl fun M s index hget => ?_
    simp only [Activation.pushConstant, hget, if_true, push]

theorem loadedBy_longConst (n : Int64) : (Literal.long n).LoadedBy (longConst n) := by
  unfold longConst
  split_ifs with hzero hone
  · subst hzero
    exact loadedBy_plain rfl rfl rfl fun _ _ => ⟨rfl, rfl⟩
  · subst hone
    exact loadedBy_plain rfl rfl rfl fun _ _ => ⟨rfl, rfl⟩
  · refine loadedBy_loadWideConstant rfl fun M s index hget => ?_
    simp only [Activation.pushConstant, hget, if_true, push]

theorem loadedBy_floatConst (bits : UInt32) : (Literal.float bits).LoadedBy (floatConst bits) := by
  unfold floatConst
  split_ifs with hzero hone htwo
  · subst hzero
    exact loadedBy_plain rfl rfl rfl fun _ _ => ⟨rfl, rfl⟩
  · subst hone
    exact loadedBy_plain rfl rfl rfl fun _ _ => ⟨rfl, rfl⟩
  · subst htwo
    exact loadedBy_plain rfl rfl rfl fun _ _ => ⟨rfl, rfl⟩
  · refine loadedBy_loadConstant rfl fun M s index hget => ?_
    simp only [Activation.pushConstant, hget, if_true, push]

theorem loadedBy_doubleConst (bits : UInt64) :
    (Literal.double bits).LoadedBy (doubleConst bits) := by
  unfold doubleConst
  split_ifs with hzero hone
  · subst hzero
    exact loadedBy_plain rfl rfl rfl fun _ _ => ⟨rfl, rfl⟩
  · subst hone
    exact loadedBy_plain rfl rfl rfl fun _ _ => ⟨rfl, rfl⟩
  · refine loadedBy_loadWideConstant rfl fun M s index hget => ?_
    simp only [Activation.pushConstant, hget, if_true, push]

/-- A text is a constant that refers to another one. -/
theorem loadedBy_textConst (content : String) :
    (Literal.text content).LoadedBy (textConst content) := by
  refine fun e => ⟨_, _, fun _ => textConst_eq_ok, fun hcoh hclean σ M hkeeps s => ?_⟩
  have hgrows : Grows (e.pool.utf8 content).2 (e.pool.stringRef content).2 :=
    grows_intern _ trivial
  have hget := hkeeps _ _ (get?_stringRef hcoh hclean)
  have htext : M.pool.stringAt (e.pool.stringRef content).1 = .ok content :=
    stringAt_eq_ok.2 ⟨_, hget, hkeeps.utf8At (hgrows.keeps.utf8At
      (utf8At_utf8 hcoh (hgrows.clean hclean)))⟩
  obtain ⟨hbranch, hload⟩ := operate_constantLoad (M := M) (e.pool.stringRef content).1 s
  refine ⟨hbranch, hload.trans ?_⟩
  simp only [Activation.pushConstant, hget, htext, if_true, push]

/-- **Every literal is loaded by its code.** -/
theorem loadedBy_emit (lit : Literal) : lit.LoadedBy lit.emit := by
  cases lit with
  | int value => exact loadedBy_intConst value
  | long value => exact loadedBy_longConst value
  | float bits => exact loadedBy_floatConst bits
  | double bits => exact loadedBy_doubleConst bits
  | text content => exact loadedBy_textConst content

/-- **Literals are loaded exactly.** Take any emitter whose pool was listed by a class file or is
empty, with whatever additions, and room for the slots of the literal. One instruction is appended,
with the bytes that its code byte calls for, and the tracked depth grows by the slots. Unless the
pool has met a limit, a machine that comes to this instruction pushes a value that stands for the
literal and goes on behind it; it may have any further additions in its pool. -/
theorem step_emit (lit : Literal) {e : Emitter} {cs : List Constant} {before : List Addition}
    (hpool : e.pool = (cs.foldl append empty).after before)
    (hdepth : e.tracker.depth + lit.slots ≤ wordMax) :
    ∃ e' i, lit.emit e = .ok ((), e') ∧ e'.tracker.depth = e.tracker.depth + lit.slots ∧
      e'.assembly.code.toList = e.assembly.code.toList ++ i.bytes ∧
      i.bytes.length = i.op.encodedLength ∧
      at? e'.assembly.code e.assembly.code.size = some i ∧
      (e'.pool.check = .ok () → ∀ (later : List Addition) {σ : Type} (M : Machine σ)
        (s : MachineState σ), M.pool = e'.pool.after later → at? M.code s.pc = some i →
        ∃ v w, M.step s = some ⟨s.pc + i.op.encodedLength, v :: s.frame.stack, s.frame.locals, w,
          s.frame.calls⟩ ∧ lit.Stands w v ∧ s.frame.world.Keeps w) := by
  have hcoh : e.pool.Coherent := hpool ▸ (coherent_foldl_append cs).after before
  obtain ⟨pool, i, hiff, hpushed⟩ := lit.loadedBy_emit e
  have hcode := e.assembly.toList_append i
  refine ⟨_, i, (hiff _).2 ⟨hdepth, rfl⟩, rfl, hcode, i.length_bytes, ?_,
    fun hcheck later σ M s hM hat => ?_⟩
  · refine at?_eq_some_iff.2 ⟨[], ?_⟩
    show (e.assembly.append i).code.toList.drop _ = _
    rw [hcode, List.append_nil, ← Array.length_toList, List.drop_left]
  · obtain ⟨hbranch, hop⟩ :=
      hpushed hcoh (check_eq_ok.1 hcheck) (hM ▸ extends_after later) s.frame
    obtain ⟨v, w, hpush, hv, hkeeps⟩ := lit.exists_push_eq M.platform s.frame
    refine ⟨v, w, ?_, hv, hkeeps⟩
    simp only [step, hat, hbranch, hop, hpush, Option.map_some]

/-- The first negative number that one operand byte does not hold. -/
theorem step_emit_int : ∃ (e' : Emitter) (i : Instruction),
    (Literal.int (-129)).emit (ofPool .empty 0) = .ok ((), e') ∧ e'.pool.check = .ok () ∧
    e'.assembly.code.toList = i.bytes ∧ i.bytes.length = 3 ∧
    ∀ (P : Platform Unit) (l : Nat → Option Value) (w : World Unit),
      ∃ w', Machine.step ⟨P, e'.pool, e'.assembly.code⟩ ⟨0, [], l, w, []⟩ =
        some ⟨3, [.int (-129)], l, w', []⟩ := by
  have hpool : (ofPool .empty 0).pool = (([] : List Constant).foldl append empty).after [] := rfl
  obtain ⟨e', i, hrun, -, hcode, hlength, hat, hstep⟩ :=
    step_emit (.int (-129)) hpool (by decide)
  have heval : ((Literal.int (-129)).emit (ofPool .empty 0)).toOption.any (fun r =>
      r.2.pool.violation = none ∧ r.2.assembly.code.size = 3) = true := by decide +kernel
  obtain ⟨⟨_, e₁⟩, hrun₁, htest⟩ := Except.exists_ok_of_any heval
  obtain rfl : e₁ = e' := (Prod.mk.inj (Except.ok.inj (hrun₁.symm.trans hrun))).2
  obtain ⟨hclean, hsize⟩ := of_decide_eq_true htest
  have hcheck := check_eq_ok.2 hclean
  have hthree : i.op.encodedLength = 3 := by
    rw [← hlength, ← hsize, ← Array.length_toList, hcode]
    rfl
  refine ⟨e₁, i, hrun, hcheck, hcode, hlength.trans hthree, fun P l w => ?_⟩
  obtain ⟨v, w', hw, rfl, -⟩ := hstep hcheck [] ⟨P, e₁.pool, e₁.assembly.code⟩
    ⟨0, [], l, w, []⟩ rfl hat
  exact ⟨w', by rw [hw, hthree]⟩

end Literal

end ClassForge
