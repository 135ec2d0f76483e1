import ClassForge.Proofs.ClassFile.RoundTrip
import ClassForge.Proofs.Descriptor
import ClassForge.Proofs.Emission.Operations
import ClassForge.Proofs.Inspection.Ranges

/-!
# Inspection is safe

The inspection of a class reads bytes and tables by computed offsets and counts in machine words.
A defect would end it. The only one that can arise is a count of argument slots that leaves 16
bits.

* `ClassImage.CountOverflow` — a method of the class, or one that its code calls, has such a count;
* `Walk.run_eq_abort` — **PROVED**: the walk reads within the code and the depth table and ends
  within its bound;
* `inspectClass_eq_error` — **PROVED**: no other defect ends the inspection of a class;
* `inspectClass_safe` — **PROVED**: so any bytes are accepted or rejected unless there is such a
  count, and all other numbers stay in range.
-/

namespace ClassForge

open Inspection

/-! ### Defects of checks -/

/-- Two computations in a row, each with errors of its own, meet a defect in the first or in the
second. -/
theorem Defect.run_bind_eq_error {ε α β : Type} {d : Defect} {x : ExceptT ε (Except Defect) α}
    {f : α → ExceptT ε (Except Defect) β} :
    (x >>= f).run = .error d ↔
      x.run = .error d ∨ ∃ a, x.run = .ok (.ok a) ∧ (f a).run = .error d := by
  rcases x with d' | (fault | a)
  · constructor
    · intro h
      cases h
      exact .inl rfl
    · rintro (h | ⟨a, h, -⟩)
      · cases h
        rfl
      · cases h
  · constructor
    · intro h
      cases h
    · rintro (h | ⟨a, h, -⟩) <;> cases h
  · constructor
    · intro h
      exact .inr ⟨a, rfl, h⟩
    · rintro (h | ⟨a', h, hf⟩)
      · cases h
      · cases h
        exact hf

namespace BodyCheck

variable {α β : Type} {d : Defect}

theorem pure_ne_abort (a : α) (d : Defect) : (pure a : BodyCheck α) ≠ abort d :=
  (abort_ne_pure d a).symm

theorem throw_ne_abort (f : BodyFault) (d : Defect) : (throw f : BodyCheck α) ≠ abort d := by
  intro h
  cases h

/-- A sequence of two checks meets a defect in the first or in the second. -/
theorem bind_eq_abort {x : BodyCheck α} {f : α → BodyCheck β} :
    x >>= f = abort d ↔ x = abort d ∨ ∃ a, x = pure a ∧ f a = abort d :=
  Defect.run_bind_eq_error

/-- A guard in front of a check. -/
theorem guard_eq_abort {c : Prop} [Decidable c] {f : BodyFault} {x : BodyCheck α}
    (h : (if c then throw f else x) = abort d) : x = abort d := by
  split at h
  · exact absurd h (throw_ne_abort f d)
  · exact h

/-- A guard in front of a check, in the form that it has before a continuation. -/
theorem guard_bind_eq_abort {c : Prop} [Decidable c] {f : BodyFault} {k : Unit → BodyCheck α}
    (h : (if c then throw f >>= k else k ()) = abort d) : k () = abort d := by
  rw [show (throw f >>= k : BodyCheck α) = throw f from rfl] at h
  exact guard_eq_abort h

theorem ofCount_eq_abort {x : Except Defect α} :
    (ofCount x : BodyCheck α) = abort d ↔ x = .error d := by
  cases x with
  | error d' =>
    constructor <;> intro h <;> cases h <;> rfl
  | ok a => simp [ofCount, abort, ExceptT.mk]

end BodyCheck

/-- The slots of a call leave a word when their sum does. -/
theorem MethodType.callWord_eq_error {m : MethodType} {receiver : Bool} {d : Defect} :
    m.callWord receiver = .error d ↔
      d = .wordOverflow ∧ wordMax < m.argSlots + (if receiver then 1 else 0) := by
  by_cases hle : m.argSlots + (if receiver then 1 else 0) ≤ wordMax
  · rw [MethodType.callWord_eq_ok.2 ⟨rfl, hle⟩]
    constructor
    · intro h
      cases h
    · rintro ⟨-, hlt⟩
      omega
  · have herror : m.callWord receiver = .error .wordOverflow := by
      unfold MethodType.callWord MethodType.argWord Defect.checkWord
      split
      · exact if_neg hle
      · rfl
    rw [herror]
    constructor
    · intro h
      cases h
      exact ⟨rfl, Nat.lt_of_not_le hle⟩
    · rintro ⟨rfl, -⟩
      rfl

namespace Inspection

open BodyCheck Instruction

variable {pool : ConstantPool} {code : Array UInt8} {pc : Nat} {i : Instruction} {d : Defect}

/-- The instruction is a call with more argument slots, the receiver included, than a word
counts. -/
def CallOverflow (pool : ConstantPool) (i : Instruction) : Prop :=
  i.op.IsCall ∧ ∃ type, pool.methodType? i.op (i.word 0) = some type ∧
    wordMax < type.argSlots + (if i.op = .invokestatic then 0 else 1)

/-- The code has such a call among its instructions. -/
def CallsOverflow (pool : ConstantPool) (code : Array UInt8) : Prop :=
  ∃ pc i, Sweep code 0 pc ∧ at? code pc = some i ∧ CallOverflow pool i

theorem fieldSlots_ne_abort (pool : ConstantPool) (pc : Nat) (k : UInt16) (d : Defect) :
    fieldSlots pool pc k ≠ abort d := by
  unfold fieldSlots
  split
  · exact throw_ne_abort _ d
  · split
    · exact throw_ne_abort _ d
    · split
      · exact throw_ne_abort _ d
      · exact throw_ne_abort _ d
      · exact pure_ne_abort _ d

theorem calledType_ne_abort (pool : ConstantPool) (op : Opcode) (pc : Nat) (k : UInt16)
    (d : Defect) : calledType pool op pc k ≠ abort d := by
  unfold calledType
  split
  · exact throw_ne_abort _ d
  · split
    · split
      · exact throw_ne_abort _ d
      · exact pure_ne_abort _ d
    · exact throw_ne_abort _ d

/-- A call meets a defect only in the count of its slots. -/
theorem callEffect_eq_abort (h : at? code pc = some i) (hcall : i.op.IsCall)
    (habort : callEffect pool code i.op pc = abort d) :
    d = .wordOverflow ∧ CallOverflow pool i := by
  have hsize := hcall.operandSize_le
  have hcount : ∀ {type : MethodType} {receiver : Bool},
      pool.methodType? i.op (i.word 0) = some type → receiver = decide (i.op ≠ .invokestatic) →
      type.callWord receiver = .error d → d = .wordOverflow ∧ CallOverflow pool i := by
    rintro type receiver htype rfl hword
    obtain ⟨rfl, hlt⟩ := MethodType.callWord_eq_error.1 hword
    refine ⟨rfl, hcall, type, htype, ?_⟩
    by_cases hstatic : i.op = .invokestatic <;> simpa [hstatic] using hlt
  unfold callEffect at habort
  rw [wordAt_operand (k := 0) h (by omega), pure_bind] at habort
  rcases bind_eq_abort.1 habort with hcalled | ⟨type, htype, habort⟩
  · exact absurd hcalled (calledType_ne_abort _ _ _ _ _)
  have htype := calledType_eq_pure.1 htype
  have hlast : (do
      let popped ← ofCount (type.callWord (i.op ≠ .invokestatic))
      return ⟨popped, type.retSlots⟩ : BodyCheck StackEffect) = abort d →
      d = .wordOverflow ∧ CallOverflow pool i := by
    intro hlast
    rcases bind_eq_abort.1 hlast with hword | ⟨n, -, hpure⟩
    · exact hcount htype rfl (ofCount_eq_abort.1 hword)
    · exact absurd hpure (pure_ne_abort _ _)
  by_cases hint : i.op = .invokeinterface
  · rw [if_pos hint, show pc + 3 = pc + 1 + 2 by omega,
      byteAt_operand (k := 2) h (by have := hsize.2 hint; omega), pure_bind] at habort
    rcases bind_eq_abort.1 habort with hword | ⟨n, -, habort⟩
    · exact hcount htype (by rw [hint]; rfl) (ofCount_eq_abort.1 hword)
    · exact hlast (guard_bind_eq_abort habort)
  · rw [if_neg hint] at habort
    exact hlast habort

/-- The effect of an instruction meets a defect only in the count of a call. -/
theorem effectAt_eq_abort (h : at? code pc = some i)
    (habort : effectAt pool code i.op pc = abort d) :
    d = .wordOverflow ∧ CallOverflow pool i := by
  have hconst : ∀ {c : Bool} {k : UInt16} {e : StackEffect},
      (if c then pure e else throw (.badConstant pc k) : BodyCheck StackEffect) ≠ abort d := by
    intro c k e
    cases c
    · exact throw_ne_abort _ _
    · exact pure_ne_abort _ _
  cases hfixed : i.op.fixedEffect? with
  | some effect =>
    unfold effectAt at habort
    simp only [hfixed] at habort
    split at habort
    case h_5 => exact absurd habort (pure_ne_abort _ _)
    all_goals
      rename_i hop
      rw [wordAt_operand (k := 0) h (by rw [hop]; decide), pure_bind] at habort
      exact absurd habort hconst
  | none =>
    rcases Opcode.linked_cases hfixed with ⟨n, hload⟩ | ⟨f, hfield⟩ | hcall
    · rw [effectAt_of_load h hload] at habort
      exact absurd habort hconst
    · rw [effectAt_of_field h hfield] at habort
      rcases bind_eq_abort.1 habort with hslots | ⟨n, -, hpure⟩
      · exact absurd hslots (fieldSlots_ne_abort _ _ _ _)
      · exact absurd hpure (pure_ne_abort _ _)
    · rw [effectAt_of_isCall hcall] at habort
      exact callEffect_eq_abort h hcall habort

/-! ### The walk -/

namespace Walk

variable {s : Subject} {depth params : Nat} {w : Walk}

theorem checkLocals_ne_abort (h : at? s.body.code pc = some i) (used : Nat) (d : Defect) :
    checkLocals s i.op pc used ≠ abort d := by
  intro habort
  unfold checkLocals at habort
  cases haccess : i.op.localAccess? with
  | none =>
    rw [haccess] at habort
    exact pure_ne_abort _ _ habort
  | some access =>
    have hguard : ∀ index : Nat,
        (if index + access.width > s.body.maxLocals.toNat then
            throw (.localOutOfRange pc index s.body.maxLocals.toNat) >>= fun (_ : Unit) =>
              pure (max used (index + access.width))
          else pure (max used (index + access.width)) : BodyCheck Nat) ≠ abort d := by
      intro index hindex
      have hused : pure (max used (index + access.width)) = abort d := guard_bind_eq_abort hindex
      exact pure_ne_abort _ _ hused
    cases hidx : access.index? with
    | some index =>
      simp only [haccess, hidx, pure_bind] at habort
      exact hguard index habort
    | none =>
      have hsize := Opcode.operandSize_pos_of_localAccess? haccess hidx
      simp only [haccess, hidx] at habort
      rw [show pc + 1 = pc + 1 + 0 from rfl, byteAt_operand h hsize, map_pure, pure_bind] at habort
      exact hguard _ habort

theorem branchExit_ne_abort (h : at? s.body.code pc = some i) (d : Defect) :
    branchExit s i.op pc ≠ abort d := by
  intro habort
  unfold branchExit at habort
  by_cases hb : i.op.isBranch = true
  · rw [if_pos hb, branchTarget_of_at? h hb, pure_bind] at habort
    have hexit : pure (some (i.target pc).toNat) = abort d := guard_bind_eq_abort habort
    exact pure_ne_abort _ _ hexit
  · rw [if_neg hb] at habort
    exact pure_ne_abort _ _ habort

theorem nextExit_ne_abort (s : Subject) (op : Opcode) (pc : Nat) (d : Defect) :
    nextExit s op pc ≠ abort d := by
  intro habort
  unfold nextExit at habort
  split at habort
  · exact pure_ne_abort _ _ habort
  · exact pure_ne_abort _ _ (guard_eq_abort habort)

theorem depthAfter_eq_abort (h : at? s.body.code pc = some i)
    (habort : depthAfter s i.op pc depth = abort d) :
    d = .wordOverflow ∧ CallOverflow s.pool i := by
  unfold depthAfter at habort
  rcases bind_eq_abort.1 habort with heffect | ⟨e, -, habort⟩
  · exact effectAt_eq_abort h heffect
  · exact absurd (guard_bind_eq_abort (guard_bind_eq_abort habort)) (pure_ne_abort _ _)

theorem enter_eq_abort (h : at? s.body.code pc = some i)
    (habort : enter s w i.op pc depth = abort d) :
    d = .wordOverflow ∧ CallOverflow s.pool i := by
  unfold enter at habort
  rcases bind_eq_abort.1 habort with hlocals | ⟨n, -, habort⟩
  · exact absurd hlocals (checkLocals_ne_abort h _ _)
  rcases bind_eq_abort.1 (guard_bind_eq_abort habort) with hdepth | ⟨after, -, habort⟩
  · exact depthAfter_eq_abort h hdepth
  rcases bind_eq_abort.1 habort with hbranch | ⟨b, -, habort⟩
  · exact absurd hbranch (branchExit_ne_abort h _)
  rcases bind_eq_abort.1 habort with hnext | ⟨n, -, habort⟩
  · exact absurd hnext (nextExit_ne_abort _ _ _ _)
  · exact absurd habort (pure_ne_abort _ _)

/-- The step: a visit reads within the depth table and the code. -/
theorem visit_eq_abort (hs : boundaries s.body.code = .ok s.starts)
    (hsize : w.depths.size = s.body.code.size) (habort : visit s w pc depth = abort d) :
    d = .wordOverflow ∧ CallsOverflow s.pool s.body.code := by
  unfold visit at habort
  by_cases hstart : isStart s.starts pc = true
  · have hlt : pc < w.depths.size := by
      rw [hsize, ← size_of_boundaries hs]
      exact lt_size_of_isStart hstart
    rw [if_neg (by simpa using hstart)] at habort
    split at habort
    · rename_i hnone
      exact absurd (Array.getElem?_eq_none_iff.1 hnone) (Nat.not_le.2 hlt)
    · split at habort
      · exact absurd habort (pure_ne_abort _ _)
      · exact absurd habort (throw_ne_abort _ _)
    · obtain ⟨i, hi⟩ := exists_at?_of_isStart hs hstart
      rw [byteAt_eq_pure.2 (getElem?_of_at? hi), pure_bind] at habort
      simp only [Opcode.ofByte?_byte] at habort
      obtain ⟨hd, hcall⟩ := enter_eq_abort hi habort
      exact ⟨hd, pc, i, ((isStart_iff_sweep hs pc).1 hstart).1, hi, hcall⟩
  · rw [if_pos (by simpa using hstart)] at habort
    exact absurd habort (throw_ne_abort _ _)

/-- **The walk meets no other defect**, and it has steps enough. -/
theorem run_eq_abort (hs : boundaries s.body.code = .ok s.starts) {fuel : Nat} :
    ∀ {w : Walk}, Explores s params w → remaining s w ≤ fuel → run s fuel w = abort d →
      d = .wordOverflow ∧ CallsOverflow s.pool s.body.code := by
  induction fuel with
  | zero =>
    intro w hw hfuel habort
    have hp : w.pending = [] := by
      unfold remaining at hfuel
      exact List.length_eq_zero_iff.1 (by omega)
    unfold run at habort
    simp only [hp] at habort
    exact absurd habort (pure_ne_abort _ _)
  | succ fuel ih =>
    intro w hw hfuel habort
    unfold run at habort
    split at habort
    · exact absurd habort (pure_ne_abort _ _)
    · rename_i pc depth rest hp
      rcases bind_eq_abort.1 habort with hvisit | ⟨w₁, hvisit, hrun⟩
      · have hsize : ({ w with pending := rest } : Walk).depths.size = s.body.code.size := hw.size
        exact visit_eq_abort hs hsize hvisit
      · have hlt := remaining_lt_of_visit hw hp hvisit
        exact ih (hw.visit hs hp hvisit) (by omega) hrun

theorem all_eq_abort (hs : boundaries s.body.code = .ok s.starts)
    (habort : all s params = abort d) : d = .wordOverflow ∧ CallsOverflow s.pool s.body.code := by
  unfold all at habort
  exact run_eq_abort hs (explores_start s params) (Nat.le_of_eq (remaining_start s params))
    (guard_eq_abort habort)

end Walk

/-! ### Bodies -/

variable {m : MethodImage} {type : MethodType} {body : MethodBody}

theorem checkParameters_eq_abort :
    checkParameters m type body = abort d ↔
      d = .wordOverflow ∧ wordMax < type.argSlots + (if m.access.isStatic then 0 else 1) := by
  have hcount : type.callWord (!m.access.isStatic) = .error d ↔
      d = .wordOverflow ∧ wordMax < type.argSlots + (if m.access.isStatic then 0 else 1) := by
    rw [MethodType.callWord_eq_error]
    cases m.access.isStatic <;> simp
  unfold checkParameters
  rw [bind_eq_abort, ofCount_eq_abort, hcount]
  constructor
  · rintro (h | ⟨n, -, hpure⟩)
    · exact h
    · exact absurd (guard_bind_eq_abort hpure) (pure_ne_abort _ _)
  · exact .inl

theorem mk_ok_ne_abort {α : Type} (x : Except BodyFault α) (d : Defect) :
    (ExceptT.mk (.ok x) : BodyCheck α) ≠ abort d := by
  intro h
  cases h

/-- A body meets a defect only in the count of its parameters or of a call. -/
theorem checkBody_eq_abort (h : checkBody pool m type body = abort d) :
    d = .wordOverflow ∧
      (wordMax < type.argSlots + (if m.access.isStatic then 0 else 1) ∨
        CallsOverflow pool body.code) := by
  unfold checkBody at h
  rcases bind_eq_abort.1 h with hparams | ⟨needed, -, h⟩
  · obtain ⟨hd, hlt⟩ := checkParameters_eq_abort.1 hparams
    exact ⟨hd, .inl hlt⟩
  rcases bind_eq_abort.1 h with hstarts | ⟨starts, hstarts, h⟩
  · exact absurd hstarts (mk_ok_ne_abort _ _)
  rcases bind_eq_abort.1 h with hlines | ⟨_, -, hwalk⟩
  · exact absurd hlines (mk_ok_ne_abort _ _)
  · have hs : boundaries body.code = .ok starts := Except.ok.inj hstarts
    obtain ⟨hd, hcall⟩ := Walk.all_eq_abort (s := ⟨pool, body, type, starts⟩) hs hwalk
    exact ⟨hd, .inr hcall⟩

end Inspection

/-! ### Classes -/

/-- **The counts that leave a word**: the argument slots of a method with a body, or of a call in
one, with the receiver if there is one. -/
inductive ClassImage.CountOverflow (image : ClassImage) : Prop where
  | declared {m : MethodImage} {body : MethodBody} {type : MethodType} (hm : m ∈ image.methods)
      (hbody : m.body = some body) (htype : MethodType.ofDescriptor? m.descriptor = some type)
      (hlt : wordMax < type.argSlots + (if m.access.isStatic then 0 else 1))
  | called {m : MethodImage} {body : MethodBody} (hm : m ∈ image.methods)
      (hbody : m.body = some body) (hcall : CallsOverflow image.pool body.code)

namespace Inspection

open BodyCheck Instruction

variable {pool : ConstantPool} {m : MethodImage} {d : Defect}

theorem run_forMethod_eq_error {α : Type} {signature : String} {check : BodyCheck α} :
    (forMethod signature check).run = .error d ↔ check = abort d := by
  rcases check with d' | (fault | a)
  · constructor <;> intro h <;> cases h <;> rfl
  · constructor <;> intro h <;> cases h
  · constructor <;> intro h <;> cases h

/-- A method meets a defect only in one of these counts. -/
theorem inspectMethod_eq_error (h : (inspectMethod pool m).run = .error d) :
    d = .wordOverflow ∧ ∃ body, m.body = some body ∧
      ((∃ type, MethodType.ofDescriptor? m.descriptor = some type ∧
          wordMax < type.argSlots + (if m.access.isStatic then 0 else 1)) ∨
        CallsOverflow pool body.code) := by
  unfold inspectMethod at h
  split at h
  · split at h <;> cases h
  · rename_i body hbody
    split at h
    · cases h
    · rename_i type htype
      rcases Defect.run_bind_eq_error.1 h with hcheck | ⟨w, -, hsummary⟩
      · obtain ⟨hd, hcount⟩ := checkBody_eq_abort (run_forMethod_eq_error.1 hcheck)
        refine ⟨hd, body, hbody, ?_⟩
        rcases hcount with hlt | hcall
        · exact .inl ⟨type, htype, hlt⟩
        · exact .inr hcall
      · cases hsummary

/-- A method whose own parameters leave a word does meet it. -/
theorem inspectMethod_of_lt {body : MethodBody} {type : MethodType} (hbody : m.body = some body)
    (htype : MethodType.ofDescriptor? m.descriptor = some type)
    (hlt : wordMax < type.argSlots + (if m.access.isStatic then 0 else 1)) :
    (inspectMethod pool m).run = .error .wordOverflow := by
  have hcheck : checkBody pool m type body = abort .wordOverflow := by
    unfold checkBody
    exact bind_eq_abort.2 (.inl (checkParameters_eq_abort.2 ⟨rfl, hlt⟩))
  unfold inspectMethod
  simp only [hbody, htype]
  exact Defect.run_bind_eq_error.2 (.inl (run_forMethod_eq_error.2 hcheck))

/-- So do methods in a row. -/
theorem inspectMethods_eq_error {methods : List MethodImage} :
    ∀ {done : List MethodSummary}, (inspectMethods pool methods done).run = .error d →
      ∃ m ∈ methods, (inspectMethod pool m).run = .error d := by
  induction methods with
  | nil =>
    intro done h
    cases h
  | cons m rest ih =>
    intro done h
    rcases Defect.run_bind_eq_error.1 h with hfirst | ⟨summary, -, hrest⟩
    · exact ⟨m, List.mem_cons_self, hfirst⟩
    · obtain ⟨m', hm', hdefect⟩ := ih hrest
      exact ⟨m', List.mem_cons_of_mem _ hm', hdefect⟩

/-- The first method that meets a defect ends the inspection. -/
theorem inspectMethods_of_error {before after : List MethodImage}
    (hbefore : ∀ m ∈ before, ∃ summary, (inspectMethod pool m).run = .ok (.ok summary))
    (h : (inspectMethod pool m).run = .error d) :
    ∀ done, (inspectMethods pool (before ++ m :: after) done).run = .error d := by
  induction before with
  | nil =>
    intro done
    exact Defect.run_bind_eq_error.2 (.inl h)
  | cons m' before ih =>
    intro done
    obtain ⟨summary, hsummary⟩ := hbefore m' List.mem_cons_self
    have hrest := ih (fun m hm => hbefore m (List.mem_cons_of_mem _ hm)) (summary.toList ++ done)
    exact Defect.run_bind_eq_error.2 (.inr ⟨summary, hsummary, hrest⟩)

/-- **No other defect ends the inspection of a class.** -/
theorem inspectClass_eq_error {bytes : List UInt8} (h : (inspectClass bytes).run = .error d) :
    d = .wordOverflow ∧ ∃ image, ClassImage.ofBytes bytes = .ok image ∧ image.CountOverflow := by
  unfold inspectClass at h
  split at h
  · cases h
  · rename_i image himage
    rcases Defect.run_bind_eq_error.1 h with hmethods | ⟨methods, -, hreport⟩
    · obtain ⟨m, hm, hdefect⟩ := inspectMethods_eq_error hmethods
      obtain ⟨hd, body, hbody, ⟨type, htype, hlt⟩ | hcall⟩ := inspectMethod_eq_error hdefect
      · exact ⟨hd, image, himage, .declared hm hbody htype hlt⟩
      · exact ⟨hd, image, himage, .called hm hbody hcall⟩
    · cases hreport

/-- **Inspection is safe.**  For any bytes there is an answer, unless the argument slots of some
method leave a word; and then, if the method has a body and those before it are in order, there is
none. Whatever is read comes off the front of the bytes, and the numbers that the check of a body
forms fit their words. -/
theorem inspectClass_safe (bytes : List UInt8) :
    ((∃ answer, (inspectClass bytes).run = .ok answer) ∨
      (inspectClass bytes).run = .error .wordOverflow ∧
        ∃ image, ClassImage.ofBytes bytes = .ok image ∧ image.CountOverflow) ∧
    (∀ image before m after body type, ClassImage.ofBytes bytes = .ok image →
      image.methods = before ++ m :: after →
      (∀ m' ∈ before, ∃ summary, (inspectMethod image.pool m').run = .ok (.ok summary)) →
      m.body = some body → MethodType.ofDescriptor? m.descriptor = some type →
      wordMax < type.argSlots + (if m.access.isStatic then 0 else 1) →
      (inspectClass bytes).run = .error .wordOverflow) ∧
    ∀ image rest, ClassImage.read bytes = .ok (image, rest) →
      (∃ used, bytes = used ++ rest) ∧
        ∀ m ∈ image.methods, ∀ body, m.body = some body → BodyInRange image.pool m body := by
  refine ⟨?_, ?_, ?_⟩
  · cases hrun : (inspectClass bytes).run with
    | ok answer => exact .inl ⟨answer, rfl⟩
    | error d =>
      obtain ⟨rfl, hcount⟩ := inspectClass_eq_error hrun
      exact .inr ⟨rfl, hcount⟩
  · intro image before m after body type himage hmethods hbefore hbody htype hlt
    have hdefect : (inspectMethods image.pool image.methods []).run = .error .wordOverflow := by
      rw [hmethods]
      exact inspectMethods_of_error hbefore (inspectMethod_of_lt hbody htype hlt) []
    unfold inspectClass
    simp only [himage]
    exact Defect.run_bind_eq_error.2 (.inl hdefect)
  · intro image rest hread
    obtain ⟨used, hused, -⟩ := ClassImage.local_read.ok hread
    refine ⟨⟨used, hused⟩, fun m hm body hbody => ?_⟩
    exact bodyInRange (ClassImage.ensures_read bytes image rest hread m hm body hbody)

/-! ### A count that leaves a word -/

/-- A method type with so many long numbers. -/
def wideType (n : Nat) : MethodType := ⟨List.replicate n .long, .void⟩

theorem argSlots_wideType (n : Nat) : (wideType n).argSlots = 2 * n := by
  unfold wideType MethodType.argSlots
  induction n with
  | zero => rfl
  | succ n ih =>
    have hlong : JavaType.slots .long = 2 := rfl
    rw [List.replicate_succ, List.foldr_cons, ih, hlong]
    omega

theorem wellFormed_wideType (n : Nat) : (wideType n).WellFormed := by
  refine ⟨fun t ht => ?_, trivial⟩
  rw [List.eq_of_mem_replicate ht]
  exact ⟨JavaType.noConfusion, trivial⟩

theorem encodedLength_descriptor_wideType (n : Nat) :
    ModifiedUtf8.encodedLength (wideType n).descriptor = n + 3 := by
  have hchars : (wideType n).descriptorChars = '(' :: (List.replicate n 'J' ++ [')', 'V']) := by
    have hlong : JavaType.descriptorChars .long = ['J'] := rfl
    rw [MethodType.descriptorChars, wideType, List.flatMap_replicate, hlong,
      List.flatten_replicate_singleton]
    rfl
  have hparams : ∀ k, (List.replicate k 'J').foldr
      (fun c m => ModifiedUtf8.charLength c + m) 2 = k + 2 := by
    intro k
    induction k with
    | zero => rfl
    | succ k ih =>
      have hone : ModifiedUtf8.charLength 'J' = 1 := rfl
      rw [List.replicate_succ, List.foldr_cons, ih, hone]
      omega
  have hopen : ModifiedUtf8.charLength '(' = 1 := rfl
  rw [ModifiedUtf8.encodedLength, MethodType.descriptor, String.toList_ofList, hchars,
    List.foldr_cons, List.foldr_append, hopen]
  have hall := hparams n
  show 1 + (List.replicate n 'J').foldr (fun c m => ModifiedUtf8.charLength c + m) 2 = n + 3
  omega

/-- A static method of such a type that returns at once. -/
def wideMethod (n : Nat) : MethodImage where
  access := .union .publicFlag .staticFlag
  name := "run"
  descriptor := (wideType n).descriptor
  body := some { maxStack := 0, maxLocals := 0, code := #[0xb1], handlers := [], lines := [] }
  exceptions := []

/-- A class with this method. -/
def wideDraft (n : Nat) : ClassDraft :=
  (ClassDraft.new .java5 (.union .publicFlag .superFlag) "a/Gen" "java/lang/Object" []).addMethod
    (wideMethod n).access (wideMethod n).name (wideType n) (wideMethod n).body
    (wideMethod n).exceptions

theorem represents_wideDraft (n : Nat) :
    (wideDraft n).Represents
      { name := "a/Gen", superName := "java/lang/Object", interfaces := []
        methods := [wideMethod n] } :=
  (ClassDraft.represents_new .java5 (.union .publicFlag .superFlag) "a/Gen" "java/lang/Object"
    []).addMethod _ _ _ _ _

variable {n : Nat}

/-- The class can be written as long as the descriptor fits its constant. -/
theorem encode_wideDraft (hn : n + 3 ≤ wordMax) :
    (wideDraft n).encode = .ok (wideDraft n).encodeUnchecked := by
  have hnew : (ClassDraft.new .java5 (.union .publicFlag .superFlag) "a/Gen" "java/lang/Object"
      []).pool.HasRoom 5 :=
    ClassDraft.hasRoom_new .java5 (.union .publicFlag .superFlag) (by decide) (by decide)
      (by simp) (by decide)
  have htype : ShortText (wideType n).descriptor :=
    (encodedLength_descriptor_wideType n).trans_le hn
  have hname : ShortText "run" := by decide
  have hroom : (wideDraft n).pool.HasRoom 0 :=
    ClassDraft.hasRoom_addMethod (hnew.mono (Nat.le_refl 5)) hname htype (List.forall_mem_nil _)
  have hres := (represents_wideDraft n).resolves hroom.clean
  refine ClassImage.encode_eq_ok.2 ⟨hroom.clean, ?_, ?_, ?_, rfl⟩
  · rw [← Array.length_toList, hres.fields.length_eq]
    exact Nat.zero_le _
  · rw [← Array.length_toList, hres.methods.length_eq]
    exact (by decide : 1 ≤ wordMax)
  · rw [hres.interfaces.length_eq]
    exact Nat.zero_le _

theorem exists_ofBytes_wideDraft (hn : n + 3 ≤ wordMax) :
    ∃ image, ClassImage.ofBytes (wideDraft n).encodeUnchecked = .ok image ∧
      image.methods = [wideMethod n] := by
  have hmethod : (wideMethod n).Sized := by
    refine ⟨fun b hb => ?_, Nat.zero_le _⟩
    cases hb
    exact ⟨by decide, Nat.zero_le _, Nat.zero_le _⟩
  have hsized : ClassImage.OutlineSized
      { name := "a/Gen", superName := "java/lang/Object", interfaces := []
        methods := [wideMethod n] } := by
    refine ⟨fun m hm => ?_, fun text htext => by cases htext⟩
    rw [List.mem_singleton.1 hm]
    exact hmethod
  obtain ⟨pool, -, -, hread⟩ := ClassImage.exists_ofBytes_encode (represents_wideDraft n) hsized
    (encode_wideDraft hn)
  exact ⟨_, hread, rfl⟩

/-- A class that is written but has no answer: its method takes 32768 long numbers. -/
theorem inspectClass_wideDraft :
    (wideDraft 32768).encode = .ok (wideDraft 32768).encodeUnchecked ∧
      (inspectClass (wideDraft 32768).encodeUnchecked).run = .error .wordOverflow := by
  have hn : 32768 + 3 ≤ wordMax := by decide
  obtain ⟨image, himage, hmethods⟩ := exists_ofBytes_wideDraft hn
  have htype := MethodType.ofDescriptor?_descriptor (wellFormed_wideType 32768)
  have hlt : wordMax < (wideType 32768).argSlots := by
    rw [argSlots_wideType]
    decide
  exact ⟨encode_wideDraft hn, (inspectClass_safe _).2.1 image [] (wideMethod 32768) [] _ _ himage
    hmethods (List.forall_mem_nil _) rfl htype (hlt.trans_le (Nat.le_add_right _ _))⟩

end Inspection

end ClassForge
