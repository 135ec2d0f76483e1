import ClassForge.Inspection.Report
import ClassForge.Proofs.Inspection.Walk

/-!
# Local variables out of range

Two of the checks of a body look at its local slots: that of the parameters and that of the
instruction which is visited. Here their fault is traced back to what is at fault.

* `BodyCheck.IgnoresLocals` — **the contract** of a check that never reports a local variable;
* `MethodBody.Overreaches` — an instruction of the body accesses slots that are not declared;
* `inspectMethod_eq_throw_local` — **PROVED**: a method with a local variable out of range has such
  an instruction, or more parameters than slots.
-/

namespace ClassForge

open Inspection

/-- Is it the fault of a local variable? -/
def BodyFault.isLocal : BodyFault → Bool
  | .localOutOfRange _ _ _ => true
  | _ => false

/-- **An instruction of the body accesses local slots that are not declared.** -/
def MethodBody.Overreaches (b : MethodBody) : Prop :=
  ∃ pc i stop, Sweep b.code 0 pc ∧ Instruction.at? b.code pc = some i ∧ i.localEnd? = some stop ∧
    b.maxLocals.toNat < stop

namespace BodyCheck

variable {α β : Type} {fault : BodyFault}

/-- A sequence of two checks finds a fault in the first or in the second. -/
theorem bind_eq_throw {x : BodyCheck α} {f : α → BodyCheck β} :
    x >>= f = throw fault ↔ x = throw fault ∨ ∃ a, x = pure a ∧ f a = throw fault := by
  rcases x with d | (fault' | a)
  · constructor
    · intro h
      cases h
    · rintro (h | ⟨a, h, -⟩) <;> cases h
  · constructor
    · intro h
      cases h
      exact .inl rfl
    · rintro (h | ⟨a, h, -⟩)
      · cases h
        rfl
      · cases h
  · constructor
    · intro h
      exact .inr ⟨a, rfl, h⟩
    · rintro (h | ⟨a', h, hf⟩)
      · cases h
      · cases h
        exact hf

/-- **The contract of a check** that never reports a local variable. -/
class IgnoresLocals (x : BodyCheck α) : Prop where
  isLocal_eq : ∀ fault, x = throw fault → fault.isLocal = false

theorem IgnoresLocals.ne_throw (x : BodyCheck α) [hx : IgnoresLocals x]
    (hlocal : fault.isLocal = true) : x ≠ throw fault := by
  intro h
  have hother := hx.isLocal_eq fault h
  rw [hlocal] at hother
  cases hother

instance (a : α) : IgnoresLocals (pure a : BodyCheck α) where
  isLocal_eq fault h := absurd h.symm (throw_ne_pure fault a)

instance (d : Defect) : IgnoresLocals (abort d : BodyCheck α) where
  isLocal_eq _ h := by cases h

theorem ignoresLocals_throw (h : fault.isLocal = false) :
    IgnoresLocals (throw fault : BodyCheck α) where
  isLocal_eq fault' hthrow := by
    cases hthrow
    exact h

instance {x : BodyCheck α} {k : α → BodyCheck β} [hx : IgnoresLocals x]
    [hk : ∀ a, IgnoresLocals (k a)] : IgnoresLocals (x >>= k) where
  isLocal_eq fault h := by
    rcases bind_eq_throw.1 h with hfirst | ⟨a, -, hrest⟩
    · exact hx.isLocal_eq fault hfirst
    · exact (hk a).isLocal_eq fault hrest

instance {c : Prop} [Decidable c] {x y : BodyCheck α} [IgnoresLocals x] [IgnoresLocals y] :
    IgnoresLocals (if c then x else y) := by
  split <;> infer_instance

instance (x : Except Defect α) : IgnoresLocals (ofCount x) where
  isLocal_eq _ h := by cases x <;> cases h

instance (pc : Nat) (k : UInt16) : IgnoresLocals (throw (.badConstant pc k) : BodyCheck α) :=
  ignoresLocals_throw rfl

instance (pc : Nat) (target : Int) : IgnoresLocals (throw (.badTarget pc target) : BodyCheck α) :=
  ignoresLocals_throw rfl

instance (pc : Nat) : IgnoresLocals (throw (.stackUnderflow pc) : BodyCheck α) :=
  ignoresLocals_throw rfl

instance (pc n m : Nat) : IgnoresLocals (throw (.stackOverflow pc n m) : BodyCheck α) :=
  ignoresLocals_throw rfl

instance (pc n m : Nat) : IgnoresLocals (throw (.depthClash pc n m) : BodyCheck α) :=
  ignoresLocals_throw rfl

instance (pc : Nat) : IgnoresLocals (throw (.returnMismatch pc) : BodyCheck α) :=
  ignoresLocals_throw rfl

instance : IgnoresLocals (throw .fallsOffEnd : BodyCheck α) := ignoresLocals_throw rfl

end BodyCheck

namespace Inspection

open BodyCheck Instruction

/-! ### Checks of single instructions -/

section Checks

variable (pool : ConstantPool) (code : Array UInt8) (op : Opcode) (pc : Nat)

instance (k : Nat) : IgnoresLocals (byteAt code k) := by
  unfold byteAt
  split <;> infer_instance

instance (k : Nat) : IgnoresLocals (wordAt code k) := by
  unfold wordAt
  infer_instance

instance : IgnoresLocals (branchTarget code op pc) := by
  unfold branchTarget
  infer_instance

instance (k : UInt16) : IgnoresLocals (fieldSlots pool pc k) := by
  unfold fieldSlots
  split
  · infer_instance
  · split
    · infer_instance
    · split <;> infer_instance

instance (k : UInt16) : IgnoresLocals (calledType pool op pc k) := by
  unfold calledType
  split
  · infer_instance
  · split
    · split <;> infer_instance
    · infer_instance

instance : IgnoresLocals (callEffect pool code op pc) := by
  unfold callEffect
  infer_instance

instance : IgnoresLocals (effectAt pool code op pc) := by
  unfold effectAt
  split <;> split <;> infer_instance

end Checks

namespace Walk

variable {s : Subject} {w : Walk} {pc depth params : Nat} {i : Instruction} {fault : BodyFault}

instance (op : Opcode) : IgnoresLocals (depthAfter s op pc depth) := by
  unfold depthAfter
  infer_instance

instance (op : Opcode) : IgnoresLocals (branchExit s op pc) := by
  unfold branchExit
  infer_instance

instance (op : Opcode) : IgnoresLocals (nextExit s op pc) := by
  unfold nextExit
  infer_instance

/-! ### The walk -/

/-- A first visit reports a local variable only if the instruction accesses slots that are not
declared. -/
theorem enter_eq_throw_local (h : at? s.body.code pc = some i)
    (hthrow : enter s w i.op pc depth = throw fault) (hlocal : fault.isLocal = true) :
    ∃ stop, i.localEnd? = some stop ∧ s.body.maxLocals.toNat < stop := by
  unfold enter at hthrow
  rcases bind_eq_throw.1 hthrow with hcheck | ⟨used, -, hrest⟩
  · by_contra hfits
    have hpure : checkLocals s i.op pc w.localsUsed = pure _ := (checkLocals_eq_pure h).2
      ⟨fun stop hstop => Nat.le_of_not_lt fun hlt => hfits ⟨stop, hstop, hlt⟩, rfl⟩
    exact throw_ne_pure _ _ (hcheck.symm.trans hpure)
  · exact absurd hrest (IgnoresLocals.ne_throw _ hlocal)

/-- The step: any visit. -/
theorem visit_eq_throw_local (hs : boundaries s.body.code = .ok s.starts)
    (hthrow : visit s w pc depth = throw fault) (hlocal : fault.isLocal = true) :
    s.body.Overreaches := by
  unfold visit at hthrow
  by_cases hstart : isStart s.starts pc = true
  · rw [if_neg (by simpa using hstart)] at hthrow
    split at hthrow
    · exact absurd hthrow (IgnoresLocals.ne_throw _ hlocal)
    · exact absurd hthrow (IgnoresLocals.ne_throw _ hlocal)
    · obtain ⟨i, hi⟩ := exists_at?_of_isStart hs hstart
      rw [byteAt_eq_pure.2 (getElem?_of_at? hi), pure_bind] at hthrow
      simp only [Opcode.ofByte?_byte] at hthrow
      obtain ⟨stop, hstop, hlt⟩ := enter_eq_throw_local hi hthrow hlocal
      exact ⟨pc, i, stop, ((isStart_iff_sweep hs pc).1 hstart).1, hi, hstop, hlt⟩
  · rw [if_pos (by simpa using hstart)] at hthrow
    exact absurd hthrow (IgnoresLocals.ne_throw _ hlocal)

/-- **A walk reports a local variable only for such an instruction.** -/
theorem run_eq_throw_local (hs : boundaries s.body.code = .ok s.starts)
    (hlocal : fault.isLocal = true) {fuel : Nat} :
    ∀ {w : Walk}, run s fuel w = throw fault → s.body.Overreaches := by
  induction fuel with
  | zero =>
    intro w hthrow
    unfold run at hthrow
    split at hthrow <;> cases hthrow
  | succ fuel ih =>
    intro w hthrow
    unfold run at hthrow
    split at hthrow
    · cases hthrow
    · rcases bind_eq_throw.1 hthrow with hvisit | ⟨w', -, hrun⟩
      · exact visit_eq_throw_local hs hvisit hlocal
      · exact ih hrun

theorem all_eq_throw_local (hs : boundaries s.body.code = .ok s.starts)
    (hlocal : fault.isLocal = true) (hthrow : all s params = throw fault) :
    s.body.Overreaches := by
  unfold all at hthrow
  split at hthrow
  · cases hthrow
    cases hlocal
  · exact run_eq_throw_local hs hlocal hthrow

end Walk

/-! ### Methods -/

variable {pool : ConstantPool} {m : MethodImage} {type : MethodType} {body : MethodBody}
  {fault : BodyFault}

/-- The pass over the code finds other faults. -/
theorem isLocal_of_markStarts {code : Array UInt8} {fuel : Nat} :
    ∀ {pc : Nat} {starts : Array Bool}, markStarts code fuel pc starts = .error fault →
      fault.isLocal = false := by
  induction fuel with
  | zero =>
    intro pc starts h
    cases h
  | succ fuel ih =>
    intro pc starts h
    unfold markStarts at h
    split at h
    · cases h
    · split at h
      · cases h
        rfl
      · split at h
        · cases h
          rfl
        · exact ih h

instance (code : Array UInt8) :
    IgnoresLocals (ExceptT.mk (.ok (boundaries code)) : BodyCheck (Array Bool)) where
  isLocal_eq _ h := isLocal_of_markStarts (Except.ok.inj h)

instance (starts : Array Bool) (lines : List LineEntry) :
    IgnoresLocals (ExceptT.mk (.ok (checkLines starts lines)) : BodyCheck Unit) where
  isLocal_eq _ h := by
    have hlines := Except.ok.inj h
    unfold checkLines at hlines
    split at hlines
    · cases hlines
      rfl
    · cases hlines

theorem checkParameters_eq_throw (hthrow : checkParameters m type body = throw fault) :
    body.maxLocals.toNat < type.argSlots + (if m.access.isStatic then 0 else 1) := by
  by_contra hfits
  unfold checkParameters at hthrow
  rcases bind_eq_throw.1 hthrow with hcount | ⟨needed, hcount, -⟩
  · cases hcall : type.callWord (!m.access.isStatic) <;> rw [hcall] at hcount <;> cases hcount
  · obtain ⟨hneeded, -⟩ := MethodType.callWord_eq_ok.1 (ofCount_eq_pure.1 hcount)
    have hle : ¬needed > body.maxLocals.toNat := by
      cases hstatic : m.access.isStatic <;> simp [hstatic] at hneeded hfits <;> omega
    exact throw_ne_pure _ _ (hthrow.symm.trans
      (bind_eq_pure.2 ⟨needed, hcount, guard_bind_eq_pure.2 ⟨hle, rfl⟩⟩))

/-- A body with a local variable out of range has too few slots for its parameters or for one of its
instructions. -/
theorem checkBody_eq_throw_local (hthrow : checkBody pool m type body = throw fault)
    (hlocal : fault.isLocal = true) :
    body.maxLocals.toNat < type.argSlots + (if m.access.isStatic then 0 else 1) ∨
      body.Overreaches := by
  unfold checkBody at hthrow
  rcases bind_eq_throw.1 hthrow with hparams | ⟨needed, -, hthrow⟩
  · exact .inl (checkParameters_eq_throw hparams)
  rcases bind_eq_throw.1 hthrow with hstarts | ⟨starts, hstarts, hthrow⟩
  · exact absurd hstarts (IgnoresLocals.ne_throw _ hlocal)
  rcases bind_eq_throw.1 hthrow with hlines | ⟨_, -, hwalk⟩
  · exact absurd hlines (IgnoresLocals.ne_throw _ hlocal)
  · exact .inr (Walk.all_eq_throw_local (s := ⟨pool, body, type, starts⟩) (Except.ok.inj hstarts)
      hlocal hwalk)

/-- **Which methods have a local variable out of range**: those with more parameters than slots, or
with an instruction that accesses others than the declared ones. -/
theorem inspectMethod_eq_throw_local {signature : String}
    (h : inspectMethod pool m = throw (.body signature fault)) (hlocal : fault.isLocal = true) :
    ∃ body, m.body = some body ∧
      ((∃ type, MethodType.ofDescriptor? m.descriptor = some type ∧
          body.maxLocals.toNat < type.argSlots + (if m.access.isStatic then 0 else 1)) ∨
        body.Overreaches) := by
  unfold inspectMethod at h
  split at h
  · split at h
    · cases h
    · cases h
      cases hlocal
  · rename_i body hbody
    split at h
    · cases h
    · rename_i type htype
      refine ⟨body, hbody, ?_⟩
      rcases hcheck : checkBody pool m type body with d | (fault' | w) <;> rw [hcheck] at h <;>
        cases h
      rcases checkBody_eq_throw_local hcheck hlocal with hparams | hover
      · exact .inl ⟨type, htype, hparams⟩
      · exact .inr hover

end Inspection

end ClassForge
