import ClassForge.Inspection.Report
import ClassForge.Proofs.ClassFile.Locality
import ClassForge.Proofs.Inspection.Walk

/-!
# Numbers of an inspection

Offsets, depths and slot counts are natural numbers here. A machine holds them in words of a fixed
width, so this module bounds every number that an inspection forms.

* `Reader.Ensures` — what a reader promises of its value;
* `ClassImage.ensures_read` — **PROVED**: code that was read is shorter than 2^32 bytes;
* `Walk.Taken` — the walks on the way from the start;
* `Walk.InRange`, `VisitFits` — the numbers in a walk, and those of its next visit;
* `Walk.inRange_of_taken`, `Walk.visitFits_of_inRange` — **PROVED**: they fit their words on every
  way;
* `BodyInRange` — both, for all checks of one body.
-/

namespace ClassForge

/-! ### Promises of readers -/

namespace Reader

variable {α β σ : Type} {P : α → Prop} {Q : β → Prop}

/-- The values that the reader gives have the property. -/
def Ensures (P : α → Prop) (r : Reader α) : Prop :=
  ∀ input a rest, r input = .ok (a, rest) → P a

theorem Ensures.pure {a : α} (h : P a) : Ensures P (Pure.pure a : Reader α) := by
  intro input a' rest hrun
  cases hrun
  exact h

theorem Ensures.bind {r : Reader α} {f : α → Reader β} (hr : Ensures P r)
    (hf : ∀ a, P a → Ensures Q (f a)) : Ensures Q (r >>= f) := by
  intro input b rest hrun
  rw [run_bind] at hrun
  obtain ⟨⟨a, mid⟩, hfirst, hsecond⟩ := Except.bind_eq_ok.1 hrun
  exact hf a (hr input a mid hfirst) mid b rest hsecond

/-- Where nothing is asked of the first value. -/
theorem Ensures.after {r : Reader α} {f : α → Reader β} (hf : ∀ a, Ensures Q (f a)) :
    Ensures Q (r >>= f) := by
  have hr : Ensures (fun _ => True) r := fun _ _ _ _ => trivial
  exact hr.bind fun a _ => hf a

theorem Ensures.ite {c : Prop} [Decidable c] {r r' : Reader α} (hr : Ensures P r)
    (hr' : Ensures P r') : Ensures P (if c then r else r') := by
  split
  · exact hr
  · exact hr'

/-- An invariant of the steps holds after all of them. -/
theorem Ensures.iterate {I : σ → Prop} {step : σ → Reader σ}
    (h : ∀ s, I s → Ensures I (step s)) (n : Nat) : ∀ s, I s → Ensures I (iterate step n s) := by
  induction n with
  | zero =>
    intro s hs
    exact Ensures.pure hs
  | succ n ih =>
    intro s hs
    rw [iterate_succ]
    exact (h s hs).bind ih

theorem Ensures.counted {item : Reader α} (h : Ensures P item) :
    Ensures (fun items => ∀ a ∈ items, P a) (counted item) := by
  refine Ensures.after fun n => ?_
  have hstep : ∀ items : List α, (∀ a ∈ items, P a) →
      Ensures (fun items => ∀ a ∈ items, P a) (do
        let x ← item
        return x :: items) := by
    intro items hitems
    refine h.bind fun x hx => Ensures.pure ?_
    intro a ha
    rcases List.mem_cons.1 ha with rfl | ha
    · exact hx
    · exact hitems a ha
  refine (Ensures.iterate hstep n.toNat [] (by simp)).bind fun items hitems => Ensures.pure ?_
  intro a ha
  exact hitems a (List.mem_reverse.1 ha)

theorem ensures_bytes (n : Nat) : Ensures (fun taken => taken.length = n) (bytes n) := by
  intro input a rest hrun
  unfold bytes at hrun
  dsimp only at hrun
  split at hrun
  · rename_i hlen
    cases hrun
    exact hlen
  · cases hrun

end Reader

namespace ClassImage

open Reader

/-- The length of the code is a 32-bit word. -/
theorem ensures_readBody (pool : ConstantPool) :
    Ensures (fun body => body.code.size < 2 ^ 32) (readBody pool) := by
  refine Ensures.after fun _ => Ensures.after fun _ => Ensures.after fun length => ?_
  refine (ensures_bytes length.toNat).bind fun code hlen => ?_
  refine Ensures.after fun _ => Ensures.after fun _ => Ensures.after fun _ => Ensures.pure ?_
  show code.toArray.size < 2 ^ 32
  rw [List.size_toArray, hlen]
  exact length.toNat_lt

theorem ensures_readMethod (pool : ConstantPool) :
    Ensures (fun m => ∀ body, m.body = some body → body.code.size < 2 ^ 32) (readMethod pool) := by
  refine Ensures.after fun _ => Ensures.after fun _ => Ensures.after fun _ => ?_
  refine Ensures.after fun attributes => ?_
  have hstep : ∀ sofar : Option MethodBody × List String,
      (∀ body, sofar.1 = some body → body.code.size < 2 ^ 32) →
      Ensures (fun sofar => ∀ body, sofar.1 = some body → body.code.size < 2 ^ 32)
        (readMethodAttribute pool sofar) := by
    intro sofar hsofar
    refine Ensures.after fun name => Ensures.after fun length => Ensures.ite ?_ (Ensures.ite ?_ ?_)
    · refine (ensures_readBody pool).bind fun body hbody => Ensures.pure ?_
      intro body' heq
      rw [← Option.some.inj heq]
      exact hbody
    · exact Ensures.after fun _ => Ensures.pure hsofar
    · exact Ensures.after fun _ => Ensures.pure hsofar
  exact (Ensures.iterate hstep attributes.toNat (none, []) (by simp)).bind fun sofar hsofar =>
    Ensures.pure hsofar

/-- **Code that was read is shorter than 2^32 bytes.** -/
theorem ensures_read :
    Ensures (fun image => ∀ m ∈ image.methods, ∀ body, m.body = some body →
      body.code.size < 2 ^ 32) read := by
  refine Ensures.after fun _ => Ensures.ite (Ensures.after fun _ => ?_) ?_
  all_goals
    refine Ensures.after fun _ => Ensures.after fun _ => Ensures.after fun pool => ?_
    refine Ensures.after fun _ => Ensures.after fun _ => Ensures.after fun _ => ?_
    refine Ensures.after fun _ => Ensures.after fun _ => ?_
    refine (ensures_readMethod pool).counted.bind fun methods hmethods => ?_
    exact Ensures.after fun _ => Ensures.after fun _ => Ensures.pure hmethods

end ClassImage

/-! ### Instructions -/

namespace Instruction

theorem push_le_of_effect? {pool : ConstantPool} {i : Instruction} {e : StackEffect}
    (h : i.effect? pool = some e) : e.push ≤ 6 := by
  cases hfixed : i.op.fixedEffect? with
  | some effect =>
    simp only [effect?, hfixed] at h
    split at h
    · cases h
    · rw [← Option.some.inj h]
      exact (Opcode.slots_le_of_fixedEffect? hfixed).2
  | none =>
    rcases Opcode.linked_cases hfixed with ⟨n, hload⟩ | ⟨f, hfield⟩ | hcall
    · rw [effect?_of_load hload] at h
      split at h
      · rw [← Option.some.inj h]
        rcases Opcode.loadSlots?_cases hload with ⟨-, rfl⟩ | ⟨-, rfl⟩ | ⟨-, rfl⟩ <;> decide
      · cases h
    · rw [effect?_of_field hfield] at h
      obtain ⟨type, -, rfl⟩ := Option.map_eq_some_iff.1 h
      have hpush := (Opcode.slots_le_of_fieldEffect? hfield type.slots).2
      exact hpush.trans (type.slots_le_two.trans (by decide))
    · rw [effect?_of_isCall hcall] at h
      obtain ⟨type, -, hcall⟩ := Option.bind_eq_some_iff.1 h
      unfold callEffect? at hcall
      split at hcall
      · cases hcall
      · rw [← Option.some.inj hcall]
        exact type.ret.slots_le_two.trans (by decide)

theorem localEnd?_le {i : Instruction} {stop : Nat} (h : i.localEnd? = some stop) :
    stop ≤ 257 := by
  unfold localEnd? at h
  obtain ⟨access, haccess, rfl⟩ := Option.map_eq_some_iff.1 h
  obtain ⟨hwidth, hindex⟩ := Opcode.localAccess?_le haccess
  have hoperand := (i.operand 0).toNat_lt
  cases hidx : access.index? with
  | none =>
    rw [Option.getD_none]
    omega
  | some index =>
    rw [hidx, Option.getD_some] at hindex
    rw [Option.getD_some]
    omega

theorem target_mem_range (i : Instruction) {pc : Nat} (hpc : pc < 2 ^ 32) :
    -2 ^ 63 ≤ i.target pc ∧ i.target pc < 2 ^ 63 := by
  unfold target
  split
  · have hle := Int.le_bmod (x := 65536 * (i.word 0).toNat + (i.word 2).toNat) (m := 4294967296)
      (by decide)
    have hlt := Int.bmod_lt (x := 65536 * (i.word 0).toNat + (i.word 2).toNat) (m := 4294967296)
      (by decide)
    omega
  · have hle := Int.le_bmod (x := (i.word 0).toNat) (m := 65536) (by decide)
    have hlt := Int.bmod_lt (x := (i.word 0).toNat) (m := 65536) (by decide)
    omega

end Instruction

/-! ### Walks -/

namespace Inspection

open BodyCheck Instruction

/-- A sweep does not leave the code. -/
theorem Sweep.le_size {code : Array UInt8} {pc q : Nat} (h : Sweep code pc q)
    (hpc : pc ≤ code.size) : q ≤ code.size := by
  induction h with
  | refl pc => exact hpc
  | step hi _ ih => exact ih (end_le_size_of_at? hi)

/-- **The numbers of a visit fit their words.** -/
structure VisitFits (s : Subject) (pc depth : Nat) (i : Instruction) : Prop where
  /-- The code holds the whole instruction. -/
  stop : pc + i.op.encodedLength ≤ s.body.code.size
  locals : ∀ n, i.localEnd? = some n → n ≤ wordMax
  /-- Slots are taken off the depth only if it has as many. -/
  effect : ∀ e, effectAt s.pool s.body.code i.op pc = pure e → e.pop ≤ wordMax ∧ e.push ≤ wordMax ∧
    (Walk.depthAfter s i.op pc depth = throw (.stackUnderflow pc) ∨
      e.pop ≤ depth ∧ depth - e.pop + e.push < 2 ^ 32)
  /-- A depth that is kept is a 16-bit word. -/
  after : ∀ n, Walk.depthAfter s i.op pc depth = pure n → n ≤ wordMax
  target : -2 ^ 63 ≤ i.target pc ∧ i.target pc < 2 ^ 63
  /-- A branch is followed to an offset that has a mark. -/
  branch : ∀ t, Walk.branchExit s i.op pc = pure (some t) → t < s.starts.size

namespace Walk

variable {s : Subject} {params pc depth : Nat} {w w' : Walk} {rest : List (Nat × Nat)}

/-- The walks on the way: the start, and what a visit of the next pending entry makes of one. -/
inductive Taken (s : Subject) (params : Nat) : Walk → Prop where
  | start : Taken s params (Walk.start s params)
  | visit {w w' : Walk} {pc depth : Nat} {rest : List (Nat × Nat)} (h : Taken s params w)
      (hp : w.pending = (pc, depth) :: rest)
      (hv : Walk.visit s { w with pending := rest } pc depth = pure w') : Taken s params w'

/-- **The numbers in a walk fit their words.** -/
structure InRange (s : Subject) (w : Walk) : Prop where
  /-- The depth table has an entry for each byte of the code. -/
  table : w.depths.size = s.body.code.size
  maxDepth : w.maxDepth ≤ s.body.maxStack.toNat
  localsUsed : w.localsUsed ≤ s.body.maxLocals.toNat
  pending : ∀ pc depth, (pc, depth) ∈ w.pending → pc < 2 ^ 32 ∧ depth ≤ wordMax

theorem taken_of_run (fuel : Nat) :
    ∀ {w : Walk}, Taken s params w → run s fuel w = pure w' → Taken s params w' := by
  induction fuel with
  | zero =>
    intro w hw h
    unfold run at h
    split at h
    · rw [← pure_eq_pure.1 h]
      exact hw
    · exact absurd h (abort_ne_pure _ _)
  | succ fuel ih =>
    intro w hw h
    unfold run at h
    split at h
    · rw [← pure_eq_pure.1 h]
      exact hw
    · rename_i pc depth rest hp
      obtain ⟨w₁, hvisit, hrun⟩ := bind_eq_pure.1 h
      exact ih (hw.visit hp hvisit) hrun

/-- A walk that ends is on the way. -/
theorem taken_of_all (h : all s params = pure w) : Taken s params w := by
  unfold all at h
  rw [guard_eq_pure] at h
  exact taken_of_run _ .start h.2

theorem inRange_start (hparams : params ≤ s.body.maxLocals.toNat) :
    InRange s (start s params) where
  table := by simp [start]
  maxDepth := Nat.zero_le _
  localsUsed := hparams
  pending pc depth hmem := by
    simp only [start, List.mem_append, List.mem_reverse, List.mem_map, List.mem_singleton,
      Prod.mk.injEq] at hmem
    rcases hmem with ⟨h, -, rfl, rfl⟩ | ⟨rfl, rfl⟩
    · have hlt := h.handlerPc.toNat_lt
      exact ⟨by omega, by decide⟩
    · exact ⟨by decide, by decide⟩

/-- The exits of an instruction that is in order lie in the code. -/
theorem lt_size_of_mem_exits {i : Instruction} {e : StackEffect} {q : Nat}
    (hs : boundaries s.body.code = .ok s.starts) (hadm : Admitted s pc depth i e)
    (hq : q ∈ exits i pc) : q < s.body.code.size := by
  unfold exits at hq
  rcases List.mem_append.1 hq with hnext | hbranch
  · split at hnext
    · cases hnext
    · rename_i hterminal
      rw [List.mem_singleton.1 hnext]
      exact hadm.next (by simpa using hterminal)
  · split at hbranch
    · rename_i hb
      obtain ⟨target, htarget, hstart⟩ := hadm.target hb
      rw [List.mem_singleton.1 hbranch, htarget, ← size_of_boundaries hs]
      exact lt_size_of_isStart hstart
    · cases hbranch

/-- The step: a visit keeps all numbers in range. -/
theorem InRange.visit (hs : boundaries s.body.code = .ok s.starts)
    (hsize : s.body.code.size < 2 ^ 32) (hw : InRange s w) (hp : w.pending = (pc, depth) :: rest)
    (hv : Walk.visit s { w with pending := rest } pc depth = pure w') : InRange s w' := by
  have hrest : ∀ q d, (q, d) ∈ rest → q < 2 ^ 32 ∧ d ≤ wordMax := by
    intro q d hmem
    exact hw.pending q d (by rw [hp]; exact List.mem_cons_of_mem _ hmem)
  rcases visit_cases hs hv with ⟨-, rfl⟩ | ⟨-, i, e, hadm, rfl⟩
  · exact ⟨hw.table, hw.maxDepth, hw.localsUsed, hrest⟩
  · refine ⟨?_, Nat.max_le.2 ⟨hw.maxDepth, hadm.fits⟩, Nat.max_le.2 ⟨hw.localsUsed, ?_⟩, ?_⟩
    · show (w.depths.setIfInBounds pc (some depth)).size = s.body.code.size
      rw [Array.size_setIfInBounds, hw.table]
    · cases hend : i.localEnd? with
      | none => exact Nat.zero_le _
      | some stop => exact hadm.locals stop hend
    · intro q d hmem
      rcases List.mem_append.1 hmem with hexit | hmem
      · obtain ⟨q', hq, heq⟩ := List.mem_map.1 hexit
        obtain ⟨rfl, rfl⟩ := Prod.mk.inj heq
        have hlt := lt_size_of_mem_exits hs hadm hq
        have hfits := hadm.fits
        have hword := s.body.maxStack.toNat_lt
        exact ⟨by omega, by unfold wordMax; omega⟩
      · exact hrest q d hmem

/-- **Every walk on the way is in range.** -/
theorem inRange_of_taken (hs : boundaries s.body.code = .ok s.starts)
    (hsize : s.body.code.size < 2 ^ 32) (hparams : params ≤ s.body.maxLocals.toNat)
    (h : Taken s params w) : InRange s w := by
  induction h with
  | start => exact inRange_start hparams
  | visit _ hp hv ih => exact ih.visit hs hsize hp hv

/-- **So is the next visit**, if there is one. -/
theorem visitFits_of_inRange (hs : boundaries s.body.code = .ok s.starts) (hw : InRange s w)
    (hmem : (pc, depth) ∈ w.pending) (hstart : isStart s.starts pc = true) :
    pc < w.depths.size ∧ ∃ i, at? s.body.code pc = some i ∧ VisitFits s pc depth i := by
  obtain ⟨hpc, hdepth⟩ := hw.pending pc depth hmem
  obtain ⟨i, hi⟩ := exists_at?_of_isStart hs hstart
  refine ⟨?_, i, hi, ?_⟩
  · rw [hw.table, ← size_of_boundaries hs]
    exact lt_size_of_isStart hstart
  · exact {
      stop := end_le_size_of_at? hi
      locals := fun n hn => le_trans (localEnd?_le hn) (by decide)
      effect := by
        intro e he
        obtain ⟨heffect, hpop⟩ := (effectAt_eq_pure hi).1 he
        have hpush := push_le_of_effect? heffect
        refine ⟨hpop, le_trans hpush (by decide), ?_⟩
        by_cases hle : e.pop ≤ depth
        · unfold wordMax at hdepth
          exact .inr ⟨hle, by omega⟩
        · left
          unfold depthAfter
          rw [he, pure_bind, if_pos (Nat.lt_of_not_le hle)]
          rfl
      after := by
        intro n hn
        obtain ⟨e, -, -, -, hfits, rfl⟩ := (depthAfter_eq_pure hi).1 hn
        have hword := s.body.maxStack.toNat_lt
        unfold wordMax
        omega
      target := i.target_mem_range hpc
      branch := by
        intro t ht
        obtain ⟨hgood, heq⟩ := (branchExit_eq_pure hi).1 ht
        by_cases hb : i.op.isBranch = true
        · obtain ⟨target, htarget, hmark⟩ := hgood hb
          rw [if_pos hb, htarget] at heq
          rw [Option.some.inj heq]
          exact lt_size_of_isStart hmark
        · rw [if_neg hb] at heq
          cases heq }

end Walk

/-! ### Bodies -/

/-- The parameters fit the declared locals. -/
theorem le_maxLocals_of_checkParameters {m : MethodImage} {type : MethodType} {body : MethodBody}
    {n : Nat} (h : checkParameters m type body = pure n) : n ≤ body.maxLocals.toNat := by
  unfold checkParameters at h
  obtain ⟨needed, -, h⟩ := bind_eq_pure.1 h
  rw [guard_bind_eq_pure, pure_eq_pure] at h
  obtain ⟨hle, rfl⟩ := h
  exact Nat.le_of_not_lt hle

/-- **The numbers of the check of a body fit their words**, in the pass over the code and in every
walk over it. -/
structure BodyInRange (pool : ConstantPool) (m : MethodImage) (body : MethodBody) : Prop where
  size : body.code.size < 2 ^ 32
  sweep : ∀ pc, Sweep body.code 0 pc → pc ≤ body.code.size
  taken : ∀ type params starts w, Walk.all ⟨pool, body, type, starts⟩ params = pure w →
    Walk.Taken ⟨pool, body, type, starts⟩ params w
  walk : ∀ type params starts w, checkParameters m type body = pure params →
    boundaries body.code = .ok starts → Walk.Taken ⟨pool, body, type, starts⟩ params w →
    Walk.InRange ⟨pool, body, type, starts⟩ w
  visit : ∀ type params starts w pc depth, checkParameters m type body = pure params →
    boundaries body.code = .ok starts → Walk.Taken ⟨pool, body, type, starts⟩ params w →
    (pc, depth) ∈ w.pending → isStart starts pc = true →
    pc < w.depths.size ∧ ∃ i, at? body.code pc = some i ∧
      VisitFits ⟨pool, body, type, starts⟩ pc depth i

theorem bodyInRange {pool : ConstantPool} {m : MethodImage} {body : MethodBody}
    (hsize : body.code.size < 2 ^ 32) : BodyInRange pool m body := by
  have hwalk : ∀ type params starts w, checkParameters m type body = pure params →
      boundaries body.code = .ok starts → Walk.Taken ⟨pool, body, type, starts⟩ params w →
      Walk.InRange ⟨pool, body, type, starts⟩ w := by
    intro type params starts w hparams hs hw
    exact Walk.inRange_of_taken hs hsize (le_maxLocals_of_checkParameters hparams) hw
  exact {
    size := hsize
    sweep := fun pc hpc => hpc.le_size (Nat.zero_le _)
    taken := fun _ _ _ _ hall => Walk.taken_of_all hall
    walk := hwalk
    visit := fun type params starts w _ _ hparams hs hw hmem hstart =>
      Walk.visitFits_of_inRange hs (hwalk type params starts w hparams hs hw) hmem hstart }

end Inspection

end ClassForge
