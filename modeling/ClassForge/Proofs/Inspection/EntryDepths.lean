import ClassForge.Inspection.Report
import ClassForge.Proofs.Descriptor
import ClassForge.Proofs.Inspection.Walk
import ClassForge.Proofs.Pool.Growth

/-!
# Depths on entry to instructions

The walk compares the depth that an instruction leaves behind with the declared stack, and keeps the
largest of these depths. The depth on entry to an instruction is the one that its predecessor left
behind, unless a path starts there. The entry point starts with nothing on the stack; a handler
starts with the thrown reference, which no instruction has left behind.

* `Inspects` — the subject that a method is inspected as;
* `inspectMethod_eq_pure_some` — **PROVED**: when a method has a summary, and which;
* `Walk.Explores.entry_le` — **PROVED**: only a handler is entered deeper than the walk reports;
* `entry_depths` — **PROVED**: for every accepted method, the reported and the declared depth bound
  all entries exactly if there is no handler or they leave room for the thrown reference;
* `inspectMethod_ne_pure` — **PROVED**: a method is rejected if a path leads to an instruction that
  is not in order.
-/

namespace ClassForge.Inspection

open BodyCheck Instruction

variable {pool : ConstantPool} {m : MethodImage} {summary : MethodSummary}

/-! ### Methods with a summary -/

/-- The method is inspected as this subject. -/
structure Inspects (pool : ConstantPool) (m : MethodImage) (s : Subject) : Prop where
  pool : s.pool = pool
  body : m.body = some s.body
  type : MethodType.ofDescriptor? m.descriptor = some s.type
  starts : boundaries s.body.code = .ok s.starts

/-- The summary of a method after a walk over its body. -/
def summarize (m : MethodImage) (s : Subject) (w : Walk) : MethodSummary where
  signature := m.signature
  declaredStack := s.body.maxStack.toNat
  maxDepth := w.maxDepth
  declaredLocals := s.body.maxLocals.toNat
  localsUsed := w.localsUsed

theorem forMethod_bind_eq_pure {α : Type} {signature : String} {check : BodyCheck Walk}
    {k : Walk → α} {a : α} :
    (do let w ← forMethod signature check; return k w : Inspect α) = pure a ↔
      ∃ w, check = pure w ∧ k w = a := by
  rcases check with d | (fault | w)
  · constructor
    · intro h
      cases h
    · rintro ⟨w, h, -⟩
      cases h
  · constructor
    · intro h
      cases h
    · rintro ⟨w, h, -⟩
      cases h
  · constructor
    · intro h
      cases h
      exact ⟨w, rfl, rfl⟩
    · rintro ⟨w', h, rfl⟩
      cases h
      rfl

theorem checkBody_eq_pure {type : MethodType} {body : MethodBody} {w : Walk} :
    checkBody pool m type body = pure w ↔
      ∃ params starts, checkParameters m type body = pure params ∧
        boundaries body.code = .ok starts ∧ checkLines starts body.lines = .ok () ∧
        Walk.all ⟨pool, body, type, starts⟩ params = pure w := by
  unfold checkBody
  rw [bind_eq_pure]
  constructor
  · rintro ⟨params, hparams, h⟩
    obtain ⟨starts, hstarts, h⟩ := bind_eq_pure.1 h
    obtain ⟨⟨⟩, hlines, hwalk⟩ := bind_eq_pure.1 h
    exact ⟨params, starts, hparams, Except.ok.inj hstarts, Except.ok.inj hlines, hwalk⟩
  · rintro ⟨params, starts, hparams, hstarts, hlines, hwalk⟩
    refine ⟨params, hparams, bind_eq_pure.2 ⟨starts, ?_, bind_eq_pure.2 ⟨(), ?_, hwalk⟩⟩⟩
    · rw [hstarts]
      rfl
    · rw [hlines]
      rfl

/-- **When a method has a summary**: its body and descriptor can be read, and the checks of its
parameters, boundaries and lines and the walk succeed. -/
theorem inspectMethod_eq_pure_some :
    inspectMethod pool m = pure (some summary) ↔
      ∃ s params w, Inspects pool m s ∧ checkParameters m s.type s.body = pure params ∧
        checkLines s.starts s.body.lines = .ok () ∧ Walk.all s params = pure w ∧
        summary = summarize m s w := by
  unfold inspectMethod
  constructor
  · intro h
    split at h
    · split at h <;> cases h
    · rename_i body hbody
      split at h
      · cases h
      · rename_i type htype
        obtain ⟨w, hcheck, hsummary⟩ := forMethod_bind_eq_pure.1 h
        obtain ⟨params, starts, hparams, hstarts, hlines, hwalk⟩ := checkBody_eq_pure.1 hcheck
        exact ⟨⟨pool, body, type, starts⟩, params, w, ⟨rfl, hbody, htype, hstarts⟩, hparams, hlines,
          hwalk, (Option.some.inj hsummary).symm⟩
  · rintro ⟨s, params, w, hs, hparams, hlines, hwalk, rfl⟩
    obtain ⟨pool', body, type, starts⟩ := s
    obtain rfl : pool' = pool := hs.pool
    simp only [hs.body, hs.type]
    exact forMethod_bind_eq_pure.2
      ⟨w, checkBody_eq_pure.2 ⟨params, starts, hparams, hs.starts, hlines, hwalk⟩, rfl⟩

/-! ### Entries of a finished walk -/

namespace Walk.Explores

variable {s : Subject} {params pc depth : Nat} {w : Walk}

/-- What a reachable instruction leaves behind is within the reported depth, which is within the
declared one. -/
theorem left_le (hw : Explores s params w) (hp : w.pending = []) (hr : Reachable s pc depth)
    {i : Instruction} {e : StackEffect} (hi : at? s.body.code pc = some i)
    (he : i.effect? s.pool = some e) : depth - e.pop + e.push ≤ w.maxDepth :=
  (isGreatest_depthsAfter hw hp).2 ⟨pc, depth, i, e, hr, hi, he, rfl⟩

theorem maxDepth_le (hw : Explores s params w) (hp : w.pending = []) :
    w.maxDepth ≤ s.body.maxStack.toNat := by
  obtain ⟨pc, depth, i, e, hr, hi, he, hmax⟩ := (isGreatest_depthsAfter hw hp).1
  obtain ⟨j, f, hadm⟩ := hw.admitted pc depth (hw.visited_of_reachable hp hr)
  obtain rfl : j = i := Option.some.inj (hadm.instruction.symm.trans hi)
  obtain rfl : f = e := Option.some.inj (hadm.effect.symm.trans he)
  rw [hmax]
  exact hadm.fits

/-- **Only a handler is entered deeper than the walk reports**: a step of a path arrives with what
its instruction left behind. -/
theorem entry_le (hw : Explores s params w) (hp : w.pending = []) (hr : Reachable s pc depth) :
    depth ≤ w.maxDepth ∨ depth = 1 ∧ ∃ h ∈ s.body.handlers, h.handlerPc.toNat = pc := by
  cases hr with
  | entry => exact .inl (Nat.zero_le _)
  | handler hh => exact .inr ⟨rfl, _, hh, rfl⟩
  | step hr hstep =>
    left
    cases hstep with
    | branch hi he _ _ _ => exact hw.left_le hp hr hi he
    | next hi he _ _ => exact hw.left_le hp hr hi he

/-- A depth that covers the reported one bounds all entries exactly if no thrown reference is too
much for it. -/
theorem entries_le_iff (hw : Explores s params w) (hp : w.pending = []) {bound : Nat}
    (hbound : w.maxDepth ≤ bound) :
    (∀ pc depth, Reachable s pc depth → depth ≤ bound) ↔ s.body.handlers = [] ∨ 1 ≤ bound := by
  constructor
  · intro hall
    cases hhandlers : s.body.handlers with
    | nil => exact .inl rfl
    | cons h rest =>
      have hmem : h ∈ s.body.handlers := by
        rw [hhandlers]
        exact List.mem_cons_self
      exact .inr (hall _ _ (.handler hmem))
  · intro hroom pc depth hr
    rcases hw.entry_le hp hr with hle | ⟨rfl, h, hmem, -⟩
    · exact hle.trans hbound
    · rcases hroom with hnone | hone
      · rw [hnone] at hmem
        cases hmem
      · exact hone

end Walk.Explores

/-! ### Accepted methods -/

/-- **Depths on entry.**  Take any method that is accepted, and any path through its body from the
entry point or from a handler. The reported depth is within the declared one, and an instruction is
entered within the reported depth, unless it is the first of a handler and entered with the thrown
reference alone. So the reported depth bounds all entries exactly if there is no handler or it is
not zero, and the declared depth does exactly if there is no handler or it is not zero. -/
theorem entry_depths (h : inspectMethod pool m = pure (some summary)) :
    ∃ s, Inspects pool m s ∧ summary.declaredStack = s.body.maxStack.toNat ∧
      summary.maxDepth ≤ summary.declaredStack ∧
      (∀ pc depth, Reachable s pc depth → depth ≤ summary.maxDepth ∨
        depth = 1 ∧ ∃ h ∈ s.body.handlers, h.handlerPc.toNat = pc) ∧
      ((∀ pc depth, Reachable s pc depth → depth ≤ summary.maxDepth) ↔
        s.body.handlers = [] ∨ 1 ≤ summary.maxDepth) ∧
      ((∀ pc depth, Reachable s pc depth → depth ≤ summary.declaredStack) ↔
        s.body.handlers = [] ∨ 1 ≤ summary.declaredStack) := by
  obtain ⟨s, params, w, hs, -, -, hwalk, rfl⟩ := inspectMethod_eq_pure_some.1 h
  obtain ⟨hw, hp⟩ := explores_of_all hs.starts hwalk
  exact ⟨s, hs, rfl, hw.maxDepth_le hp, fun pc depth => hw.entry_le hp,
    hw.entries_le_iff hp (Nat.le_refl _), hw.entries_le_iff hp (hw.maxDepth_le hp)⟩

/-! ### Rejected methods -/

/-- What is accepted is in order wherever a path leads. -/
theorem exists_admitted (h : inspectMethod pool m = pure (some summary)) :
    ∃ s, Inspects pool m s ∧
      ∀ pc depth, Reachable s pc depth → ∃ i e, Admitted s pc depth i e := by
  obtain ⟨s, params, w, hs, -, -, hwalk, -⟩ := inspectMethod_eq_pure_some.1 h
  obtain ⟨hw, hp⟩ := explores_of_all hs.starts hwalk
  exact ⟨s, hs, fun pc depth hr => hw.admitted pc depth (hw.visited_of_reachable hp hr)⟩

/-- **A method is rejected if a path leads to an instruction that is not in order.** -/
theorem inspectMethod_ne_pure {body : MethodBody} {type : MethodType} (hbody : m.body = some body)
    (htype : MethodType.ofDescriptor? m.descriptor = some type)
    (hpath : ∀ starts, ∃ pc depth, Reachable ⟨pool, body, type, starts⟩ pc depth ∧
      ∀ i e, ¬Admitted ⟨pool, body, type, starts⟩ pc depth i e) (r : Option MethodSummary) :
    inspectMethod pool m ≠ pure r := by
  intro h
  cases r with
  | none =>
    simp only [inspectMethod, hbody, htype] at h
    obtain ⟨w, -, hsome⟩ := forMethod_bind_eq_pure.1 h
    cases hsome
  | some summary =>
    obtain ⟨⟨pool', body', type', starts⟩, hs, hall⟩ := exists_admitted h
    obtain rfl : pool' = pool := hs.pool
    obtain rfl : body = body' := Option.some.inj (hbody.symm.trans hs.body)
    obtain rfl : type = type' := Option.some.inj (htype.symm.trans hs.type)
    obtain ⟨pc, depth, hreach, hnone⟩ := hpath starts
    obtain ⟨i, e, hadmitted⟩ := hall pc depth hreach
    exact hnone i e hadmitted

/-! ### Methods without parameters and result -/

/-- A static method without parameters and result. -/
def staticAction (body : MethodBody) : MethodImage :=
  ⟨.staticFlag, "run", MethodType.action.descriptor, some body, []⟩

theorem ofDescriptor?_staticAction (body : MethodBody) :
    MethodType.ofDescriptor? (staticAction body).descriptor = some .action :=
  MethodType.ofDescriptor?_descriptor ⟨nofun, trivial⟩

theorem inspects_staticAction {body : MethodBody} {starts : Array Bool}
    (h : boundaries body.code = .ok starts) :
    Inspects .empty (staticAction body) ⟨.empty, body, .action, starts⟩ where
  pool := rfl
  body := rfl
  type := ofDescriptor?_staticAction body
  starts := h

/-- The method is accepted if the walk over its body succeeds. -/
theorem inspectMethod_staticAction {body : MethodBody} {starts : Array Bool} {w : Walk}
    (h : boundaries body.code = .ok starts) (hlines : body.lines = [])
    (hwalk : Walk.all ⟨.empty, body, .action, starts⟩ 0 = pure w) :
    inspectMethod .empty (staticAction body) =
      pure (some (summarize (staticAction body) ⟨.empty, body, .action, starts⟩ w)) := by
  refine inspectMethod_eq_pure_some.2 ⟨_, 0, w, inspects_staticAction h, ?_, ?_, hwalk, rfl⟩
  · have hstatic : AccessFlags.staticFlag.isStatic = true := by decide
    have hword : MethodType.action.callWord (!AccessFlags.staticFlag.isStatic) = .ok 0 := by
      rw [hstatic]
      exact MethodType.callWord_eq_ok.2 ⟨rfl, Nat.zero_le _⟩
    exact bind_eq_pure.2 ⟨0, ofCount_eq_pure.2 hword,
      guard_bind_eq_pure.2 ⟨Nat.not_lt_zero _, rfl⟩⟩
  · show checkLines starts body.lines = .ok ()
    rw [hlines]
    rfl

/-- A loop whose handler stores the caught reference: its entry is within both depths. -/
theorem entry_depths_loopSubject :
    ∃ summary s, inspectMethod .empty (staticAction loopSubject.body) = pure (some summary) ∧
      Inspects .empty (staticAction loopSubject.body) s ∧ s.body.handlers ≠ [] ∧
      summary.maxDepth = 1 ∧
      ∀ pc depth, Reachable s pc depth → depth ≤ summary.maxDepth ∧
        depth ≤ summary.declaredStack := by
  have hs : boundaries loopSubject.body.code = .ok loopSubject.starts := by decide +kernel
  have hrun : ((Walk.all ⟨.empty, loopSubject.body, .action, loopSubject.starts⟩ 0).run.toOption.any
      fun r => r.toOption.any fun w => w.maxDepth == 1) = true := by decide +kernel
  obtain ⟨r, hr, hrun⟩ := Except.exists_ok_of_any hrun
  obtain ⟨w, rfl, hdepth⟩ := Except.exists_ok_of_any hrun
  have haccepted := inspectMethod_staticAction hs rfl hr
  have hone : (summarize (staticAction loopSubject.body)
      ⟨.empty, loopSubject.body, .action, loopSubject.starts⟩ w).maxDepth = 1 := beq_iff_eq.1 hdepth
  obtain ⟨s, hins, -, hle, -, hreported, hdeclared⟩ := entry_depths haccepted
  have hbody : s.body = loopSubject.body := (Option.some.inj hins.body).symm
  refine ⟨_, s, haccepted, hins, ?_, hone, fun pc depth hreach => ⟨?_, ?_⟩⟩
  · rw [hbody]
    exact List.cons_ne_nil _ _
  · exact hreported.2 (.inr (Nat.le_of_eq hone.symm)) pc depth hreach
  · exact hdeclared.2 (.inr ((Nat.le_of_eq hone.symm).trans hle)) pc depth hreach

/-- A `return`, and behind it a handler for it that throws what it caught. No slot is declared. -/
def rethrowBody : MethodBody where
  maxStack := 0
  maxLocals := 0
  code := #[0xb1, 0xbf]
  handlers := [⟨0, 1, 1, 0⟩]

/-- **A handler is entered deeper than is declared and than is reported**, in a method that is
accepted. -/
theorem entry_exceeds_rethrowBody :
    ∃ summary s pc depth, inspectMethod .empty (staticAction rethrowBody) = pure (some summary) ∧
      Inspects .empty (staticAction rethrowBody) s ∧ Reachable s pc depth ∧
      summary.declaredStack < depth ∧ summary.maxDepth < depth := by
  have hs : boundaries rethrowBody.code = .ok #[true, true] := by decide +kernel
  have hrun : ((Walk.all ⟨.empty, rethrowBody, .action, #[true, true]⟩ 0).run.toOption.any
      fun r => r.toOption.any fun w => w.maxDepth == 0) = true := by decide +kernel
  obtain ⟨r, hr, hrun⟩ := Except.exists_ok_of_any hrun
  obtain ⟨w, rfl, hdepth⟩ := Except.exists_ok_of_any hrun
  have hthrown : Reachable ⟨.empty, rethrowBody, .action, #[true, true]⟩ 1 1 :=
    Reachable.handler (h := ⟨0, 1, 1, 0⟩) List.mem_cons_self
  refine ⟨_, _, 1, 1, inspectMethod_staticAction hs rfl hr, inspects_staticAction hs, hthrown,
    Nat.zero_lt_one, ?_⟩
  show w.maxDepth < 1
  rw [beq_iff_eq.1 hdepth]
  exact Nat.zero_lt_one

end ClassForge.Inspection
