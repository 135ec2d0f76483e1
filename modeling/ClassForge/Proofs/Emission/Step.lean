import ClassForge.Proofs.Emission.Outcome

/-!
# Steps of an emitter

Every operation of an emitter is a sequence of a few kinds of steps, and all that is proved about
emitted code is derived from what one step does:

* `Emitter.Sound` — the tracker moves as an instruction does, which is promised where control can
  get to the instruction;
* `Emitter.Step` — interning, writing, branching, creating and placing a label, marking a line;
* `Emitter.Emission` — steps in sequence, with the instructions that they wrote;
* `Emission.invariant` — **PROVED**: what one step keeps, an emission keeps;
* `Emitter.Straight` — steps that control passes through.
-/

namespace ClassForge

open ConstantPool

/-! ### Tracked slots -/

namespace Tracker

/-- How one instruction may change a tracker: the deepest stack is that before or that after it. -/
structure Moves (t t' : Tracker) : Prop where
  depth : t'.maxDepth = max t.maxDepth t'.depth ∧ t'.depth ≤ wordMax ∨
    t'.maxDepth = t.maxDepth ∧ t'.depth ≤ t.depth
  locals : t'.maxLocals = t.maxLocals ∨ t.maxLocals ≤ t'.maxLocals ∧ t'.maxLocals ≤ wordMax

/-- The same slots, whatever the source line. -/
structure SameSlots (t t' : Tracker) : Prop where
  depth : t'.depth = t.depth
  maxDepth : t'.maxDepth = t.maxDepth
  maxLocals : t'.maxLocals = t.maxLocals

theorem Moves.refl (t : Tracker) : t.Moves t := ⟨.inr ⟨rfl, Nat.le_refl _⟩, .inl rfl⟩

theorem Moves.le {t t' : Tracker} (h : t.Moves t') :
    t.maxDepth ≤ t'.maxDepth ∧ t.maxLocals ≤ t'.maxLocals := by
  rcases h.depth with ⟨hd, -⟩ | ⟨hd, -⟩ <;> rcases h.locals with hl | ⟨hl, -⟩ <;> omega

theorem moves_moved {t : Tracker} {effect : StackEffect}
    (h : t.depth - effect.pop + effect.push ≤ wordMax) : t.Moves (t.moved effect) :=
  ⟨.inl ⟨rfl, h⟩, .inl rfl⟩

theorem moves_lowered (t : Tracker) (n : Nat) : t.Moves (t.lowered n) :=
  ⟨.inr ⟨rfl, Nat.sub_le _ _⟩, .inl rfl⟩

theorem Moves.noted {t t' : Tracker} (h : t.Moves t') (hmax : t'.maxLocals = t.maxLocals)
    {stop : Nat} (hstop : stop ≤ wordMax) : t.Moves (t'.noted stop) := by
  refine ⟨h.depth, ?_⟩
  show max t'.maxLocals stop = t.maxLocals ∨
    t.maxLocals ≤ max t'.maxLocals stop ∧ max t'.maxLocals stop ≤ wordMax
  rw [hmax]
  rcases Nat.le_total stop t.maxLocals with hle | hle
  · exact .inl (Nat.max_eq_left hle)
  · rw [Nat.max_eq_right hle]
    exact .inr ⟨hle, hstop⟩

end Tracker

namespace Opcode

theorem returnFits_of_not_isReturn {op : Opcode} (h : op.isReturn = false) (ret : JavaType) :
    Inspection.returnFits op ret = true := by
  cases op <;> cases h <;> rfl

/-- Only the instructions that end a path can be returns. -/
theorem returnFits_of_not_isTerminal {op : Opcode} (h : op.isTerminal = false) (ret : JavaType) :
    Inspection.returnFits op ret = true := by
  refine returnFits_of_not_isReturn ?_ ret
  revert h
  cases op <;> decide

/-- Short branches pop what they test, touch no local variable and return nothing. -/
theorem shortBranch_facts {op : Opcode} (h : op.isShortBranch = true) :
    op.fixedEffect? = some ⟨Emitter.branchPop op, 0⟩ ∧ op.namesClass = false ∧
      op.localAccess? = none ∧ op.isReturn = false := by
  revert h
  cases op <;> decide

end Opcode

namespace Emitter

/-! ### Kinds of steps -/

/-- An instruction where it was written, with what the emitter knew of it. -/
structure Placed where
  /-- Offset of the instruction. -/
  pc : Nat
  instr : Instruction
  /-- Tracked depth on entry. -/
  depth : Nat
  effect : StackEffect
  /-- Could control get to it? -/
  live : Bool
  /-- Where it branches to. -/
  label? : Option Label

namespace Placed

/-- Offset behind the instruction. -/
def stop (x : Placed) : Nat := x.pc + x.instr.op.encodedLength

/-- The depth after the instruction. -/
def after (x : Placed) : Nat := x.depth - x.effect.pop + x.effect.push

/-- The branch that waits for its offset. -/
def branch? (x : Placed) : Option PendingBranch := x.label?.map fun l => ⟨x.pc, l⟩

end Placed

/-- The tracker moves as the instruction does. -/
structure Sound (ret : JavaType) (e : Emitter) (i : Instruction) (effect : StackEffect)
    (t : Tracker) : Prop where
  /-- The constant that it names is in the pool, unless a limit has been exceeded. -/
  resolves : e.pool.violation = none → i.effect? e.pool = some effect
  pops : effect.pop ≤ e.tracker.depth
  depth : t.depth = e.tracker.depth - effect.pop + effect.push
  locals : t.maxLocals = max e.tracker.maxLocals (i.localEnd?.getD 0)
  returns : Inspection.returnFits i.op ret = true

/-- **What one step can do.** The list holds the instruction that was written, if one was. -/
inductive Step (ret : JavaType) (e : Emitter) : List Placed → Emitter → Prop where
  /-- Constants are interned. -/
  | intern {pool : ConstantPool} (hgrows : Grows e.pool pool) : Step ret e [] (e.withPool pool)
  /-- An instruction that does not branch is written. -/
  | write {i : Instruction} {effect : StackEffect} {t : Tracker} (hop : i.op.isBranch = false)
      (ht : e.tracker.Moves t) (hsound : e.reachable = true → Sound ret e i effect t) :
      Step ret e [⟨e.assembly.code.size, i, e.tracker.depth, effect, e.reachable, none⟩]
        ((e.written t i).withReachable (e.reachable && !i.op.isTerminal))
  /-- A branch to a label is written, and its depth is the one expected there. -/
  | branch {op : Opcode} {l : Label} (hop : op.isShortBranch = true)
      (hpop : branchPop op ≤ e.tracker.depth)
      (hdepth : e.labelDepths[l.id]? = some none ∨
        e.labelDepths[l.id]? = some (some (e.tracker.depth - branchPop op))) :
      Step ret e
        [⟨e.assembly.code.size, .linked op 0xffff (operandSize_of_isShortBranch hop),
          e.tracker.depth, ⟨branchPop op, 0⟩, e.reachable, some l⟩]
        (e.branched op l (operandSize_of_isShortBranch hop))
  /-- A label is created. -/
  | label : Step ret e []
      ((e.withAssembly e.assembly.newLabel.2).withDepths (e.labelDepths.push none))
  /-- A label is placed: falling through keeps the depth, and after dead code an earlier branch
  has set it. -/
  | place {l : Label} {depth : Nat} (hplace : e.assembly.labels[l.id]? = some none)
      (hfalls : e.reachable = true → depth = e.tracker.depth)
      (hdepth : e.labelDepths[l.id]? = some none ∧ e.reachable = true ∨
        e.labelDepths[l.id]? = some (some depth)) :
      Step ret e [] (e.labelled l depth)
  /-- A source line is noted, and marked here if it is a new one. -/
  | line {t : Tracker} {lines : Array LineEntry} (ht : e.tracker.SameSlots t)
      (hlines : lines = e.assembly.lines ∨ ∃ line, lines = (e.assembly.markLine line).lines) :
      Step ret e [] ((e.withTracker t).withAssembly { e.assembly with lines })

/-- **Steps in sequence.** The list holds the instructions that were written, the latest first. -/
inductive Emission (ret : JavaType) (e : Emitter) : List Placed → Emitter → Prop where
  | refl : Emission ret e [] e
  | step {e' e'' : Emitter} {xs new : List Placed} (h : Emission ret e xs e')
      (hs : Step ret e' new e'') : Emission ret e (new ++ xs) e''

variable {ret : JavaType} {e e' e'' : Emitter} {xs ys new : List Placed}

theorem Step.emission (h : Step ret e new e') : Emission ret e new e' := by
  have hone := Emission.step .refl h
  rwa [List.append_nil] at hone

theorem Emission.trans (h : Emission ret e xs e') (h' : Emission ret e' ys e'') :
    Emission ret e (ys ++ xs) e'' := by
  induction h' with
  | refl => exact h
  | step _ hs ih =>
    rw [List.append_assoc]
    exact .step ih hs

/-- **What one step keeps, an emission keeps.** -/
theorem Emission.invariant {I : Emitter → List Placed → Prop}
    (hstep : ∀ {e xs new e'}, Step ret e new e' → I e xs → I e' (new ++ xs))
    (h : Emission ret e new e') (h₀ : I e xs) : I e' (new ++ xs) := by
  induction h with
  | refl => exact h₀
  | step _ hs ih =>
    rw [List.append_assoc]
    exact hstep hs ih

/-! ### What steps keep -/

theorem Step.grows (h : Step ret e new e') : Grows e.pool e'.pool := by
  cases h with
  | intern hgrows => exact hgrows
  | write | branch | label | place | line => exact .refl _

/-- **Constants keep their indices** along any emission. -/
theorem Emission.grows (h : Emission ret e xs e') : Grows e.pool e'.pool := by
  induction h with
  | refl => exact .refl _
  | step _ hs ih => exact ih.trans hs.grows

/-- A depth that is expected at a label stays. -/
theorem Step.labelDepth (h : Step ret e new e') {k d : Nat}
    (hk : e.labelDepths[k]? = some (some d)) : e'.labelDepths[k]? = some (some d) := by
  have hset (l : Label) (x : Nat) (hl : e.labelDepths[l.id]? = some none ∨
      e.labelDepths[l.id]? = some (some x)) :
      (e.labelDepths.setIfInBounds l.id (some x))[k]? = some (some d) := by
    rw [Array.getElem?_setIfInBounds]
    by_cases heq : l.id = k
    · subst heq
      rcases hl with hl | hl
      · rw [hk] at hl
        cases hl
      · rw [hk] at hl
        cases hl
        rw [if_pos rfl, if_pos (Array.getElem?_eq_some_iff.1 hk).1]
    · rw [if_neg heq]
      exact hk
  cases h with
  | intern | write | line => exact hk
  | branch _ _ hdepth => exact hset _ _ hdepth
  | label =>
    obtain ⟨hlt, -⟩ := Array.getElem?_eq_some_iff.1 hk
    show (e.labelDepths.push none)[k]? = _
    rw [Array.getElem?_push, if_neg (Nat.ne_of_lt hlt)]
    exact hk
  | place _ _ hdepth => exact hset _ _ (hdepth.imp And.left id)

theorem Emission.labelDepth (h : Emission ret e xs e') {k d : Nat}
    (hk : e.labelDepths[k]? = some (some d)) : e'.labelDepths[k]? = some (some d) := by
  induction h with
  | refl => exact hk
  | step _ hs ih => exact hs.labelDepth ih

/-! ### Passing through -/

/-- Steps that write dead code only after dead code. -/
def Emits (ret : JavaType) (e e' : Emitter) : Prop :=
  ∃ xs, Emission ret e xs e' ∧ (e.reachable = true → ∀ x ∈ xs, x.live = true)

/-- Control passes through: it gets to all of the instructions written if it gets to the first of
them, and then to what follows. -/
structure Straight (ret : JavaType) (e e' : Emitter) : Prop where
  emits : Emits ret e e'
  reachable : e.reachable = true → e'.reachable = true

/-- One step writes dead code only after dead code. -/
theorem Step.emits (h : Step ret e new e') : Emits ret e e' := by
  refine ⟨new, h.emission, fun hr x hx => ?_⟩
  cases h with
  | write | branch =>
    rw [List.mem_singleton.1 hx]
    exact hr
  | intern | label | place | line => cases hx

theorem Emits.grows (h : Emits ret e e') : Grows e.pool e'.pool := by
  obtain ⟨xs, hem, -⟩ := h
  exact hem.grows

theorem Emits.labelDepth (h : Emits ret e e') {k d : Nat}
    (hk : e.labelDepths[k]? = some (some d)) : e'.labelDepths[k]? = some (some d) := by
  obtain ⟨xs, hem, -⟩ := h
  exact hem.labelDepth hk

theorem Straight.refl (ret : JavaType) (e : Emitter) : Straight ret e e :=
  ⟨⟨[], .refl, nofun⟩, id⟩

theorem Straight.emits_trans (h : Straight ret e e') (h' : Emits ret e' e'') :
    Emits ret e e'' := by
  obtain ⟨⟨xs, hem, hlive⟩, hreach⟩ := h
  obtain ⟨ys, hem', hlive'⟩ := h'
  refine ⟨ys ++ xs, hem.trans hem', fun hr x hx => ?_⟩
  rcases List.mem_append.1 hx with hx | hx
  · exact hlive' (hreach hr) x hx
  · exact hlive hr x hx

theorem Straight.trans (h : Straight ret e e') (h' : Straight ret e' e'') :
    Straight ret e e'' :=
  ⟨h.emits_trans h'.emits, fun hr => h'.reachable (h.reachable hr)⟩

/-- After a label control goes on, whatever went before. -/
theorem Emits.place (h : Emits ret e e') (hp : Step ret e' [] e'') (hr : e''.reachable = true) :
    Straight ret e e'' := by
  obtain ⟨xs, hem, hlive⟩ := h
  exact ⟨⟨xs, hem.step hp, hlive⟩, fun _ => hr⟩

theorem Straight.coherent (h : Straight ret e e') (hcoh : e.pool.Coherent) :
    e'.pool.Coherent :=
  h.emits.grows.coherent hcoh

end Emitter

end ClassForge
