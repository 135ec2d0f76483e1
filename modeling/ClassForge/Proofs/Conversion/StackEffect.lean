import ClassForge.Proofs.Conversion.Typing
import ClassForge.Proofs.Emission.Changes

/-!
# The stack effect of conversions

The code of a conversion replaces the slots of one type by those of another, from whatever state it
is emitted: in dead code as well, with labels that still wait for a place, and close to the deepest
stack that can be tracked.

* `Shifted` — part of the code is there: the labels from before it are left alone, the depth is
  known, and so is how deep the stack has been;
* `Shifts` — **the contract**: code that replaces slots on top of the stack. What is below them may
  have any depth that leaves room;
* `Shifts.seq`, `Shifts.fork` — **PROVED**: such code makes up larger code;
* `shifts_emitStep` — **PROVED**: the code of a well-typed step replaces the slots of its types;
* `convert_of_reached` — **PROVED**: so does that of every conversion.
-/

namespace ClassForge

open Conversion

namespace Emitter

open Emit

variable {waiting : Waiting} {n m d cap base pop mid push peak : Nat} {x y test : Emit Unit}
  {e e' : Emitter}

/-! ### Parts of the code -/

/-- **Part of the code is there.** The depth is `d`, and it has been at most `cap`. -/
structure Shifted (waiting : Waiting) (n d cap : Nat) (e e' : Emitter) : Prop where
  frame : Frame waiting n e e'
  /-- A label of its own has a place, or waits for one. -/
  placed : ∀ k, e.assembly.labels.size ≤ k → k < e'.assembly.labels.size →
    (∃ w ∈ waiting, w.1.id = k) ∨ ∃ offset, e'.assembly.labels[k]? = some (some offset)
  depth : e'.tracker.depth = d
  raised : e.tracker.maxDepth ≤ e'.tracker.maxDepth ∧
    e'.tracker.maxDepth ≤ max e.tracker.maxDepth cap

/-- **The contract of code that replaces slots**: `pop` of them on top of the stack by `push`
others, with at most `peak` slots in the meantime. It has at most `n` bytes, and it can be emitted
wherever a word has room for the depths; control passes through it if control gets there. -/
def Shifts (n pop push peak : Nat) (x : Emit Unit) : Prop :=
  ∀ (e : Emitter) (base : Nat), e.Neat → e.tracker.depth = base + pop → base + peak ≤ wordMax →
    ∃ e', x e = .ok ((), e') ∧ Shifted [] n (base + push) (base + peak) e e' ∧
      (e.reachable = true → e'.reachable = true)

theorem Shifted.refl (he : e.Neat) (hd : e.tracker.depth = d) : Shifted [] 0 d cap e e where
  frame := .refl he
  placed _ hlo hhi := absurd hlo (Nat.not_le.2 hhi)
  depth := hd
  raised := ⟨Nat.le_refl _, Nat.le_max_left _ _⟩

theorem Shifted.mono (h : Shifted waiting n d mid e e') (hn : n ≤ m) (hcap : mid ≤ cap) :
    Shifted waiting m d cap e e' where
  frame := h.frame.mono hn
  placed := h.placed
  depth := h.depth
  raised := ⟨h.raised.1, by have := h.raised.2; omega⟩

theorem Shifted.swap {w w' : Label × Option Nat}
    (h : Shifted (w :: w' :: waiting) n d cap e e') :
    Shifted (w' :: w :: waiting) n d cap e e' where
  frame := h.frame.swap
  placed k hlo hhi := (h.placed k hlo hhi).imp_left fun ⟨v, hv, hk⟩ =>
    ⟨v, (List.Perm.swap w' w waiting).mem_iff.1 hv, hk⟩
  depth := h.depth
  raised := h.raised

/-- Code that replaces slots is next. -/
theorem Shifted.next (h : Shifted waiting n (base + pop) (base + peak) e e')
    (hx : Shifts m pop push peak x) (hword : base + peak ≤ wordMax) :
    ∃ e'', x e' = .ok ((), e'') ∧ Shifted waiting (n + m) (base + push) (base + peak) e e'' ∧
      (e'.reachable = true → e''.reachable = true) := by
  obtain ⟨e'', hrun, h', hreach⟩ := hx e' base h.frame.neat h.depth hword
  refine ⟨e'', hrun, ⟨h.frame.trans h'.frame, fun k hlo hhi => ?_, h'.depth, ?_⟩, hreach⟩
  · rcases Nat.lt_or_ge k e'.assembly.labels.size with hk | hk
    · -- The label was there before `x`.
      rw [(h'.frame.labels k hk).1]
      exact h.placed k hlo hk
    · exact .inr ((h'.placed k hk hhi).resolve_left nofun)
  · have hraised := h.raised
    have hraised' := h'.raised
    omega

/-- A label is created. -/
theorem Shifted.newLabel (h : Shifted waiting n d cap e e') :
    ∃ l e'', newLabel e' = .ok (l, e'') ∧ Shifted ((l, none) :: waiting) n d cap e e'' := by
  refine ⟨_, _, newLabel_eq_ok.2 ⟨rfl, rfl⟩, h.frame.newLabel, fun k hlo hhi => ?_, h.depth,
    h.raised⟩
  have hhi : k < (e'.assembly.labels.push none).size := hhi
  rw [Array.size_push] at hhi
  show _ ∨ ∃ offset, (e'.assembly.labels.push none)[k]? = some (some offset)
  rcases Nat.lt_or_eq_of_le (Nat.le_of_lt_succ hhi) with hk | rfl
  · rw [Array.getElem?_push, if_neg (Nat.ne_of_lt hk)]
    exact (h.placed k hlo hk).imp_left fun ⟨w, hw, hid⟩ => ⟨w, List.mem_cons_of_mem _ hw, hid⟩
  · exact .inl ⟨_, List.mem_cons_self, rfl⟩

/-- A branch to a label that waits. -/
theorem Shifted.branch {l : Label} {op : Opcode}
    (h : Shifted ((l, none) :: waiting) n (d + branchPop op) cap e e')
    (hop : op.isShortBranch = true) :
    ∃ e'', branch op l e' = .ok ((), e'') ∧
      Shifted ((l, some d) :: waiting) (n + 3) d cap e e'' ∧
      e''.reachable = (e'.reachable && !op.isTerminal) := by
  have hd : e'.tracker.depth - branchPop op = d := by rw [h.depth, Nat.add_sub_cancel]
  obtain ⟨-, -, hexpected⟩ := h.frame.waits _ List.mem_cons_self
  have hrun : Emitter.branch op l e' = .ok ((), _) :=
    branch_eq_ok.2 ⟨hop, h.depth ▸ Nat.le_add_left _ _, .inl hexpected, rfl⟩
  refine ⟨_, hrun, ⟨hd ▸ h.frame.branched _, fun k hlo hhi => ?_, hd, h.raised⟩, rfl⟩
  refine (h.placed k hlo hhi).imp_left fun ⟨w, hw, hid⟩ => ?_
  rcases List.mem_cons.1 hw with rfl | hw
  · exact ⟨_, List.mem_cons_self, hid⟩
  · exact ⟨w, List.mem_cons_of_mem _ hw, hid⟩

/-- A label is placed: where control falls through to it, the depth is the one expected there. -/
theorem Shifted.placeLabel {l : Label} {expected : Nat}
    (h : Shifted ((l, some expected) :: waiting) n d cap e e')
    (hfalls : e'.reachable = true → expected = d) (hn : n ≤ 32767) :
    ∃ e'', placeLabel l e' = .ok ((), e'') ∧ Shifted waiting n expected cap e e'' ∧
      e''.reachable = true := by
  obtain ⟨-, hplace, hexpected⟩ := h.frame.waits _ List.mem_cons_self
  have hlt : l.id < e'.assembly.labels.size := lt_size_of_getElem? hplace
  have hrun : Emitter.placeLabel l e' = .ok ((), _) := placeLabel_eq_ok.2
    ⟨hplace, expected, fun hr => (hfalls hr).trans h.depth.symm, .inr hexpected, rfl⟩
  refine ⟨_, hrun, ⟨h.frame.labelled hn expected, fun k hlo hhi => ?_, rfl, h.raised⟩, rfl⟩
  have hhi : k < (e'.assembly.labels.setIfInBounds l.id _).size := hhi
  rw [Array.size_setIfInBounds] at hhi
  show _ ∨ ∃ offset, (e'.assembly.labels.setIfInBounds l.id _)[k]? = some (some offset)
  by_cases hk : l.id = k
  · rw [Array.getElem?_setIfInBounds, if_pos hk, if_pos hlt]
    exact .inr ⟨_, rfl⟩
  · rw [Array.getElem?_setIfInBounds_ne hk]
    refine (h.placed k hlo hhi).imp_left fun ⟨w, hw, hid⟩ => ?_
    rcases List.mem_cons.1 hw with rfl | hw
    · exact absurd hid hk
    · exact ⟨w, hw, hid⟩

/-! ### Code made up of code -/

theorem Shifts.mono (h : Shifts n pop push mid x) (hn : n ≤ m) (hpeak : mid ≤ peak) :
    Shifts m pop push peak x := by
  intro e base he hdepth hword
  obtain ⟨e', hrun, h', hreach⟩ := h e base he hdepth (by omega)
  exact ⟨e', hrun, h'.mono hn (by omega), hreach⟩

theorem Shifts.longer (h : Shifts n pop push peak x) (hn : n ≤ m) : Shifts m pop push peak x :=
  h.mono hn (Nat.le_refl _)

/-- The slots below are left alone. -/
theorem Shifts.above (h : Shifts n pop push peak x) (k : Nat) :
    Shifts n (k + pop) (k + push) (k + peak) x := by
  intro e base he hdepth hword
  rw [← Nat.add_assoc] at hdepth hword ⊢
  rw [← Nat.add_assoc]
  exact h e (base + k) he hdepth hword

theorem Shifts.pure : Shifts 0 pop pop peak (pure ()) :=
  fun e _ he hdepth _ => ⟨e, rfl, .refl he hdepth, id⟩

/-- **In sequence.** -/
theorem Shifts.seq (hx : Shifts n pop mid peak x) (hy : Shifts m mid push peak y) :
    Shifts (n + m) pop push peak (do x; y) := by
  intro e base he hdepth hword
  obtain ⟨e₁, hrun₁, h₁, hreach₁⟩ := hx e base he hdepth hword
  obtain ⟨e₂, hrun₂, h₂, hreach₂⟩ := h₁.next hy hword
  exact ⟨e₂, bind_eq_ok.2 ⟨(), e₁, hrun₁, hrun₂⟩, h₂, hreach₂ ∘ hreach₁⟩

/-- **Two paths** that both leave the same slots. -/
theorem Shifts.fork {op : Opcode} {n₁ n₂ n₃ : Nat} (hop : op.isShortBranch = true)
    (htest : Shifts n₁ pop (mid + branchPop op) peak test) (hx : Shifts n₂ mid push peak x)
    (hy : Shifts n₃ mid push peak y) (hsize : n₁ + n₂ + n₃ + 6 ≤ 32767) :
    Shifts (n₁ + n₂ + n₃ + 6) pop push peak (fork test op x y) := by
  intro e base he hdepth hword
  have h₀ : Shifted [] 0 (base + pop) (base + peak) e e := .refl he hdepth
  obtain ⟨taken, e₁, hrun₁, h₁⟩ := h₀.newLabel
  obtain ⟨done, e₂, hrun₂, h₂⟩ := h₁.newLabel
  obtain ⟨e₃, hrun₃, h₃, -⟩ := h₂.swap.next htest hword
  rw [← Nat.add_assoc] at h₃
  obtain ⟨e₄, hrun₄, h₄, -⟩ := h₃.branch hop
  obtain ⟨e₅, hrun₅, h₅, -⟩ := h₄.next hx hword
  obtain ⟨e₆, hrun₆, h₆, hdead⟩ := h₅.swap.branch (d := base + push)
    (show Opcode.goto.isShortBranch = true from rfl)
  -- Only the branch gets to the second path, and it does so even if all of this is dead code.
  obtain ⟨e₇, hrun₇, h₇, -⟩ := h₆.swap.placeLabel
    (fun hr => by rw [hdead, Bool.and_eq_true] at hr; cases hr.2) (by omega)
  obtain ⟨e₈, hrun₈, h₈, -⟩ := h₇.next hy hword
  obtain ⟨e₉, hrun₉, h₉, hreach⟩ := h₈.placeLabel (fun _ => rfl) (by omega)
  exact ⟨e₉, bind_eq_ok.2 ⟨_, _, hrun₁, bind_eq_ok.2 ⟨_, _, hrun₂, bind_eq_ok.2 ⟨_, _, hrun₃,
    bind_eq_ok.2 ⟨_, _, hrun₄, bind_eq_ok.2 ⟨_, _, hrun₅, bind_eq_ok.2 ⟨_, _, hrun₆,
    bind_eq_ok.2 ⟨_, _, hrun₇, bind_eq_ok.2 ⟨_, _, hrun₈, hrun₉⟩⟩⟩⟩⟩⟩⟩⟩,
    h₉.mono (by omega) (Nat.le_refl _), fun _ => hreach⟩

/-! ### Instructions -/

/-- One instruction is written. -/
theorem shifts_of_written
    (h : ∀ (e : Emitter) (base : Nat), e.tracker.depth = base + pop → base + peak ≤ wordMax →
      ∃ pool t i, x e = .ok ((), (e.withPool pool).written t i) ∧ i.op.encodedLength ≤ n ∧
        t.depth = base + push ∧ e.tracker.maxDepth ≤ t.maxDepth ∧
        t.maxDepth ≤ max e.tracker.maxDepth (base + peak)) :
    Shifts n pop push peak x := by
  intro e base he hdepth hword
  obtain ⟨pool, t, i, hrun, hi, ht, hlo, hhi⟩ := h e base hdepth hword
  exact ⟨_, hrun, ⟨(frame_written he pool t i).mono hi, fun k hlo hhi => absurd hlo
    (Nat.not_le.2 hhi), ht, hlo, hhi⟩, id⟩

/-- The tracker moves by the effect of the instruction. -/
theorem shifts_of_moved (hpush : push ≤ peak)
    (h : ∀ e : Emitter, pop ≤ e.tracker.depth → e.tracker.depth - pop + push ≤ wordMax →
      ∃ pool i, x e = .ok ((), (e.withPool pool).written (e.tracker.moved ⟨pop, push⟩) i) ∧
        i.op.encodedLength ≤ n) :
    Shifts n pop push peak x := by
  refine shifts_of_written fun e base hdepth hword => ?_
  have hafter : e.tracker.depth - pop + push = base + push := by omega
  obtain ⟨pool, i, hrun, hi⟩ := h e (by omega) (by omega)
  refine ⟨pool, _, i, hrun, hi, hafter, Nat.le_max_left _ _, ?_⟩
  show max e.tracker.maxDepth (e.tracker.depth - pop + push) ≤ _
  omega

theorem shifts_emit (op : Opcode) (hsize : op.operandSize = 0)
    (heffect : op.fixedEffect? = some ⟨pop, push⟩) (hterm : op.isTerminal = false)
    (hpush : push ≤ peak) : Shifts 1 pop push peak (emit op) := by
  refine shifts_of_moved hpush fun e hpop hword => ⟨e.pool, .plain op hsize,
    emit_eq_ok.2 ⟨hsize, _, heffect, hpop, hword, ?_⟩, Nat.le_of_eq (congrArg (1 + ·) hsize)⟩
  rw [hterm, Bool.not_false, Bool.and_true]
  rfl

/-- A call, by the instruction for it. -/
theorem shifts_of_call {op : Opcode} {receiver : Bool} {owner name : String} {type : MethodType}
    (hsize : op.operandSize = 2)
    (hrun : ∀ e e' : Emitter, x e = .ok ((), e') ↔
      (callEffect type receiver).pop ≤ wordMax ∧ (callEffect type receiver).pop ≤ e.tracker.depth ∧
        e.tracker.depth - (callEffect type receiver).pop + type.retSlots ≤ wordMax ∧
        e' = (e.withPool (e.pool.methodRef owner name type).2).written
          (e.tracker.moved (callEffect type receiver))
          (.linked op (e.pool.methodRef owner name type).1 hsize))
    (hpop : (callEffect type receiver).pop = pop) (hsmall : pop ≤ 2)
    (hpush : type.retSlots ≤ peak) : Shifts 3 pop type.retSlots peak x := by
  subst hpop
  exact shifts_of_moved hpush fun e hdepth hword => ⟨_, _,
    (hrun e _).2 ⟨Nat.le_trans hsmall (by decide), hdepth, hword, rfl⟩, encodedLength_linked _ _ _⟩

theorem shifts_invokeStatic {owner name : String} {type : MethodType}
    (hpop : (callEffect type false).pop = pop) (hsmall : pop ≤ 2) (hpush : type.retSlots ≤ peak) :
    Shifts 3 pop type.retSlots peak (invokeStatic owner name type) :=
  shifts_of_call rfl (fun _ _ => invokeStatic_eq_ok) hpop hsmall hpush

theorem shifts_invokeVirtual {owner name : String} {type : MethodType}
    (hpop : (callEffect type true).pop = pop) (hsmall : pop ≤ 2) (hpush : type.retSlots ≤ peak) :
    Shifts 3 pop type.retSlots peak (invokeVirtual owner name type) :=
  shifts_of_call rfl (fun _ _ => invokeVirtual_eq_ok) hpop hsmall hpush

/-- A cast leaves the tracker alone. -/
theorem shifts_checkCast {type : JavaType} (h : type.isReference = true) :
    Shifts 3 1 1 peak (checkCast type) := by
  obtain ⟨name, hname⟩ := JavaType.exists_className? h
  exact shifts_of_written fun e base hdepth _ => ⟨_, _, _, checkCast_eq_ok.2 ⟨name, hname, rfl⟩,
    encodedLength_linked _ _ _, hdepth, Nat.le_refl _, Nat.le_max_left _ _⟩

theorem shifts_popValue (type : JavaType) : Shifts 1 type.slots 0 peak (popValue type) := by
  cases type with
  | void => exact Shifts.pure.longer (Nat.zero_le 1)
  | long | double => exact shifts_emit .pop2 rfl rfl rfl (Nat.zero_le _)
  | boolean | byte | char | short | int | float | object | array =>
    exact shifts_emit .pop rfl rfl rfl (Nat.zero_le _)

theorem shifts_zeroOf (type : JavaType) (hpeak : type.slots ≤ peak) :
    Shifts 1 0 type.slots peak (zeroOf type) := by
  cases type with
  | void => exact Shifts.pure.longer (Nat.zero_le 1)
  | boolean | byte | char | short | int => exact shifts_emit .iconst0 rfl rfl rfl hpeak
  | long => exact shifts_emit .lconst0 rfl rfl rfl hpeak
  | float => exact shifts_emit .fconst0 rfl rfl rfl hpeak
  | double => exact shifts_emit .dconst0 rfl rfl rfl hpeak
  | object | array => exact shifts_emit .aconstNull rfl rfl rfl hpeak

/-! ### Steps of a plan -/

/-- A number is compared with zero. -/
theorem shifts_compare (type : JavaType) {cmp : Opcode} (hsize : cmp.operandSize = 0)
    (heffect : cmp.fixedEffect? = some ⟨type.slots + type.slots, 1⟩)
    (hterm : cmp.isTerminal = false) (hpeak : type.slots + 2 ≤ peak) :
    Shifts 2 type.slots 1 peak (do zeroOf type; emit cmp) := by
  have hslots := type.slots_le_two
  have hzero := (shifts_zeroOf type (Nat.le_refl _)).above type.slots
  exact (hzero.mono (Nat.le_refl 1) (by omega)).seq
    (shifts_emit cmp hsize heffect hterm (by omega))

theorem shifts_emitTruthy {source : JavaType} (hs : source.isPrimitive = true)
    (hpeak : source.slots + 2 ≤ peak) : Shifts 10 source.slots 1 peak (emitTruthy source) := by
  have hone : 1 ≤ peak := by omega
  have htest : Shifts 0 1 (0 + branchPop .ifeq) peak (pure ()) := .pure
  have hx : Shifts 1 0 1 peak (intConst 1) := shifts_emit .iconst1 rfl rfl rfl hone
  have hy : Shifts 1 0 1 peak (intConst 0) := shifts_emit .iconst0 rfl rfl rfl hone
  rw [emitTruthy_eq]
  refine Shifts.seq (n := 2) ?_ (.fork rfl htest hx hy (by decide))
  cases source with
  | void | object | array => cases hs
  | boolean | byte | char | short | int => exact Shifts.pure.longer (by decide)
  | long => exact shifts_compare .long rfl rfl rfl hpeak
  | float => exact shifts_compare .float rfl rfl rfl hpeak
  | double => exact shifts_compare .double rfl rfl rfl hpeak

theorem shifts_emitUnbox {target : JavaType} {accessor : String}
    (h : target.unboxMethod? = some accessor) (cast : Bool) (hpeak : 2 ≤ peak) :
    Shifts 15 1 target.slots peak (emitUnbox target cast) := by
  have hslots : target.slots ≤ peak := Nat.le_trans target.slots_le_two hpeak
  have htest : Shifts 1 1 (1 + branchPop .ifnonnull) peak (emit .dup) :=
    shifts_emit .dup rfl rfl rfl hpeak
  have hx : Shifts 2 1 target.slots peak (do popValue .anyObject; zeroOf target) :=
    (shifts_popValue .anyObject).seq (shifts_zeroOf target hslots)
  have hcall : Shifts 3 1 target.slots peak
      (invokeVirtual (unboxOwner target) accessor (.returning target)) :=
    shifts_invokeVirtual rfl (by decide) hslots
  have hy : Shifts 6 1 target.slots peak (do
      if cast then checkCast (.ofClass (unboxOwner target))
      invokeVirtual (unboxOwner target) accessor (.returning target)) := by
    cases cast with
    | false => exact hcall.longer (by decide)
    | true => exact (shifts_checkCast rfl).seq hcall
  rw [emitUnbox_eq h]
  exact .fork rfl htest hx hy (by decide)

/-- A primitive takes up the slots of its category. -/
theorem slots_of_category? {t : JavaType} {c : Category} (h : t.category? = some c) :
    t.slots = c.type.slots := by
  cases t <;> cases h <;> rfl

/-- What passes as another type takes up as many slots. -/
theorem slots_eq_of_passesAs {s t : JavaType} (h : s.PassesAs t) : s.slots = t.slots := by
  cases h with
  | same | number => rfl
  | int hs ht => rw [slots_of_category? hs, slots_of_category? ht]
  | object hs => exact JavaType.slots_of_isReference hs

/-- A conversion instruction takes the slots of its category. -/
theorem shape_of_conversion? {op : Opcode} {c : Category} {t : JavaType}
    (h : op.conversion? = some (c, t)) :
    op.operandSize = 0 ∧ op.fixedEffect? = some ⟨c.type.slots, t.slots⟩ ∧
      op.isTerminal = false := by
  cases op <;> cases h <;> exact ⟨rfl, rfl, rfl⟩

/-- **The code of a well-typed step replaces the slots of its types.** All but one kind of step get
by with two slots. -/
theorem shifts_emitStep {step : ConversionStep} {s t : JavaType} (h : step.Turns s t)
    (hpeak : 2 ≤ peak) (htruthy : ∀ u, step = .truthy u → u.slots + 2 ≤ peak) :
    Shifts 15 s.slots t.slots peak (emitStep step) := by
  have hslots (u : JavaType) : u.slots ≤ peak := Nat.le_trans u.slots_le_two hpeak
  cases h with
  | primitive hs hop =>
    obtain ⟨hsize, heffect, hterm⟩ := shape_of_conversion? hop
    rw [← slots_of_category? hs] at heffect
    exact (shifts_emit _ hsize heffect hterm (hslots t)).longer (by decide)
  | truthy hs => exact (shifts_emitTruthy hs (htruthy s rfl)).longer (by decide)
  | @box _ wrapper hs =>
    have hpop : (callEffect ⟨[s], .ofClass wrapper⟩ false).pop = s.slots := rfl
    unfold emitStep
    simp only [hs]
    exact (shifts_invokeStatic hpop s.slots_le_two (hslots _)).longer (by decide)
  | unbox hs ht =>
    rw [JavaType.slots_of_isReference hs]
    exact shifts_emitUnbox ht _ hpeak
  | stringify hs hcall =>
    have hpop : (callEffect (stringifyType s) false).pop = s.slots := by cases s <;> rfl
    exact (shifts_invokeStatic hpop s.slots_le_two (hslots _)).longer (by decide)
  | checkCast hs ht =>
    rw [JavaType.slots_of_isReference hs, JavaType.slots_of_isReference ht]
    exact (shifts_checkCast ht).longer (by decide)
  | discard => exact (shifts_popValue s).longer (by decide)
  | zero => exact (shifts_zeroOf t (hslots t)).longer (by decide)

/-- The steps of a well-typed list, one after another. -/
theorem shifts_emitSteps {steps : List ConversionStep} {s t : JavaType} (h : Leads s steps t)
    (hpeak : 2 ≤ peak) (htruthy : ∀ u, ConversionStep.truthy u ∈ steps → u.slots + 2 ≤ peak) :
    ∃ n, Shifts n s.slots t.slots peak (emitSteps steps) := by
  induction h with
  | nil => exact ⟨0, .pure⟩
  | cons hstep _ ih =>
    obtain ⟨n, hrest⟩ := ih fun u hu => htruthy u (List.mem_cons_of_mem _ hu)
    have hfirst := shifts_emitStep hstep hpeak fun u hu => htruthy u (hu ▸ List.mem_cons_self)
    exact ⟨15 + n, hfirst.seq hrest⟩

/-! ### Conversions -/

theorem eq_source_of_truthy_mem_plan {source target u : JavaType}
    (h : ConversionStep.truthy u ∈ plan source target) : u = source := by
  unfold plan primitiveSteps boxSteps at h
  cases hs : source.isPrimitive <;> cases ht : target.isPrimitive <;>
    simp only [hs, ht] at h <;> split_ifs at h <;> simp at h
  exact h

/-- **The code of a conversion replaces the slots of its source by those of its target.** -/
theorem shifts_convert (source target : JavaType) :
    ∃ n, Shifts n source.slots target.slots (source.slots + 2) (convert source target) := by
  obtain ⟨final, hleads, hpass⟩ := exists_leads_plan source target
  rw [← slots_eq_of_passesAs hpass]
  refine shifts_emitSteps hleads (Nat.le_add_left _ _) fun u hu => ?_
  rw [eq_source_of_truthy_mem_plan hu]

/-- **Conversions have the declared stack effect from any state.** Whatever emitter operations have
led to, with the slots of the source on top and room for two more, a conversion succeeds; the depth
is then that with the slots of the target in their place, and never more than two slots higher in
between. The labels from before keep their places and depths, all new ones have a place, and control
passes through the code if it gets there. -/
theorem convert_of_reached {e : Emitter} (he : Reached e) (source target : JavaType)
    (hlo : source.slots ≤ e.tracker.depth) (hhi : e.tracker.depth ≤ 65533) :
    ∃ e', convert source target e = .ok ((), e') ∧
      e'.tracker.depth = e.tracker.depth - source.slots + target.slots ∧
      e.tracker.maxDepth ≤ e'.tracker.maxDepth ∧
      e'.tracker.maxDepth ≤ max e.tracker.maxDepth (e.tracker.depth + 2) ∧
      (∀ k < e.assembly.labels.size, e'.assembly.labels[k]? = e.assembly.labels[k]? ∧
        e'.labelDepths[k]? = e.labelDepths[k]?) ∧
      (∀ k, e.assembly.labels.size ≤ k → k < e'.assembly.labels.size →
        ∃ offset, e'.assembly.labels[k]? = some (some offset)) ∧
      (e.reachable = true → e'.reachable = true) := by
  obtain ⟨n, hshifts⟩ := shifts_convert source target
  obtain ⟨base, hbase⟩ := Nat.exists_eq_add_of_le' hlo
  have hword : base + (source.slots + 2) ≤ wordMax := by
    unfold wordMax
    omega
  obtain ⟨e', hrun, hshifted, hreach⟩ := hshifts e base he.neat hbase hword
  refine ⟨e', hrun, ?_, hshifted.raised.1, ?_, hshifted.frame.labels, fun k hk hk' => ?_, hreach⟩
  · rw [hshifted.depth, hbase, Nat.add_sub_cancel]
  · have := hshifted.raised.2
    omega
  · exact (hshifted.placed k hk hk').resolve_left nofun

/-- A branch to a label without a place, and a number after it. -/
def pendingBranch : List Operation :=
  [.newLabel, .nullConst, .branch .ifnull ⟨0⟩, .longConst 1]

theorem convert_of_reached_pendingBranch :
    ∃ e e', Operation.runAll pendingBranch (ofPool .empty 1) = .ok ((), e) ∧ Reached e ∧
      e.tracker.depth = 2 ∧ convert .long .boolean e = .ok ((), e') ∧
      e'.tracker.depth = 1 ∧ e'.tracker.maxDepth ≤ 4 ∧ e'.assembly.labels[0]? = some none ∧
      e'.labelDepths[0]? = some (some 0) ∧ e'.reachable = true := by
  have heval : (Operation.runAll pendingBranch (ofPool .empty 1)).toOption.any (fun r =>
      r.2.tracker.depth = 2 ∧ r.2.tracker.maxDepth = 2 ∧ r.2.assembly.labels = #[none] ∧
        r.2.labelDepths = #[some 0] ∧ r.2.reachable = true) = true := by decide +kernel
  obtain ⟨⟨_, e⟩, hrun, htest⟩ := Except.exists_ok_of_any heval
  obtain ⟨(hdepth : e.tracker.depth = 2), hmax, hlabels, hdepths, hreach⟩ :=
    of_decide_eq_true htest
  have hreached := (Reached.start .empty 1).runAll hrun
  obtain ⟨e', hconvert, hdepth', -, hmax', hkept, -, hreach'⟩ :=
    convert_of_reached hreached .long .boolean (Nat.le_of_eq hdepth.symm) (by omega)
  obtain ⟨hplace, hexpected⟩ := hkept 0 (by rw [hlabels]; decide)
  rw [hdepth] at hdepth' hmax'
  rw [hmax] at hmax'
  rw [hlabels] at hplace
  rw [hdepths] at hexpected
  exact ⟨e, e', hrun, hreached, hdepth, hconvert, hdepth', hmax', hplace, hexpected,
    hreach' hreach⟩

end Emitter

end ClassForge
