import ClassForge.Proofs.Emission.Operations

/-!
# Conversions are emissions

The code of a conversion branches where a number becomes a `boolean` and where a wrapper may be the
null reference. Both have the same shape:

* `Emitter.fork` — two paths that part at a branch and meet again behind the second of them;
* `straight_fork` — **PROVED**: control passes through a fork if it passes through both paths;
* `straight_convert` — **PROVED**: control passes through the code of every conversion. A lone cast
  is the only one that asks for anything: it leaves the tracked depth alone, so that a slot has to
  be there.
-/

namespace ClassForge

open ConstantPool

namespace Emitter

open Emit Instruction

variable {ret : JavaType} {e e' : Emitter} {u : Unit}

/-! ### Depths at labels -/

/-- A branch makes its depth the one expected at the label. -/
theorem labelDepth_of_branch {op : Opcode} {l : Label} (h : branch op l e = .ok (u, e')) :
    e'.labelDepths[l.id]? = some (some (e.tracker.depth - branchPop op)) := by
  obtain ⟨hop, hpop, hdepth, rfl⟩ := branch_eq_ok.1 h
  have hlt : l.id < e.labelDepths.size := by
    rcases hdepth with hl | hl <;> exact (Array.getElem?_eq_some_iff.1 hl).1
  show (e.labelDepths.setIfInBounds l.id _)[l.id]? = _
  rw [Array.getElem?_setIfInBounds, if_pos rfl, if_pos hlt]

/-- At a label the depth is the one expected there. -/
theorem depth_of_placeLabel {l : Label} {d : Nat} (h : placeLabel l e = .ok (u, e'))
    (hl : e.labelDepths[l.id]? = some (some d)) : e'.tracker.depth = d := by
  obtain ⟨-, depth, -, hdepth, rfl⟩ := placeLabel_eq_ok.1 h
  rw [hl] at hdepth
  rcases hdepth with ⟨hnone, -⟩ | hsome
  · cases hnone
  · cases hsome
    rfl

/-! ### Two paths -/

/-- Code with two paths: after the test `op` branches to `y`, else `x` is next; both meet behind
`y`. -/
def fork (test : Emit Unit) (op : Opcode) (x y : Emit Unit) : Emit Unit := do
  let taken ← newLabel
  let done ← newLabel
  test
  branch op taken
  x
  goto done
  placeLabel taken
  y
  placeLabel done

/-- **Control passes through a fork** if it passes through its parts; the second path starts with
the depth of the branch. -/
theorem straight_fork {test x y : Emit Unit} {op : Opcode} {d : Nat} (hcoh : e.pool.Coherent)
    (hop : op.isTerminal = false)
    (htest : ∀ {e₁ e₂ : Emitter}, e₁.pool.Coherent → test e₁ = .ok ((), e₂) →
      Straight ret e₁ e₂ ∧ (branchPop op ≤ e₂.tracker.depth → d ≤ e₂.tracker.depth - branchPop op))
    (hx : ∀ {e₁ e₂ : Emitter}, e₁.pool.Coherent → x e₁ = .ok ((), e₂) → Straight ret e₁ e₂)
    (hy : ∀ {e₁ e₂ : Emitter}, e₁.pool.Coherent → d ≤ e₁.tracker.depth →
      y e₁ = .ok ((), e₂) → Straight ret e₁ e₂)
    (h : fork test op x y e = .ok (u, e')) : Straight ret e e' := by
  unfold fork at h
  obtain ⟨taken, e₁, htaken, h⟩ := bind_eq_ok.1 h
  obtain ⟨done, e₂, hdone, h⟩ := bind_eq_ok.1 h
  obtain ⟨_, e₃, hrun, h⟩ := bind_eq_ok.1 h
  obtain ⟨_, e₄, hbranch, h⟩ := bind_eq_ok.1 h
  obtain ⟨_, e₅, hfirst, h⟩ := bind_eq_ok.1 h
  obtain ⟨_, e₆, hgoto, h⟩ := bind_eq_ok.1 h
  obtain ⟨_, e₇, hplace, h⟩ := bind_eq_ok.1 h
  obtain ⟨_, e₈, hsecond, hend⟩ := bind_eq_ok.1 h
  have h₂ : Straight ret e e₂ := (straight_newLabel htaken).trans (straight_newLabel hdone)
  obtain ⟨h₃, hdeep⟩ := htest (h₂.coherent hcoh) hrun
  have h₄ : Straight ret e e₄ := (h₂.trans h₃).trans (straight_branch hbranch hop)
  have h₅ := hx (h₄.coherent hcoh) hfirst
  have h₆ : Emits ret e₅ e₆ := emits_branch hgoto
  have h₇ : Straight ret e e₇ := ((h₄.trans h₅).emits_trans h₆).placeLabel hplace
  -- The depth that the branch has set is still the one expected at its label.
  have hdepth : d ≤ e₇.tracker.depth := by
    have hl := (h₅.emits_trans h₆).labelDepth (labelDepth_of_branch hbranch)
    rw [depth_of_placeLabel hplace hl]
    exact hdeep (branch_eq_ok.1 hbranch).2.1
  have h₈ := hy (h₇.coherent hcoh) hdepth hsecond
  exact (h₇.trans h₈).trans (straight_placeLabel hend)

theorem emitTruthy_eq (source : JavaType) :
    emitTruthy source =
      (match Conversion.categoryOf source with
        | .int => pure ()
        | .long => do longConst 0; emit .lcmp
        | .float => do floatConst 0; emit .fcmpl
        | .double => do doubleConst 0; emit .dcmpl) >>= fun _ =>
      fork (pure ()) .ifeq (intConst 1) (intConst 0) := by
  unfold emitTruthy fork
  cases Conversion.categoryOf source <;> simp only [bind_assoc, pure_bind]

theorem emitUnbox_eq {target : JavaType} {accessor : String}
    (h : target.unboxMethod? = some accessor) (cast : Bool) :
    emitUnbox target cast =
      fork (emit .dup) .ifnonnull (do popValue .anyObject; zeroOf target)
        (do
          if cast then checkCast (.ofClass (Conversion.unboxOwner target))
          invokeVirtual (Conversion.unboxOwner target) accessor (.returning target)) := by
  unfold emitUnbox fork
  rw [h]
  cases cast <;> simp only [bind_assoc, if_true, Bool.false_eq_true, if_false]

/-! ### Method types of conversions -/

theorem wellFormed_ofClass {name : String} (hne : name.toList ≠ []) (hsemi : ';' ∉ name.toList) :
    (JavaType.ofClass name).WellFormed := by
  show (internalName name).toList ≠ [] ∧ ';' ∉ (internalName name).toList
  rw [internalName, String.toList_map]
  refine ⟨by simpa using hne, fun hmem => ?_⟩
  obtain ⟨c, hc, heq⟩ := List.mem_map.1 hmem
  split at heq
  · cases heq
  · exact hsemi (heq ▸ hc)

theorem callFits_of_wellFormed {type : MethodType} (h : type.WellFormed) : CallFits type :=
  MethodType.ofDescriptor?_descriptor h

theorem callFits_box {source : JavaType} {wrapper : String}
    (h : source.boxClass? = some wrapper) : CallFits ⟨[source], .ofClass wrapper⟩ := by
  have hwrapper : (JavaType.ofClass wrapper).WellFormed := by
    cases source <;> cases h <;> exact wellFormed_ofClass (by decide) (by decide)
  refine callFits_of_wellFormed ⟨fun t ht => ?_, hwrapper⟩
  rw [List.mem_singleton.1 ht]
  exact JavaType.wellFormed_of_isPrimitive (JavaType.isPrimitive_of_boxClass? h)

theorem callFits_unbox {target : JavaType} {accessor : String}
    (h : target.unboxMethod? = some accessor) : CallFits (.returning target) := by
  have htarget := JavaType.isPrimitive_of_unboxMethod? h
  exact callFits_of_wellFormed ⟨nofun, (JavaType.wellFormed_of_isPrimitive htarget).2⟩

theorem callFits_stringify {source : JavaType} (h : source.isPrimitive = true) :
    CallFits (Conversion.stringifyType source) := by
  have htext : JavaType.text.WellFormed := ⟨by decide, by decide⟩
  refine callFits_of_wellFormed ⟨fun t ht => ?_, htext⟩
  rw [List.mem_singleton.1 ht]
  cases source with
  | void | object | array => cases h
  | boolean | byte | char | short | int | long | float | double => exact ⟨nofun, trivial⟩

/-! ### Steps of a plan -/

theorem straight_emitTruthy (hcoh : e.pool.Coherent) {source : JavaType}
    (h : emitTruthy source e = .ok (u, e')) : Straight ret e e' := by
  rw [emitTruthy_eq] at h
  obtain ⟨_, e₁, hcompare, hfork⟩ := bind_eq_ok.1 h
  have h₁ : Straight ret e e₁ := by
    cases hcat : Conversion.categoryOf source with
    | int =>
      rw [hcat] at hcompare
      obtain ⟨-, rfl⟩ := pure_eq_ok.1 hcompare
      exact .refl ret e
    | long =>
      rw [hcat] at hcompare
      obtain ⟨_, e₂, hconst, hcmp⟩ := bind_eq_ok.1 hcompare
      exact (straight_longConst hcoh hconst).trans (straight_emit hcmp ⟨rfl, rfl, rfl⟩)
    | float =>
      rw [hcat] at hcompare
      obtain ⟨_, e₂, hconst, hcmp⟩ := bind_eq_ok.1 hcompare
      exact (straight_floatConst hcoh hconst).trans (straight_emit hcmp ⟨rfl, rfl, rfl⟩)
    | double =>
      rw [hcat] at hcompare
      obtain ⟨_, e₂, hconst, hcmp⟩ := bind_eq_ok.1 hcompare
      exact (straight_doubleConst hcoh hconst).trans (straight_emit hcmp ⟨rfl, rfl, rfl⟩)
  refine h₁.trans (straight_fork (d := 0) (h₁.coherent hcoh) rfl (fun _ hpure => ?_)
    (fun hc hx => straight_intConst hc hx) (fun hc _ hy => straight_intConst hc hy) hfork)
  obtain ⟨-, rfl⟩ := pure_eq_ok.1 hpure
  exact ⟨.refl ret _, fun _ => Nat.zero_le _⟩

theorem straight_emitUnbox (hcoh : e.pool.Coherent) {target : JavaType} {cast : Bool}
    (h : emitUnbox target cast e = .ok (u, e')) : Straight ret e e' := by
  cases haccessor : target.unboxMethod? with
  | none =>
    unfold emitUnbox at h
    rw [haccessor] at h
    obtain ⟨-, rfl⟩ := pure_eq_ok.1 h
    exact .refl ret e
  | some accessor =>
    rw [emitUnbox_eq haccessor] at h
    refine straight_fork (d := 1) hcoh rfl (fun _ hdup => ⟨straight_emit hdup ⟨rfl, rfl, rfl⟩, ?_⟩)
      (fun hc hx => ?_) (fun hc hdepth hy => ?_) h
    · -- The branch pops one of the two references that are there after `dup`.
      obtain ⟨hsize, effect, heffect, hpop, hword, rfl⟩ := emit_eq_ok.1 hdup
      cases heffect
      intro hbranch
      show 1 ≤ _ - 1 + 2 - 1
      omega
    · obtain ⟨_, e₁, hpop, hzero⟩ := bind_eq_ok.1 hx
      have h₁ : Straight ret _ e₁ := straight_popValue hpop
      exact h₁.trans (straight_zeroOf (h₁.coherent hc) hzero)
    · cases cast with
      | false =>
        exact straight_invokeVirtual hc hy fun _ => callFits_unbox haccessor
      | true =>
        obtain ⟨_, e₁, hcast, hcall⟩ := bind_eq_ok.1 hy
        have h₁ : Straight ret _ e₁ := straight_checkCast hc hcast fun _ => hdepth
        exact h₁.trans
          (straight_invokeVirtual (h₁.coherent hc) hcall fun _ => callFits_unbox haccessor)

theorem straight_box (hcoh : e.pool.Coherent) {source : JavaType}
    (hsource : source.isPrimitive = true)
    (h : emitStep (.box source) e = .ok (u, e')) :
    Straight ret e e' ∧ 1 ≤ e'.tracker.depth := by
  obtain ⟨wrapper, hwrapper⟩ := JavaType.exists_boxClass? hsource
  unfold emitStep at h
  simp only [hwrapper] at h
  refine ⟨straight_invokeStatic hcoh h fun _ => callFits_box hwrapper, ?_⟩
  obtain ⟨-, -, -, rfl⟩ := invokeStatic_eq_ok.1 h
  exact Nat.le_add_left _ _

theorem emitSteps_singleton (step : ConversionStep) : emitSteps [step] = emitStep step := by
  show (emitStep step >>= fun _ => pure ()) = _
  exact bind_pure_unit

theorem straight_primitive {ops : List Opcode} (hops : ∀ op ∈ ops, op.IsInner) :
    ∀ {e e' : Emitter}, emitSteps (ops.map .primitive) e = .ok (u, e') → Straight ret e e' := by
  induction ops with
  | nil =>
    intro e e' h
    obtain ⟨-, rfl⟩ := pure_eq_ok.1 h
    exact .refl ret e
  | cons op ops ih =>
    intro e e' h
    obtain ⟨_, e₁, hop, hrest⟩ := bind_eq_ok.1 h
    exact (straight_emit hop (hops op List.mem_cons_self)).trans
      (ih (fun o ho => hops o (List.mem_cons_of_mem op ho)) hrest)

theorem isInner_of_mem_categoryOp? {s t : Conversion.Category} {op : Opcode}
    (h : Conversion.categoryOp? s t = some op) : op.IsInner := by
  cases s <;> cases t <;> cases h <;> exact ⟨rfl, rfl, rfl⟩

theorem isInner_of_mem_truncateOp? {source target : JavaType} {op : Opcode}
    (h : Conversion.truncateOp? source target = some op) : op.IsInner := by
  unfold Conversion.truncateOp? at h
  cases target with
  | byte | short | char =>
    simp only at h
    split at h
    · cases h
    · cases h
      exact ⟨rfl, rfl, rfl⟩
  | void | boolean | int | long | float | double | object | array => cases h

theorem straight_primitiveSteps (hcoh : e.pool.Coherent) {source target : JavaType}
    (h : emitSteps (Conversion.primitiveSteps source target) e = .ok (u, e')) :
    Straight ret e e' := by
  unfold Conversion.primitiveSteps at h
  by_cases hbool : target = .boolean
  · rw [if_pos hbool, emitSteps_singleton] at h
    exact straight_emitTruthy hcoh h
  · rw [if_neg hbool] at h
    refine straight_primitive (fun op hop => ?_) h
    rcases List.mem_append.1 hop with hop | hop
    · exact isInner_of_mem_categoryOp? (Option.mem_toList.1 hop)
    · exact isInner_of_mem_truncateOp? (Option.mem_toList.1 hop)

theorem straight_boxSteps (hcoh : e.pool.Coherent) {source target : JavaType}
    (hsource : source.isPrimitive = true)
    (h : emitSteps (Conversion.boxSteps source target) e = .ok (u, e')) : Straight ret e e' := by
  unfold Conversion.boxSteps at h
  split_ifs at h
  · rw [emitSteps_singleton] at h
    exact straight_invokeStatic hcoh h fun _ => callFits_stringify hsource
  · rw [emitSteps_singleton] at h
    exact (straight_box hcoh hsource h).1
  · obtain ⟨_, e₁, hbox, hrest⟩ := bind_eq_ok.1 h
    rw [emitSteps_singleton] at hrest
    obtain ⟨h₁, hdepth⟩ : Straight ret e e₁ ∧ _ := straight_box hcoh hsource hbox
    exact h₁.trans (straight_checkCast (h₁.coherent hcoh) hrest fun _ => hdepth)

/-- **Control passes through the code of a conversion.** -/
theorem straight_convert (hcoh : e.pool.Coherent) {source target : JavaType}
    (h : convert source target e = .ok (u, e'))
    (hfits : e.reachable = true → Conversion.plan source target = [.checkCast target] →
      1 ≤ e.tracker.depth) : Straight ret e e' := by
  unfold convert at h
  unfold Conversion.plan at h hfits
  by_cases hsame : source = target
  · rw [if_pos hsame] at h
    obtain ⟨-, rfl⟩ := pure_eq_ok.1 h
    exact .refl ret e
  rw [if_neg hsame] at h hfits
  by_cases htarget : target.isVoid = true
  · rw [if_pos htarget, emitSteps_singleton] at h
    exact straight_popValue h
  rw [if_neg htarget] at h hfits
  by_cases hsource : source.isVoid = true
  · rw [if_pos hsource, emitSteps_singleton] at h
    exact straight_zeroOf hcoh h
  rw [if_neg hsource] at h hfits
  cases hs : source.isPrimitive <;> cases ht : target.isPrimitive <;>
    simp only [hs, ht] at h hfits
  · by_cases hany : target.isAnyObject = true
    · rw [if_pos hany] at h
      obtain ⟨-, rfl⟩ := pure_eq_ok.1 h
      exact .refl ret e
    · rw [if_neg hany, emitSteps_singleton] at h
      rw [if_neg hany] at hfits
      exact straight_checkCast hcoh h fun hr => hfits hr rfl
  · rw [emitSteps_singleton] at h
    exact straight_emitUnbox hcoh h
  · exact straight_boxSteps hcoh hs h
  · exact straight_primitiveSteps hcoh h

end Emitter

end ClassForge
