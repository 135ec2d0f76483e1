import ClassForge.Proofs.Inspection.Instruction

/-!
# Boundaries of instructions

The linear pass over the code marks the offsets that a sweep from offset 0 meets, instruction
after instruction.

* `Sweep code pc q` — the sweep that starts at `pc` meets `q`;
* `isStart_iff_sweep` — **PROVED**: after a successful pass the marked offsets are exactly those
  that the sweep from 0 meets inside the code;
* `exists_boundaries` — **PROVED**: the pass succeeds when every offset that the sweep meets
  inside the code holds an instruction.
-/

namespace ClassForge.Inspection

open Instruction

variable {code : Array UInt8}

/-- The sweep over the code that starts at an offset meets another one. -/
inductive Sweep (code : Array UInt8) : Nat → Nat → Prop where
  | refl (pc : Nat) : Sweep code pc pc
  | step {pc q : Nat} {i : Instruction} (h : at? code pc = some i)
      (rest : Sweep code (pc + i.op.encodedLength) q) : Sweep code pc q

theorem Sweep.snoc {pc q : Nat} {i : Instruction} (h : Sweep code pc q)
    (hi : at? code q = some i) : Sweep code pc (q + i.op.encodedLength) := by
  induction h with
  | refl pc => exact .step hi (.refl _)
  | step hj _ ih => exact .step hj (ih hi)

theorem Sweep.le {pc q : Nat} (h : Sweep code pc q) : pc ≤ q := by
  induction h with
  | refl pc => exact le_refl pc
  | step _ _ ih => exact le_trans (Nat.le_add_right _ _) ih

/-- The first step of a sweep that goes on. -/
theorem Sweep.eq_or_step {pc q : Nat} (h : Sweep code pc q) {i : Instruction}
    (hi : at? code pc = some i) : q = pc ∨ Sweep code (pc + i.op.encodedLength) q := by
  cases h with
  | refl => exact .inl rfl
  | step hj rest =>
    rw [hi, Option.some.injEq] at hj
    subst hj
    exact .inr rest

/-! ### Marks -/

theorem isStart_replicate (n pc : Nat) : isStart (Array.replicate n false) pc = false := by
  unfold isStart
  by_cases h : pc < n <;> simp [h]

theorem isStart_setIfInBounds {starts : Array Bool} {pc q : Nat} (h : pc < starts.size) :
    isStart (starts.setIfInBounds pc true) q = true ↔ q = pc ∨ isStart starts q = true := by
  unfold isStart
  rw [Array.getElem?_setIfInBounds]
  by_cases hq : pc = q
  · subst hq
    simp [h]
  · simp [hq, Ne.symm hq]

theorem lt_size_of_isStart {starts : Array Bool} {pc : Nat} (h : isStart starts pc = true) :
    pc < starts.size := by
  by_contra hge
  rw [isStart, Array.getElem?_eq_none (by omega)] at h
  simp at h

/-! ### The pass -/

/-- One step of the pass where an instruction stands. -/
theorem markStarts_succ {fuel pc : Nat} {starts : Array Bool} {i : Instruction}
    (h : at? code pc = some i) :
    markStarts code (fuel + 1) pc starts
      = markStarts code fuel (pc + i.op.encodedLength) (starts.setIfInBounds pc true) := by
  have hend : ¬pc + i.op.encodedLength > code.size := Nat.not_lt.2 (end_le_size_of_at? h)
  rw [markStarts, getElem?_of_at? h]
  simp only [Opcode.ofByte?_byte]
  rw [if_neg hend]

/-- The pass fails where none stands inside the code. -/
theorem markStarts_succ_ne_ok {fuel pc : Nat} {starts starts' : Array Bool}
    (h : at? code pc = none) (hpc : pc < code.size) :
    markStarts code (fuel + 1) pc starts ≠ .ok starts' := by
  rw [markStarts, Array.getElem?_eq_getElem hpc]
  dsimp only
  split
  · simp
  · rename_i op hop
    have hend : pc + op.encodedLength > code.size := by
      by_contra hle
      obtain ⟨i, hi, -⟩ := exists_at? (Array.getElem?_eq_getElem hpc) hop (by omega)
      rw [h] at hi
      cases hi
    rw [if_pos hend]
    simp

/-- What the pass adds to the marks: the offsets that the sweep meets from here on. -/
theorem markStarts_spec (fuel : Nat) :
    ∀ (pc : Nat) (starts starts' : Array Bool), starts.size = code.size →
      code.size ≤ pc + fuel → markStarts code fuel pc starts = .ok starts' →
      starts'.size = code.size ∧
        ∀ q, isStart starts' q = true ↔
          isStart starts q = true ∨ Sweep code pc q ∧ q < code.size := by
  induction fuel with
  | zero =>
    intro pc starts starts' hsize hfuel hrun
    obtain rfl : starts = starts' := by simpa [markStarts] using hrun
    refine ⟨hsize, fun q => ⟨.inl, ?_⟩⟩
    rintro (hq | ⟨hsweep, hq⟩)
    · exact hq
    · have := hsweep.le
      omega
  | succ fuel ih =>
    intro pc starts starts' hsize hfuel hrun
    by_cases hpc : pc < code.size
    · cases hi : at? code pc with
      | none => exact absurd hrun (markStarts_succ_ne_ok hi hpc)
      | some i =>
        have hpos := i.op.encodedLength_pos
        rw [markStarts_succ hi] at hrun
        obtain ⟨hsize', hmarks⟩ := ih _ _ _ (by simpa using hsize) (by omega) hrun
        refine ⟨hsize', fun q => ?_⟩
        rw [hmarks q, isStart_setIfInBounds (by omega)]
        constructor
        · rintro ((rfl | hq) | ⟨hsweep, hq⟩)
          · exact .inr ⟨.refl _, hpc⟩
          · exact .inl hq
          · exact .inr ⟨.step hi hsweep, hq⟩
        · rintro (hq | ⟨hsweep, hq⟩)
          · exact .inl (.inr hq)
          · rcases hsweep.eq_or_step hi with rfl | hrest
            · exact .inl (.inl rfl)
            · exact .inr ⟨hrest, hq⟩
    · obtain rfl : starts = starts' := by
        rw [markStarts, Array.getElem?_eq_none (by omega)] at hrun
        simpa using hrun
      refine ⟨hsize, fun q => ⟨.inl, ?_⟩⟩
      rintro (hq | ⟨hsweep, hq⟩)
      · exact hq
      · have := hsweep.le
        omega

/-- A pass that succeeds has met an instruction at every offset of the sweep. -/
theorem exists_at?_of_markStarts (fuel : Nat) :
    ∀ (pc : Nat) (starts starts' : Array Bool), code.size ≤ pc + fuel →
      markStarts code fuel pc starts = .ok starts' →
      ∀ q, Sweep code pc q → q < code.size → ∃ i, at? code q = some i := by
  induction fuel with
  | zero =>
    intro pc starts starts' hfuel _ q hsweep hq
    have := hsweep.le
    omega
  | succ fuel ih =>
    intro pc starts starts' hfuel hrun q hsweep hq
    have hpc : pc < code.size := lt_of_le_of_lt hsweep.le hq
    cases hi : at? code pc with
    | none => exact absurd hrun (markStarts_succ_ne_ok hi hpc)
    | some i =>
      have hpos := i.op.encodedLength_pos
      rw [markStarts_succ hi] at hrun
      rcases hsweep.eq_or_step hi with rfl | hrest
      · exact ⟨i, hi⟩
      · exact ih _ _ _ (by omega) hrun q hrest hq

theorem exists_markStarts (fuel : Nat) :
    ∀ (pc : Nat) (starts : Array Bool),
      (∀ q, Sweep code pc q → q < code.size → ∃ i, at? code q = some i) →
      ∃ starts', markStarts code fuel pc starts = .ok starts' := by
  induction fuel with
  | zero =>
    intro pc starts _
    exact ⟨starts, rfl⟩
  | succ fuel ih =>
    intro pc starts hall
    by_cases hpc : pc < code.size
    · obtain ⟨i, hi⟩ := hall pc (.refl pc) hpc
      rw [markStarts_succ hi]
      exact ih _ _ fun q hsweep hq => hall q (.step hi hsweep) hq
    · refine ⟨starts, ?_⟩
      rw [markStarts, Array.getElem?_eq_none (by omega)]

/-! ### The whole code -/

theorem size_of_boundaries {starts : Array Bool} (h : boundaries code = .ok starts) :
    starts.size = code.size :=
  (markStarts_spec code.size 0 _ _ (by simp) (by omega) h).1

/-- **The marks are the offsets of the sweep.** -/
theorem isStart_iff_sweep {starts : Array Bool} (h : boundaries code = .ok starts) (pc : Nat) :
    isStart starts pc = true ↔ Sweep code 0 pc ∧ pc < code.size := by
  rw [(markStarts_spec code.size 0 _ _ (by simp) (by omega) h).2 pc, isStart_replicate]
  simp

/-- **The pass succeeds when the sweep always meets an instruction.** -/
theorem exists_boundaries
    (h : ∀ pc, Sweep code 0 pc → pc < code.size → ∃ i, at? code pc = some i) :
    ∃ starts, boundaries code = .ok starts :=
  exists_markStarts code.size 0 _ h

/-- After a successful pass every marked offset holds an instruction. -/
theorem exists_at?_of_isStart {starts : Array Bool} (h : boundaries code = .ok starts) {pc : Nat}
    (hpc : isStart starts pc = true) : ∃ i, at? code pc = some i := by
  obtain ⟨hsweep, hlt⟩ := (isStart_iff_sweep h pc).1 hpc
  exact exists_at?_of_markStarts code.size 0 _ _ (by omega) h pc hsweep hlt

end ClassForge.Inspection
