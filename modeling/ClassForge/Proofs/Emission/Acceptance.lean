import ClassForge.Inspection.Report
import ClassForge.Proofs.Emission.Layout

/-!
# Emitted code is accepted

The inspection of a finished body follows the same instructions that the emitter wrote, with the
depths that it tracked:

* `Composed.exists_finished` — **PROVED**: every instruction stands in the finished code, a branch
  with the way to its label;
* `Complete.exists_of_reachable` — **PROVED**: paths get only where the emitter said, with the
  depth that it tracked;
* `Complete.reachable_of_live` — **PROVED**: where no code is dead, paths get everywhere;
* `Complete.exists_inspectMethod` — **PROVED**: the inspection succeeds and stays within the tracked
  maxima, and it finds exactly these where no code is dead and no further slots are reserved.
-/

namespace ClassForge.Emitter

open ConstantPool Instruction Inspection BodyCheck

variable {ret : JavaType} {p : Nat} {e : Emitter} {xs : List Placed} {x : Placed}
  {body : MethodBody}

/-- Instructions do not share bytes. -/
theorem Tiles.disjoint {bytes : List UInt8} (h : Tiles xs bytes) :
    ∀ x ∈ xs, ∀ y ∈ xs, x = y ∨ x.stop ≤ y.pc ∨ y.stop ≤ x.pc := by
  induction h with
  | nil => exact nofun
  | @cons x xs bytes h hpc ih =>
    intro y hy z hz
    rcases List.mem_cons.1 hy with rfl | hy' <;> rcases List.mem_cons.1 hz with rfl | hz'
    · exact .inl rfl
    · exact .inr (.inr (hpc ▸ h.stop_le z hz'))
    · exact .inr (.inl (hpc ▸ h.stop_le y hy'))
    · exact ih y hy' z hz'

/-! ### Finished instructions -/

/-- An instruction of the finished code, in the place of one that was written. -/
structure Finished (labels : Array (Option Nat)) (code : Array UInt8) (x : Placed)
    (i : Instruction) : Prop where
  stands : at? code x.pc = some i
  op : i.op = x.instr.op
  effect : ∀ pool, i.effect? pool = x.instr.effect? pool
  localEnd : i.localEnd? = x.instr.localEnd?
  target : ∀ l, x.label? = some l →
    ∃ q : Nat, labels[l.id]? = some (some q) ∧ i.target x.pc = (q : Int)

theorem Composed.mem_branches (hf : Composed e xs) {b : PendingBranch} :
    b ∈ e.assembly.branches.toList ↔ ∃ x ∈ xs, x.label? = some b.label ∧ x.pc = b.site := by
  rw [hf.branches, List.mem_filterMap]
  constructor
  · rintro ⟨x, hx, hb⟩
    obtain ⟨l, hl, rfl⟩ := Option.map_eq_some_iff.1 hb
    exact ⟨x, List.mem_reverse.1 hx, hl, rfl⟩
  · rintro ⟨x, hx, hl, hpc⟩
    refine ⟨x, List.mem_reverse.2 hx, ?_⟩
    rw [Placed.branch?, hl, hpc]
    rfl

/-- A branch takes up three bytes. -/
theorem Composed.stop_eq_of_label (hf : Composed e xs) (hx : x ∈ xs) {l : Label}
    (hl : x.label? = some l) : x.stop = x.pc + 3 ∧ x.instr.op.isShortBranch = true := by
  rcases hf.formed x hx with ⟨hnone, -⟩ | ⟨-, -, hop⟩
  · rw [hl] at hnone
    cases hnone
  · rw [Placed.stop, Opcode.encodedLength, operandSize_of_isShortBranch hop]
    exact ⟨rfl, hop⟩

theorem Composed.pairwise_sites (hf : Composed e xs) :
    e.assembly.branches.toList.Pairwise fun b b' => b.site + 3 ≤ b'.site := by
  rw [hf.branches, List.pairwise_filterMap]
  refine (List.pairwise_reverse.2 hf.tiles.pairwise).imp_of_mem fun {x y} hx _ hxy b hb b' hb' => ?_
  obtain ⟨l, hl, rfl⟩ := Option.map_eq_some_iff.1 hb
  obtain ⟨l', -, rfl⟩ := Option.map_eq_some_iff.1 hb'
  rw [← (hf.stop_eq_of_label (List.mem_reverse.1 hx) hl).1]
  exact hxy

theorem Composed.size_code (hf : Composed e xs) (h : e.finish = .ok body) :
    body.code.size = e.assembly.code.size := by
  obtain ⟨-, hfold, -⟩ := Assembly.finish_eq_ok h
  exact (Assembly.resolves_of_foldlM hf.pairwise_sites hfold).size

/-- The bytes of an instruction change only where it is itself a branch. -/
theorem Composed.getElem?_finish (hf : Composed e xs) (h : e.finish = .ok body) (hx : x ∈ xs)
    {k : Nat} (hk : k < x.instr.op.encodedLength) (hzero : ∀ l, x.label? = some l → k = 0) :
    body.code[x.pc + k]? = e.assembly.code[x.pc + k]? := by
  obtain ⟨-, hfold, -⟩ := Assembly.finish_eq_ok h
  refine (Assembly.resolves_of_foldlM hf.pairwise_sites hfold).others _ fun b hb => ?_
  obtain ⟨y, hy, hl, hpc⟩ := hf.mem_branches.1 hb
  obtain ⟨hstop, -⟩ := hf.stop_eq_of_label hy hl
  rcases hf.tiles.disjoint x hx y hy with rfl | hle | hle
  · have := hzero _ hl
    omega
  · unfold Placed.stop at hle
    omega
  · omega

/-- **An instruction that does not branch stands in the finished code as it was written.** -/
theorem Composed.at?_finish (hf : Composed e xs) (h : e.finish = .ok body) (hx : x ∈ xs)
    (hnone : x.label? = none) : at? body.code x.pc = some x.instr := by
  have hold := at?_eq_some_iff_getElem?.1 (hf.tiles.at?_eq hx)
  refine at?_eq_some_iff_getElem?.2 fun k b hb => ?_
  have hk : k < x.instr.op.encodedLength := by
    rw [← length_bytes]
    exact (List.getElem?_eq_some_iff.1 hb).1
  rw [hf.getElem?_finish h hx hk fun l hl => by rw [hnone] at hl; cases hl]
  exact hold k b hb

/-- **Every instruction stands in the finished code.** -/
theorem Composed.exists_finished (hf : Composed e xs) (h : e.finish = .ok body) (hx : x ∈ xs) :
    ∃ i, Finished e.assembly.labels body.code x i := by
  obtain ⟨-, hfold, -⟩ := Assembly.finish_eq_ok h
  have hr := Assembly.resolves_of_foldlM hf.pairwise_sites hfold
  have hold := at?_eq_some_iff_getElem?.1 (hf.tiles.at?_eq hx)
  rcases hf.formed x hx with ⟨hnone, hop⟩ | ⟨l, hl, hop⟩
  · refine ⟨x.instr, hf.at?_finish h hx hnone, rfl, fun _ => rfl, rfl, fun l hl => ?_⟩
    rw [hnone] at hl
    cases hl
  · have hsize := operandSize_of_isShortBranch hop
    have hfits : x.pc + 3 ≤ e.assembly.code.size := by
      have hle := hf.tiles.stop_le x hx
      rw [(hf.stop_eq_of_label hx hl).1, Array.length_toList] at hle
      exact hle
    obtain ⟨q, hq, hlo, hhi, hword⟩ :=
      hr.offsets ⟨x.pc, l⟩ (hf.mem_branches.2 ⟨x, hx, hl, rfl⟩) hfits
    obtain ⟨heffect, hclass, hlocal, -⟩ := Opcode.shortBranch_facts hop
    refine ⟨.linked x.instr.op (Assembly.offsetWord (q - x.pc)) hsize, ?_, rfl, fun pool => ?_, ?_,
      fun l' hl' => ?_⟩
    · refine at?_eq_some_iff_getElem?.2 fun k b hb => ?_
      cases k with
      | zero =>
        rw [hf.getElem?_finish h hx x.instr.op.encodedLength_pos fun _ _ => rfl]
        exact hold 0 b hb
      | succ k =>
        rw [show x.pc + (k + 1) = x.pc + 1 + k by omega]
        exact hword k b hb
    · rw [effect?_of_fixed pool heffect hclass]
      exact effect?_of_fixed pool heffect hclass
    · rw [localEnd?_of_none hlocal]
      exact localEnd?_of_none hlocal
    · rw [hl, Option.some.injEq] at hl'
      subst hl'
      exact ⟨q, hq, target_linked_offsetWord hop hsize hlo hhi⟩

/-! ### Finished bodies -/

theorem Composed.exists_at? (hf : Composed e xs) (h : e.finish = .ok body) :
    ∀ x ∈ xs, ∃ i, at? body.code x.pc = some i ∧ i.op = x.instr.op := by
  intro x hx
  obtain ⟨i, hi⟩ := hf.exists_finished h hx
  exact ⟨i, hi.stands, hi.op⟩

/-- The sweep over a finished body meets its instructions and the end. -/
theorem Composed.exists_of_sweep (hf : Composed e xs) (h : e.finish = .ok body) {pc : Nat}
    (hsweep : Sweep body.code 0 pc) : pc = body.code.size ∨ ∃ x ∈ xs, x.pc = pc := by
  have hsize : body.code.size = e.assembly.code.toList.length := by
    rw [hf.size_code h, Array.length_toList]
  rw [hsize]
  exact hf.tiles.exists_of_sweep hsize (hf.exists_at? h) hsweep hf.tiles.start

/-- The pass over the code finds the instructions. -/
theorem Composed.exists_boundaries (hf : Composed e xs) (h : e.finish = .ok body) :
    ∃ starts, boundaries body.code = .ok starts := by
  refine Inspection.exists_boundaries fun pc hsweep hlt => ?_
  rcases hf.exists_of_sweep h hsweep with rfl | ⟨x, hx, rfl⟩
  · exact absurd hlt (Nat.lt_irrefl _)
  · obtain ⟨i, hi, -⟩ := hf.exists_at? h x hx
    exact ⟨i, hi⟩

theorem Composed.isStart_pc (hf : Composed e xs) (h : e.finish = .ok body) {starts : Array Bool}
    (hs : boundaries body.code = .ok starts) (hx : x ∈ xs) : isStart starts x.pc = true := by
  refine (isStart_iff_sweep hs x.pc).2 ⟨(hf.tiles.sweep (hf.exists_at? h)).2 x hx, ?_⟩
  rw [hf.size_code h, ← Array.length_toList]
  exact hf.tiles.pc_lt hx

/-- The line entries of a finished body stand at its instructions. -/
theorem LineMarks.isStart (hm : LineMarks e xs) (hf : Composed e xs) (h : e.finish = .ok body)
    {starts : Array Bool} (hs : boundaries body.code = .ok starts) :
    ∀ l ∈ body.lines, l.startPc.toNat < body.code.size ∧
      Inspection.isStart starts l.startPc.toNat = true := by
  obtain ⟨hfits, -, hbody⟩ := Assembly.finish_eq_ok h
  intro l hl
  rw [hbody, List.mem_filter] at hl
  have hlt : l.startPc < UInt16.ofNat e.assembly.code.size := of_decide_eq_true hl.2
  rw [UInt16.lt_iff_toNat_lt, Assembly.toNat_ofNat_of_le hfits] at hlt
  refine ⟨by rwa [hf.size_code h], ?_⟩
  obtain ⟨q, hq, rfl | ⟨x, hx, rfl⟩⟩ := hm.marks l (Array.mem_toList_iff.1 hl.1)
  · rw [hq, Assembly.toNat_ofNat_of_le hfits] at hlt
    exact absurd hlt (Nat.lt_irrefl _)
  · have hpc := hf.tiles.pc_lt hx
    rw [Array.length_toList] at hpc
    rw [hq, Assembly.toNat_ofNat_of_le (Nat.le_trans (Nat.le_of_lt hpc) hfits)]
    exact hf.isStart_pc h hs hx

/-- A body that was emitted from the start and is finished: control does not run past its end. The
local slots that are reserved, among them those of the parameters, are `p`. -/
structure Complete (ret : JavaType) (p : Nat) (e : Emitter) (xs : List Placed)
    (body : MethodBody) : Prop where
  flow : Flow ret e xs
  extent : Extent p e xs
  origins : Origins e xs
  marks : LineMarks e xs
  dead : e.reachable = false
  finish : e.finish = .ok body

/-- **An emission from the start leads to a complete body.** -/
theorem Emission.complete {pool : ConstantPool} (h : Emission ret (ofPool pool p) xs e)
    (hp : p ≤ wordMax) (hdead : e.reachable = false) (hfinish : e.finish = .ok body) :
    Complete ret p e xs body := by
  have hflow := h.invariant (I := Flow ret) Flow.step (flow_ofPool pool p)
  have hextent := h.invariant (I := Extent p) Extent.step (extent_ofPool pool hp)
  have horigins := h.invariant (I := Origins) Origins.step (origins_ofPool pool p)
  have hmarks := h.invariant (I := LineMarks) LineMarks.step (lineMarks_ofPool pool p)
  rw [List.append_nil] at hflow hextent horigins hmarks
  exact ⟨hflow, hextent, horigins, hmarks, hdead, hfinish⟩

namespace Complete

variable {pool : ConstantPool} {type : MethodType} {starts : Array Bool} {n : Nat}

theorem size_code (h : Complete ret p e xs body) : body.code.size = e.assembly.code.size :=
  h.flow.composed.size_code h.finish

theorem body_eq (h : Complete ret p e xs body) :
    body.maxStack.toNat = e.tracker.maxDepth ∧ body.maxLocals.toNat = e.tracker.maxLocals ∧
      body.handlers = [] ∧ e.assembly.code.size ≤ wordMax ∧
      body.lines = e.assembly.lines.toList.filter
        (·.startPc < UInt16.ofNat e.assembly.code.size) := by
  obtain ⟨hsize, -, hbody⟩ := Assembly.finish_eq_ok h.finish
  rw [hbody]
  exact ⟨Assembly.toNat_ofNat_of_le h.extent.maxDepth,
    Assembly.toNat_ofNat_of_le h.extent.maxLocals, rfl, hsize, rfl⟩

/-- With nothing behind the end, control gets only to instructions. -/
theorem exists_of_at (h : Complete ret p e xs body) {q d : Nat} (hat : At e xs q d) :
    ∃ x ∈ xs, x.live = true ∧ x.pc = q ∧ x.depth = d := by
  rcases hat with hx | ⟨-, hr, -⟩
  · exact hx
  · rw [h.dead] at hr
    cases hr

theorem checkLines_eq_ok (h : Complete ret p e xs body)
    (hs : boundaries body.code = .ok starts) : checkLines starts body.lines = .ok () := by
  have hfind : body.lines.find? (fun l => !isStart starts l.startPc.toNat) = none := by
    refine List.find?_eq_none.2 fun l hl => ?_
    rw [(h.marks.isStart h.flow.composed h.finish hs l hl).2]
    decide
  unfold checkLines
  rw [hfind]

/-! ### Paths -/

/-- The effect of an instruction that control can get to is the one that was tracked. -/
theorem effect_eq (h : Complete ret p e xs body) (hv : e.pool.violation = none)
    (hpool : Extends e.pool pool) (hx : x ∈ xs) (hlive : x.live = true) {i : Instruction}
    (hi : Finished e.assembly.labels body.code x i) : i.effect? pool = some x.effect := by
  rw [hi.effect]
  exact effect?_mono hpool ((h.flow.inOrder x hx hlive).resolves hv)

/-- Where a branch leads to, control gets with the depth after it. -/
theorem exists_target (h : Complete ret p e xs body) (hx : x ∈ xs) {i : Instruction}
    (hi : Finished e.assembly.labels body.code x i) (hb : i.op.isBranch = true) :
    ∃ y ∈ xs, y.live = true ∧ i.target x.pc = (y.pc : Int) ∧ y.depth = x.after := by
  rcases h.flow.formed x hx with ⟨-, hnot⟩ | ⟨l, hl, -⟩
  · rw [hi.op, hnot] at hb
    cases hb
  · obtain ⟨q, hq, htarget⟩ := hi.target l hl
    obtain ⟨d, hd, hat⟩ := h.flow.placed l.id q hq
    rw [h.flow.expected x hx l hl, Option.some.injEq, Option.some.injEq] at hd
    subst hd
    obtain ⟨y, hy, hlive, hpc, hdepth⟩ := h.exists_of_at hat
    exact ⟨y, hy, hlive, by rw [htarget, hpc], hdepth⟩

/-- **Paths get only where the emitter said**, with the depth that it tracked. -/
theorem exists_of_reachable (h : Complete type.ret p e xs body) (hv : e.pool.violation = none)
    (hpool : Extends e.pool pool)
    {pc depth : Nat} (hr : Reachable ⟨pool, body, type, starts⟩ pc depth) :
    ∃ x ∈ xs, x.live = true ∧ x.pc = pc ∧ x.depth = depth := by
  induction hr with
  | entry => exact h.exists_of_at h.flow.entry
  | handler hh =>
    obtain ⟨-, -, hnone, -⟩ := h.body_eq
    rw [show (Subject.mk pool body type starts).body.handlers = [] from hnone] at hh
    cases hh
  | step _ hstep ih =>
    obtain ⟨x, hx, hlive, rfl, rfl⟩ := ih
    obtain ⟨i, hi⟩ := h.flow.composed.exists_finished h.finish hx
    have heffect := h.effect_eq hv hpool hx hlive hi
    cases hstep with
    | branch hi' he _ hb ht =>
      obtain rfl := Option.some.inj (hi'.symm.trans hi.stands)
      obtain rfl := Option.some.inj (he.symm.trans heffect)
      obtain ⟨y, hy, hlive', htarget, hdepth⟩ := h.exists_target hx hi hb
      exact ⟨y, hy, hlive', by rw [htarget] at ht; exact Int.ofNat_inj.1 ht, hdepth⟩
    | next hi' he _ hterm =>
      obtain rfl := Option.some.inj (hi'.symm.trans hi.stands)
      obtain rfl := Option.some.inj (he.symm.trans heffect)
      rw [hi.op] at hterm ⊢
      exact h.exists_of_at (h.flow.next x hx hlive hterm)

/-- **What the emitter said to be in order is so.** -/
theorem admitted (h : Complete type.ret p e xs body) (hv : e.pool.violation = none)
    (hpool : Extends e.pool pool)
    (hs : boundaries body.code = .ok starts) (hx : x ∈ xs) (hlive : x.live = true)
    {i : Instruction} (hi : Finished e.assembly.labels body.code x i) :
    Admitted ⟨pool, body, type, starts⟩ x.pc x.depth i x.effect := by
  obtain ⟨hstack, hlocals, -, -, -⟩ := h.body_eq
  have horder := h.flow.inOrder x hx hlive
  refine ⟨h.flow.composed.isStart_pc h.finish hs hx, hi.stands, h.effect_eq hv hpool hx hlive hi,
    fun stop hstop => ?_, ?_, horder.pops, ?_, fun hb => ?_, fun hterm => ?_⟩
  · show stop ≤ body.maxLocals.toNat
    have hle := h.extent.locals x hx hlive
    rw [← hi.localEnd, hstop] at hle
    rw [hlocals]
    exact hle
  · rw [hi.op]
    exact horder.returns
  · show _ ≤ body.maxStack.toNat
    rw [hstack]
    exact h.extent.after x hx hlive
  · obtain ⟨y, hy, -, htarget, -⟩ := h.exists_target hx hi hb
    exact ⟨y.pc, htarget, h.flow.composed.isStart_pc h.finish hs hy⟩
  · rw [hi.op] at hterm ⊢
    obtain ⟨y, hy, -, hpc, -⟩ := h.exists_of_at (h.flow.next x hx hlive hterm)
    show x.stop < body.code.size
    rw [h.size_code, ← hpc, ← Array.length_toList]
    exact h.flow.tiles.pc_lt hy

/-- **Where no code is dead, paths get everywhere.** -/
theorem reachable_of_live (h : Complete type.ret p e xs body) (hv : e.pool.violation = none)
    (hpool : Extends e.pool pool)
    (hall : ∀ x ∈ xs, x.live = true) :
    ∀ x ∈ xs, Reachable ⟨pool, body, type, starts⟩ x.pc x.depth := by
  -- Whatever leads to an offset stands before it.
  suffices hlt : ∀ n, ∀ x ∈ xs, x.pc < n → Reachable ⟨pool, body, type, starts⟩ x.pc x.depth from
    fun x hx => hlt (x.pc + 1) x hx (Nat.lt_succ_self _)
  have hsame {x y : Placed} {d : Nat} (hx : x ∈ xs) (hy : y ∈ xs) (hpc : y.pc = x.pc)
      (hd : y.depth = d) : x.depth = d := by
    rw [h.flow.tiles.eq_of_pc x hx y hy hpc.symm]
    exact hd
  intro n
  induction n with
  | zero => exact fun _ _ hlt => absurd hlt (Nat.not_lt_zero _)
  | succ n ih =>
    intro x hx hn
    rcases h.origins.led x hx (hall x hx) with hzero | ⟨y, hy, hstop, hterm⟩ |
      ⟨y, hy, l, hlt, hl, hplace⟩
    · obtain ⟨z, hz, -, hpc, hdepth⟩ := h.exists_of_at h.flow.entry
      rw [hzero, hsame hx hz (hpc.trans hzero.symm) hdepth]
      exact .entry
    · obtain ⟨i, hi⟩ := h.flow.composed.exists_finished h.finish hy
      have hpos := y.instr.op.encodedLength_pos
      have hreach := ih y hy (by unfold Placed.stop at hstop; omega)
      obtain ⟨z, hz, -, hpc, hdepth⟩ := h.exists_of_at (h.flow.next y hy (hall y hy) hterm)
      have hstep : Inspection.Step ⟨pool, body, type, starts⟩ y.pc y.depth
          (y.pc + i.op.encodedLength) y.after :=
        .next hi.stands (h.effect_eq hv hpool hy (hall y hy) hi)
          (h.flow.inOrder y hy (hall y hy)).pops (hi.op ▸ hterm)
      rw [hi.op, show y.pc + y.instr.op.encodedLength = x.pc from hstop] at hstep
      rw [hsame hx hz (hpc.trans hstop) hdepth]
      exact .step hreach hstep
    · obtain ⟨i, hi⟩ := h.flow.composed.exists_finished h.finish hy
      obtain ⟨q, hq, htarget⟩ := hi.target l hl
      rw [hplace, Option.some.injEq, Option.some.injEq] at hq
      subst hq
      have hb : i.op.isBranch = true := by
        rw [hi.op]
        exact (Bool.and_eq_true_iff.1 (h.flow.composed.stop_eq_of_label hy hl).2).1
      obtain ⟨z, hz, -, htarget', hdepth⟩ := h.exists_target hy hi hb
      rw [htarget, Int.ofNat_inj] at htarget'
      have hstep : Inspection.Step ⟨pool, body, type, starts⟩ y.pc y.depth x.pc y.after :=
        .branch hi.stands (h.effect_eq hv hpool hy (hall y hy) hi)
          (h.flow.inOrder y hy (hall y hy)).pops hb htarget
      rw [hsame hx hz htarget'.symm hdepth]
      exact .step (ih y hy (by omega)) hstep

/-! ### Inspection -/

/-- **The walk over a finished body succeeds** and stays within the tracked maxima. Where no code is
dead it finds the tracked depth, and the tracked local slots if all of those that were reserved
hold parameters. -/
theorem exists_walk (h : Complete type.ret p e xs body) (hv : e.pool.violation = none)
    (hpool : Extends e.pool pool) (hs : boundaries body.code = .ok starts) (hn : n ≤ p) :
    ∃ w, Walk.all ⟨pool, body, type, starts⟩ n = pure w ∧
      w.maxDepth ≤ e.tracker.maxDepth ∧ w.localsUsed ≤ e.tracker.maxLocals ∧
      ((∀ x ∈ xs, x.live = true) → w.maxDepth = e.tracker.maxDepth ∧
        (n = p → w.localsUsed = e.tracker.maxLocals)) := by
  obtain ⟨hstack, hlocals, -, -, -⟩ := h.body_eq
  have hall : ∀ pc depth, Reachable ⟨pool, body, type, starts⟩ pc depth →
      ∃ i effect, Admitted ⟨pool, body, type, starts⟩ pc depth i effect := by
    intro pc depth hr
    obtain ⟨x, hx, hlive, rfl, rfl⟩ := h.exists_of_reachable hv hpool hr
    obtain ⟨i, hi⟩ := h.flow.composed.exists_finished h.finish hx
    exact ⟨i, x.effect, h.admitted hv hpool hs hx hlive hi⟩
  have hagree : ∀ pc d d', Reachable ⟨pool, body, type, starts⟩ pc d →
      Reachable ⟨pool, body, type, starts⟩ pc d' → d = d' := by
    intro pc d d' hr hr'
    obtain ⟨x, hx, -, hpc, rfl⟩ := h.exists_of_reachable hv hpool hr
    obtain ⟨y, hy, -, hpc', rfl⟩ := h.exists_of_reachable hv hpool hr'
    rw [h.flow.tiles.eq_of_pc x hx y hy (hpc.trans hpc'.symm)]
  have hne : body.code ≠ #[] := by
    obtain ⟨x, hx, -⟩ := h.exists_of_at h.flow.entry
    have hlt := h.flow.tiles.pc_lt hx
    rw [Array.length_toList, ← h.size_code] at hlt
    rintro hempty
    rw [hempty] at hlt
    exact absurd hlt (Nat.not_lt_zero _)
  obtain ⟨w, hw⟩ : ∃ w, Walk.all ⟨pool, body, type, starts⟩ n = pure w :=
    exists_all hs hne hall hagree
  obtain ⟨hexp, hpending⟩ := explores_of_all (s := ⟨pool, body, type, starts⟩) hs hw
  have hdeep := isGreatest_depthsAfter hexp hpending
  have hwide := hexp.localsUsed
  rw [visited_eq_reachable hexp hpending] at hwide
  have hdepth : w.maxDepth ≤ e.tracker.maxDepth := by
    obtain ⟨pc, depth, i, effect, hr, hi, heffect, hmax⟩ := hdeep.1
    obtain ⟨j, f, hadm⟩ := hall pc depth hr
    obtain rfl := Option.some.inj (hi.symm.trans hadm.instruction)
    obtain rfl := Option.some.inj (heffect.symm.trans hadm.effect)
    rw [hmax, ← hstack]
    exact hadm.fits
  have hused : w.localsUsed ≤ e.tracker.maxLocals := by
    rcases hwide.1 with hparams | ⟨pc, depth, i, hr, hi, hend⟩
    · rw [hparams]
      exact hn.trans h.extent.params
    · obtain ⟨j, f, hadm⟩ := hall pc depth hr
      obtain rfl := Option.some.inj (hi.symm.trans hadm.instruction)
      rw [← hlocals]
      exact hadm.locals _ hend
  refine ⟨w, hw, hdepth, hused, fun hlive => ⟨?_, ?_⟩⟩
  · refine Nat.le_antisymm hdepth ?_
    rcases h.extent.deepest hlive with hzero | ⟨x, hx, hafter⟩
    · rw [hzero]
      exact Nat.zero_le _
    · obtain ⟨i, hi⟩ := h.flow.composed.exists_finished h.finish hx
      rw [← hafter]
      exact hdeep.2 ⟨x.pc, x.depth, i, x.effect, h.reachable_of_live hv hpool hlive x hx, hi.stands,
        h.effect_eq hv hpool hx (hlive x hx) hi, rfl⟩
  · rintro rfl
    refine Nat.le_antisymm hused ?_
    rcases h.extent.widest hlive with hp | ⟨x, hx, hend⟩
    · rw [hp]
      exact hwide.2 (Set.mem_insert _ _)
    · obtain ⟨i, hi⟩ := h.flow.composed.exists_finished h.finish hx
      rw [← hi.localEnd] at hend
      exact hwide.2 (Set.mem_insert_of_mem _
        ⟨x.pc, x.depth, i, h.reachable_of_live hv hpool hlive x hx, hi.stands, hend⟩)

/-- **The inspection accepts a finished body**, and its summary stays within what the body
declares. Where no code is dead the depths are equal, and so are the local slots if all of those
that were reserved hold parameters. -/
theorem exists_inspectMethod {m : MethodImage} (h : Complete type.ret p e xs body)
    (hv : e.pool.violation = none) (hpool : Extends e.pool pool) (hbody : m.body = some body)
    (htype : MethodType.ofDescriptor? m.descriptor = some type)
    (hparams : type.callWord (!m.access.isStatic) = .ok n) (hn : n ≤ p) :
    ∃ summary, inspectMethod pool m = pure (some summary) ∧ summary.signature = m.signature ∧
      summary.declaredStack = e.tracker.maxDepth ∧
      summary.declaredLocals = e.tracker.maxLocals ∧
      summary.maxDepth ≤ summary.declaredStack ∧ summary.localsUsed ≤ summary.declaredLocals ∧
      ((∀ x ∈ xs, x.live = true) → summary.maxDepth = summary.declaredStack ∧
        (n = p → summary.localsUsed = summary.declaredLocals)) := by
  obtain ⟨starts, hs⟩ := h.flow.composed.exists_boundaries h.finish
  obtain ⟨w, hw, hdepth, hused, hexact⟩ := h.exists_walk hv hpool hs hn
  obtain ⟨hstack, hlocals, -, -, -⟩ := h.body_eq
  have hneeded : checkParameters m type body = pure n := by
    refine bind_eq_pure.2 ⟨n, ofCount_eq_pure.2 hparams, guard_bind_eq_pure.2 ⟨?_, rfl⟩⟩
    rw [hlocals]
    exact Nat.not_lt.2 (hn.trans h.extent.params)
  have hcheck : checkBody pool m type body = pure w := by
    refine bind_eq_pure.2 ⟨n, hneeded, bind_eq_pure.2 ⟨starts, ?_, bind_eq_pure.2 ⟨(), ?_, hw⟩⟩⟩
    · rw [hs]
      rfl
    · rw [h.checkLines_eq_ok hs]
      rfl
  rw [← hstack] at hdepth hexact
  rw [← hlocals] at hused hexact
  refine ⟨⟨m.signature, body.maxStack.toNat, w.maxDepth, body.maxLocals.toNat, w.localsUsed⟩, ?_,
    rfl, hstack, hlocals, hdepth, hused, hexact⟩
  unfold inspectMethod
  simp only [hbody, htype, hcheck]
  rfl

end Complete

end ClassForge.Emitter
