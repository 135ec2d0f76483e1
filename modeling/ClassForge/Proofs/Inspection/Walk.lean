import ClassForge.Proofs.Inspection.Boundaries

/-!
# The walk and the paths of a body

The walk over a body visits every instruction once. Here it is compared with the paths through the
body, which may be of any length:

* `Step` — one step of a path, by the decoded instruction and its stack effect;
* `Reachable s pc d` — some path from the entry point or from a handler reaches `pc` with `d`
  slots on the stack;
* `Admitted` — the instruction at a reached offset is in order for the depth on entry;
* `Walk.Explores` — the invariant of the walk: what is visited or pending is reachable, and what
  a visited instruction leads to is visited or pending;
* `Walk.visit_cost` — **PROVED**: an entry is dropped, or it marks an instruction that had no mark
  and adds at most two entries;
* `run_of_explores` and `exists_run` — **PROVED**: a walk that ends has visited every reachable
  configuration, and the walk ends well within its bound whenever all of them are in order.
-/

namespace ClassForge.Inspection

open BodyCheck Instruction

/-! ### Paths -/

/-- One step of a path: the instruction at `pc` changes the depth by its effect, and control goes
to its target or, unless it is terminal, to the next instruction. -/
inductive Step (s : Subject) (pc depth : Nat) : Nat → Nat → Prop where
  | branch {i : Instruction} {e : StackEffect} {target : Nat}
      (hi : at? s.body.code pc = some i) (he : i.effect? s.pool = some e) (hpop : e.pop ≤ depth)
      (hb : i.op.isBranch = true) (ht : i.target pc = (target : Int)) :
      Step s pc depth target (depth - e.pop + e.push)
  | next {i : Instruction} {e : StackEffect}
      (hi : at? s.body.code pc = some i) (he : i.effect? s.pool = some e) (hpop : e.pop ≤ depth)
      (ht : i.op.isTerminal = false) :
      Step s pc depth (pc + i.op.encodedLength) (depth - e.pop + e.push)

/-- Some path reaches the offset with the given depth: it starts at the entry point with an empty
stack, or at a handler with the thrown reference. -/
inductive Reachable (s : Subject) : Nat → Nat → Prop where
  | entry : Reachable s 0 0
  | handler {h : Handler} (hh : h ∈ s.body.handlers) : Reachable s h.handlerPc.toNat 1
  | step {pc depth pc' depth' : Nat} (hr : Reachable s pc depth)
      (hs : Step s pc depth pc' depth') : Reachable s pc' depth'

/-- The instruction at an offset is in order for the depth on entry. -/
structure Admitted (s : Subject) (pc depth : Nat) (i : Instruction) (e : StackEffect) : Prop where
  /-- The offset is the start of an instruction. -/
  start : isStart s.starts pc = true
  instruction : at? s.body.code pc = some i
  /-- The constant that it names is of the right kind. -/
  effect : i.effect? s.pool = some e
  locals : ∀ stop, i.localEnd? = some stop → stop ≤ s.body.maxLocals.toNat
  returns : returnFits i.op s.type.ret = true
  pops : e.pop ≤ depth
  fits : depth - e.pop + e.push ≤ s.body.maxStack.toNat
  target : i.op.isBranch = true →
    ∃ target : Nat, i.target pc = (target : Int) ∧ isStart s.starts target = true
  next : i.op.isTerminal = false → pc + i.op.encodedLength < s.body.code.size

/-! ### Checks of one instruction -/

namespace Walk

variable {s : Subject} {pc depth : Nat} {i : Instruction}

theorem checkLocals_eq_pure {used n : Nat} (h : at? s.body.code pc = some i) :
    checkLocals s i.op pc used = pure n ↔
      (∀ stop, i.localEnd? = some stop → stop ≤ s.body.maxLocals.toNat) ∧
        n = max used (i.localEnd?.getD 0) := by
  unfold checkLocals localEnd?
  cases haccess : i.op.localAccess? with
  | none =>
    simp only [Option.map_none, Option.getD_none, Nat.max_zero, reduceCtorEq, false_implies,
      implies_true, true_and]
    rw [pure_eq_pure]
    exact eq_comm
  | some access =>
    have hguard : ∀ index : Nat,
        ((if index + access.width > s.body.maxLocals.toNat then
            throw (.localOutOfRange pc index s.body.maxLocals.toNat) >>= fun (_ : Unit) =>
              pure (max used (index + access.width))
          else pure (max used (index + access.width)) : BodyCheck Nat) = pure n ↔
          (∀ stop, some (index + access.width) = some stop → stop ≤ s.body.maxLocals.toNat) ∧
            n = max used (index + access.width)) := by
      intro index
      rw [guard_bind_eq_pure, pure_eq_pure]
      constructor
      · rintro ⟨hle, rfl⟩
        exact ⟨fun stop hstop => by rw [← Option.some.inj hstop]; omega, rfl⟩
      · rintro ⟨hle, rfl⟩
        exact ⟨Nat.not_lt.2 (hle _ rfl), rfl⟩
    cases hidx : access.index? with
    | some index =>
      simp only [hidx, pure_bind, Option.map_some, Option.getD_some]
      exact hguard index
    | none =>
      have hsize := Opcode.operandSize_pos_of_localAccess? haccess hidx
      simp only [hidx, Option.map_some, Option.getD_some, Option.getD_none]
      rw [show pc + 1 = pc + 1 + 0 from rfl, byteAt_operand h hsize, map_pure, pure_bind]
      exact hguard _

theorem depthAfter_eq_pure {after : Nat} (h : at? s.body.code pc = some i) :
    depthAfter s i.op pc depth = pure after ↔
      ∃ e, i.effect? s.pool = some e ∧ e.pop ≤ wordMax ∧ e.pop ≤ depth ∧
        depth - e.pop + e.push ≤ s.body.maxStack.toNat ∧ after = depth - e.pop + e.push := by
  unfold depthAfter
  rw [bind_eq_pure]
  refine exists_congr fun e => ?_
  rw [effectAt_eq_pure h, guard_bind_eq_pure, guard_bind_eq_pure, pure_eq_pure]
  constructor
  · rintro ⟨⟨he, hword⟩, hpop, hfits, rfl⟩
    exact ⟨he, hword, by omega, by omega, rfl⟩
  · rintro ⟨he, hword, hpop, hfits, rfl⟩
    exact ⟨⟨he, hword⟩, by omega, by omega, rfl⟩

theorem branchExit_eq_pure {t? : Option Nat} (h : at? s.body.code pc = some i) :
    branchExit s i.op pc = pure t? ↔
      (i.op.isBranch = true →
        ∃ target : Nat, i.target pc = (target : Int) ∧ isStart s.starts target = true) ∧
        t? = if i.op.isBranch then some (i.target pc).toNat else none := by
  unfold branchExit
  by_cases hb : i.op.isBranch = true
  · rw [if_pos hb, branchTarget_of_at? h hb, pure_bind, guard_bind_eq_pure, pure_eq_pure]
    simp only [hb, if_true, true_implies]
    constructor
    · rintro ⟨hgood, rfl⟩
      rw [not_or] at hgood
      exact ⟨⟨(i.target pc).toNat, by omega, by simpa using hgood.2⟩, rfl⟩
    · rintro ⟨⟨target, ht, hstart⟩, rfl⟩
      refine ⟨?_, rfl⟩
      rw [ht]
      simpa using hstart
  · rw [if_neg hb, pure_eq_pure]
    simp only [hb, false_implies, true_and, Bool.false_eq_true, if_false]
    exact eq_comm

theorem nextExit_eq_pure {n? : Option Nat} :
    nextExit s i.op pc = pure n? ↔
      (i.op.isTerminal = false → pc + i.op.encodedLength < s.body.code.size) ∧
        n? = if i.op.isTerminal then none else some (pc + i.op.encodedLength) := by
  unfold nextExit
  by_cases ht : i.op.isTerminal = true
  · rw [if_pos ht, pure_eq_pure]
    simp only [ht, Bool.true_eq_false, false_implies, true_and, if_true]
    exact eq_comm
  · simp only [ht, Bool.false_eq_true, if_false, true_implies]
    rw [guard_eq_pure, pure_eq_pure]
    constructor
    · rintro ⟨hlt, rfl⟩
      exact ⟨by omega, rfl⟩
    · rintro ⟨hlt, rfl⟩
      exact ⟨by omega, rfl⟩

/-! ### Entering an instruction -/

/-- The offsets that an instruction leads to, the next instruction first. -/
def exits (i : Instruction) (pc : Nat) : List Nat :=
  (if i.op.isTerminal then [] else [pc + i.op.encodedLength]) ++
    (if i.op.isBranch then [(i.target pc).toNat] else [])

/-- The walk after an instruction that is in order. -/
def entered (w : Walk) (i : Instruction) (e : StackEffect) (pc depth : Nat) : Walk where
  depths := w.depths
  maxDepth := max w.maxDepth (depth - e.pop + e.push)
  localsUsed := max w.localsUsed (i.localEnd?.getD 0)
  pending := (exits i pc).map (·, depth - e.pop + e.push) ++ w.pending

/-- The exits of an instruction that is in order are the steps from it. -/
theorem mem_exits_iff {e : StackEffect} (h : Admitted s pc depth i e) {pc' depth' : Nat} :
    (pc', depth') ∈ (exits i pc).map (·, depth - e.pop + e.push) ↔ Step s pc depth pc' depth' := by
  constructor
  · intro hmem
    simp only [exits, List.mem_map, List.mem_append, Prod.mk.injEq] at hmem
    obtain ⟨q, hq, rfl, rfl⟩ := hmem
    rcases hq with hq | hq
    · split at hq
      · cases hq
      · rename_i ht
        rw [List.mem_singleton] at hq
        subst hq
        exact .next h.instruction h.effect h.pops (by simpa using ht)
    · split at hq
      · rename_i hb
        rw [List.mem_singleton] at hq
        subst hq
        obtain ⟨target, ht, -⟩ := h.target hb
        exact .branch h.instruction h.effect h.pops hb (by rw [ht]; rfl)
      · cases hq
  · intro hstep
    cases hstep with
    | branch hi he hpop hb ht =>
      rw [h.instruction, Option.some.injEq] at hi
      subst hi
      rw [h.effect, Option.some.injEq] at he
      subst he
      simp [exits, hb, ht]
    | next hi he hpop ht =>
      rw [h.instruction, Option.some.injEq] at hi
      subst hi
      rw [h.effect, Option.some.injEq] at he
      subst he
      simp [exits, ht]

/-- Entering an instruction succeeds exactly when it is in order. -/
theorem enter_eq_pure {w w' : Walk} (h : at? s.body.code pc = some i)
    (hstart : isStart s.starts pc = true) :
    enter s w i.op pc depth = pure w' ↔
      ∃ e, Admitted s pc depth i e ∧ e.pop ≤ wordMax ∧ w' = w.entered i e pc depth := by
  unfold enter
  simp only [bind_eq_pure, guard_bind_eq_pure, checkLocals_eq_pure h, depthAfter_eq_pure h,
    branchExit_eq_pure h, nextExit_eq_pure, pure_eq_pure]
  constructor
  · rintro ⟨n, ⟨hlocals, rfl⟩, hret, after, ⟨e, he, hword, hpop, hfits, rfl⟩, b, ⟨hb, rfl⟩, t,
      ⟨ht, rfl⟩, rfl⟩
    refine ⟨e, ⟨hstart, h, he, hlocals, by simpa using hret, hpop, hfits, hb, ht⟩, hword, ?_⟩
    unfold entered exits
    congr 2
    split <;> split <;> simp
  · rintro ⟨e, hadm, hword, rfl⟩
    refine ⟨_, ⟨hadm.locals, rfl⟩, by simpa using hadm.returns, _,
      ⟨e, hadm.effect, hword, hadm.pops, hadm.fits, rfl⟩, _, ⟨hadm.target, rfl⟩, _,
      ⟨hadm.next, rfl⟩, ?_⟩
    unfold entered exits
    congr 2
    split <;> split <;> simp

/-! ### Visits -/

/-- The walk has entered the instruction at an offset, with the given depth. -/
def Visited (w : Walk) (pc depth : Nat) : Prop := w.depths[pc]? = some (some depth)

/-- The walk after its first visit of an offset. -/
def marked (w : Walk) (pc depth : Nat) : Walk :=
  { w with depths := w.depths.setIfInBounds pc (some depth) }

theorem visited_marked_iff {w : Walk} {q d : Nat} (hnew : w.depths[pc]? = some none) :
    (w.marked pc depth).Visited q d ↔ q = pc ∧ d = depth ∨ w.Visited q d := by
  obtain ⟨hlt, -⟩ := Array.getElem?_eq_some_iff.1 hnew
  unfold Visited marked
  rw [Array.getElem?_setIfInBounds]
  by_cases hq : pc = q
  · subst hq
    simp only [hlt, if_true, Option.some.injEq, true_and, hnew, reduceCtorEq, or_false]
    exact eq_comm
  · simp [hq, Ne.symm hq]

/-- **What a visit can do**: find the offset visited with the same depth, or enter its
instruction. -/
theorem visit_cases {w w' : Walk} (hs : boundaries s.body.code = .ok s.starts)
    (h : visit s w pc depth = pure w') :
    w.Visited pc depth ∧ w' = w ∨
      w.depths[pc]? = some none ∧
        ∃ i e, Admitted s pc depth i e ∧ w' = (w.marked pc depth).entered i e pc depth := by
  unfold visit at h
  rw [guard_eq_pure] at h
  obtain ⟨hstart, h⟩ := h
  have hstart : isStart s.starts pc = true := by simpa using hstart
  split at h
  · exact absurd h (abort_ne_pure _ _)
  · rename_i seen hseen
    split at h
    · rename_i heq
      subst heq
      exact .inl ⟨hseen, (pure_eq_pure.1 h).symm⟩
    · exact absurd h (throw_ne_pure _ _)
  · rename_i hnew
    obtain ⟨i, hi⟩ := exists_at?_of_isStart hs hstart
    rw [byteAt_eq_pure.2 (getElem?_of_at? hi), pure_bind] at h
    simp only [Opcode.ofByte?_byte] at h
    obtain ⟨e, hadm, -, rfl⟩ := (enter_eq_pure hi hstart).1 h
    exact .inr ⟨hnew, i, e, hadm, rfl⟩

theorem visit_of_visited {w : Walk} (hstart : isStart s.starts pc = true)
    (h : w.Visited pc depth) : visit s w pc depth = pure w := by
  unfold visit
  rw [guard_eq_pure]
  refine ⟨by simpa using hstart, ?_⟩
  unfold Visited at h
  simp only [h, if_true]

theorem visit_of_admitted {w : Walk} {e : StackEffect} (hnew : w.depths[pc]? = some none)
    (hadm : Admitted s pc depth i e) (hdepth : depth ≤ wordMax) :
    visit s w pc depth = pure ((w.marked pc depth).entered i e pc depth) := by
  unfold visit
  rw [guard_eq_pure]
  refine ⟨by simpa using hadm.start, ?_⟩
  simp only [hnew]
  rw [byteAt_eq_pure.2 (getElem?_of_at? hadm.instruction), pure_bind]
  simp only [Opcode.ofByte?_byte]
  exact (enter_eq_pure hadm.instruction hadm.start).2 ⟨e, hadm, le_trans hadm.pops hdepth, rfl⟩

end Walk

/-! ### Extremes over configurations -/

/-- The depths after the instructions of the configurations in `P`. -/
def depthsAfter (s : Subject) (P : Nat → Nat → Prop) : Set Nat :=
  {n | ∃ pc depth i e, P pc depth ∧ at? s.body.code pc = some i ∧ i.effect? s.pool = some e ∧
    n = depth - e.pop + e.push}

/-- The ends of the local slots that the configurations in `P` touch. -/
def localEnds (s : Subject) (P : Nat → Nat → Prop) : Set Nat :=
  {n | ∃ pc depth i, P pc depth ∧ at? s.body.code pc = some i ∧ i.localEnd? = some n}

namespace Walk

variable {s : Subject} {pc depth : Nat} {i : Instruction}

theorem depthsAfter_marked {w : Walk} {e : StackEffect} (hnew : w.depths[pc]? = some none)
    (hadm : Admitted s pc depth i e) :
    depthsAfter s (w.marked pc depth).Visited
      = insert (depth - e.pop + e.push) (depthsAfter s w.Visited) := by
  ext n
  constructor
  · rintro ⟨q, d, j, f, hv, hj, hf, rfl⟩
    rcases (visited_marked_iff hnew).1 hv with ⟨rfl, rfl⟩ | hv
    · rw [hadm.instruction, Option.some.injEq] at hj
      subst hj
      rw [hadm.effect, Option.some.injEq] at hf
      subst hf
      exact Set.mem_insert _ _
    · exact Set.mem_insert_of_mem _ ⟨q, d, j, f, hv, hj, hf, rfl⟩
  · rintro (rfl | ⟨q, d, j, f, hv, hj, hf, rfl⟩)
    · exact ⟨pc, depth, i, e, (visited_marked_iff hnew).2 (.inl ⟨rfl, rfl⟩), hadm.instruction,
        hadm.effect, rfl⟩
    · exact ⟨q, d, j, f, (visited_marked_iff hnew).2 (.inr hv), hj, hf, rfl⟩

theorem localEnds_marked {w : Walk} (hnew : w.depths[pc]? = some none)
    (hi : at? s.body.code pc = some i) :
    localEnds s (w.marked pc depth).Visited
      = {n | i.localEnd? = some n} ∪ localEnds s w.Visited := by
  ext n
  constructor
  · rintro ⟨q, d, j, hv, hj, hn⟩
    rcases (visited_marked_iff hnew).1 hv with ⟨rfl, rfl⟩ | hv
    · rw [hi, Option.some.injEq] at hj
      subst hj
      exact .inl hn
    · exact .inr ⟨q, d, j, hv, hj, hn⟩
  · rintro (hn | ⟨q, d, j, hv, hj, hn⟩)
    · exact ⟨pc, depth, i, (visited_marked_iff hnew).2 (.inl ⟨rfl, rfl⟩), hi, hn⟩
    · exact ⟨q, d, j, (visited_marked_iff hnew).2 (.inr hv), hj, hn⟩

/-- The greatest of some numbers and at most one more. -/
theorem isGreatest_union_of_option {a m : Nat} {t : Set Nat} {n? : Option Nat}
    (h : IsGreatest (insert a t) m) :
    IsGreatest (insert a ({n | n? = some n} ∪ t)) (max m (n?.getD 0)) := by
  cases n? with
  | none => simpa using h
  | some n =>
    have hset : insert a ({k | some n = some k} ∪ t) = insert n (insert a t) := by
      ext k
      simp only [Option.some.injEq, Set.mem_insert_iff, Set.mem_union, Set.mem_ofPred_eq]
      rw [eq_comm (a := n)]
      tauto
    rw [hset, Option.getD_some, max_comm]
    exact h.insert n

/-! ### The invariant -/

/-- A configuration that the walk has visited or is going to visit. -/
def Covered (w : Walk) (pc depth : Nat) : Prop := w.Visited pc depth ∨ (pc, depth) ∈ w.pending

/-- **The invariant of the walk.** -/
structure Explores (s : Subject) (params : Nat) (w : Walk) : Prop where
  size : w.depths.size = s.body.code.size
  visited : ∀ pc depth, w.Visited pc depth → Reachable s pc depth
  pending : ∀ pc depth, (pc, depth) ∈ w.pending → Reachable s pc depth
  entry : w.Covered 0 0
  handlers : ∀ h ∈ s.body.handlers, w.Covered h.handlerPc.toNat 1
  /-- Visited instructions are in order. -/
  admitted : ∀ pc depth, w.Visited pc depth → ∃ i e, Admitted s pc depth i e
  /-- What they lead to is not forgotten. -/
  closed : ∀ pc depth pc' depth', w.Visited pc depth → Step s pc depth pc' depth' →
    w.Covered pc' depth'
  maxDepth : IsGreatest (insert 0 (depthsAfter s w.Visited)) w.maxDepth
  localsUsed : IsGreatest (insert params (localEnds s w.Visited)) w.localsUsed

theorem not_visited_start (s : Subject) (params pc depth : Nat) :
    ¬(start s params).Visited pc depth := by
  unfold Visited start
  by_cases h : pc < s.body.code.size <;> simp [h]

theorem explores_start (s : Subject) (params : Nat) : Explores s params (start s params) where
  size := by simp [start]
  visited pc depth hv := absurd hv (not_visited_start s params pc depth)
  pending pc depth hmem := by
    simp only [start, List.mem_append, List.mem_reverse, List.mem_map, List.mem_singleton,
      Prod.mk.injEq] at hmem
    rcases hmem with ⟨h, hh, rfl, rfl⟩ | ⟨rfl, rfl⟩
    · exact .handler hh
    · exact .entry
  entry := .inr (by simp [start])
  handlers h hh := .inr (by
    simp only [start, List.mem_append, List.mem_reverse, List.mem_map, List.mem_singleton]
    exact .inl ⟨h, hh, rfl⟩)
  admitted pc depth hv := absurd hv (not_visited_start s params pc depth)
  closed pc depth _ _ hv := absurd hv (not_visited_start s params pc depth)
  maxDepth := by
    have hempty : depthsAfter s (start s params).Visited = ∅ := by
      ext n
      simp [depthsAfter, not_visited_start]
    rw [hempty, insert_empty_eq]
    exact isGreatest_singleton
  localsUsed := by
    have hempty : localEnds s (start s params).Visited = ∅ := by
      ext n
      simp [localEnds, not_visited_start]
    rw [hempty, insert_empty_eq]
    exact isGreatest_singleton

/-- A pending configuration that has been visited already can be dropped. -/
theorem Explores.drop {params : Nat} {w : Walk} {rest : List (Nat × Nat)}
    (hw : Explores s params w) (hp : w.pending = (pc, depth) :: rest)
    (hv : w.Visited pc depth) : Explores s params { w with pending := rest } := by
  have hcover : ∀ q d, w.Covered q d → ({ w with pending := rest } : Walk).Covered q d := by
    rintro q d (hq | hq)
    · exact .inl hq
    · rw [hp, List.mem_cons, Prod.mk.injEq] at hq
      rcases hq with ⟨rfl, rfl⟩ | hq
      · exact .inl hv
      · exact .inr hq
  exact {
    size := hw.size
    visited := hw.visited
    pending := fun q d hq => hw.pending q d (by rw [hp]; exact List.mem_cons_of_mem _ hq)
    entry := hcover _ _ hw.entry
    handlers := fun h hh => hcover _ _ (hw.handlers h hh)
    admitted := hw.admitted
    closed := fun q d q' d' hq hstep => hcover _ _ (hw.closed q d q' d' hq hstep)
    maxDepth := hw.maxDepth
    localsUsed := hw.localsUsed }

/-- A pending configuration whose instruction is in order moves to the visited ones, and what it
leads to becomes pending. -/
theorem Explores.enter {params : Nat} {w : Walk} {rest : List (Nat × Nat)} {e : StackEffect}
    (hw : Explores s params w) (hp : w.pending = (pc, depth) :: rest)
    (hnew : w.depths[pc]? = some none) (hadm : Admitted s pc depth i e) :
    Explores s params
      ((({ w with pending := rest } : Walk).marked pc depth).entered i e pc depth) := by
  have hreach : Reachable s pc depth := hw.pending pc depth (by rw [hp]; exact List.mem_cons_self)
  have hnew' : ({ w with pending := rest } : Walk).depths[pc]? = some none := hnew
  have hvisited : ∀ q d,
      ((({ w with pending := rest } : Walk).marked pc depth).entered i e pc depth).Visited q d ↔
        q = pc ∧ d = depth ∨ w.Visited q d := fun q d => visited_marked_iff hnew'
  have hpending : ∀ q d, (q, d) ∈
      ((({ w with pending := rest } : Walk).marked pc depth).entered i e pc depth).pending ↔
        Step s pc depth q d ∨ (q, d) ∈ rest := by
    intro q d
    rw [← mem_exits_iff hadm]
    exact List.mem_append
  have hcover : ∀ q d, w.Covered q d →
      ((({ w with pending := rest } : Walk).marked pc depth).entered i e pc depth).Covered q d := by
    rintro q d (hq | hq)
    · exact .inl ((hvisited q d).2 (.inr hq))
    · rw [hp, List.mem_cons, Prod.mk.injEq] at hq
      rcases hq with hq | hq
      · exact .inl ((hvisited q d).2 (.inl hq))
      · exact .inr ((hpending q d).2 (.inr hq))
  exact {
    size := by
      show (w.depths.setIfInBounds pc (some depth)).size = _
      rw [Array.size_setIfInBounds, hw.size]
    visited := fun q d hq => by
      rcases (hvisited q d).1 hq with ⟨rfl, rfl⟩ | hq
      · exact hreach
      · exact hw.visited q d hq
    pending := fun q d hq => by
      rcases (hpending q d).1 hq with hstep | hq
      · exact .step hreach hstep
      · exact hw.pending q d (by rw [hp]; exact List.mem_cons_of_mem _ hq)
    entry := hcover _ _ hw.entry
    handlers := fun h hh => hcover _ _ (hw.handlers h hh)
    admitted := fun q d hq => by
      rcases (hvisited q d).1 hq with ⟨rfl, rfl⟩ | hq
      · exact ⟨i, e, hadm⟩
      · exact hw.admitted q d hq
    closed := fun q d q' d' hq hstep => by
      rcases (hvisited q d).1 hq with ⟨rfl, rfl⟩ | hq
      · exact .inr ((hpending q' d').2 (.inl hstep))
      · exact hcover _ _ (hw.closed q d q' d' hq hstep)
    maxDepth := by
      show IsGreatest (insert 0 (depthsAfter s
        (({ w with pending := rest } : Walk).marked pc depth).Visited)) (max w.maxDepth _)
      rw [depthsAfter_marked hnew' hadm, Set.insert_comm, max_comm]
      exact hw.maxDepth.insert _
    localsUsed := by
      show IsGreatest (insert params (localEnds s
        (({ w with pending := rest } : Walk).marked pc depth).Visited)) (max w.localsUsed _)
      rw [localEnds_marked hnew' hadm.instruction]
      exact isGreatest_union_of_option hw.localsUsed }

/-- One visit keeps the invariant. -/
theorem Explores.visit {params : Nat} {w w' : Walk} {rest : List (Nat × Nat)}
    (hs : boundaries s.body.code = .ok s.starts) (hw : Explores s params w)
    (hp : w.pending = (pc, depth) :: rest)
    (h : Walk.visit s { w with pending := rest } pc depth = pure w') : Explores s params w' := by
  rcases visit_cases hs h with ⟨hv, rfl⟩ | ⟨hnew, i, e, hadm, rfl⟩
  · exact hw.drop hp hv
  · exact hw.enter hp hnew hadm

/-- **A walk that ends has nothing pending and keeps the invariant.** -/
theorem run_of_explores {params : Nat} (hs : boundaries s.body.code = .ok s.starts)
    (fuel : Nat) :
    ∀ w w' : Walk, Explores s params w → run s fuel w = pure w' →
      Explores s params w' ∧ w'.pending = [] := by
  induction fuel with
  | zero =>
    intro w w' hw h
    unfold run at h
    split at h
    · rename_i hp
      obtain rfl := pure_eq_pure.1 h
      exact ⟨hw, hp⟩
    · exact absurd h (abort_ne_pure _ _)
  | succ fuel ih =>
    intro w w' hw h
    unfold run at h
    split at h
    · rename_i hp
      obtain rfl := pure_eq_pure.1 h
      exact ⟨hw, hp⟩
    · rename_i pc depth rest hp
      obtain ⟨w₁, hvisit, hrun⟩ := bind_eq_pure.1 h
      exact ih w₁ w' (hw.visit hs hp hvisit) hrun

/-- With nothing pending, every reachable configuration has been visited. -/
theorem Explores.visited_of_reachable {params : Nat} {w : Walk} (hw : Explores s params w)
    (hp : w.pending = []) (h : Reachable s pc depth) : w.Visited pc depth := by
  have hvisited : ∀ q d, w.Covered q d → w.Visited q d := by
    rintro q d (hq | hq)
    · exact hq
    · rw [hp] at hq
      cases hq
  induction h with
  | entry => exact hvisited _ _ hw.entry
  | handler hh => exact hvisited _ _ (hw.handlers _ hh)
  | step _ hstep ih => exact hvisited _ _ (hw.closed _ _ _ _ ih hstep)

/-! ### The bound -/

/-- A pointwise implication bounds the counts. -/
theorem countP_le_countP_of_getElem? {α β : Type} {p : α → Bool} {q : β → Bool} :
    ∀ (xs : List α) (ys : List β),
      (∀ (k : Nat) x, xs[k]? = some x → p x = true → ∃ y, ys[k]? = some y ∧ q y = true) →
      xs.countP p ≤ ys.countP q := by
  intro xs
  induction xs with
  | nil =>
    intro ys _
    exact Nat.zero_le _
  | cons x xs ih =>
    intro ys himp
    cases ys with
    | nil =>
      have hnone : (x :: xs).countP p = 0 := by
        refine List.countP_eq_zero.2 fun a ha hpa => ?_
        obtain ⟨k, hk⟩ := List.getElem?_of_mem ha
        obtain ⟨y, hy, -⟩ := himp k a hk hpa
        cases hy
      exact Nat.le_of_eq hnone
    | cons y ys =>
      have htail := ih ys fun k a ha => himp (k + 1) a (by simpa using ha)
      have hhead : p x = true → q y = true := by
        intro hx
        obtain ⟨y', hy, hq⟩ := himp 0 x rfl hx
        cases hy
        exact hq
      rw [List.countP_cons, List.countP_cons]
      by_cases hx : p x = true
      · rw [if_pos hx, if_pos (hhead hx)]
        omega
      · rw [if_neg hx]
        omega

/-- Number of visited instructions. -/
def visits (w : Walk) : Nat := w.depths.countP Option.isSome

/-- Only instructions bear marks. -/
def MarksStarts (s : Subject) (w : Walk) : Prop :=
  ∀ pc d, w.Visited pc d → isStart s.starts pc = true

theorem MarksStarts.visits_le {w : Walk} (h : MarksStarts s w) : w.visits ≤ s.starts.countP id := by
  unfold visits
  rw [← Array.countP_toList, ← Array.countP_toList]
  refine countP_le_countP_of_getElem? _ _ fun k x hx hsome => ?_
  rw [Array.getElem?_toList] at hx
  obtain ⟨d, rfl⟩ := Option.isSome_iff_exists.1 hsome
  have hstart := h k d hx
  unfold isStart at hstart
  cases hk : s.starts[k]? with
  | none =>
    rw [hk] at hstart
    cases hstart
  | some b =>
    rw [hk] at hstart
    exact ⟨b, by rw [Array.getElem?_toList, hk], hstart⟩

theorem Explores.marksStarts {params : Nat} {w : Walk} (hw : Explores s params w) :
    MarksStarts s w := by
  intro pc d hv
  obtain ⟨i, e, hadm⟩ := hw.admitted pc d hv
  exact hadm.start

theorem visits_marked {w : Walk} (hnew : w.depths[pc]? = some none) :
    (w.marked pc depth).visits = w.visits + 1 := by
  obtain ⟨hlt, hget⟩ := Array.getElem?_eq_some_iff.1 hnew
  unfold visits marked
  simp only [Array.setIfInBounds, hlt, dite_true]
  rw [Array.countP_set hlt, hget]
  simp

/-- Steps that the walk takes at most from here on: one for each pending configuration, and two
for each instruction that has not been visited. -/
def remaining (s : Subject) (w : Walk) : Nat :=
  w.pending.length + 2 * (s.starts.countP id - w.visits)

theorem remaining_start (s : Subject) (params : Nat) :
    remaining s (start s params) = fuelFor s := by
  have hvisits : (start s params).visits = 0 := by
    simp [visits, start, Array.countP_replicate]
  unfold remaining fuelFor
  rw [hvisits]
  simp only [start, List.length_append, List.length_reverse, List.length_map,
    List.length_singleton]
  omega

theorem enter_cost {w w' : Walk} {op : Opcode} (h : enter s w op pc depth = pure w') :
    w'.depths = w.depths ∧ w'.pending.length ≤ w.pending.length + 2 := by
  unfold enter at h
  simp only [bind_eq_pure, guard_bind_eq_pure, pure_eq_pure] at h
  obtain ⟨_, -, -, after, -, branch, -, next, -, rfl⟩ := h
  refine ⟨rfl, ?_⟩
  have hnext : next.toList.length ≤ 1 := by cases next <;> simp
  have hbranch : branch.toList.length ≤ 1 := by cases branch <;> simp
  simp only [List.length_append, List.length_map]
  omega

/-- **What a visit costs**: nothing more, or the mark of an instruction that had none for at most
two further entries. -/
theorem visit_cost {w w' : Walk} (h : visit s w pc depth = pure w') :
    w' = w ∨ isStart s.starts pc = true ∧ w.depths[pc]? = some none ∧
      w'.depths = (w.marked pc depth).depths ∧ w'.pending.length ≤ w.pending.length + 2 := by
  unfold visit at h
  rw [guard_eq_pure] at h
  obtain ⟨hstart, h⟩ := h
  have hstart : isStart s.starts pc = true := by simpa using hstart
  split at h
  · exact absurd h (abort_ne_pure _ _)
  · split at h
    · exact .inl (pure_eq_pure.1 h).symm
    · exact absurd h (throw_ne_pure _ _)
  · rename_i hnew
    obtain ⟨b, -, h⟩ := bind_eq_pure.1 h
    refine .inr ⟨hstart, hnew, ?_⟩
    cases hop : Opcode.ofByte? b with
    | none =>
      simp only [hop] at h
      obtain rfl := pure_eq_pure.1 h
      exact ⟨rfl, Nat.le_add_right _ _⟩
    | some op =>
      simp only [hop] at h
      exact enter_cost h

/-- A visit keeps marks to instructions, and takes one of the remaining steps. -/
theorem MarksStarts.visit {w w' : Walk} {rest : List (Nat × Nat)} (hw : MarksStarts s w)
    (hp : w.pending = (pc, depth) :: rest)
    (h : Walk.visit s { w with pending := rest } pc depth = pure w') :
    MarksStarts s w' ∧ remaining s w' < remaining s w := by
  have hlen : w.pending.length = rest.length + 1 := by rw [hp, List.length_cons]
  rcases visit_cost h with rfl | ⟨hstart, hnew, hdepths, hpending⟩
  · refine ⟨hw, ?_⟩
    show rest.length + 2 * (s.starts.countP id - w.visits) < _
    unfold remaining
    omega
  · have hmarks : MarksStarts s w' := by
      intro q d hv
      unfold Visited at hv
      rw [hdepths] at hv
      rcases (visited_marked_iff hnew).1 hv with ⟨rfl, -⟩ | hold
      · exact hstart
      · exact hw q d hold
    have hvisits : w'.visits = w.visits + 1 := by
      have hmarked : (marked { w with pending := rest } pc depth).visits = w.visits + 1 :=
        visits_marked hnew
      unfold visits at hmarked ⊢
      rw [hdepths, hmarked]
    have hbound := hmarks.visits_le
    refine ⟨hmarks, ?_⟩
    unfold remaining
    dsimp only at hpending
    omega

/-- A visit takes one of the remaining steps. -/
theorem remaining_lt_of_visit {params : Nat} {w w' : Walk} {rest : List (Nat × Nat)}
    (hw : Explores s params w) (hp : w.pending = (pc, depth) :: rest)
    (h : visit s { w with pending := rest } pc depth = pure w') :
    remaining s w' < remaining s w :=
  (hw.marksStarts.visit hp h).2

/-! ### Walks that succeed -/

/-- No stack on a path in order is deeper than a word counts. -/
theorem depth_le_of_reachable
    (hall : ∀ pc depth, Reachable s pc depth → ∃ i e, Admitted s pc depth i e)
    (h : Reachable s pc depth) : depth ≤ wordMax := by
  have hword : s.body.maxStack.toNat ≤ wordMax := Nat.le_of_lt_succ s.body.maxStack.toNat_lt
  have hfits : ∀ {q d j f}, Reachable s q d → at? s.body.code q = some j →
      j.effect? s.pool = some f → d - f.pop + f.push ≤ wordMax := by
    intro q d j f hr hj hf
    obtain ⟨i, e, hadm⟩ := hall q d hr
    rw [hadm.instruction, Option.some.injEq] at hj
    subst hj
    rw [hadm.effect, Option.some.injEq] at hf
    subst hf
    exact le_trans hadm.fits hword
  cases h with
  | entry => exact Nat.zero_le _
  | handler _ => decide
  | step hr hstep =>
    cases hstep with
    | branch hi he _ _ _ => exact hfits hr hi he
    | next hi he _ _ => exact hfits hr hi he

/-- **The walk ends well when all paths are in order and agree on the depths.** -/
theorem exists_run {params : Nat} (hs : boundaries s.body.code = .ok s.starts)
    (hall : ∀ pc depth, Reachable s pc depth → ∃ i e, Admitted s pc depth i e)
    (hagree : ∀ pc d d', Reachable s pc d → Reachable s pc d' → d = d') (fuel : Nat) :
    ∀ w : Walk, Explores s params w → remaining s w ≤ fuel → ∃ w', run s fuel w = pure w' := by
  induction fuel with
  | zero =>
    intro w hw hfuel
    have hp : w.pending = [] := by
      unfold remaining at hfuel
      exact List.length_eq_zero_iff.1 (by omega)
    refine ⟨w, ?_⟩
    unfold run
    simp only [hp]
  | succ fuel ih =>
    intro w hw hfuel
    unfold run
    split
    · exact ⟨w, rfl⟩
    · rename_i pc depth rest hp
      have hreach : Reachable s pc depth :=
        hw.pending pc depth (by rw [hp]; exact List.mem_cons_self)
      obtain ⟨i, e, hadm⟩ := hall pc depth hreach
      -- The offset is new, or the agreement of depths makes the second visit harmless.
      have hvisit : ∃ w₁, Walk.visit s { w with pending := rest } pc depth = pure w₁ := by
        have hlt : pc < w.depths.size := by
          rw [hw.size, ← size_of_boundaries hs]
          exact lt_size_of_isStart hadm.start
        cases hget : w.depths[pc] with
        | none =>
          exact ⟨_, visit_of_admitted (Array.getElem?_eq_some_iff.2 ⟨hlt, hget⟩) hadm
            (depth_le_of_reachable hall hreach)⟩
        | some seen =>
          have hv : w.Visited pc seen := Array.getElem?_eq_some_iff.2 ⟨hlt, hget⟩
          obtain rfl := hagree pc seen depth (hw.visited pc seen hv) hreach
          exact ⟨_, visit_of_visited hadm.start hv⟩
      obtain ⟨w₁, hvisit⟩ := hvisit
      have hlt := remaining_lt_of_visit hw hp hvisit
      obtain ⟨w', hrun⟩ := ih w₁ (hw.visit hs hp hvisit) (by omega)
      exact ⟨w', bind_eq_pure.2 ⟨w₁, hvisit, hrun⟩⟩

end Walk

/-! ### Exactness -/

variable {s : Subject} {params : Nat}

/-- A walk over all paths starts from the roots and ends with the invariant. -/
theorem explores_of_all {w : Walk} (hs : boundaries s.body.code = .ok s.starts)
    (h : Walk.all s params = pure w) : Walk.Explores s params w ∧ w.pending = [] := by
  unfold Walk.all at h
  rw [guard_eq_pure] at h
  exact Walk.run_of_explores hs _ _ _ (Walk.explores_start s params) h.2

/-- The walk succeeds on code whose paths are in order and agree on the depths. -/
theorem exists_all (hs : boundaries s.body.code = .ok s.starts) (hne : s.body.code ≠ #[])
    (hall : ∀ pc depth, Reachable s pc depth → ∃ i e, Admitted s pc depth i e)
    (hagree : ∀ pc d d', Reachable s pc d → Reachable s pc d' → d = d') :
    ∃ w, Walk.all s params = pure w := by
  obtain ⟨w, hrun⟩ := Walk.exists_run hs hall hagree (Walk.fuelFor s) (Walk.start s params)
    (Walk.explores_start s params) (le_of_eq (Walk.remaining_start s params))
  refine ⟨w, ?_⟩
  unfold Walk.all
  rw [guard_eq_pure]
  exact ⟨by simpa using hne, hrun⟩

/-- A finished walk has visited the reachable configurations and no others. -/
theorem visited_eq_reachable {w : Walk} (hw : Walk.Explores s params w) (hp : w.pending = []) :
    w.Visited = Reachable s := by
  funext pc depth
  exact propext ⟨hw.visited pc depth, hw.visited_of_reachable hp⟩

/-- The deepest stack that a finished walk reports is that of a reachable configuration. -/
theorem isGreatest_depthsAfter {w : Walk} (hw : Walk.Explores s params w) (hp : w.pending = []) :
    IsGreatest (depthsAfter s (Reachable s)) w.maxDepth := by
  have hmax := hw.maxDepth
  rw [visited_eq_reachable hw hp] at hmax
  refine ⟨?_, fun n hn => hmax.2 (Set.mem_insert_of_mem _ hn)⟩
  rcases hmax.1 with hzero | hmem
  · -- The entry point is reachable, and the depth after its instruction is not above zero.
    obtain ⟨i, e, hadm⟩ := hw.admitted 0 0 (hw.visited_of_reachable hp .entry)
    have hentry : 0 - e.pop + e.push ∈ depthsAfter s (Reachable s) :=
      ⟨0, 0, i, e, .entry, hadm.instruction, hadm.effect, rfl⟩
    have hle : 0 - e.pop + e.push ≤ w.maxDepth := hmax.2 (Set.mem_insert_of_mem _ hentry)
    rw [hzero, show 0 = 0 - e.pop + e.push by omega]
    exact hentry
  · exact hmem

/-- **The walk is exact.**  On code whose boundaries are found it succeeds exactly when there is
code, every reachable configuration is in order, and no offset is reachable with two depths. It
then reports the deepest stack after a reachable instruction, and the highest end of the
parameters and of the local slots that reachable instructions touch. -/
theorem all_eq_pure_iff_reachable_admitted (s : Subject) (params : Nat)
    (hs : boundaries s.body.code = .ok s.starts) :
    ((∃ w, Walk.all s params = pure w) ↔
      s.body.code ≠ #[] ∧
        (∀ pc depth, Reachable s pc depth → ∃ i e, Admitted s pc depth i e) ∧
        ∀ pc d d', Reachable s pc d → Reachable s pc d' → d = d') ∧
      ∀ w, Walk.all s params = pure w →
        IsGreatest (depthsAfter s (Reachable s)) w.maxDepth ∧
          IsGreatest (insert params (localEnds s (Reachable s))) w.localsUsed := by
  refine ⟨⟨?_, ?_⟩, ?_⟩
  · rintro ⟨w, h⟩
    obtain ⟨hw, hp⟩ := explores_of_all hs h
    unfold Walk.all at h
    rw [guard_eq_pure] at h
    refine ⟨by simpa using h.1, ?_, ?_⟩
    · intro pc depth hr
      exact hw.admitted pc depth (hw.visited_of_reachable hp hr)
    · intro pc d d' hr hr'
      have hv := hw.visited_of_reachable hp hr
      have hv' := hw.visited_of_reachable hp hr'
      unfold Walk.Visited at hv hv'
      rw [hv] at hv'
      exact Option.some.inj (Option.some.inj hv')
  · rintro ⟨hne, hall, hagree⟩
    exact exists_all hs hne hall hagree
  · intro w h
    obtain ⟨hw, hp⟩ := explores_of_all hs h
    refine ⟨isGreatest_depthsAfter hw hp, ?_⟩
    have hlocals := hw.localsUsed
    rw [visited_eq_reachable hw hp] at hlocals
    exact hlocals

/-- A loop over a condition, with a handler behind it: `iconst_0`, `ifeq` to the end, `goto` the
start, `istore_1` of the caught reference and a second `goto`, `return`. -/
def loopSubject : Subject where
  pool := .empty
  body := {
    maxStack := 1, maxLocals := 2
    code := #[0x03, 0x99, 0x00, 0x0a, 0xa7, 0xff, 0xfc, 0x3c, 0xa7, 0xff, 0xf8, 0xb1]
    handlers := [⟨0, 4, 7, 0⟩] }
  type := .action
  starts := #[true, true, false, false, true, false, false, true, true, false, false, true]

theorem all_loopSubject :
    (∃ w, Walk.all loopSubject 1 = pure w) ∧
      IsGreatest (depthsAfter loopSubject (Reachable loopSubject)) 1 ∧
      IsGreatest (insert 1 (localEnds loopSubject (Reachable loopSubject))) 2 := by
  have hs : boundaries loopSubject.body.code = .ok loopSubject.starts := by decide +kernel
  have hrun : (match (Walk.all loopSubject 1).run with
      | .ok (.ok w) => w.maxDepth == 1 && w.localsUsed == 2
      | _ => false) = true := by decide +kernel
  split at hrun
  · rename_i w hw
    have hexact := (all_eq_pure_iff_reachable_admitted loopSubject 1 hs).2 w hw
    rw [Bool.and_eq_true, beq_iff_eq, beq_iff_eq] at hrun
    rw [hrun.1, hrun.2] at hexact
    exact ⟨⟨w, hw⟩, hexact⟩
  · cases hrun

end ClassForge.Inspection
