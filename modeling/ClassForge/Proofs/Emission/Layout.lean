import ClassForge.Proofs.Body.Lines
import ClassForge.Proofs.Body.Patching
import ClassForge.Proofs.Emission.Step
import ClassForge.Proofs.Inspection.Walk

/-!
# The layout of emitted code

What is known of an emitter and of the instructions that it has written, after any emission. The
parts are separate, and each is kept by one step:

* `Tiles` — the instructions make up the code, one after the other;
* `Composed` — so they do, and the branches among them wait for their labels;
* `Flow` — where control can get to an instruction, it gets there with the tracked depth: at the
  start, behind an instruction that does not end the path, and at every label that was placed;
* `Extent` — the tracked maxima bound all depths and local slots, and where no code is dead they
  are attained;
* `Origins` — an instruction that control can get to has an earlier one that leads there;
* `LineMarks` — line entries stand at instructions or at the end.
-/

namespace ClassForge.Emitter

open ConstantPool Instruction Inspection

variable {ret : JavaType} {e e' : Emitter} {x y : Placed} {xs new : List Placed}
  {bytes : List UInt8}

/-! ### Tiles -/

/-- The instructions, the latest first, make up the code. -/
inductive Tiles : List Placed → List UInt8 → Prop where
  | nil : Tiles [] []
  | cons {x : Placed} {xs : List Placed} {bytes : List UInt8} (h : Tiles xs bytes)
      (hpc : x.pc = bytes.length) : Tiles (x :: xs) (bytes ++ x.instr.bytes)

namespace Tiles

theorem stop_le (h : Tiles xs bytes) : ∀ x ∈ xs, x.stop ≤ bytes.length := by
  induction h with
  | nil => exact List.forall_mem_nil _
  | @cons x xs bytes _ hpc ih =>
    intro y hy
    rw [List.length_append, length_bytes]
    rcases List.mem_cons.1 hy with rfl | hy
    · rw [Placed.stop, hpc]
    · exact (ih y hy).trans (Nat.le_add_right _ _)

theorem pc_lt (h : Tiles xs bytes) (hx : x ∈ xs) : x.pc < bytes.length := by
  have hstop := h.stop_le x hx
  have hpos := x.instr.op.encodedLength_pos
  unfold Placed.stop at hstop
  omega

/-- Every instruction stands at its offset. -/
theorem exists_drop_eq (h : Tiles xs bytes) :
    ∀ x ∈ xs, ∃ after, bytes.drop x.pc = x.instr.bytes ++ after := by
  induction h with
  | nil => exact List.forall_mem_nil _
  | @cons x xs bytes h hpc ih =>
    intro y hy
    rcases List.mem_cons.1 hy with rfl | hy
    · exact ⟨[], by rw [hpc, List.drop_left, List.append_nil]⟩
    · obtain ⟨after, hafter⟩ := ih y hy
      exact ⟨after ++ x.instr.bytes, by
        rw [List.drop_append_of_le_length (Nat.le_of_lt (h.pc_lt hy)), hafter,
          List.append_assoc]⟩

theorem at?_eq {code : Array UInt8} (h : Tiles xs code.toList) (hx : x ∈ xs) :
    at? code x.pc = some x.instr :=
  at?_eq_some_iff.2 (h.exists_drop_eq x hx)

/-- The instructions do not overlap. -/
theorem pairwise (h : Tiles xs bytes) : xs.Pairwise fun x y => y.stop ≤ x.pc := by
  induction h with
  | nil => exact .nil
  | cons h hpc ih => exact .cons (fun y hy => hpc ▸ h.stop_le y hy) ih

/-- An offset holds at most one instruction. -/
theorem eq_of_pc (h : Tiles xs bytes) : ∀ x ∈ xs, ∀ y ∈ xs, x.pc = y.pc → x = y := by
  induction h with
  | nil => exact List.forall_mem_nil _
  | @cons x xs bytes h hpc ih =>
    intro y hy z hz hyz
    rcases List.mem_cons.1 hy with rfl | hy' <;> rcases List.mem_cons.1 hz with rfl | hz'
    · rfl
    · have := h.pc_lt hz'
      omega
    · have := h.pc_lt hy'
      omega
    · exact ih y hy' z hz' hyz

/-- Behind an instruction there is another one or the end. -/
theorem next (h : Tiles xs bytes) :
    ∀ x ∈ xs, x.stop = bytes.length ∨ ∃ y ∈ xs, y.pc = x.stop := by
  induction h with
  | nil => exact List.forall_mem_nil _
  | @cons x xs bytes h hpc ih =>
    intro y hy
    rcases List.mem_cons.1 hy with rfl | hy
    · refine .inl ?_
      rw [List.length_append, length_bytes, Placed.stop, hpc]
    · rcases ih y hy with hstop | ⟨z, hz, hpc'⟩
      · exact .inr ⟨x, List.mem_cons_self, hpc.trans hstop.symm⟩
      · exact .inr ⟨z, List.mem_cons_of_mem x hz, hpc'⟩

/-- There is an instruction at the start, unless there is no code at all. -/
theorem start (h : Tiles xs bytes) : 0 = bytes.length ∨ ∃ x ∈ xs, x.pc = 0 := by
  induction h with
  | nil => exact .inl rfl
  | @cons x xs bytes _ hpc ih =>
    rcases ih with hnil | ⟨y, hy, hpc'⟩
    · exact .inr ⟨x, List.mem_cons_self, hpc.trans hnil.symm⟩
    · exact .inr ⟨y, List.mem_cons_of_mem x hy, hpc'⟩

/-- **The sweep over the code meets the instructions**, whatever their operands are. -/
theorem sweep {code : Array UInt8} (h : Tiles xs bytes)
    (hcode : ∀ x ∈ xs, ∃ i, at? code x.pc = some i ∧ i.op = x.instr.op) :
    Sweep code 0 bytes.length ∧ ∀ x ∈ xs, Sweep code 0 x.pc := by
  induction h with
  | nil => exact ⟨.refl 0, List.forall_mem_nil _⟩
  | @cons x xs bytes h hpc ih =>
    obtain ⟨hend, hall⟩ := ih fun y hy => hcode y (List.mem_cons_of_mem x hy)
    obtain ⟨i, hi, hop⟩ := hcode x List.mem_cons_self
    rw [hpc] at hi
    refine ⟨?_, fun y hy => ?_⟩
    · rw [List.length_append, length_bytes, ← hop]
      exact hend.snoc hi
    · rcases List.mem_cons.1 hy with rfl | hy
      · rw [hpc]
        exact hend
      · exact hall y hy

/-- The sweep meets nothing else. -/
theorem exists_of_sweep {code : Array UInt8} (h : Tiles xs bytes) (hsize : code.size = bytes.length)
    (hcode : ∀ x ∈ xs, ∃ i, at? code x.pc = some i ∧ i.op = x.instr.op) {pc q : Nat}
    (hs : Sweep code pc q) :
    (pc = bytes.length ∨ ∃ x ∈ xs, x.pc = pc) → q = bytes.length ∨ ∃ x ∈ xs, x.pc = q := by
  induction hs with
  | refl => exact id
  | @step pc q i hi _ ih =>
    rintro (rfl | ⟨x, hx, rfl⟩)
    · have hend := end_le_size_of_at? hi
      have hpos := i.op.encodedLength_pos
      omega
    · obtain ⟨j, hj, hop⟩ := hcode x hx
      rw [hi, Option.some.injEq] at hj
      subst hj
      rw [hop] at ih
      exact ih (h.next x hx)

end Tiles

theorem Step.tiles (h : Step ret e new e') (ht : Tiles xs e.assembly.code.toList) :
    Tiles (new ++ xs) e'.assembly.code.toList := by
  cases h with
  | intern | label | place | line => exact ht
  | write | branch =>
    show Tiles (_ :: xs) (Assembly.append _ _).code.toList
    rw [Assembly.toList_append]
    exact ht.cons (Array.length_toList).symm

/-! ### Effects in a growing pool -/

section Effects

variable {p p' : ConstantPool} {k : UInt16}

theorem isClass_mono (h : Extends p p') (hk : isClass p k = true) : isClass p' k = true := by
  unfold isClass at hk ⊢
  rcases h.get?_eq_or_none k with hget | hnone
  · rw [hget]
    exact hk
  · rw [hnone] at hk
    cases hk

theorem loadsSlots_mono (h : Extends p p') {n : Nat} (hk : loadsSlots p n k = true) :
    loadsSlots p' n k = true := by
  unfold loadsSlots loadsOneSlot loadsTwoSlots at hk ⊢
  rcases h.get?_eq_or_none k with hget | hnone
  · rw [hget]
    exact hk
  · rw [hnone, ite_self] at hk
    cases hk

theorem fieldType?_mono (h : Extends p p') {type : JavaType} (hk : p.fieldType? k = some type) :
    p'.fieldType? k = some type := by
  unfold fieldType? at hk ⊢
  cases hm : p.memberAt k with
  | error =>
    rw [hm] at hk
    cases hk
  | ok member =>
    rw [hm] at hk
    rw [h.memberAt hm]
    exact hk

theorem methodType?_mono (h : Extends p p') {op : Opcode} {type : MethodType}
    (hk : p.methodType? op k = some type) : p'.methodType? op k = some type := by
  unfold methodType? at hk ⊢
  cases hm : p.memberAt k with
  | error =>
    rw [hm] at hk
    cases hk
  | ok member =>
    rw [hm] at hk
    rw [h.memberAt hm]
    exact hk

/-- **An effect stays what it is** when the pool grows. -/
theorem effect?_mono (h : Extends p p') {i : Instruction} {effect : StackEffect}
    (hi : i.effect? p = some effect) : i.effect? p' = some effect := by
  cases hfixed : i.op.fixedEffect? with
  | some fixed =>
    -- The operand matters only to the instructions that name a class.
    simp only [effect?, hfixed] at hi ⊢
    cases hclass : isClass p (i.word 0) with
    | true =>
      rw [hclass] at hi
      rw [isClass_mono h hclass]
      exact hi
    | false =>
      cases hnames : i.op.namesClass with
      | true =>
        rw [hclass, hnames] at hi
        cases hi
      | false =>
        rw [hnames] at hi
        exact hi
  | none =>
    rcases Opcode.linked_cases hfixed with ⟨n, hload⟩ | ⟨f, hfield⟩ | hcall
    · rw [effect?_of_load hload] at hi ⊢
      split at hi
      · rename_i hloads
        rw [if_pos (loadsSlots_mono h hloads)]
        exact hi
      · cases hi
    · rw [effect?_of_field hfield] at hi ⊢
      obtain ⟨type, htype, rfl⟩ := Option.map_eq_some_iff.1 hi
      rw [fieldType?_mono h htype]
      rfl
    · rw [effect?_of_isCall hcall] at hi ⊢
      obtain ⟨type, htype, heffect⟩ := Option.bind_eq_some_iff.1 hi
      rw [methodType?_mono h htype]
      exact heffect

end Effects

/-! ### Flow -/

/-- Control can get to the offset with the given depth: an instruction stands there, or it is the
end of the code so far. -/
def At (e : Emitter) (xs : List Placed) (q d : Nat) : Prop :=
  (∃ x ∈ xs, x.live = true ∧ x.pc = q ∧ x.depth = d) ∨
    q = e.assembly.code.size ∧ e.reachable = true ∧ e.tracker.depth = d

theorem Step.at (h : Step ret e new e') {q d : Nat} (hat : At e xs q d) :
    At e' (new ++ xs) q d := by
  rcases hat with ⟨x, hx, hlive⟩ | ⟨rfl, hr, rfl⟩
  · exact .inl ⟨x, List.mem_append_right new hx, hlive⟩
  · cases h with
    | intern | label => exact .inr ⟨rfl, hr, rfl⟩
    | write | branch => exact .inl ⟨_, List.mem_cons_self, hr, rfl, rfl⟩
    | place _ hfalls => exact .inr ⟨rfl, rfl, hfalls hr⟩
    | line ht => exact .inr ⟨rfl, hr, ht.depth⟩

/-- An emission that writes something makes the code longer. -/
theorem Emission.eq_nil_or_size_lt (h : Emission ret e xs e') :
    xs = [] ∧ e'.assembly.code.size = e.assembly.code.size ∨
      e.assembly.code.size < e'.assembly.code.size := by
  induction h with
  | refl => exact .inl ⟨rfl, rfl⟩
  | @step e₁ e₂ xs new _ hs ih =>
    have hsize : new = [] ∧ e₂.assembly.code.size = e₁.assembly.code.size ∨
        e₁.assembly.code.size < e₂.assembly.code.size := by
      cases hs with
      | intern | label | place | line => exact .inl ⟨rfl, rfl⟩
      | write | branch =>
        refine .inr (Nat.lt_of_lt_of_eq ?_ (Assembly.size_append _ _).symm)
        exact Nat.lt_add_of_pos_right (Opcode.encodedLength_pos _)
    rcases ih with ⟨rfl, heq⟩ | hlt <;> rcases hsize with ⟨rfl, heq'⟩ | hlt'
    · exact .inl ⟨rfl, heq'.trans heq⟩
    all_goals exact .inr (by omega)

/-- Control goes on behind an instruction that does not end the path. -/
theorem Step.at_next (h : Step ret e new e') (hx : x ∈ new) (hlive : x.live = true)
    (hterm : x.instr.op.isTerminal = false) : At e' (new ++ xs) x.stop x.after := by
  cases h with
  | intern | label | place | line => cases hx
  | write _ _ hsound =>
    obtain rfl := List.mem_singleton.1 hx
    refine .inr ⟨(Assembly.size_append _ _).symm, ?_, (hsound hlive).depth⟩
    show (e.reachable && !_) = true
    rw [hterm, show e.reachable = true from hlive]
    rfl
  | branch =>
    obtain rfl := List.mem_singleton.1 hx
    refine .inr ⟨(Assembly.size_append _ _).symm, ?_, rfl⟩
    show (e.reachable && !_) = true
    rw [show e.reachable = true from hlive]
    exact congrArg not hterm

/-- An instruction branches to its label, if it branches at all. -/
def Placed.Formed (x : Placed) : Prop :=
  x.label? = none ∧ x.instr.op.isBranch = false ∨
    ∃ l, x.label? = some l ∧ x.instr.op.isShortBranch = true

/-- An instruction that control can get to is in order for its depth. -/
structure Placed.InOrder (ret : JavaType) (pool : ConstantPool) (x : Placed) : Prop where
  resolves : pool.violation = none → x.instr.effect? pool = some x.effect
  pops : x.effect.pop ≤ x.depth
  returns : returnFits x.instr.op ret = true

/-- The instructions make up the code, and the branches among them are those that are open. -/
structure Composed (e : Emitter) (xs : List Placed) : Prop where
  tiles : Tiles xs e.assembly.code.toList
  branches : e.assembly.branches.toList = xs.reverse.filterMap Placed.branch?
  formed : ∀ x ∈ xs, x.Formed

/-- **Control gets everywhere with the tracked depth.** -/
structure Flow (ret : JavaType) (e : Emitter) (xs : List Placed) : Prop where
  tiles : Tiles xs e.assembly.code.toList
  branches : e.assembly.branches.toList = xs.reverse.filterMap Placed.branch?
  formed : ∀ x ∈ xs, x.Formed
  inOrder : ∀ x ∈ xs, x.live = true → x.InOrder ret e.pool
  entry : At e xs 0 0
  next : ∀ x ∈ xs, x.live = true → x.instr.op.isTerminal = false → At e xs x.stop x.after
  /-- A branch has set the depth at its label. -/
  expected : ∀ x ∈ xs, ∀ l, x.label? = some l → e.labelDepths[l.id]? = some (some x.after)
  /-- Control gets to a label with the depth that is expected there. -/
  placed : ∀ k q : Nat, e.assembly.labels[k]? = some (some q) →
    ∃ d, e.labelDepths[k]? = some (some d) ∧ At e xs q d

theorem Flow.composed (h : Flow ret e xs) : Composed e xs := ⟨h.tiles, h.branches, h.formed⟩

theorem Step.branches (h : Step ret e new e')
    (hb : e.assembly.branches.toList = xs.reverse.filterMap Placed.branch?) :
    e'.assembly.branches.toList = (new ++ xs).reverse.filterMap Placed.branch? := by
  cases h with
  | intern | label | place | line => exact hb
  | write =>
    rw [List.singleton_append, List.reverse_cons, List.filterMap_append, ← hb]
    exact (List.append_nil _).symm
  | branch =>
    rw [List.singleton_append, List.reverse_cons, List.filterMap_append, ← hb]
    exact Array.toList_push ..

theorem Step.formed (h : Step ret e new e') : ∀ x ∈ new, x.Formed := by
  intro x hx
  cases h with
  | intern | label | place | line => cases hx
  | write hop =>
    obtain rfl := List.mem_singleton.1 hx
    exact .inl ⟨rfl, hop⟩
  | branch hop =>
    obtain rfl := List.mem_singleton.1 hx
    exact .inr ⟨_, rfl, hop⟩

theorem Step.inOrder (h : Step ret e new e') :
    ∀ x ∈ new, x.live = true → x.InOrder ret e'.pool := by
  intro x hx hlive
  cases h with
  | intern | label | place | line => cases hx
  | write _ _ hsound =>
    obtain rfl := List.mem_singleton.1 hx
    have hs := hsound hlive
    exact ⟨hs.resolves, hs.pops, hs.returns⟩
  | branch hop hpop =>
    obtain rfl := List.mem_singleton.1 hx
    obtain ⟨heffect, hclass, -, hreturn⟩ := Opcode.shortBranch_facts hop
    exact ⟨fun _ => effect?_of_fixed _ heffect hclass, hpop,
      Opcode.returnFits_of_not_isReturn hreturn ret⟩

theorem Placed.InOrder.mono {p p' : ConstantPool} (h : Grows p p') (hx : x.InOrder ret p) :
    x.InOrder ret p' :=
  ⟨fun hv => effect?_mono h.keeps (hx.resolves (h.clean hv)), hx.pops, hx.returns⟩

theorem Step.expected (h : Step ret e new e') :
    ∀ x ∈ new, ∀ l, x.label? = some l → e'.labelDepths[l.id]? = some (some x.after) := by
  intro x hx l hl
  cases h with
  | intern | label | place | line => cases hx
  | write =>
    obtain rfl := List.mem_singleton.1 hx
    cases hl
  | branch hop hpop hdepth =>
    obtain rfl := List.mem_singleton.1 hx
    cases hl
    have hlt : l.id < e.labelDepths.size := by
      rcases hdepth with hl | hl <;> exact (Array.getElem?_eq_some_iff.1 hl).1
    show (e.labelDepths.setIfInBounds l.id _)[l.id]? = _
    rw [Array.getElem?_setIfInBounds, if_pos rfl, if_pos hlt]
    rfl

/-- The place of a label, after a step: it had one already, or it is here. -/
theorem Step.label_cases (h : Step ret e new e') {k q : Nat}
    (hq : e'.assembly.labels[k]? = some (some q)) :
    e.assembly.labels[k]? = some (some q) ∨
      q = e'.assembly.code.size ∧ e'.reachable = true ∧
        e'.labelDepths[k]? = some (some e'.tracker.depth) := by
  cases h with
  | intern | write | branch | line => exact .inl hq
  | label =>
    refine .inl ?_
    have hpush : (e.assembly.labels.push none)[k]? = some (some q) := hq
    rw [Array.getElem?_push] at hpush
    split at hpush
    · cases hpush
    · exact hpush
  | @place l depth hplace hfalls hdepth =>
    have hset : (e.assembly.labels.setIfInBounds l.id (some e.assembly.code.size))[k]? =
      some (some q) := hq
    rw [Array.getElem?_setIfInBounds] at hset
    by_cases hk : l.id = k
    · subst hk
      rw [if_pos rfl, if_pos (Array.getElem?_eq_some_iff.1 hplace).1] at hset
      cases hset
      have hlt : l.id < e.labelDepths.size := by
        rcases hdepth with ⟨hl, -⟩ | hl <;> exact (Array.getElem?_eq_some_iff.1 hl).1
      refine .inr ⟨rfl, rfl, ?_⟩
      show (e.labelDepths.setIfInBounds l.id (some depth))[l.id]? = _
      rw [Array.getElem?_setIfInBounds, if_pos rfl, if_pos hlt]
      rfl
    · rw [if_neg hk] at hset
      exact .inl hset

/-- **One step keeps the flow.** -/
theorem Flow.step (h : Step ret e new e') (hf : Flow ret e xs) : Flow ret e' (new ++ xs) where
  tiles := h.tiles hf.tiles
  branches := h.branches hf.branches
  formed := List.forall_mem_append.2 ⟨h.formed, hf.formed⟩
  inOrder := List.forall_mem_append.2
    ⟨h.inOrder, fun x hx hlive => (hf.inOrder x hx hlive).mono h.grows⟩
  entry := h.at hf.entry
  next := List.forall_mem_append.2
    ⟨fun _ hx hlive hterm => h.at_next hx hlive hterm,
      fun x hx hlive hterm => h.at (hf.next x hx hlive hterm)⟩
  expected := List.forall_mem_append.2
    ⟨h.expected, fun x hx l hl => h.labelDepth (hf.expected x hx l hl)⟩
  placed k q hq := by
    rcases h.label_cases hq with hold | ⟨rfl, hr, hdepth⟩
    · obtain ⟨d, hd, hat⟩ := hf.placed k q hold
      exact ⟨d, h.labelDepth hd, h.at hat⟩
    · exact ⟨_, hdepth, .inr ⟨rfl, hr, rfl⟩⟩

/-- A new body has no labels, so none is placed and no depth is expected at one. -/
theorem getElem?_empty_ne_some {k n : Nat} : (#[] : Array (Option Nat))[k]? ≠ some (some n) := by
  rw [Array.getElem?_empty]
  exact nofun

theorem flow_ofPool (pool : ConstantPool) (p : Nat) : Flow ret (ofPool pool p) [] where
  tiles := .nil
  branches := rfl
  formed := List.forall_mem_nil _
  inOrder := List.forall_mem_nil _
  entry := .inr ⟨rfl, rfl, rfl⟩
  next := List.forall_mem_nil _
  expected := List.forall_mem_nil _
  placed _ _ hq := absurd hq getElem?_empty_ne_some

/-! ### Extent -/

/-- **The tracked maxima bound everything**, and where no code is dead they are attained. -/
structure Extent (p : Nat) (e : Emitter) (xs : List Placed) : Prop where
  depth : e.tracker.depth ≤ e.tracker.maxDepth
  expected : ∀ k d : Nat, e.labelDepths[k]? = some (some d) → d ≤ e.tracker.maxDepth
  maxDepth : e.tracker.maxDepth ≤ wordMax
  after : ∀ x ∈ xs, x.live = true → x.after ≤ e.tracker.maxDepth
  params : p ≤ e.tracker.maxLocals
  maxLocals : e.tracker.maxLocals ≤ wordMax
  locals : ∀ x ∈ xs, x.live = true → x.instr.localEnd?.getD 0 ≤ e.tracker.maxLocals
  deepest : (∀ x ∈ xs, x.live = true) →
    e.tracker.maxDepth = 0 ∨ ∃ x ∈ xs, x.after = e.tracker.maxDepth
  widest : (∀ x ∈ xs, x.live = true) →
    e.tracker.maxLocals = p ∨ ∃ x ∈ xs, x.instr.localEnd? = some e.tracker.maxLocals

theorem extent_ofPool (pool : ConstantPool) {p : Nat} (hp : p ≤ wordMax) :
    Extent p (ofPool pool p) [] where
  depth := Nat.le_refl 0
  expected _ _ hd := absurd hd getElem?_empty_ne_some
  maxDepth := Nat.zero_le _
  after := List.forall_mem_nil _
  params := Nat.le_refl p
  maxLocals := hp
  locals := List.forall_mem_nil _
  deepest _ := .inl rfl
  widest _ := .inl rfl

/-- An instruction is written, and its depth may become the one expected at a label. -/
theorem Extent.write {p : Nat} (hext : Extent p e xs) (hmoves : e.tracker.Moves e'.tracker)
    (hdepths : ∀ k d : Nat, e'.labelDepths[k]? = some (some d) →
      d = e'.tracker.depth ∨ e.labelDepths[k]? = some (some d))
    (hlive : x.live = true → x.after = e'.tracker.depth ∧
      e'.tracker.maxLocals = max e.tracker.maxLocals (x.instr.localEnd?.getD 0)) :
    Extent p e' (x :: xs) := by
  obtain ⟨hmaxDepth, hmaxLocals⟩ := hmoves.le
  have hdepth : e'.tracker.depth ≤ e'.tracker.maxDepth := by
    have := hext.depth
    rcases hmoves.depth with h | h <;> omega
  refine ⟨hdepth, fun k d hd => ?_, ?_, fun y hy hy' => ?_, hext.params.trans hmaxLocals, ?_,
    fun y hy hy' => ?_, fun hall => ?_, fun hall => ?_⟩
  · rcases hdepths k d hd with rfl | hold
    · exact hdepth
    · exact (hext.expected k d hold).trans hmaxDepth
  · have := hext.maxDepth
    rcases hmoves.depth with h | h <;> omega
  · rcases List.mem_cons.1 hy with rfl | hy
    · rw [(hlive hy').1]
      exact hdepth
    · exact (hext.after y hy hy').trans hmaxDepth
  · have := hext.maxLocals
    rcases hmoves.locals with h | h <;> omega
  · rcases List.mem_cons.1 hy with rfl | hy
    · rw [(hlive hy').2]
      exact Nat.le_max_right _ _
    · exact (hext.locals y hy hy').trans hmaxLocals
  · -- Either the depth after the instruction is a new maximum, or the old one stands.
    obtain ⟨hx, hxs⟩ := List.forall_mem_cons.1 hall
    by_cases hnew : e'.tracker.maxDepth = e'.tracker.depth
    · exact .inr ⟨x, List.mem_cons_self, (hlive hx).1.trans hnew.symm⟩
    · have hold : e'.tracker.maxDepth = e.tracker.maxDepth := by
        rcases hmoves.depth with h | h <;> omega
      rw [hold]
      rcases hext.deepest hxs with hzero | ⟨y, hy, hy'⟩
      · exact .inl hzero
      · exact .inr ⟨y, List.mem_cons_of_mem x hy, hy'⟩
  · obtain ⟨hx, hxs⟩ := List.forall_mem_cons.1 hall
    have hmax := (hlive hx).2
    by_cases hold : e'.tracker.maxLocals = e.tracker.maxLocals
    · rw [hold]
      rcases hext.widest hxs with hp | ⟨y, hy, hy'⟩
      · exact .inl hp
      · exact .inr ⟨y, List.mem_cons_of_mem x hy, hy'⟩
    · refine .inr ⟨x, List.mem_cons_self, ?_⟩
      cases hend : x.instr.localEnd? with
      | none =>
        rw [hend, Option.getD_none, Nat.max_zero] at hmax
        exact absurd hmax hold
      | some stop =>
        rw [hend, Option.getD_some] at hmax
        rw [Option.some.injEq]
        omega

/-- Nothing is written, and the depth may change to one that is expected at a label. -/
theorem Extent.quiet {p : Nat} (hext : Extent p e xs)
    (hdepth : e'.tracker.depth ≤ e.tracker.maxDepth)
    (hmaxDepth : e'.tracker.maxDepth = e.tracker.maxDepth)
    (hmaxLocals : e'.tracker.maxLocals = e.tracker.maxLocals)
    (hdepths : ∀ k d : Nat, e'.labelDepths[k]? = some (some d) →
      d = e'.tracker.depth ∨ e.labelDepths[k]? = some (some d)) : Extent p e' xs := by
  refine ⟨?_, fun k d hd => ?_, ?_, ?_, ?_, ?_, ?_, ?_, ?_⟩
  · rw [hmaxDepth]
    exact hdepth
  · rw [hmaxDepth]
    rcases hdepths k d hd with rfl | hold
    · exact hdepth
    · exact hext.expected k d hold
  · rw [hmaxDepth]
    exact hext.maxDepth
  · rw [hmaxDepth]
    exact hext.after
  · rw [hmaxLocals]
    exact hext.params
  · rw [hmaxLocals]
    exact hext.maxLocals
  · rw [hmaxLocals]
    exact hext.locals
  · rw [hmaxDepth]
    exact hext.deepest
  · rw [hmaxLocals]
    exact hext.widest

/-- What is expected at labels after a depth was set at one of them. -/
theorem eq_or_of_getElem?_setIfInBounds {depths : Array (Option Nat)} {j k x d : Nat}
    (h : (depths.setIfInBounds j (some x))[k]? = some (some d)) :
    d = x ∨ depths[k]? = some (some d) := by
  rw [Array.getElem?_setIfInBounds] at h
  split_ifs at h
  · cases h
    exact .inl rfl
  · exact .inr h

/-- **One step keeps the extent.** -/
theorem Extent.step {p : Nat} (h : Step ret e new e') (hext : Extent p e xs) :
    Extent p e' (new ++ xs) := by
  cases h with
  | intern => exact hext.quiet hext.depth rfl rfl fun _ _ => .inr
  | write _ ht hsound =>
    exact hext.write ht (fun _ _ => .inr) fun hlive =>
      ⟨(hsound hlive).depth.symm, (hsound hlive).locals⟩
  | @branch op l hop hpop _ =>
    obtain ⟨-, -, hlocal, -⟩ := Opcode.shortBranch_facts hop
    refine hext.write (Tracker.moves_lowered _ _)
      (fun _ _ => eq_or_of_getElem?_setIfInBounds) fun _ => ⟨rfl, ?_⟩
    rw [localEnd?_of_none hlocal, Option.getD_none, Nat.max_zero]
    rfl
  | label =>
    refine hext.quiet hext.depth rfl rfl fun k d hd => .inr ?_
    have hpush : (e.labelDepths.push none)[k]? = some (some d) := hd
    rw [Array.getElem?_push] at hpush
    split at hpush
    · cases hpush
    · exact hpush
  | @place l depth _ hfalls hdepth =>
    refine hext.quiet ?_ rfl rfl fun _ _ => eq_or_of_getElem?_setIfInBounds
    rcases hdepth with ⟨-, hr⟩ | hl
    · exact (hfalls hr).trans_le hext.depth
    · exact hext.expected l.id depth hl
  | line ht =>
    exact hext.quiet (ht.depth.trans_le hext.depth) ht.maxDepth ht.maxLocals fun _ _ => .inr

/-! ### Origins -/

/-- Something before the offset leads to it: it is the entry point, it is behind an instruction
that does not end the path, or an earlier instruction branches to it. -/
def Led (e : Emitter) (xs : List Placed) (q : Nat) : Prop :=
  q = 0 ∨ (∃ y ∈ xs, y.stop = q ∧ y.instr.op.isTerminal = false) ∨
    ∃ y ∈ xs, ∃ l, y.pc < q ∧ y.label? = some l ∧ e.assembly.labels[l.id]? = some (some q)

/-- **What control can get to has an origin.** -/
structure Origins (e : Emitter) (xs : List Placed) : Prop where
  tiles : Tiles xs e.assembly.code.toList
  /-- A depth is expected where a label stands or where a branch goes. -/
  waiting : ∀ k d : Nat, e.labelDepths[k]? = some (some d) →
    (∃ q, e.assembly.labels[k]? = some (some q)) ∨ ∃ x ∈ xs, ∃ l, x.label? = some l ∧ l.id = k
  here : e.reachable = true → Led e xs e.assembly.code.size
  led : ∀ x ∈ xs, x.live = true → Led e xs x.pc

theorem Step.placedLabel (h : Step ret e new e') {k q : Nat}
    (hq : e.assembly.labels[k]? = some (some q)) : e'.assembly.labels[k]? = some (some q) := by
  cases h with
  | intern | write | branch | line => exact hq
  | label =>
    obtain ⟨hlt, -⟩ := Array.getElem?_eq_some_iff.1 hq
    show (e.assembly.labels.push none)[k]? = _
    rw [Array.getElem?_push, if_neg (Nat.ne_of_lt hlt)]
    exact hq
  | @place l _ hplace =>
    show (e.assembly.labels.setIfInBounds l.id _)[k]? = _
    rw [Array.getElem?_setIfInBounds_ne]
    · exact hq
    · rintro rfl
      rw [hplace] at hq
      cases hq

theorem Step.led (h : Step ret e new e') {q : Nat} (hq : Led e xs q) : Led e' (new ++ xs) q := by
  rcases hq with hzero | ⟨y, hy, hstop⟩ | ⟨y, hy, l, hlt, hl, hlabel⟩
  · exact .inl hzero
  · exact .inr (.inl ⟨y, List.mem_append_right new hy, hstop⟩)
  · exact .inr (.inr ⟨y, List.mem_append_right new hy, l, hlt, hl, h.placedLabel hlabel⟩)

theorem Step.pc_live (h : Step ret e new e') (hx : x ∈ new) :
    x.pc = e.assembly.code.size ∧ x.live = e.reachable := by
  cases h with
  | intern | label | place | line => cases hx
  | write | branch =>
    obtain rfl := List.mem_singleton.1 hx
    exact ⟨rfl, rfl⟩

/-- A depth that a step makes the expected one at a label. -/
theorem Step.waiting (h : Step ret e new e') {k d : Nat}
    (hold : e.labelDepths[k]? ≠ some (some d)) (hd : e'.labelDepths[k]? = some (some d)) :
    (∃ q, e'.assembly.labels[k]? = some (some q)) ∨
      ∃ x ∈ new, ∃ l, x.label? = some l ∧ l.id = k := by
  cases h with
  | intern | write | line => exact absurd hd hold
  | label =>
    have hpush : (e.labelDepths.push none)[k]? = some (some d) := hd
    rw [Array.getElem?_push] at hpush
    split at hpush
    · cases hpush
    · exact absurd hpush hold
  | @branch op l =>
    have hset : (e.labelDepths.setIfInBounds l.id _)[k]? = some (some d) := hd
    by_cases hk : l.id = k
    · exact .inr ⟨_, List.mem_cons_self, l, rfl, hk⟩
    · rw [Array.getElem?_setIfInBounds_ne hk] at hset
      exact absurd hset hold
  | @place l depth hplace =>
    have hset : (e.labelDepths.setIfInBounds l.id _)[k]? = some (some d) := hd
    by_cases hk : l.id = k
    · subst hk
      refine .inl ⟨e.assembly.code.size, ?_⟩
      show (e.assembly.labels.setIfInBounds l.id _)[l.id]? = _
      rw [Array.getElem?_setIfInBounds, if_pos rfl,
        if_pos (Array.getElem?_eq_some_iff.1 hplace).1]
    · rw [Array.getElem?_setIfInBounds_ne hk] at hset
      exact absurd hset hold

/-- **One step keeps the origins.** -/
theorem Origins.step (h : Step ret e new e') (ho : Origins e xs) : Origins e' (new ++ xs) where
  tiles := h.tiles ho.tiles
  waiting k d hd := by
    by_cases hold : e.labelDepths[k]? = some (some d)
    · rcases ho.waiting k d hold with ⟨q, hq⟩ | ⟨x, hx, hl⟩
      · exact .inl ⟨q, h.placedLabel hq⟩
      · exact .inr ⟨x, List.mem_append_right new hx, hl⟩
    · rcases h.waiting hold hd with hq | ⟨x, hx, hl⟩
      · exact .inl hq
      · exact .inr ⟨x, List.mem_append_left xs hx, hl⟩
  here hr := by
    have hkeep {q : Nat} (hq : Led e xs q) : Led e' (new ++ xs) q := h.led hq
    cases h with
    | intern | label | line => exact hkeep (ho.here hr)
    | write =>
      obtain ⟨-, hterm⟩ := Bool.and_eq_true_iff.1 hr
      exact .inr (.inl ⟨_, List.mem_cons_self, (Assembly.size_append _ _).symm,
        Bool.not_eq_true' _ ▸ hterm⟩)
    | branch =>
      obtain ⟨-, hterm⟩ := Bool.and_eq_true_iff.1 hr
      exact .inr (.inl ⟨_, List.mem_cons_self, (Assembly.size_append _ _).symm,
        Bool.not_eq_true' _ ▸ hterm⟩)
    | @place l depth hplace hfalls hdepth =>
      by_cases hfall : e.reachable = true
      · exact hkeep (ho.here hfall)
      · -- After dead code an earlier branch goes to the label that is placed here.
        have hset : e.labelDepths[l.id]? = some (some depth) :=
          hdepth.resolve_left fun hl => hfall hl.2
        rcases ho.waiting l.id depth hset with ⟨q, hq⟩ | ⟨x, hx, l', hl', hid⟩
        · rw [hplace] at hq
          cases hq
        · refine .inr (.inr ⟨x, hx, l', ho.tiles.pc_lt hx, hl', ?_⟩)
          show (e.assembly.labels.setIfInBounds l.id _)[l'.id]? = _
          rw [hid, Array.getElem?_setIfInBounds, if_pos rfl,
            if_pos (Array.getElem?_eq_some_iff.1 hplace).1]
          rfl
  led := List.forall_mem_append.2
    ⟨fun x hx hlive => by
      obtain ⟨hpc, hreach⟩ := h.pc_live hx
      rw [hpc]
      exact h.led (ho.here (hreach.symm.trans hlive)),
    fun x hx hlive => h.led (ho.led x hx hlive)⟩

theorem origins_ofPool (pool : ConstantPool) (p : Nat) : Origins (ofPool pool p) [] where
  tiles := .nil
  waiting _ _ hd := absurd hd getElem?_empty_ne_some
  here _ := .inl rfl
  led := List.forall_mem_nil _

/-! ### Line marks -/

/-- Line entries stand at instructions or at the end of the code, and in order while a word can
tell offsets apart. -/
structure LineMarks (e : Emitter) (xs : List Placed) : Prop where
  marks : ∀ l ∈ e.assembly.lines, ∃ q, l.startPc = UInt16.ofNat q ∧
    (q = e.assembly.code.size ∨ ∃ x ∈ xs, x.pc = q)
  ordered : e.assembly.code.size ≤ wordMax → e.assembly.OrderedLines

/-- **One step keeps the line marks.** -/
theorem LineMarks.step (h : Step ret e new e') (hm : LineMarks e xs) :
    LineMarks e' (new ++ xs) := by
  cases h with
  | intern | label | place =>
    exact ⟨hm.marks, fun hsize => (hm.ordered hsize).mono rfl (Nat.le_refl _)⟩
  | write | branch =>
    have hle (i : Instruction) : e.assembly.code.size ≤ (e.assembly.append i).code.size := by
      rw [Assembly.size_append]
      exact Nat.le_add_right _ _
    refine ⟨fun l hl => ?_, fun hsize =>
      (hm.ordered (Nat.le_trans (hle _) hsize)).mono rfl (hle _)⟩
    obtain ⟨q, hq, rfl | ⟨x, hx, hpc⟩⟩ := hm.marks l hl
    · exact ⟨_, hq, .inr ⟨_, List.mem_cons_self, rfl⟩⟩
    · exact ⟨q, hq, .inr ⟨x, List.mem_cons_of_mem _ hx, hpc⟩⟩
  | line _ hlines =>
    refine ⟨fun l hl => ?_, fun hsize => ?_⟩
    · rcases hlines with rfl | ⟨line, rfl⟩
      · exact hm.marks l hl
      · rcases Assembly.mem_lines_markLine hl with hold | hnew
        · exact hm.marks l hold
        · exact ⟨_, hnew, .inl rfl⟩
    · rcases hlines with rfl | ⟨line, rfl⟩
      · exact hm.ordered hsize
      · have hmarked := (hm.ordered hsize).markLine hsize line
        rw [Assembly.markLine_eq] at hmarked
        exact hmarked

theorem lineMarks_ofPool (pool : ConstantPool) (p : Nat) : LineMarks (ofPool pool p) [] :=
  ⟨fun l hl => absurd hl (Array.not_mem_empty l),
    fun _ => ⟨.nil, fun l hl => absurd hl (Array.not_mem_empty l)⟩⟩

end ClassForge.Emitter
