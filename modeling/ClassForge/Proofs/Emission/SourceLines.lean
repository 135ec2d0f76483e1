import ClassForge.Proofs.Emission.Composition

/-!
# The source lines of emitted code

Code belongs to the source line noted last before it was emitted, and the line table of a finished
body says so.

* `coveringLine?` — the line that a table gives to an offset, that of the last entry at or before
  it;
* `Emitter.Steady` — code may have been emitted, all of it for the current line;
* `Emitter.LineStep`, `Operation.lineStep_run` — **PROVED**: an operation emits such code, or it
  marks a line and emits none;
* `LineStep.current`, `LineStep.coveringLine?_eq` — **PROVED**: the last entry has the current
  line, and the line of an offset is settled once its byte is emitted;
* `finish_tells_source_lines` — **PROVED**: for every byte of a finished body the table gives the
  line that was current when the byte was emitted.
-/

namespace ClassForge

/-! ### Looking up a line -/

/-- The line that a table gives to an offset: that of the last entry at or before it. -/
def coveringLine? (lines : List LineEntry) (p : Nat) : Option UInt16 :=
  (lines.filter fun l => l.startPc.toNat ≤ p).getLast?.map LineEntry.line

section Lookup

variable {lines later : List LineEntry} {p : Nat}

/-- Entries behind an offset do not matter. -/
theorem coveringLine?_append (h : ∀ l ∈ later, p < l.startPc.toNat) :
    coveringLine? (lines ++ later) p = coveringLine? lines p := by
  have hnone : (later.filter fun l => l.startPc.toNat ≤ p) = [] := by
    rw [List.filter_eq_nil_iff]
    intro l hl
    have := h l hl
    simpa using this
  rw [coveringLine?, List.filter_append, hnone, List.append_nil, coveringLine?]

/-- Behind all entries the last one counts. -/
theorem coveringLine?_of_forall_le (h : ∀ l ∈ lines, l.startPc.toNat ≤ p) :
    coveringLine? lines p = lines.getLast?.map LineEntry.line := by
  rw [coveringLine?, List.filter_eq_self.2 fun l hl => decide_eq_true (h l hl)]

theorem coveringLine?_filter {limit : UInt16} (h : p < limit.toNat) :
    coveringLine? (lines.filter (·.startPc < limit)) p = coveringLine? lines p := by
  unfold coveringLine?
  rw [List.filter_filter]
  congr 2
  refine List.filter_congr fun l _ => ?_
  by_cases hle : l.startPc.toNat ≤ p
  · have hlt : l.startPc < limit := UInt16.lt_iff_toNat_lt.2 (Nat.lt_of_le_of_lt hle h)
    simp [hle, hlt]
  · simp [hle]

end Lookup

namespace Assembly

variable {a : Assembly} {line : UInt16}

/-- After a mark the last entry has its line. -/
theorem getLast?_markLine (a : Assembly) (line : UInt16) :
    (a.markLine line).lines.toList.getLast?.map LineEntry.line = some line := by
  unfold markLine
  cases hlast : a.lines.back? with
  | none => simp
  | some last =>
    dsimp only
    split_ifs with hpc hline
    · simp
    · rw [Array.getLast?_toList, hlast, Option.map_some, hline]
    · simp

/-- A mark leaves the line of every offset within the code. -/
theorem coveringLine?_markLine (hsize : a.code.size ≤ wordMax) {p : Nat} (hp : p < a.code.size) :
    coveringLine? (a.markLine line).lines.toList p = coveringLine? a.lines.toList p := by
  have hbehind : p < (UInt16.ofNat a.code.size).toNat := by rwa [toNat_ofNat_of_le hsize]
  rcases lines_markLine a line with hsame | ⟨kept, hnew, hold⟩
  · rw [hsame]
  · rw [hnew, coveringLine?_append (by simpa using hbehind)]
    rcases hold with ⟨last, hlast, hpc⟩ | ⟨hkept, -⟩
    · rw [hlast, coveringLine?_append (by simpa [hpc] using hbehind)]
    · rw [hkept]

end Assembly

/-- The operations that note a source line. -/
def Operation.isNote : Operation → Bool
  | .noteLine _ | .noteEnd => true
  | _ => false

namespace Emitter

open Emit

variable {α β : Type} {e e' f : Emitter}

/-! ### Code for the current line -/

/-- Code may have been emitted, all of it for the current line. -/
structure Steady (e e' : Emitter) : Prop where
  lines : e'.assembly.lines = e.assembly.lines
  line : e'.tracker.line = e.tracker.line
  size : e.assembly.code.size ≤ e'.assembly.code.size

theorem Steady.refl (e : Emitter) : Steady e e := ⟨rfl, rfl, Nat.le_refl _⟩

theorem Steady.trans (h : Steady e e') (h' : Steady e' f) : Steady e f :=
  ⟨h'.lines.trans h.lines, h'.line.trans h.line, Nat.le_trans h.size h'.size⟩

/-- **The contract of an action** that leaves the source line alone. Actions are put together from
such actions, so the contract of an operation is found by following its code. -/
class KeepsLine (x : Emit α) : Prop where
  steady : ∀ e a e', x e = .ok (a, e') → Steady e e'

instance (a : α) : KeepsLine (pure a : Emit α) where
  steady e b e' h := by
    obtain ⟨-, rfl⟩ := pure_eq_ok.1 h
    exact .refl e

instance (d : Defect) : KeepsLine (throw d : Emit α) where
  steady _ _ _ h := absurd h throw_ne_ok

instance (x : Except Defect α) : KeepsLine (liftM x : Emit α) where
  steady e a e' h := by
    obtain ⟨-, rfl⟩ := liftM_eq_ok.1 h
    exact .refl e

instance {x : Emit α} {k : α → Emit β} [hx : KeepsLine x] [hk : ∀ a, KeepsLine (k a)] :
    KeepsLine (x >>= k) where
  steady e b e'' h := by
    obtain ⟨a, e', hrun, hrest⟩ := bind_eq_ok.1 h
    exact (hx.steady e a e' hrun).trans ((hk a).steady e' b e'' hrest)

instance {c : Prop} [Decidable c] {x y : Emit α} [KeepsLine x] [KeepsLine y] :
    KeepsLine (if c then x else y) := by
  split <;> infer_instance

/-! ### Parts of the emitter -/

theorem keepsLine_assemble {f : Assembly → Assembly}
    (h : ∀ a, (f a).lines = a.lines ∧ a.code.size ≤ (f a).code.size) : KeepsLine (assemble f) where
  steady e _ e' hrun := by
    cases hrun
    exact ⟨(h e.assembly).1, rfl, (h e.assembly).2⟩

instance (op : Opcode) : KeepsLine (writeOp op) :=
  keepsLine_assemble fun a => ⟨rfl, by simp [Assembly.writeOp, Assembly.writeByte]⟩

instance (b : UInt8) : KeepsLine (writeByte b) :=
  keepsLine_assemble fun a => ⟨rfl, by simp [Assembly.writeByte]⟩

instance (op : Opcode) (w : UInt16) : KeepsLine (writeLinked op w) :=
  keepsLine_assemble fun a =>
    ⟨rfl, by simp [Assembly.writeOp, Assembly.writeByte, Assembly.writeWord]⟩

theorem keepsLine_track {f : Tracker → Except Defect Tracker}
    (h : ∀ t t', f t = .ok t' → t'.line = t.line) : KeepsLine (track f) where
  steady e _ e' hrun := by
    obtain ⟨t, ht, rfl⟩ := track_eq_ok.1 hrun
    exact ⟨rfl, h _ _ ht, Nat.le_refl _⟩

instance (n : Nat) : KeepsLine (push n) := by
  refine keepsLine_track fun t t' h => ?_
  obtain ⟨depth, -, h⟩ := Except.bind_eq_ok.1 h
  cases h
  rfl

instance (n : Nat) : KeepsLine (pop n) := by
  refine keepsLine_track fun t t' h => ?_
  unfold Tracker.pop at h
  split at h <;> cases h
  rfl

instance (slot width : Nat) : KeepsLine (noteLocal slot width) := by
  refine keepsLine_track fun t t' h => ?_
  obtain ⟨stop, -, h⟩ := Except.bind_eq_ok.1 h
  cases h
  rfl

instance : KeepsLine checkBalanced := by
  refine keepsLine_track fun t t' h => ?_
  obtain ⟨_, -, h⟩ := Except.bind_eq_ok.1 h
  cases h
  rfl

instance (f : ConstantPool → UInt16 × ConstantPool) : KeepsLine (intern f) where
  steady e _ e' h := by
    obtain ⟨-, rfl⟩ := intern_eq_ok.1 h
    exact ⟨rfl, rfl, Nat.le_refl _⟩

instance (op : Opcode) : KeepsLine (leave op) where
  steady e _ e' h := by
    obtain rfl := leave_eq_ok.1 h
    exact ⟨rfl, rfl, Nat.le_refl _⟩

instance : KeepsLine newLabel where
  steady e l e' h := by
    obtain ⟨-, rfl⟩ := newLabel_eq_ok.1 h
    exact ⟨rfl, rfl, Nat.le_refl _⟩

instance (op : Opcode) (l : Label) : KeepsLine (branch op l) where
  steady e _ e' h := by
    obtain ⟨hshort, -, -, rfl⟩ := branch_eq_ok.1 h
    refine ⟨rfl, rfl, ?_⟩
    show e.assembly.code.size ≤ (Assembly.append _ _).code.size
    rw [Assembly.size_append]
    exact Nat.le_add_right _ _

instance (l : Label) : KeepsLine (placeLabel l) where
  steady e _ e' h := by
    obtain ⟨-, depth, -, -, rfl⟩ := placeLabel_eq_ok.1 h
    exact ⟨rfl, rfl, Nat.le_refl _⟩

/-! ### Instructions -/

instance (op : Opcode) : KeepsLine (emit op) := by
  unfold emit
  cases op.fixedEffect? <;> infer_instance

instance (index : UInt16) : KeepsLine (loadConstant index) := by
  unfold loadConstant
  infer_instance

instance (index : UInt16) : KeepsLine (loadWideConstant index) := by
  unfold loadWideConstant
  infer_instance

instance (value : Int32) : KeepsLine (intConst value) := by
  unfold intConst
  infer_instance

instance (value : Int64) : KeepsLine (longConst value) := by
  unfold longConst
  infer_instance

instance (bits : UInt32) : KeepsLine (floatConst bits) := by
  unfold floatConst
  infer_instance

instance (bits : UInt64) : KeepsLine (doubleConst bits) := by
  unfold doubleConst
  infer_instance

instance (type : JavaType) : KeepsLine (zeroOf type) := by
  unfold zeroOf nullConst
  cases type <;> infer_instance

instance (first general : Opcode) (slot width : Nat) :
    KeepsLine (accessLocal first general slot width) := by
  unfold accessLocal slotByte
  infer_instance

instance (type : JavaType) : KeepsLine (popValue type) := by
  unfold popValue
  split <;> infer_instance

instance (type : JavaType) : KeepsLine (dupValue type) := by
  unfold dupValue
  split <;> infer_instance

instance (type : MethodType) (receiver : Bool) : KeepsLine (call type receiver) := by
  unfold call
  infer_instance

instance (type : JavaType) : KeepsLine (checkCast type) := by
  unfold checkCast
  cases type.className? <;> infer_instance

instance (type : JavaType) : KeepsLine (instanceOf type) := by
  unfold instanceOf
  cases type.className? <;> infer_instance

instance (element : JavaType) : KeepsLine (newRefArray element) := by
  unfold newRefArray
  cases element.className? <;> infer_instance

/-! ### Conversions -/

instance {test x y : Emit Unit} [KeepsLine test] [KeepsLine x] [KeepsLine y] (op : Opcode) :
    KeepsLine (fork test op x y) := by
  unfold fork goto
  have hjoin (taken done : Label) :
      KeepsLine (do branch .goto done; placeLabel taken; y; placeLabel done) := inferInstance
  infer_instance

instance (source : JavaType) : KeepsLine (emitTruthy source) := by
  rw [emitTruthy_eq]
  cases Conversion.categoryOf source <;> infer_instance

instance (target : JavaType) (cast : Bool) : KeepsLine (emitUnbox target cast) := by
  cases hmethod : target.unboxMethod? with
  | none =>
    unfold emitUnbox
    rw [hmethod]
    infer_instance
  | some accessor =>
    rw [emitUnbox_eq hmethod]
    unfold invokeVirtual
    cases cast <;> infer_instance

instance (step : ConversionStep) : KeepsLine (emitStep step) := by
  cases step with
  | box source =>
    unfold emitStep invokeStatic
    dsimp only
    cases source.boxClass? <;> infer_instance
  | _ =>
    unfold emitStep
    dsimp only [invokeStatic]
    infer_instance

instance (steps : List ConversionStep) : KeepsLine (emitSteps steps) := by
  induction steps with
  | nil =>
    unfold emitSteps
    infer_instance
  | cons step steps ih =>
    unfold emitSteps
    infer_instance

/-! ### Steps -/

/-- The two things that an operation can do: emit code for the current line, or mark a line. -/
inductive LineStep (e e' : Emitter) : Prop where
  | steady (h : Steady e e')
  | mark (line : UInt32) (hassembly : e'.assembly = e.assembly.markLine (lineWord line))
      (hline : e'.tracker.line = some line)

/-- The tracker answers the line that it then has, or it keeps the one it had. -/
def Answers (t : Tracker) (r : Option UInt32 × Tracker) : Prop :=
  r.2.line = (r.1 <|> t.line)

theorem answers_noteLine (t : Tracker) (line : UInt32) : Answers t (t.noteLine line) := by
  unfold Answers Tracker.noteLine
  split <;> rfl

theorem answers_noteEnd (t : Tracker) : Answers t t.noteEnd := by
  unfold Answers Tracker.noteEnd
  cases hline : t.line with
  | none => exact hline
  | some line =>
    dsimp only
    split
    · exact hline
    · rfl

theorem lineStep_markLine {noted : Tracker → Option UInt32 × Tracker}
    (hnoted : ∀ t, Answers t (noted t)) {u : Unit} (h : markLine noted e = .ok (u, e')) :
    LineStep e e' := by
  have hline := hnoted e.tracker
  unfold markLine at h
  cases hr : noted e.tracker with
  | mk line? t =>
    rw [hr] at h hline
    cases line? with
    | none =>
      cases h
      exact .steady ⟨rfl, hline, Nat.le_refl _⟩
    | some line =>
      cases h
      exact .mark line rfl hline

/-! ### Operations -/

/-- **Every operation but those leaves the source line alone.** -/
theorem keepsLine_run (op : Operation) (h : op.isNote = false) : KeepsLine op.run := by
  cases op with
  | noteLine | noteEnd => cases h
  | _ =>
    dsimp only [Operation.run, nullConst, textConst, load, store, loadRef, storeRef, increment,
      slotByte, getField, putField, getStatic, putStatic, invokeVirtual, invokeSpecial,
      invokeStatic, invokeInterface, newObject, goto, returnValue, convert]
    infer_instance

/-- The step: one operation. -/
theorem lineStep_run {op : Operation} (h : op.run e = .ok ((), e')) : LineStep e e' := by
  cases hnote : op.isNote with
  | false => exact .steady ((keepsLine_run op hnote).steady e () e' h)
  | true =>
    cases op with
    | noteLine line => exact lineStep_markLine (fun t => answers_noteLine t line) h
    | noteEnd => exact lineStep_markLine answers_noteEnd h
    | _ => cases hnote

/-! ### Runs -/

open Relation in
theorem lineSteps_of_runAll {ops : List Operation} :
    ∀ {e : Emitter}, Operation.runAll ops e = .ok ((), e') → ReflTransGen LineStep e e' := by
  induction ops with
  | nil =>
    intro e h
    obtain ⟨-, rfl⟩ := pure_eq_ok.1 h
    exact .refl
  | cons op ops ih =>
    intro e h
    obtain ⟨_, e₁, hop, hrest⟩ := bind_eq_ok.1 h
    exact .head (lineStep_run hop) (ih hrest)

/-- The line table is in order, and its last entry has the current line. -/
structure Current (e : Emitter) : Prop where
  ordered : e.assembly.OrderedLines
  last : e.assembly.lines.toList.getLast?.map LineEntry.line = e.tracker.line.map lineWord

theorem current_ofPool (pool : ConstantPool) (slots : Nat) : Current (ofPool pool slots) :=
  ⟨(lineMarks_ofPool pool slots).ordered (Nat.zero_le _), rfl⟩

/-- Behind all entries the current line counts. -/
theorem Current.coveringLine?_eq (h : Current e) {p : Nat} (hp : e.assembly.code.size ≤ p) :
    coveringLine? e.assembly.lines.toList p = e.tracker.line.map lineWord := by
  rw [coveringLine?_of_forall_le, h.last]
  intro l hl
  exact Nat.le_trans (h.ordered.within l (Array.mem_toList_iff.1 hl)) hp

namespace LineStep

theorem size_le (h : LineStep e e') : e.assembly.code.size ≤ e'.assembly.code.size := by
  cases h with
  | steady h => exact h.size
  | mark line hassembly _ =>
    rw [hassembly, Assembly.markLine_eq]

theorem current (h : LineStep e e') (hsize : e'.assembly.code.size ≤ wordMax) (hc : Current e) :
    Current e' := by
  have hsize' := Nat.le_trans h.size_le hsize
  cases h with
  | steady h =>
    refine ⟨hc.ordered.mono h.lines h.size, ?_⟩
    rw [h.lines, h.line, hc.last]
  | mark line hassembly hline =>
    refine ⟨hassembly ▸ hc.ordered.markLine hsize' _, ?_⟩
    rw [hassembly, hline, Assembly.getLast?_markLine]
    rfl

/-- The line of an offset is settled once its byte is emitted. -/
theorem coveringLine?_eq (h : LineStep e e') (hsize : e'.assembly.code.size ≤ wordMax) {p : Nat}
    (hp : p < e.assembly.code.size) :
    coveringLine? e'.assembly.lines.toList p = coveringLine? e.assembly.lines.toList p := by
  have hsize' := Nat.le_trans h.size_le hsize
  cases h with
  | steady h => rw [h.lines]
  | mark line hassembly _ => rw [hassembly, Assembly.coveringLine?_markLine hsize' hp]

end LineStep

section Runs

open Relation

theorem size_le_of_lineSteps (h : ReflTransGen LineStep e e') :
    e.assembly.code.size ≤ e'.assembly.code.size := by
  induction h with
  | refl => exact Nat.le_refl _
  | tail _ hstep ih => exact Nat.le_trans ih hstep.size_le

theorem current_of_lineSteps (h : ReflTransGen LineStep e e')
    (hsize : e'.assembly.code.size ≤ wordMax) (hc : Current e) : Current e' := by
  induction h with
  | refl => exact hc
  | tail _ hstep ih => exact hstep.current hsize (ih (Nat.le_trans hstep.size_le hsize))

theorem coveringLine?_of_lineSteps (h : ReflTransGen LineStep e e')
    (hsize : e'.assembly.code.size ≤ wordMax) {p : Nat} (hp : p < e.assembly.code.size) :
    coveringLine? e'.assembly.lines.toList p = coveringLine? e.assembly.lines.toList p := by
  induction h with
  | refl => rfl
  | tail hsteps hstep ih =>
    rw [hstep.coveringLine?_eq hsize (Nat.lt_of_lt_of_le hp (size_le_of_lineSteps hsteps)),
      ih (Nat.le_trans hstep.size_le hsize)]

end Runs

/-! ### Entries stand at instructions -/

theorem Tiles.unique {xs : List Placed} {bytes bytes' : List UInt8} (h : Tiles xs bytes)
    (h' : Tiles xs bytes') : bytes = bytes' := by
  induction h generalizing bytes' with
  | nil => cases h'; rfl
  | cons _ _ ih =>
    cases h' with
    | cons h' _ => rw [ih h']

/-- Where some instructions end, a later one starts, unless nothing follows. -/
theorem Tiles.exists_start {xs new : List Placed} {bytes : List UInt8} (h : Tiles xs bytes) :
    ∀ {bytes' : List UInt8}, Tiles (new ++ xs) bytes' →
      bytes.length = bytes'.length ∨ ∃ x ∈ new, x.pc = bytes.length := by
  induction new with
  | nil =>
    intro bytes' h'
    exact .inl (by rw [h.unique h'])
  | cons x new ih =>
    intro bytes' h'
    cases h' with
    | cons hrest hpc =>
      rcases ih hrest with hlength | ⟨y, hy, hstart⟩
      · exact .inr ⟨x, List.mem_cons_self, hpc.trans hlength.symm⟩
      · exact .inr ⟨y, List.mem_cons_of_mem x hy, hstart⟩

theorem LineStep.lineMarks {xs new : List Placed} (h : LineStep e e') (hm : LineMarks e xs)
    (horderly : Orderly e xs) (horderly' : Orderly e' (new ++ xs)) :
    LineMarks e' (new ++ xs) := by
  refine ⟨fun l hl => ?_, horderly'.lines⟩
  have hnext : e.assembly.code.size = e'.assembly.code.size ∨
      ∃ x ∈ new ++ xs, x.pc = e.assembly.code.size := by
    have hstart := horderly.composed.tiles.exists_start horderly'.composed.tiles
    simp only [Array.length_toList] at hstart
    exact hstart.imp_right fun ⟨x, hx, hpc⟩ => ⟨x, List.mem_append_left _ hx, hpc⟩
  have hplaced : l ∈ e.assembly.lines ∨ l.startPc = UInt16.ofNat e.assembly.code.size := by
    cases h with
    | steady h => exact .inl (h.lines ▸ hl)
    | mark line hassembly _ =>
      rw [hassembly] at hl
      exact Assembly.mem_lines_markLine hl
  rcases hplaced with hold | hnew
  · obtain ⟨q, hq, rfl | ⟨x, hx, hpc⟩⟩ := hm.marks l hold
    · exact ⟨_, hq, hnext⟩
    · exact ⟨q, hq, .inr ⟨x, List.mem_append_right _ hx, hpc⟩⟩
  · exact ⟨_, hnew, hnext⟩

theorem exists_lineMarks_of_runAll {ops : List Operation} :
    ∀ {e : Emitter} {xs : List Placed}, Operation.runAll ops e = .ok ((), e') → Orderly e xs →
      LineMarks e xs → ∃ ys, Orderly e' ys ∧ LineMarks e' ys := by
  induction ops with
  | nil =>
    intro e xs h horderly hm
    obtain ⟨-, rfl⟩ := pure_eq_ok.1 h
    exact ⟨xs, horderly, hm⟩
  | cons op ops ih =>
    intro e xs h horderly hm
    obtain ⟨_, e₁, hop, hrest⟩ := bind_eq_ok.1 h
    obtain ⟨new, -, hnew, -⟩ := op.writes_run e () e₁ hop
    have horderly' := hnew xs horderly
    exact ih hrest horderly' ((lineStep_run hop).lineMarks hm horderly horderly')

/-! ### When a line has been noted -/

theorem tracker_markLine {noted : Tracker → Option UInt32 × Tracker} {u : Unit}
    (h : markLine noted e = .ok (u, e')) : e'.tracker = (noted e.tracker).2 := by
  unfold markLine at h
  cases hr : noted e.tracker with
  | mk line? t =>
    rw [hr] at h
    cases line? <;> cases h <;> rfl

/-- There is no current line until one is noted; the end of the code alone notes none. -/
theorem line_run_eq_none_iff {op : Operation} (h : op.run e = .ok ((), e')) :
    e'.tracker.line = none ↔ e.tracker.line = none ∧ ∀ n, op ≠ .noteLine n := by
  cases hnote : op.isNote with
  | false =>
    have hother : ∀ n, op ≠ .noteLine n := by
      rintro n rfl
      cases hnote
    rw [((keepsLine_run op hnote).steady e () e' h).line]
    exact (and_iff_left hother).symm
  | true =>
    cases op with
    | noteLine line =>
      have hmark : markLine (·.noteLine line) e = .ok ((), e') := h
      have hline : e'.tracker.line = some line := by
        rw [tracker_markLine hmark, Tracker.noteLine]
        split
        · assumption
        · rfl
      simp [hline]
    | noteEnd =>
      have hmark : markLine (·.noteEnd) e = .ok ((), e') := h
      rw [tracker_markLine hmark, Tracker.noteEnd]
      cases hline : e.tracker.line with
      | none => simp [hline]
      | some line =>
        dsimp only
        split <;> simp [hline]
    | _ => cases hnote

theorem line_runAll_eq_none_iff {ops : List Operation} :
    ∀ {e : Emitter}, Operation.runAll ops e = .ok ((), e') →
      (e'.tracker.line = none ↔ e.tracker.line = none ∧ ∀ n, .noteLine n ∉ ops) := by
  induction ops with
  | nil =>
    intro e h
    obtain ⟨-, rfl⟩ := pure_eq_ok.1 h
    simp
  | cons op ops ih =>
    intro e h
    obtain ⟨_, e₁, hop, hrest⟩ := bind_eq_ok.1 h
    rw [ih hrest, line_run_eq_none_iff hop]
    simp only [List.mem_cons, not_or, forall_and, and_assoc, ne_comm]

end Emitter

/-! ### The line of every byte -/

namespace Operation

open Emitter Emit

variable {start e : Emitter} {ops before : List Operation} {p : Nat}

/-- Of some operations, the one after the first ones writes the byte at an offset: it finds the
emitter `f` and leaves `f'`. -/
structure EmittedAfter (start : Emitter) (ops before : List Operation) (p : Nat)
    (f f' : Emitter) : Prop where
  next : ∃ op after, ops = before ++ op :: after ∧ op.run f = .ok ((), f')
  ran : runAll before start = .ok ((), f)
  le : f.assembly.code.size ≤ p
  lt : p < f'.assembly.code.size

theorem runAll_append {xs ys : List Operation} {f : Emitter}
    (hxs : runAll xs start = .ok ((), f)) (h : runAll (xs ++ ys) start = .ok ((), e)) :
    runAll ys f = .ok ((), e) := by
  obtain ⟨f', hxs', hys⟩ := runAll_append_eq_ok.1 h
  cases hxs.symm.trans hxs'
  exact hys

/-- Every byte is written by one of the operations. -/
theorem exists_emittedAfter (hrun : runAll ops start = .ok ((), e))
    (hle : start.assembly.code.size ≤ p) (hlt : p < e.assembly.code.size) :
    ∃ before f f', EmittedAfter start ops before p f f' := by
  induction ops generalizing start with
  | nil =>
    obtain ⟨-, rfl⟩ := pure_eq_ok.1 hrun
    omega
  | cons op ops ih =>
    obtain ⟨_, e₁, hop, hrest⟩ := bind_eq_ok.1 hrun
    by_cases hp : p < e₁.assembly.code.size
    · exact ⟨[], start, e₁, ⟨op, ops, rfl, hop⟩, rfl, hle, hp⟩
    · obtain ⟨before, f, f', ⟨op', after, hops, hnext⟩, hran, hfrom, hto⟩ :=
        ih hrest (Nat.le_of_not_lt hp)
      refine ⟨op :: before, f, f', ⟨op', after, by rw [hops]; rfl, hnext⟩, ?_, hfrom, hto⟩
      exact bind_eq_ok.2 ⟨(), e₁, hop, hran⟩

/-- An operation that writes code does so for the current line. -/
theorem EmittedAfter.steady {f f' : Emitter} (h : EmittedAfter start ops before p f f') :
    Steady f f' := by
  obtain ⟨op, after, -, hnext⟩ := h.next
  cases lineStep_run hnext with
  | steady hsteady => exact hsteady
  | mark line hassembly _ =>
    have hsame : f'.assembly.code = f.assembly.code := by rw [hassembly, Assembly.markLine_eq]
    have hlt := h.lt
    have hle := h.le
    rw [hsame] at hlt
    omega

/-- **A byte keeps the line that was current when it was written.** -/
theorem EmittedAfter.coveringLine?_eq {f f' : Emitter} (h : EmittedAfter start ops before p f f')
    (hstart : Current start) (hrun : runAll ops start = .ok ((), e))
    (hsize : e.assembly.code.size ≤ wordMax) :
    coveringLine? e.assembly.lines.toList p = f.tracker.line.map lineWord := by
  obtain ⟨op, after, hops, hnext⟩ := h.next
  rw [hops] at hrun
  obtain ⟨_, e₁, hop, hafter⟩ := bind_eq_ok.1 (runAll_append h.ran hrun)
  rw [hnext, Except.ok.injEq, Prod.mk.injEq] at hop
  obtain ⟨-, rfl⟩ := hop
  have hlater := lineSteps_of_runAll hafter
  have hfits : f.assembly.code.size ≤ wordMax :=
    Nat.le_trans h.steady.size (Nat.le_trans (size_le_of_lineSteps hlater) hsize)
  have hcurrent : Current f := current_of_lineSteps (lineSteps_of_runAll h.ran) hfits hstart
  rw [coveringLine?_of_lineSteps hlater hsize h.lt, h.steady.lines, hcurrent.coveringLine?_eq h.le]

/-- The operation that writes a byte, found by evaluation. -/
theorem exists_emittedAfter_of_any (start : Emitter) (before : List Operation) (op : Operation)
    (after : List Operation) (p : Nat) (line? : Option UInt32)
    (h : (runAll before start).toOption.any (fun r => decide (r.2.assembly.code.size ≤ p) &&
      r.2.tracker.line == line? &&
      (op.run r.2).toOption.any fun r' => decide (p < r'.2.assembly.code.size)) = true) :
    ∃ f f', EmittedAfter start (before ++ op :: after) before p f f' ∧ f.tracker.line = line? := by
  obtain ⟨⟨_, f⟩, hbefore, h⟩ := Except.exists_ok_of_any h
  obtain ⟨h, hnext⟩ := Bool.and_eq_true_iff.1 h
  obtain ⟨hle, hline⟩ := Bool.and_eq_true_iff.1 h
  obtain ⟨⟨_, f'⟩, hop, hlt⟩ := Except.exists_ok_of_any hnext
  exact ⟨f, f', ⟨⟨op, after, rfl, hop⟩, hbefore, of_decide_eq_true hle, of_decide_eq_true hlt⟩,
    beq_iff_eq.1 hline⟩

end Operation

theorem Emitter.toNat_lineWord (line : UInt32) : (lineWord line).toNat = min line.toNat 65535 := by
  rw [lineWord, Assembly.toNat_ofNat_of_le (Nat.min_le_right _ _)]
  rfl

open Operation Inspection in
/-- **The line table says which source line code belongs to.** Operations in any order note source
lines and emit code. If the body is finished, its entries are in strictly rising order, stand at
instructions within the code, and give every byte the line that was current when an operation
wrote it, up to the largest word; a byte has no entry exactly if no line had been noted by then. -/
theorem finish_tells_source_lines {pool : ConstantPool} {slots : Nat} {ops : List Operation}
    {e : Emitter} {body : MethodBody} (hrun : runAll ops (.ofPool pool slots) = .ok ((), e))
    (hfinish : e.finish = .ok body) :
    (body.lines.Pairwise fun l l' => l.startPc < l'.startPc) ∧
    (∃ starts, boundaries body.code = .ok starts ∧ ∀ l ∈ body.lines,
      l.startPc.toNat < body.code.size ∧ isStart starts l.startPc.toNat = true) ∧
    ∀ p < body.code.size,
      (∃ before f f', EmittedAfter (.ofPool pool slots) ops before p f f') ∧
      ∀ before f f', EmittedAfter (.ofPool pool slots) ops before p f f' →
        f'.tracker.line = f.tracker.line ∧
        (coveringLine? body.lines p).map UInt16.toNat
          = f.tracker.line.map (fun line => min line.toNat 65535) ∧
        (coveringLine? body.lines p = none ↔ ∀ line, .noteLine line ∉ before) := by
  obtain ⟨xs, horderly, hmarks⟩ := Emitter.exists_lineMarks_of_runAll hrun
    (Emitter.orderly_ofPool pool slots) (Emitter.lineMarks_ofPool pool slots)
  obtain ⟨hfits, -, hbody⟩ := Assembly.finish_eq_ok hfinish
  have hlines : body.lines = e.assembly.lines.toList.filter
      (·.startPc < UInt16.ofNat e.assembly.code.size) := by rw [hbody]
  obtain ⟨starts, hstarts⟩ := horderly.composed.exists_boundaries hfinish
  refine ⟨?_, ⟨starts, hstarts, hmarks.isStart horderly.composed hfinish hstarts⟩, fun p hp => ?_⟩
  · rw [hlines]
    exact (horderly.lines hfits).rising.sublist List.filter_sublist
  rw [horderly.composed.size_code hfinish] at hp
  refine ⟨exists_emittedAfter hrun (Nat.zero_le p) hp, fun before f f' h => ?_⟩
  have hcover : coveringLine? body.lines p = f.tracker.line.map Emitter.lineWord := by
    rw [hlines, coveringLine?_filter (by rwa [Assembly.toNat_ofNat_of_le hfits])]
    exact h.coveringLine?_eq (Emitter.current_ofPool pool slots) hrun hfits
  refine ⟨h.steady.line, ?_, ?_⟩
  · rw [hcover, Option.map_map]
    exact congrArg (f.tracker.line.map ·) (funext Emitter.toNat_lineWord)
  · rw [hcover, Option.map_eq_none_iff, Emitter.line_runAll_eq_none_iff h.ran]
    exact and_iff_right rfl

/-- A mark that is replaced before any code follows it, a line that is noted twice, two lines beyond
the largest word, and a mark at the end of the code. -/
def markedOps : List Operation :=
  [.emit .nop, .noteLine 5, .noteLine 9, .emit .nop, .noteLine 9, .emit .nop, .noteLine 70000,
    .noteEnd, .emit .returnVoid, .noteLine 12]

open Operation in
theorem coveringLine?_of_noteLine :
    ∃ e body, runAll markedOps (.ofPool .empty 1) = .ok ((), e) ∧ e.finish = .ok body ∧
      body.lines.map (fun l => (l.startPc, l.line)) = [(1, 9), (3, 65535)] ∧
      coveringLine? body.lines 0 = none ∧
      (coveringLine? body.lines 1).map UInt16.toNat = some 9 ∧
      (coveringLine? body.lines 2).map UInt16.toNat = some 9 ∧
      (coveringLine? body.lines 3).map UInt16.toNat = some 65535 := by
  have heval : (runAll markedOps (.ofPool .empty 1)).toOption.any (fun r =>
      r.2.finish.toOption.any fun body => body.code.size == 4 &&
        body.lines.map (fun l => (l.startPc, l.line)) == [(1, 9), (3, 65535)]) = true := by
    decide +kernel
  obtain ⟨⟨_, e⟩, hrun, heval⟩ := Except.exists_ok_of_any heval
  obtain ⟨body, hfinish, heval⟩ := Except.exists_ok_of_any heval
  obtain ⟨hsize, hlines⟩ := Bool.and_eq_true_iff.1 heval
  have hcovers := (finish_tells_source_lines hrun hfinish).2.2
  rw [beq_iff_eq.1 hsize] at hcovers
  refine ⟨e, body, hrun, hfinish, beq_iff_eq.1 hlines, ?_, ?_, ?_, ?_⟩
  · obtain ⟨f, f', hafter, -⟩ := exists_emittedAfter_of_any (.ofPool .empty 1) [] (.emit .nop)
      (markedOps.drop 1) 0 none (by decide +kernel)
    exact ((hcovers 0 (by decide)).2 _ f f' hafter).2.2.2 nofun
  · obtain ⟨f, f', hafter, hline⟩ := exists_emittedAfter_of_any (.ofPool .empty 1)
      (markedOps.take 3) (.emit .nop) (markedOps.drop 4) 1 (some 9) (by decide +kernel)
    rw [((hcovers 1 (by decide)).2 _ f f' hafter).2.1, hline]
    rfl
  · obtain ⟨f, f', hafter, hline⟩ := exists_emittedAfter_of_any (.ofPool .empty 1)
      (markedOps.take 5) (.emit .nop) (markedOps.drop 6) 2 (some 9) (by decide +kernel)
    rw [((hcovers 2 (by decide)).2 _ f f' hafter).2.1, hline]
    rfl
  · obtain ⟨f, f', hafter, hline⟩ := exists_emittedAfter_of_any (.ofPool .empty 1)
      (markedOps.take 8) (.emit .returnVoid) (markedOps.drop 9) 3 (some 70001) (by decide +kernel)
    rw [((hcovers 3 (by decide)).2 _ f f' hafter).2.1, hline]
    rfl

end ClassForge
