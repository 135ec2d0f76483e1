import ClassForge.Proofs.Emission.Action

/-!
# Allocation of local slots

A tracker counts the local slots in use, the parameters among them. Slots are allocated on top of
the counter and released from there, and other slots may be noted as accessed.

* `SlotLedger` — what a run did: the slots that are allocated, those released in excess, and every
  range that was allocated or noted;
* `SlotLedger.History` — the ledgers and trackers that runs of tracker operations lead to;
* `SlotLedger.Agrees` — **the invariant**: the allocated slots lie in a row below the counter, and
  what was released in excess came out of the parameters;
* `SlotLedger.local_allocation` — **PROVED**: an allocation meets no allocated slot, it is above the
  parameters exactly if the excess has been made up for, and the maximum covers every range.
-/

namespace ClassForge

/-! ### Ranges -/

/-- Local slots in a row. -/
structure SlotRange where
  index : Nat
  width : Nat

namespace SlotRange

/-- The slot behind a range. -/
def stop (r : SlotRange) : Nat := r.index + r.width

/-- The slots of a range, the last one first. -/
def slots (r : SlotRange) : List Nat := (List.range' r.index r.width).reverse

theorem mem_slots {r : SlotRange} {k : Nat} : k ∈ r.slots ↔ r.index ≤ k ∧ k < r.stop := by
  rw [slots, List.mem_reverse, List.mem_range'_1, stop]

@[simp]
theorem length_slots (r : SlotRange) : r.slots.length = r.width := by
  simp [slots]

/-- A range on top of another one. -/
theorem slots_append (i n m : Nat) :
    slots ⟨i + n, m⟩ ++ slots ⟨i, n⟩ = slots ⟨i, n + m⟩ := by
  unfold slots
  rw [← List.reverse_append, List.range'_append_1]

/-- A range without its last slots. -/
theorem drop_slots (i : Nat) {n m : Nat} (h : m ≤ n) :
    (slots ⟨i, n⟩).drop m = slots ⟨i, n - m⟩ := by
  have hsplit := slots_append i (n - m) m
  rw [Nat.sub_add_cancel h] at hsplit
  rw [← hsplit]
  exact List.drop_left' (length_slots _)

end SlotRange

/-! ### Tracked slots -/

section Tracked

variable {t t' : Tracker} {n width : Nat} {answer : Option Nat} {op : Tracking}

theorem Tracker.addLocals_eq_ok :
    t.addLocals n = .ok t' ↔ t.locals + n ≤ wordMax ∧
      t' = { t with locals := t.locals + n, maxLocals := max t.maxLocals (t.locals + n) } := by
  unfold Tracker.addLocals
  rw [Except.bind_eq_ok]
  constructor
  · rintro ⟨m, hcheck, hr⟩
    obtain ⟨hle, rfl⟩ := Defect.checkWord_eq_ok.1 hcheck
    cases hr
    exact ⟨hle, rfl⟩
  · rintro ⟨hle, rfl⟩
    exact ⟨_, Defect.checkWord_eq_ok.2 ⟨hle, rfl⟩, rfl⟩

theorem Tracker.noteLocal_eq_ok {index : Nat} :
    t.noteLocal index width = .ok t' ↔ index + width ≤ wordMax ∧
      t' = { t with maxLocals := max t.maxLocals (index + width) } := by
  unfold Tracker.noteLocal
  rw [Except.bind_eq_ok]
  constructor
  · rintro ⟨m, hcheck, hr⟩
    obtain ⟨hle, rfl⟩ := Defect.checkWord_eq_ok.1 hcheck
    cases hr
    exact ⟨hle, rfl⟩
  · rintro ⟨hle, rfl⟩
    exact ⟨_, Defect.checkWord_eq_ok.2 ⟨hle, rfl⟩, rfl⟩

namespace Tracking

theorem apply_addLocals :
    (addLocals n).apply t = .ok (answer, t') ↔ answer = none ∧ t.addLocals n = .ok t' := by
  show (t.addLocals n >>= fun u => Except.ok (none, u)) = _ ↔ _
  rw [Except.bind_eq_ok]
  constructor
  · rintro ⟨u, hadd, hr⟩
    cases hr
    exact ⟨rfl, hadd⟩
  · rintro ⟨rfl, hadd⟩
    exact ⟨t', hadd, rfl⟩

theorem apply_allocLocal :
    (allocLocal n).apply t = .ok (answer, t') ↔
      answer = some t.locals ∧ t.addLocals n = .ok t' := by
  show ((t.addLocals n >>= fun u => Except.ok (t.locals, u)) >>=
    fun r => Except.ok (some r.1, r.2)) = _ ↔ _
  cases hadd : t.addLocals n with
  | error d =>
    constructor
    · intro h
      cases h
    · rintro ⟨-, h⟩
      cases h
  | ok u =>
    constructor
    · intro h
      cases h
      exact ⟨rfl, rfl⟩
    · rintro ⟨rfl, h⟩
      cases h
      rfl

theorem apply_releaseLocals :
    (releaseLocals n).apply t = .ok (answer, t') ↔
      answer = none ∧ n ≤ t.locals ∧ t' = { t with locals := t.locals - n } := by
  show (t.releaseLocals n >>= fun u => Except.ok (none, u)) = _ ↔ _
  unfold Tracker.releaseLocals
  by_cases hle : n ≤ t.locals
  · rw [if_pos hle]
    constructor
    · intro h
      cases h
      exact ⟨rfl, hle, rfl⟩
    · rintro ⟨rfl, -, rfl⟩
      rfl
  · rw [if_neg hle]
    constructor
    · intro h
      cases h
    · rintro ⟨-, h, -⟩
      exact absurd h hle

theorem apply_noteLocal {index : Nat} :
    (noteLocal index width).apply t = .ok (answer, t') ↔
      answer = none ∧ t.noteLocal index width = .ok t' := by
  show (t.noteLocal index width >>= fun u => Except.ok (none, u)) = _ ↔ _
  rw [Except.bind_eq_ok]
  constructor
  · rintro ⟨u, hnote, hr⟩
    cases hr
    exact ⟨rfl, hnote⟩
  · rintro ⟨rfl, hnote⟩
    exact ⟨t', hnote, rfl⟩

/-- The range that an operation takes into use or notes. -/
def range? (t : Tracker) (answer : Option Nat) : Tracking → Option SlotRange
  | .addLocals n => some ⟨t.locals, n⟩
  | .allocLocal width => answer.map (⟨·, width⟩)
  | .noteLocal index width => some ⟨index, width⟩
  | _ => none

/-- The operations that have to do with the stack or the source line. -/
def LeavesLocals : Tracking → Prop
  | .addLocals _ | .allocLocal _ | .releaseLocals _ | .noteLocal _ _ => False
  | _ => True

/-- They leave the local slots alone. -/
theorem locals_of_apply (h : op.apply t = .ok (answer, t')) (hop : op.LeavesLocals) :
    t'.locals = t.locals ∧ t'.maxLocals = t.maxLocals := by
  cases op with
  | push n =>
    obtain ⟨u, hpush, hr⟩ := Except.bind_eq_ok.1 h
    obtain ⟨depth, -, hu⟩ := Except.bind_eq_ok.1 hpush
    cases hu
    cases hr
    exact ⟨rfl, rfl⟩
  | pop n =>
    obtain ⟨u, hpop, hr⟩ := Except.bind_eq_ok.1 h
    unfold Tracker.pop at hpop
    split at hpop
    · cases hpop
      cases hr
      exact ⟨rfl, rfl⟩
    · cases hpop
  | checkBalanced =>
    obtain ⟨u, -, hr⟩ := Except.bind_eq_ok.1 h
    cases hr
    exact ⟨rfl, rfl⟩
  | noteLine line =>
    have ht : t' = (t.noteLine line).2 := by cases h; rfl
    rw [ht, Tracker.noteLine]
    split <;> exact ⟨rfl, rfl⟩
  | noteEnd =>
    have ht : t' = t.noteEnd.2 := by cases h; rfl
    rw [ht, Tracker.noteEnd]
    split
    · exact ⟨rfl, rfl⟩
    · split <;> exact ⟨rfl, rfl⟩
  | addLocals | allocLocal | releaseLocals | noteLocal => exact hop.elim

/-- The end of the slots that an operation takes into use or notes. -/
def notedEnd? (t : Tracker) (op : Tracking) : Option Nat :=
  (op.apply t).toOption.bind fun r => (op.range? t r.1).map SlotRange.stop

theorem notedEnd?_of_apply (h : op.apply t = .ok (answer, t')) :
    op.notedEnd? t = (op.range? t answer).map SlotRange.stop := by
  rw [notedEnd?, h]
  rfl

/-- **The maximum grows by the ranges and by nothing else**, and they are counted in a word. -/
theorem maxLocals_apply (h : op.apply t = .ok (answer, t')) :
    t'.maxLocals = max t.maxLocals ((op.notedEnd? t).getD 0) ∧
      (op.notedEnd? t).getD 0 ≤ wordMax := by
  rw [notedEnd?_of_apply h]
  cases op with
  | addLocals n =>
    obtain ⟨-, hadd⟩ := apply_addLocals.1 h
    obtain ⟨hle, rfl⟩ := Tracker.addLocals_eq_ok.1 hadd
    exact ⟨rfl, hle⟩
  | allocLocal n =>
    obtain ⟨rfl, hadd⟩ := apply_allocLocal.1 h
    obtain ⟨hle, rfl⟩ := Tracker.addLocals_eq_ok.1 hadd
    exact ⟨rfl, hle⟩
  | noteLocal index width =>
    obtain ⟨-, hnote⟩ := apply_noteLocal.1 h
    obtain ⟨hle, rfl⟩ := Tracker.noteLocal_eq_ok.1 hnote
    exact ⟨rfl, hle⟩
  | releaseLocals n =>
    obtain ⟨-, -, rfl⟩ := apply_releaseLocals.1 h
    exact ⟨(Nat.max_zero _).symm, Nat.zero_le _⟩
  | push | pop | checkBalanced | noteLine | noteEnd =>
    rw [(locals_of_apply h trivial).2]
    exact ⟨(Nat.max_zero _).symm, Nat.zero_le _⟩

end Tracking

end Tracked

/-! ### Ledgers -/

/-- What was done to the local slots. -/
structure SlotLedger where
  /-- The slots that are allocated and not released, the latest first. -/
  live : List Nat := []
  /-- How many slots were released when none of the allocated ones was left. -/
  overdrawn : Nat := 0
  /-- Every range that was allocated or noted, the latest first. -/
  ranges : List SlotRange := []

namespace SlotLedger

variable {p : Nat} {g : SlotLedger} {t t' : Tracker} {op : Tracking} {answer : Option Nat}

/-- The ledger after an operation with its answer. An allocation and a reservation add their slots;
a release strikes out the latest ones. -/
def record (g : SlotLedger) (t : Tracker) (op : Tracking) (answer : Option Nat) : SlotLedger :=
  match op, op.range? t answer with
  | .releaseLocals n, _ =>
    { g with live := g.live.drop n, overdrawn := g.overdrawn + (n - g.live.length) }
  | .noteLocal _ _, some r => { g with ranges := r :: g.ranges }
  | _, some r => { g with live := r.slots ++ g.live, ranges := r :: g.ranges }
  | _, none => g

/-- **What runs of operations lead to**, from a tracker whose receiver and parameters take up `p`
slots. -/
inductive History (p : Nat) : SlotLedger → Tracker → Prop where
  | start : History p {} (.ofParameters p)
  | step {g : SlotLedger} {t t' : Tracker} {answer : Option Nat} (op : Tracking)
      (h : History p g t) (hrun : op.apply t = .ok (answer, t')) :
      History p (g.record t op answer) t'

/-- **The invariant.** The allocated slots lie in a row from `base` up to the counter, and the
parameters above `base` are those that were released. -/
structure Agrees (p : Nat) (g : SlotLedger) (t : Tracker) (base : Nat) : Prop where
  params : base + g.overdrawn = p
  counter : base + g.live.length = t.locals
  live : g.live = SlotRange.slots ⟨base, g.live.length⟩
  ranges : ∀ r ∈ g.ranges, r.stop ≤ t.maxLocals

theorem agrees_start (p : Nat) : Agrees p {} (.ofParameters p) p where
  params := Nat.add_zero p
  counter := Nat.add_zero p
  live := rfl
  ranges := List.forall_mem_nil _

variable {base : Nat}

/-- Slots on top of the counter are added to those that are allocated. -/
theorem Agrees.reserve (h : Agrees p g t base) {n : Nat} (hadd : t.addLocals n = .ok t') :
    Agrees p { g with
      live := SlotRange.slots ⟨t.locals, n⟩ ++ g.live
      ranges := ⟨t.locals, n⟩ :: g.ranges } t' base := by
  obtain ⟨-, rfl⟩ := Tracker.addLocals_eq_ok.1 hadd
  refine ⟨h.params, ?_, ?_, List.forall_mem_cons.2 ⟨Nat.le_max_right _ _, fun r hr => ?_⟩⟩
  · have := h.counter
    simp only [List.length_append, SlotRange.length_slots]
    omega
  · simp only [List.length_append, SlotRange.length_slots]
    rw [Nat.add_comm n, ← SlotRange.slots_append, h.counter, ← h.live]
  · exact Nat.le_trans (h.ranges r hr) (Nat.le_max_left _ _)

/-- A release takes the latest slots, and after them parameters. -/
theorem Agrees.release (h : Agrees p g t base) {n : Nat} (hn : n ≤ t.locals) :
    Agrees p { g with
      live := g.live.drop n
      overdrawn := g.overdrawn + (n - g.live.length) } { t with locals := t.locals - n }
      (base - (n - g.live.length)) := by
  have hparams := h.params
  have hcounter := h.counter
  refine ⟨?_, ?_, ?_, h.ranges⟩
  · simp only
    omega
  · simp only [List.length_drop]
    omega
  · simp only [List.length_drop]
    rcases Nat.le_total n g.live.length with hle | hle
    · rw [Nat.sub_eq_zero_of_le hle, Nat.sub_zero, ← SlotRange.drop_slots base hle, ← h.live]
    · rw [List.drop_eq_nil_of_le hle, Nat.sub_eq_zero_of_le hle]
      rfl

/-- **One operation keeps the invariant.** -/
theorem Agrees.step (h : Agrees p g t base) (hrun : op.apply t = .ok (answer, t')) :
    ∃ base', Agrees p (g.record t op answer) t' base' := by
  cases op with
  | addLocals n =>
    obtain ⟨rfl, hadd⟩ := Tracking.apply_addLocals.1 hrun
    exact ⟨base, h.reserve hadd⟩
  | allocLocal n =>
    obtain ⟨rfl, hadd⟩ := Tracking.apply_allocLocal.1 hrun
    exact ⟨base, h.reserve hadd⟩
  | releaseLocals n =>
    obtain ⟨rfl, hn, rfl⟩ := Tracking.apply_releaseLocals.1 hrun
    exact ⟨_, h.release hn⟩
  | noteLocal index width =>
    obtain ⟨rfl, hnote⟩ := Tracking.apply_noteLocal.1 hrun
    obtain ⟨-, rfl⟩ := Tracker.noteLocal_eq_ok.1 hnote
    refine ⟨base, h.params, h.counter, h.live, ?_⟩
    exact List.forall_mem_cons.2 ⟨Nat.le_max_right _ _, fun r hr =>
      Nat.le_trans (h.ranges r hr) (Nat.le_max_left _ _)⟩
  | push | pop | checkBalanced | noteLine | noteEnd =>
    obtain ⟨hlocals, hmax⟩ := Tracking.locals_of_apply hrun trivial
    exact ⟨base, h.params, h.counter.trans hlocals.symm, h.live, fun r hr => hmax ▸ h.ranges r hr⟩

/-- **Every run keeps the invariant.** -/
theorem History.agrees (h : History p g t) : ∃ base, Agrees p g t base := by
  induction h with
  | start => exact ⟨p, agrees_start p⟩
  | step op _ hrun ih =>
    obtain ⟨base, hagrees⟩ := ih
    exact hagrees.step hrun

/-- The allocated slots are below the counter. -/
theorem Agrees.lt_of_mem_live (h : Agrees p g t base) {k : Nat} (hk : k ∈ g.live) :
    k < t.locals := by
  rw [h.live, SlotRange.mem_slots] at hk
  rw [← h.counter]
  exact hk.2

/-- **Local slots are allocated apart from each other.**  After any run of operations, the next
allocation meets none of the slots that are allocated and not released. It lies above the receiver
and the parameters exactly if no more slots were released in excess than are allocated now. A
release is in order exactly if the slots in use suffice, parameters included. The maximum covers
every range that was ever allocated or noted. -/
theorem local_allocation (h : History p g t) :
    (∀ width index t', (Tracking.allocLocal width).apply t = .ok (some index, t') →
      (∀ k ∈ SlotRange.slots ⟨index, width⟩, k ∉ g.live) ∧
      (p ≤ index ↔ g.overdrawn ≤ g.live.length)) ∧
    (∀ n, (∃ answer t', (Tracking.releaseLocals n).apply t = .ok (answer, t')) ↔
      n + g.overdrawn ≤ p + g.live.length) ∧
    ∀ r ∈ g.ranges, r.stop ≤ t.maxLocals := by
  obtain ⟨base, hagrees⟩ := h.agrees
  have hparams := hagrees.params
  have hcounter := hagrees.counter
  refine ⟨fun width index t' halloc => ?_, fun n => ⟨?_, fun hn => ?_⟩, hagrees.ranges⟩
  · obtain ⟨hindex, -⟩ := Tracking.apply_allocLocal.1 halloc
    obtain rfl := Option.some.inj hindex
    refine ⟨fun k hk hlive => ?_, by omega⟩
    exact Nat.not_lt.2 (SlotRange.mem_slots.1 hk).1 (hagrees.lt_of_mem_live hlive)
  · rintro ⟨answer, t', hrun⟩
    obtain ⟨-, hn, -⟩ := Tracking.apply_releaseLocals.1 hrun
    omega
  · exact ⟨none, _, Tracking.apply_releaseLocals.2 ⟨rfl, by omega, rfl⟩⟩

/-- Two variables are allocated above three parameters and released again, and the next one takes
their place. -/
theorem local_allocation_reuse :
    ∃ g t t', History 3 g t ∧ (Tracking.allocLocal 1).apply t = .ok (some 3, t') ∧
      g.overdrawn = 0 ∧ (3 ≤ 3 ↔ g.overdrawn ≤ g.live.length) ∧
      ∀ r ∈ g.ranges, r.stop ≤ t.maxLocals := by
  have hrun : History 3 _ _ := .step (.releaseLocals 3)
    (.step (.allocLocal 1) (.step (.allocLocal 2) .start rfl) rfl) rfl
  obtain ⟨halloc, -, hranges⟩ := local_allocation hrun
  exact ⟨_, _, _, hrun, rfl, rfl, (halloc 1 3 _ rfl).2, hranges⟩

/-- **A release reaches into the parameters**: two slots are released although none is allocated,
and the next allocation lies over a parameter. -/
theorem release_takes_parameters :
    ∃ g t t', History 3 g t ∧
      (∃ u, History 3 {} u ∧ (Tracking.releaseLocals 2).apply u = .ok (none, t)) ∧
      (Tracking.allocLocal 1).apply t = .ok (some 1, t') ∧ ¬3 ≤ 1 :=
  ⟨_, _, _, .step (.releaseLocals 2) .start rfl, ⟨_, .start, rfl⟩, rfl, by decide⟩

end SlotLedger

end ClassForge
