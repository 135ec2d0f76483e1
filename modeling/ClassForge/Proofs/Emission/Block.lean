import ClassForge.Proofs.Body.Patching
import ClassForge.Proofs.Emission.Conversion
import ClassForge.Proofs.Pool.Capacity

/-!
# Blocks

A block is code with a contract. Where control gets to it with the depth it asks for, it succeeds;
the contract says what it leaves behind.

* `Frame` — what code leaves alone: the labels that were there before it. Its own branches lead to
  labels within reach, apart from those to labels that wait for a place;
* `Ran` — the state after part of a block: the frame, the depth, that the tracker moved as the
  instructions do, and the room taken up in the pool;
* `Block` — **the contract**, of code that leaves no label waiting;
* `Block.seq`, `Block.skipping`, `Block.fork` — **PROVED**: blocks make up larger blocks;
* `Block.getField` and its siblings — **PROVED**: operations are blocks.
-/

namespace ClassForge.Emitter

open ConstantPool Emit Instruction

variable {ret : JavaType} {fits short : Prop} {e e' e'' : Emitter}

/-! ### Frames -/

/-- The label of a branch is placed, and within reach. -/
def Settled (a : Assembly) (b : PendingBranch) : Prop :=
  ∃ target : Nat, a.labels[b.label.id]? = some (some target) ∧
    -32768 ≤ (target : Int) - b.site ∧ (target : Int) - b.site ≤ 32767

/-- Labels that wait for a place, with the depth that is expected there. -/
abbrev Waiting : Type := List (Label × Option Nat)

/-- What code of at most `n` bytes leaves alone. -/
structure Frame (waiting : Waiting) (n : Nat) (e e' : Emitter) : Prop where
  grows : e.assembly.code.size ≤ e'.assembly.code.size
  size : e'.assembly.code.size ≤ e.assembly.code.size + n
  neat : e'.assembly.labels.size = e'.labelDepths.size
  labels : ∀ k < e.assembly.labels.size, e'.assembly.labels[k]? = e.assembly.labels[k]? ∧
    e'.labelDepths[k]? = e.labelDepths[k]?
  waits : ∀ w ∈ waiting, e.assembly.labels.size ≤ w.1.id ∧
    e'.assembly.labels[w.1.id]? = some none ∧ e'.labelDepths[w.1.id]? = some w.2
  distinct : waiting.Pairwise fun w w' => w.1.id ≠ w'.1.id
  branches : ∀ b ∈ e'.assembly.branches, b ∈ e.assembly.branches ∨ Settled e'.assembly b ∨
    (e.assembly.code.size ≤ b.site ∧ b.site ≤ e'.assembly.code.size) ∧
      ∃ w ∈ waiting, w.1 = b.label

variable {waiting : Waiting} {n m : Nat}

theorem Frame.refl (h : e.assembly.labels.size = e.labelDepths.size) : Frame [] 0 e e :=
  ⟨Nat.le_refl _, Nat.le_refl _, h, fun _ _ => ⟨rfl, rfl⟩, nofun, .nil, fun _ hb => .inl hb⟩

theorem Frame.mono (h : Frame waiting n e e') (hle : n ≤ m) : Frame waiting m e e' :=
  { h with size := Nat.le_trans h.size (Nat.add_le_add_left hle _) }

/-- A placed label stays. -/
theorem Settled.mono {a a' : Assembly} {b : PendingBranch} (h : Settled a b)
    (hlabels : ∀ k t : Nat, a.labels[k]? = some (some t) → a'.labels[k]? = some (some t)) :
    Settled a' b := by
  obtain ⟨target, hl, hreach⟩ := h
  exact ⟨target, hlabels _ _ hl, hreach⟩

theorem lt_size_of_getElem? {α : Type} {xs : Array α} {k : Nat} {x : α} (h : xs[k]? = some x) :
    k < xs.size :=
  (Array.getElem?_eq_some_iff.1 h).1

theorem Frame.labels_size (h : Frame waiting n e e') :
    e.assembly.labels.size ≤ e'.assembly.labels.size := by
  rcases Nat.eq_zero_or_pos e.assembly.labels.size with hzero | hpos
  · omega
  · have hlt : e.assembly.labels.size - 1 < e.assembly.labels.size := by omega
    have hlast := (h.labels _ hlt).1
    rw [Array.getElem?_eq_getElem hlt] at hlast
    have := lt_size_of_getElem? hlast
    omega

/-- **Code with no label waiting extends a frame.** -/
theorem Frame.trans (h : Frame waiting n e e') (h' : Frame [] m e' e'') :
    Frame waiting (n + m) e e'' where
  grows := Nat.le_trans h.grows h'.grows
  size := by have := h.size; have := h'.size; omega
  neat := h'.neat
  labels k hk := by
    have hk' := Nat.lt_of_lt_of_le hk h.labels_size
    exact ⟨(h'.labels k hk').1.trans (h.labels k hk).1, (h'.labels k hk').2.trans (h.labels k hk).2⟩
  waits w hw := by
    obtain ⟨hnew, hplace, hdepth⟩ := h.waits w hw
    obtain ⟨hlabel, hdepths⟩ := h'.labels w.1.id (lt_size_of_getElem? hplace)
    exact ⟨hnew, hlabel.trans hplace, hdepths.trans hdepth⟩
  distinct := h.distinct
  branches b hb := by
    rcases h'.branches b hb with hb | hsettled | ⟨-, w, hw, -⟩
    · rcases h.branches b hb with hold | hsettled | ⟨hsite, hlabel⟩
      · exact .inl hold
      · refine .inr (.inl (hsettled.mono fun k t hk => ?_))
        rw [(h'.labels k (lt_size_of_getElem? hk)).1, hk]
      · exact .inr (.inr ⟨⟨hsite.1, Nat.le_trans hsite.2 h'.grows⟩, hlabel⟩)
    · exact .inr (.inl hsettled)
    · cases hw

/-- The order of the labels that wait does not matter. -/
theorem Frame.swap {w w' : Label × Option Nat} (h : Frame (w :: w' :: waiting) n e e') :
    Frame (w' :: w :: waiting) n e e' where
  grows := h.grows
  size := h.size
  neat := h.neat
  labels := h.labels
  waits x hx := h.waits x ((List.Perm.swap w w' waiting).mem_iff.1 hx)
  distinct := (List.Perm.swap w' w waiting).pairwise h.distinct fun hne => hne.symm
  branches b hb := by
    refine (h.branches b hb).imp id (Or.imp id (And.imp id ?_))
    rintro ⟨x, hx, hlabel⟩
    exact ⟨x, (List.Perm.swap w' w waiting).mem_iff.1 hx, hlabel⟩

/-- A new label waits. -/
theorem Frame.newLabel (h : Frame waiting n e e') :
    Frame ((⟨e'.assembly.labels.size⟩, none) :: waiting) n e
      ((e'.withAssembly e'.assembly.newLabel.2).withDepths (e'.labelDepths.push none)) where
  grows := h.grows
  size := h.size
  neat := by
    show (e'.assembly.labels.push none).size = (e'.labelDepths.push none).size
    rw [Array.size_push, Array.size_push, h.neat]
  labels k hk := by
    have hk' := Nat.lt_of_lt_of_le hk h.labels_size
    show (e'.assembly.labels.push none)[k]? = _ ∧ (e'.labelDepths.push none)[k]? = _
    rw [Array.getElem?_push, if_neg (Nat.ne_of_lt hk'), Array.getElem?_push,
      if_neg (Nat.ne_of_lt (h.neat ▸ hk'))]
    exact h.labels k hk
  waits w hw := by
    show _ ∧ (e'.assembly.labels.push none)[w.1.id]? = _ ∧ (e'.labelDepths.push none)[w.1.id]? = _
    rcases List.mem_cons.1 hw with rfl | hw
    · refine ⟨h.labels_size, Array.getElem?_push_size, ?_⟩
      rw [h.neat]
      exact Array.getElem?_push_size
    · obtain ⟨hnew, hplace, hdepth⟩ := h.waits w hw
      rw [Array.getElem?_push, if_neg (Nat.ne_of_lt (lt_size_of_getElem? hplace)),
        Array.getElem?_push, if_neg (Nat.ne_of_lt (lt_size_of_getElem? hdepth))]
      exact ⟨hnew, hplace, hdepth⟩
  distinct := by
    refine List.pairwise_cons.2 ⟨fun w hw => ?_, h.distinct⟩
    exact (Nat.ne_of_lt (lt_size_of_getElem? (h.waits w hw).2.1)).symm
  branches b hb := by
    rcases h.branches b hb with hold | hsettled | ⟨hsite, w, hw, hlabel⟩
    · exact .inl hold
    · refine .inr (.inl (hsettled.mono fun k t hk => ?_))
      show (e'.assembly.labels.push none)[k]? = _
      rw [Array.getElem?_push, if_neg (Nat.ne_of_lt (lt_size_of_getElem? hk)), hk]
    · exact .inr (.inr ⟨hsite, w, List.mem_cons_of_mem _ hw, hlabel⟩)

/-- A branch to a label that waits. -/
theorem Frame.branched {l : Label} {x : Option Nat} (h : Frame ((l, x) :: waiting) n e e')
    {op : Opcode} (hop : op.operandSize = 2) :
    Frame ((l, some (e'.tracker.depth - branchPop op)) :: waiting) (n + 3) e
      (e'.branched op l hop) := by
  obtain ⟨(hnew : _ ≤ l.id), hplace, hdepth⟩ := h.waits _ List.mem_cons_self
  have hsize : (e'.branched op l hop).assembly.code.size = e'.assembly.code.size + 3 := by
    refine (Assembly.size_append _ _).trans ?_
    show _ + (1 + op.operandSize) = _
    rw [hop]
  constructor
  case grows => rw [hsize]; exact Nat.le_add_right_of_le h.grows
  case size => rw [hsize, ← Nat.add_assoc]; exact Nat.add_le_add_right h.size 3
  case neat =>
    show e'.assembly.labels.size = (e'.labelDepths.setIfInBounds l.id _).size
    rw [Array.size_setIfInBounds, h.neat]
  case labels =>
    intro k hk
    show e'.assembly.labels[k]? = _ ∧ (e'.labelDepths.setIfInBounds l.id _)[k]? = _
    rw [Array.getElem?_setIfInBounds_ne (by omega)]
    exact h.labels k hk
  case waits =>
    intro w hw
    show _ ∧ e'.assembly.labels[w.1.id]? = _ ∧ (e'.labelDepths.setIfInBounds l.id _)[w.1.id]? = _
    rcases List.mem_cons.1 hw with rfl | hw
    · refine ⟨hnew, hplace, ?_⟩
      rw [Array.getElem?_setIfInBounds, if_pos rfl, if_pos (lt_size_of_getElem? hdepth)]
    · rw [Array.getElem?_setIfInBounds_ne ((List.pairwise_cons.1 h.distinct).1 w hw)]
      exact h.waits w (List.mem_cons_of_mem _ hw)
  case distinct =>
    obtain ⟨hfirst, hrest⟩ := List.pairwise_cons.1 h.distinct
    exact List.pairwise_cons.2 ⟨hfirst, hrest⟩
  case branches =>
    intro b hb
    rw [hsize]
    rcases Array.mem_push.1 hb with hb | rfl
    · rcases h.branches b hb with hold | hsettled | ⟨hsite, w, hw, hlabel⟩
      · exact .inl hold
      · exact .inr (.inl (hsettled.mono fun _ _ => id))
      · refine .inr (.inr ⟨⟨hsite.1, Nat.le_add_right_of_le hsite.2⟩, ?_⟩)
        rcases List.mem_cons.1 hw with rfl | hw
        · exact ⟨_, List.mem_cons_self, hlabel⟩
        · exact ⟨w, List.mem_cons_of_mem _ hw, hlabel⟩
    · exact .inr (.inr ⟨⟨h.grows, Nat.le_add_right _ _⟩, _, List.mem_cons_self, rfl⟩)

/-- A label that is placed no longer waits, and its branches are within reach. -/
theorem Frame.labelled {l : Label} {x : Option Nat} (h : Frame ((l, x) :: waiting) n e e')
    (hn : n ≤ 32767) (d : Nat) : Frame waiting n e (e'.labelled l d) := by
  obtain ⟨(hnew : _ ≤ l.id), hplace, hdepth⟩ := h.waits _ List.mem_cons_self
  obtain ⟨hfirst, hrest⟩ := List.pairwise_cons.1 h.distinct
  have hlt : l.id < e'.assembly.labels.size := lt_size_of_getElem? hplace
  have hset : (e'.assembly.labels.setIfInBounds l.id (some e'.assembly.code.size))[l.id]? =
      some (some e'.assembly.code.size) := by
    rw [Array.getElem?_setIfInBounds, if_pos rfl, if_pos hlt]
  constructor
  case grows => exact h.grows
  case size => exact h.size
  case neat =>
    show (e'.assembly.labels.setIfInBounds l.id _).size = (e'.labelDepths.setIfInBounds l.id _).size
    rw [Array.size_setIfInBounds, Array.size_setIfInBounds, h.neat]
  case labels =>
    intro k hk
    show (e'.assembly.labels.setIfInBounds l.id _)[k]? = _ ∧
      (e'.labelDepths.setIfInBounds l.id _)[k]? = _
    rw [Array.getElem?_setIfInBounds_ne (by omega), Array.getElem?_setIfInBounds_ne (by omega)]
    exact h.labels k hk
  case waits =>
    intro w hw
    show _ ∧ (e'.assembly.labels.setIfInBounds l.id _)[w.1.id]? = _ ∧
      (e'.labelDepths.setIfInBounds l.id _)[w.1.id]? = _
    rw [Array.getElem?_setIfInBounds_ne (hfirst w hw),
      Array.getElem?_setIfInBounds_ne (hfirst w hw)]
    exact h.waits w (List.mem_cons_of_mem _ hw)
  case distinct => exact hrest
  case branches =>
    intro b hb
    rcases h.branches b hb with hold | hsettled | ⟨hsite, w, hw, hlabel⟩
    · exact .inl hold
    · refine .inr (.inl (hsettled.mono fun k t hk => ?_))
      have hne : l.id ≠ k := by
        rintro rfl
        rw [hplace] at hk
        cases hk
      show (e'.assembly.labels.setIfInBounds l.id _)[k]? = _
      rw [Array.getElem?_setIfInBounds_ne hne, hk]
    · rcases List.mem_cons.1 hw with rfl | hw
      · refine .inr (.inl ⟨e'.assembly.code.size, hlabel ▸ hset, ?_⟩)
        have := h.size
        omega
      · exact .inr (.inr ⟨hsite, w, hw, hlabel⟩)

/-! ### Contracts -/

/-- Where code leaves off: with a depth, or with no way on. -/
def Lands : Option Nat → Emitter → Prop
  | some d, e => e.reachable = true ∧ e.tracker.depth = d
  | none, e => e.reachable = false

/-- Code has run: it fits within a frame, leaves off as told, and takes up at most `r` slots of the
pool if its texts are `short`. The tracker moved as the instructions do if its types are those
that `fits` promises. -/
structure Ran (ret : JavaType) (fits short : Prop) (waiting : Waiting) (n r : Nat)
    (after : Option Nat) (e e' : Emitter) : Prop where
  frame : Frame waiting n e e'
  lands : Lands after e'
  grows : Grows e.pool e'.pool
  emits : fits → e.pool.Coherent → Emits ret e e'
  room : short → ∀ k, e.pool.HasRoom (k + r) → e'.pool.HasRoom k

/-- **A block**: code that succeeds from depth `d` on, and leaves no label waiting. -/
def Block (ret : JavaType) (fits short : Prop) (n r d : Nat) (after : Option Nat)
    (x : Emit Unit) : Prop :=
  ∀ e : Emitter, e.assembly.labels.size = e.labelDepths.size → e.reachable = true →
    e.tracker.depth = d → ∃ e', x e = .ok ((), e') ∧ Ran ret fits short [] n r after e e'

variable {r q d d' : Nat} {after : Option Nat} {x y test : Emit Unit}

theorem Ran.refl (hneat : e.assembly.labels.size = e.labelDepths.size)
    (hreach : e.reachable = true) (hdepth : e.tracker.depth = d) :
    Ran ret fits short [] 0 0 (some d) e e :=
  ⟨.refl hneat, ⟨hreach, hdepth⟩, .refl _, fun _ _ => (Straight.refl ret e).emits, fun _ _ h => h⟩

theorem Ran.mono (h : Ran ret fits short waiting n r after e e') (hn : n ≤ m) (hr : r ≤ q) :
    Ran ret fits short waiting m q after e e' :=
  ⟨h.frame.mono hn, h.lands, h.grows, h.emits, fun hs k hk =>
    h.room hs k (hk.mono (Nat.add_le_add_left hr k))⟩

/-- Code that control passes through. -/
theorem Ran.straight (h : Ran ret fits short waiting n r (some d) e e') (hfits : fits)
    (hcoh : e.pool.Coherent) : Straight ret e e' :=
  ⟨h.emits hfits hcoh, fun _ => h.lands.1⟩

theorem Ran.swap {w w' : Label × Option Nat}
    (h : Ran ret fits short (w :: w' :: waiting) n r after e e') :
    Ran ret fits short (w' :: w :: waiting) n r after e e' :=
  ⟨h.frame.swap, h.lands, h.grows, h.emits, h.room⟩

/-- A block is next. -/
theorem Ran.block (h : Ran ret fits short waiting n r (some d) e e')
    (hx : Block ret fits short m q d after x) :
    ∃ e'', x e' = .ok ((), e'') ∧ Ran ret fits short waiting (n + m) (r + q) after e e'' := by
  obtain ⟨e'', hrun, hran⟩ := hx e' h.frame.neat h.lands.1 h.lands.2
  refine ⟨e'', hrun, h.frame.trans hran.frame, hran.lands, h.grows.trans hran.grows,
    fun hfits hcoh => ?_, fun hs k hk => ?_⟩
  · exact (h.straight hfits hcoh).emits_trans (hran.emits hfits (h.grows.coherent hcoh))
  · rw [Nat.add_comm r q, ← Nat.add_assoc] at hk
    exact hran.room hs k (h.room hs (k + q) hk)

/-- A label is created. -/
theorem Ran.newLabel (h : Ran ret fits short waiting n r (some d) e e') :
    ∃ l e'', newLabel e' = .ok (l, e'') ∧
      Ran ret fits short ((l, none) :: waiting) n r (some d) e e'' :=
  ⟨_, _, newLabel_eq_ok.2 ⟨rfl, rfl⟩, h.frame.newLabel, h.lands, h.grows, fun hfits hcoh =>
    (h.straight hfits hcoh).emits_trans (straight_newLabel (newLabel_eq_ok.2 ⟨rfl, rfl⟩)).emits,
    h.room⟩

/-- A branch to a label that waits makes its depth the one expected there. -/
theorem Ran.branch {l : Label} {expected : Option Nat} {op : Opcode}
    (h : Ran ret fits short ((l, expected) :: waiting) n r (some d) e e')
    (hop : op.isShortBranch = true) (hpop : branchPop op ≤ d)
    (hexpected : expected = none ∨ expected = some (d - branchPop op)) :
    ∃ e'', branch op l e' = .ok ((), e'') ∧
      Ran ret fits short ((l, some (d - branchPop op)) :: waiting) (n + 3) r
        (if op.isTerminal then none else some (d - branchPop op)) e e'' := by
  obtain ⟨hreach, rfl⟩ := h.lands
  obtain ⟨-, -, hdepth⟩ := h.frame.waits _ List.mem_cons_self
  have hrun : Emitter.branch op l e' =
      .ok ((), e'.branched op l (operandSize_of_isShortBranch hop)) := by
    refine branch_eq_ok.2 ⟨hop, hpop, ?_, rfl⟩
    rcases hexpected with rfl | rfl
    · exact .inl hdepth
    · exact .inr hdepth
  refine ⟨_, hrun, h.frame.branched _, ?_, h.grows, fun hfits hcoh =>
    (h.straight hfits hcoh).emits_trans (emits_branch hrun), h.room⟩
  cases hterm : op.isTerminal with
  | true =>
    show (e'.reachable && !op.isTerminal) = false
    rw [hterm, Bool.not_true, Bool.and_false]
  | false =>
    refine ⟨?_, rfl⟩
    show (e'.reachable && !op.isTerminal) = true
    rw [hterm, hreach]
    rfl

/-- A label is placed: control falls through to it with the depth expected there, or gets there by
branches only. -/
theorem Ran.placeLabel {l : Label}
    (h : Ran ret fits short ((l, some d) :: waiting) n r after e e')
    (hafter : after = some d ∨ after = none) (hn : n ≤ 32767) :
    ∃ e'', placeLabel l e' = .ok ((), e'') ∧
      Ran ret fits short waiting n r (some d) e e'' := by
  obtain ⟨-, hplace, hdepth⟩ := h.frame.waits _ List.mem_cons_self
  have hfalls : e'.reachable = true → d = e'.tracker.depth := by
    intro hreach
    have hlands := h.lands
    rcases hafter with rfl | rfl
    · exact hlands.2.symm
    · exact absurd (hreach.symm.trans hlands) nofun
  have hrun : Emitter.placeLabel l e' = .ok ((), e'.labelled l d) :=
    placeLabel_eq_ok.2 ⟨hplace, d, hfalls, .inr hdepth, rfl⟩
  exact ⟨_, hrun, h.frame.labelled hn d, ⟨rfl, rfl⟩, h.grows, fun hfits hcoh =>
    ((h.emits hfits hcoh).placeLabel hrun).emits, h.room⟩

/-! ### Blocks of blocks -/

theorem Block.mono (h : Block ret fits short n r d after x) (hn : n ≤ m) (hr : r ≤ q) :
    Block ret fits short m q d after x := fun e hneat hreach hdepth => by
  obtain ⟨e', hrun, hran⟩ := h e hneat hreach hdepth
  exact ⟨e', hrun, hran.mono hn hr⟩

theorem Block.pure : Block ret fits short 0 0 d (some d) (pure ()) :=
  fun e hneat hreach hdepth => ⟨e, rfl, .refl hneat hreach hdepth⟩

/-- **Blocks in sequence are a block.** -/
theorem Block.seq (hx : Block ret fits short n r d (some d') x)
    (hy : Block ret fits short m q d' after y) :
    Block ret fits short (n + m) (r + q) d after (do x; y) := fun e hneat hreach hdepth => by
  obtain ⟨e₁, hrun₁, hran₁⟩ := hx e hneat hreach hdepth
  obtain ⟨e₂, hrun₂, hran₂⟩ := hran₁.block hy
  exact ⟨e₂, bind_eq_ok.2 ⟨(), e₁, hrun₁, hrun₂⟩, hran₂⟩

/-- Code that is passed over if a test yields zero. -/
def skipping (test x : Emit Unit) : Emit Unit := do
  let skip ← newLabel
  test
  branch .ifeq skip
  x
  placeLabel skip

/-- **Code that may be passed over is a block**, if it leaves the depth as it is or never gets to
its end. -/
theorem Block.skipping (htest : Block ret fits short n r d (some (d + 1)) test)
    (hx : Block ret fits short m q d after x) (hafter : after = some d ∨ after = none)
    (hsize : n + 3 + m ≤ 32767) :
    Block ret fits short (n + 3 + m) (r + q) d (some d) (skipping test x) :=
  fun e hneat hreach hdepth => by
  have h₀ : Ran ret fits short [] 0 0 (some d) e e := .refl hneat hreach hdepth
  obtain ⟨skip, e₁, hnew, h₁⟩ := h₀.newLabel
  obtain ⟨e₂, hrun₂, h₂⟩ := h₁.block htest
  obtain ⟨e₃, hrun₃, h₃⟩ := h₂.branch (show Opcode.ifeq.isShortBranch = true from rfl)
    (Nat.le_add_left 1 d) (.inl rfl)
  obtain ⟨e₄, hrun₄, h₄⟩ := h₃.block hx
  obtain ⟨e₅, hrun₅, h₅⟩ := h₄.placeLabel hafter (by omega)
  exact ⟨e₅, bind_eq_ok.2 ⟨_, _, hnew, bind_eq_ok.2 ⟨_, _, hrun₂, bind_eq_ok.2 ⟨_, _, hrun₃,
    bind_eq_ok.2 ⟨_, _, hrun₄, hrun₅⟩⟩⟩⟩, h₅.mono (by omega) (by omega)⟩

/-- **Two paths that meet with the same depth are a block.** -/
theorem Block.fork {op : Opcode} {n₁ n₂ n₃ r₁ r₂ r₃ d₁ d₂ : Nat} (hop : op.isShortBranch = true)
    (hterm : op.isTerminal = false)
    (htest : Block ret fits short n₁ r₁ d (some (d₁ + branchPop op)) test)
    (hx : Block ret fits short n₂ r₂ d₁ (some d₂) x)
    (hy : Block ret fits short n₃ r₃ d₁ (some d₂) y) (hsize : n₁ + n₂ + n₃ + 6 ≤ 32767) :
    Block ret fits short (n₁ + n₂ + n₃ + 6) (r₁ + r₂ + r₃) d (some d₂) (fork test op x y) :=
  fun e hneat hreach hdepth => by
  have h₀ : Ran ret fits short [] 0 0 (some d) e e := .refl hneat hreach hdepth
  obtain ⟨taken, e₁, hrun₁, h₁⟩ := h₀.newLabel
  obtain ⟨done, e₂, hrun₂, h₂⟩ := h₁.newLabel
  obtain ⟨e₃, hrun₃, h₃⟩ := h₂.swap.block htest
  obtain ⟨e₄, hrun₄, h₄⟩ := h₃.branch hop (Nat.le_add_left _ _) (.inl rfl)
  rw [Nat.add_sub_cancel, hterm] at h₄
  obtain ⟨e₅, hrun₅, h₅⟩ := h₄.block hx
  obtain ⟨e₆, hrun₆, h₆⟩ := h₅.swap.branch (show Opcode.goto.isShortBranch = true from rfl)
    (Nat.zero_le _) (.inl rfl)
  obtain ⟨e₇, hrun₇, h₇⟩ := h₆.swap.placeLabel (.inr rfl) (by omega)
  obtain ⟨e₈, hrun₈, h₈⟩ := h₇.block hy
  obtain ⟨e₉, hrun₉, h₉⟩ := h₈.placeLabel (.inl rfl) (by omega)
  exact ⟨e₉, bind_eq_ok.2 ⟨_, _, hrun₁, bind_eq_ok.2 ⟨_, _, hrun₂, bind_eq_ok.2 ⟨_, _, hrun₃,
    bind_eq_ok.2 ⟨_, _, hrun₄, bind_eq_ok.2 ⟨_, _, hrun₅, bind_eq_ok.2 ⟨_, _, hrun₆,
    bind_eq_ok.2 ⟨_, _, hrun₇, bind_eq_ok.2 ⟨_, _, hrun₈, hrun₉⟩⟩⟩⟩⟩⟩⟩⟩,
    h₉.mono (by omega) (by omega)⟩

/-! ### Method bodies -/

theorem exists_foldlM_resolve {a : Assembly} {bs : List PendingBranch}
    (h : ∀ b ∈ bs, Settled a b) :
    ∀ code, ∃ code', bs.foldlM (Assembly.resolve a.labels) code = .ok code' := by
  induction bs with
  | nil => exact fun code => ⟨code, rfl⟩
  | cons b bs ih =>
    intro code
    obtain ⟨target, hlabel, hlo, hhi⟩ := h b List.mem_cons_self
    obtain ⟨code', hrest⟩ := ih (fun c hc => h c (List.mem_cons_of_mem b hc))
      (Assembly.patchWord code (b.site + 1) (Assembly.offsetWord (target - b.site)))
    refine ⟨code', ?_⟩
    rw [List.foldlM_cons]
    exact Except.bind_eq_ok.2
      ⟨_, Assembly.resolve_eq_ok.2 ⟨target, hlabel, hlo, hhi, rfl⟩, hrest⟩

/-- A body with all branches within reach fails to be finished only for its length. -/
theorem finish_cases (h : ∀ b ∈ e.assembly.branches, Settled e.assembly b) :
    (wordMax < e.assembly.code.size ∧ e.finish = .error (.codeTooLong e.assembly.code.size)) ∨
      ∃ body, e.finish = .ok body := by
  unfold finish Assembly.finish
  by_cases hsize : e.assembly.code.size > wordMax
  · exact .inl ⟨hsize, if_pos hsize⟩
  · obtain ⟨code, hcode⟩ := exists_foldlM_resolve
      (fun b hb => h b (Array.mem_toList_iff.1 hb)) e.assembly.code
    rw [Array.foldlM_toList] at hcode
    simp only [hsize, if_false, hcode]
    exact .inr ⟨_, rfl⟩

/-- Code without branches is finished as it stands. -/
theorem exists_finish_of_branchless {e : Emitter} (hbranches : e.assembly.branches = #[])
    (hsize : e.assembly.code.size ≤ wordMax) :
    ∃ body, e.finish = .ok body ∧ body.code = e.assembly.code := by
  have hsettled : ∀ b ∈ e.assembly.branches, Settled e.assembly b := by
    rw [hbranches]
    exact fun b hb => absurd hb (Array.not_mem_empty b)
  rcases finish_cases hsettled with ⟨hlong, -⟩ | ⟨body, hfinish⟩
  · exact absurd hsize (Nat.not_le.2 hlong)
  · obtain ⟨-, hcode, -⟩ := Assembly.finish_eq_ok hfinish
    rw [hbranches] at hcode
    exact ⟨body, hfinish, (Except.ok.inj hcode).symm⟩

/-- **A block is a method body**: it can be finished unless it is too long. -/
theorem Ran.finish_cases {pool : ConstantPool} {slots : Nat}
    (h : Ran ret fits short [] n r after (ofPool pool slots) e) :
    (wordMax < n ∧ ∃ length, e.finish = .error (.codeTooLong length)) ∨
      ∃ body, e.finish = .ok body := by
  have hsettled : ∀ b ∈ e.assembly.branches, Settled e.assembly b := by
    intro b hb
    rcases h.frame.branches b hb with hold | hsettled | ⟨-, w, hw, -⟩
    · exact absurd hold (Array.not_mem_empty b)
    · exact hsettled
    · cases hw
  refine (Emitter.finish_cases hsettled).imp (fun hlong => ⟨?_, _, hlong.2⟩) id
  refine Nat.lt_of_lt_of_le hlong.1 (Nat.le_trans h.frame.size (Nat.le_of_eq ?_))
  exact Nat.zero_add n

end ClassForge.Emitter
