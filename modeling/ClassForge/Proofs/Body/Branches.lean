import ClassForge.Proofs.Body.Lines
import ClassForge.Proofs.Body.Patching
import ClassForge.Proofs.Emission.Outcome

/-!
# Branches of an assembled body

A body grows by a list of operations, and the offsets of its branches are filled in when it is
finished. Both sides are told apart here: what the operations write, and where they put branches
and labels.

* `Assembling.PerformedAt ops op n` — an operation of the list is performed when the code has `n`
  bytes;
* `Assembling.assembled_of_foldlM` — **PROVED**: the code, the open branches and the places of the
  labels are read off the operations;
* `finish_fills_in_branches` — **PROVED**: a body is finished exactly when it is short enough and
  every branch reaches the place of its label; the first obstacle is the one reported; and the
  finished code differs from what was written in the operands of the branches only, each of which
  leads to its label.
-/

namespace ClassForge

namespace Assembling

/-- The bytes that an operation writes. The offset of a branch is still open. -/
def bytes : Assembling → List UInt8
  | .op o => [o.byte]
  | .byte b => [b]
  | .word w => word16 w
  | .branch o _ => o.byte :: word16 0xffff
  | .label | .place _ | .line _ => []

/-- The bytes that operations write. -/
def written (ops : List Assembling) : List UInt8 := ops.flatMap bytes

/-- An operation of the list is performed when the operations before it have written so many
bytes. -/
def PerformedAt (ops : List Assembling) (op : Assembling) (n : Nat) : Prop :=
  ∃ before after, ops = before ++ op :: after ∧ (written before).length = n

/-- A branch at an offset reaches the place that the operations give to its label. -/
def Reaches (ops : List Assembling) (site : Nat) (l : Label) : Prop :=
  ∃ target, PerformedAt ops (.place l) target ∧
    -32768 ≤ (target : Int) - site ∧ (target : Int) - site ≤ 32767

variable {ops before after : List Assembling} {op x : Assembling} {a a' : Assembly}

@[simp]
theorem written_cons : written (op :: ops) = op.bytes ++ written ops := rfl

theorem length_written_append :
    (written (before ++ after)).length = (written before).length + (written after).length := by
  simp [written]

theorem performedAt_cons {n : Nat} :
    PerformedAt (x :: ops) op n ↔
      (x = op ∧ n = 0) ∨ ∃ m, PerformedAt ops op m ∧ n = x.bytes.length + m := by
  constructor
  · rintro ⟨_ | ⟨y, before⟩, after, hops, rfl⟩
    · exact .inl ⟨(List.cons.inj hops).1, rfl⟩
    · obtain ⟨rfl, hrest⟩ := List.cons.inj hops
      exact .inr ⟨_, ⟨before, after, hrest, rfl⟩, by simp⟩
  · rintro (⟨rfl, rfl⟩ | ⟨m, ⟨before, after, rfl, rfl⟩, rfl⟩)
    · exact ⟨[], ops, rfl, rfl⟩
    · exact ⟨x :: before, after, rfl, by simp⟩

theorem performedAt_singleton {n : Nat} : PerformedAt [x] op n ↔ x = op ∧ n = 0 := by
  rw [performedAt_cons]
  simp [PerformedAt]

/-! ### Open branches -/

/-- The branch that an operation leaves open at an offset. -/
def pending (n : Nat) : Assembling → List PendingBranch
  | .branch _ l => [⟨n, l⟩]
  | _ => []

/-- The branches that operations leave open in code that starts at an offset. -/
def pendingFrom : Nat → List Assembling → List PendingBranch
  | _, [] => []
  | n, op :: ops => op.pending n ++ pendingFrom (n + op.bytes.length) ops

theorem mem_pending {n : Nat} {b : PendingBranch} :
    b ∈ op.pending n ↔ b.site = n ∧ ∃ o, op = .branch o b.label := by
  cases op with
  | branch o l =>
    obtain ⟨site, label⟩ := b
    simp [pending, eq_comm]
  | _ => simp [pending]

theorem pending_eq_nil (h : ∀ o l, op ≠ .branch o l) (n : Nat) : op.pending n = [] := by
  rw [List.eq_nil_iff_forall_not_mem]
  intro b hb
  obtain ⟨-, o, ho⟩ := mem_pending.1 hb
  exact h o _ ho

theorem mem_pendingFrom {b : PendingBranch} :
    ∀ {n : Nat}, b ∈ pendingFrom n ops ↔
      ∃ o m, PerformedAt ops (.branch o b.label) m ∧ b.site = n + m := by
  induction ops with
  | nil => simp [pendingFrom, PerformedAt]
  | cons x ops ih =>
    intro n
    rw [pendingFrom, List.mem_append, mem_pending, ih]
    simp only [performedAt_cons]
    constructor
    · rintro (⟨hsite, o, rfl⟩ | ⟨o, m, hm, hsite⟩)
      · exact ⟨o, 0, .inl ⟨rfl, rfl⟩, hsite⟩
      · exact ⟨o, _, .inr ⟨m, hm, rfl⟩, by omega⟩
    · rintro ⟨o, _, ⟨rfl, rfl⟩ | ⟨m, hm, rfl⟩, hsite⟩
      · exact .inl ⟨hsite, o, rfl⟩
      · exact .inr ⟨o, m, hm, by omega⟩

theorem pendingFrom_append :
    ∀ {n : Nat}, pendingFrom n (before ++ after)
      = pendingFrom n before ++ pendingFrom (n + (written before).length) after := by
  induction before with
  | nil => simp [pendingFrom, written]
  | cons x before ih =>
    intro n
    simp only [List.cons_append, pendingFrom, ih, written_cons, List.length_append,
      List.append_assoc, Nat.add_assoc]

/-- The operation that left a branch open, between those of the branches before and after it. -/
theorem exists_split_of_pendingFrom {b : PendingBranch} {rest : List PendingBranch} :
    ∀ {n : Nat} {done : List PendingBranch}, pendingFrom n ops = done ++ b :: rest →
      ∃ before o after, ops = before ++ .branch o b.label :: after ∧
        pendingFrom n before = done ∧ b.site = n + (written before).length := by
  induction ops with
  | nil =>
    intro n done h
    exact absurd h (by simp [pendingFrom])
  | cons x ops ih =>
    intro n done h
    by_cases hx : ∃ o l, x = .branch o l
    · obtain ⟨o, l, rfl⟩ := hx
      rcases done with _ | ⟨d, done⟩
      · obtain ⟨rfl, -⟩ := List.cons.inj h
        exact ⟨[], o, ops, rfl, rfl, rfl⟩
      · obtain ⟨rfl, hrest⟩ := List.cons.inj h
        obtain ⟨before, o', after, rfl, rfl, hsite⟩ := ih hrest
        refine ⟨.branch o l :: before, o', after, rfl, rfl, ?_⟩
        rw [hsite, written_cons, List.length_append, Nat.add_assoc]
    · have hnone : x.pending n = [] := pending_eq_nil (fun o l ho => hx ⟨o, l, ho⟩) n
      rw [pendingFrom, hnone, List.nil_append] at h
      obtain ⟨before, o, after, rfl, hdone, hsite⟩ := ih h
      refine ⟨x :: before, o, after, rfl, by rw [pendingFrom, hnone, List.nil_append, hdone], ?_⟩
      rw [hsite, written_cons, List.length_append, Nat.add_assoc]

/-- An open branch and its operand lie within what the operations write. -/
theorem site_mem_pendingFrom {n : Nat} {b : PendingBranch} (h : b ∈ pendingFrom n ops) :
    n ≤ b.site ∧ b.site + 3 ≤ n + (written ops).length := by
  obtain ⟨o, m, ⟨before, after, rfl, rfl⟩, hsite⟩ := mem_pendingFrom.1 h
  have hlength : (bytes (.branch o b.label)).length = 3 := rfl
  rw [length_written_append, written_cons, List.length_append, hlength]
  omega

/-- Open branches do not overlap. -/
theorem pairwise_pendingFrom :
    ∀ {n : Nat}, (pendingFrom n ops).Pairwise fun b b' => b.site + 3 ≤ b'.site := by
  induction ops with
  | nil => exact .nil
  | cons x ops ih =>
    intro n
    rw [pendingFrom, List.pairwise_append]
    refine ⟨?_, ih, fun b hb b' hb' => ?_⟩
    · cases x <;> simp [pending]
    · obtain ⟨hsite, o, rfl⟩ := mem_pending.1 hb
      have hlength : (bytes (.branch o b.label)).length = 3 := rfl
      have := (site_mem_pendingFrom hb').1
      omega

/-! ### Runs -/

/-- What operations do to a body. -/
structure Assembled (a : Assembly) (ops : List Assembling) (a' : Assembly) : Prop where
  code : a'.code.toList = a.code.toList ++ written ops
  branches : a'.branches.toList = a.branches.toList ++ pendingFrom a.code.size ops
  places : ∀ (l : Label) (t : Nat), a'.labels[l.id]? = some (some t) ↔
    a.labels[l.id]? = some (some t) ∨ ∃ n, PerformedAt ops (.place l) n ∧ t = a.code.size + n
  forms : ∀ o l, .branch o l ∈ ops → o.isShortBranch = true

theorem branch_eq_ok {o : Opcode} {l : Label} (h : a.branch o l = .ok a') :
    o.isShortBranch = true ∧
      a' = { a with code := (a.code.push o.byte) ++ (word16 0xffff).toArray,
                    branches := a.branches.push ⟨a.code.size, l⟩ } := by
  unfold Assembly.branch at h
  by_cases hform : o.isShortBranch
  · rw [if_pos hform] at h
    cases h
    simp [hform, Assembly.writeOp, Assembly.writeByte, Assembly.writeWord]
  · rw [if_neg hform] at h
    cases h

/-- An operation that neither places a label nor branches. -/
theorem assembled_of_plain (hcode : a'.code.toList = a.code.toList ++ op.bytes)
    (hbranches : a'.branches = a.branches)
    (hlabels : ∀ (l : Label) (t : Nat),
      a'.labels[l.id]? = some (some t) ↔ a.labels[l.id]? = some (some t))
    (hplace : ∀ l, op ≠ .place l) (hbranch : ∀ o l, op ≠ .branch o l) : Assembled a [op] a' := by
  refine ⟨by rw [hcode]; simp [written], ?_, fun l t => ?_, fun o l h => ?_⟩
  · simp [hbranches, pendingFrom, pending_eq_nil hbranch]
  · simp [hlabels, performedAt_singleton, hplace]
  · exact absurd (List.mem_singleton.1 h).symm (hbranch o l)

/-- The step: one operation. -/
theorem assembled_apply (h : op.apply a = .ok a') : Assembled a [op] a' := by
  cases op with
  | place l =>
    obtain ⟨hfree, rfl⟩ := Emitter.assembly_placeLabel_eq_ok.1 h
    refine ⟨by simp [written, bytes], by simp [pendingFrom, pending], fun k t => ?_, by simp⟩
    simp only [performedAt_singleton, place.injEq]
    obtain ⟨hlt, -⟩ := Array.getElem?_eq_some_iff.1 hfree
    rw [Array.getElem?_setIfInBounds]
    by_cases hk : l.id = k.id
    · obtain rfl : l = k := by cases l; cases k; congr
      rw [if_pos rfl, if_pos hlt, hfree]
      simp [eq_comm]
    · have hne : l ≠ k := fun heq => hk (congrArg Label.id heq)
      simp [hk, hne]
  | branch o l =>
    obtain ⟨hform, rfl⟩ := branch_eq_ok h
    refine ⟨by simp [written, bytes], by simp [pendingFrom, pending], fun k t => ?_,
      fun o' l' hmem => ?_⟩
    · simp [performedAt_singleton]
    · cases List.mem_singleton.1 hmem
      exact hform
  | label =>
    cases h
    refine assembled_of_plain (by simp [Assembly.newLabel, bytes]) rfl (fun l t => ?_) (by simp)
      (by simp)
    simp only [Assembly.newLabel, Array.getElem?_push]
    by_cases hl : l.id = a.labels.size <;> simp [hl]
  | line n =>
    cases h
    rw [Assembly.markLine_eq]
    exact assembled_of_plain (by simp [bytes]) rfl (fun _ _ => .rfl) (by simp) (by simp)
  | op o =>
    cases h
    exact assembled_of_plain (by simp [Assembly.writeOp, Assembly.writeByte, bytes]) rfl
      (fun _ _ => .rfl) (by simp) (by simp)
  | byte b =>
    cases h
    exact assembled_of_plain (by simp [Assembly.writeByte, bytes]) rfl (fun _ _ => .rfl) (by simp)
      (by simp)
  | word w =>
    cases h
    exact assembled_of_plain (by simp [Assembly.writeWord, bytes]) rfl (fun _ _ => .rfl) (by simp)
      (by simp)

/-- An operation before others. -/
theorem Assembled.cons {a₁ : Assembly} (hstep : Assembled a [op] a₁) (h : Assembled a₁ ops a') :
    Assembled a (op :: ops) a' := by
  have hcode : a₁.code.toList = a.code.toList ++ op.bytes := by simpa [written] using hstep.code
  have hsize : a₁.code.size = a.code.size + op.bytes.length := by
    rw [← Array.length_toList, hcode]
    simp
  refine ⟨?_, ?_, fun l t => ?_, fun o l hmem => ?_⟩
  · rw [h.code, hcode, written_cons, List.append_assoc]
  · rw [h.branches, hstep.branches, hsize]
    simp [pendingFrom]
  · rw [h.places, hstep.places, hsize]
    simp only [performedAt_singleton]
    simp only [performedAt_cons]
    constructor
    · rintro ((hl | ⟨n, ⟨rfl, rfl⟩, rfl⟩) | ⟨n, hn, rfl⟩)
      · exact .inl hl
      · exact .inr ⟨0, .inl ⟨rfl, rfl⟩, rfl⟩
      · exact .inr ⟨_, .inr ⟨n, hn, rfl⟩, by omega⟩
    · rintro (hl | ⟨_, ⟨rfl, rfl⟩ | ⟨m, hm, rfl⟩, rfl⟩)
      · exact .inl (.inl hl)
      · exact .inl (.inr ⟨0, ⟨rfl, rfl⟩, rfl⟩)
      · exact .inr ⟨m, hm, by omega⟩
  · rcases List.mem_cons.1 hmem with rfl | hrest
    · exact hstep.forms o l (List.mem_singleton.2 rfl)
    · exact h.forms o l hrest

/-- **A run** does what its operations say. -/
theorem assembled_of_foldlM :
    ∀ {a : Assembly}, ops.foldlM Assembling.apply a = .ok a' → Assembled a ops a' := by
  induction ops with
  | nil =>
    intro a h
    cases h
    exact ⟨by simp [written], by simp [pendingFrom], by simp [PerformedAt], nofun⟩
  | cons op ops ih =>
    intro a h
    rw [List.foldlM_cons] at h
    obtain ⟨a₁, hstep, hrest⟩ := Except.bind_eq_ok.1 h
    exact (assembled_apply hstep).cons (ih hrest)

end Assembling

namespace Assembly

open Assembling Inspection

variable {a : Assembly} {ops : List Assembling} {labels : Array (Option Nat)}

/-! ### The first obstacle -/

/-- The obstacle that a branch meets. -/
theorem resolve_eq_error {b : PendingBranch} {code : Array UInt8} {e : LimitError}
    (h : resolve labels code b = .error e) :
    ((∀ t : Nat, labels[b.label.id]? ≠ some (some t)) ∧ e = .labelUnplaced b.label.id) ∨
      ∃ t : Nat, labels[b.label.id]? = some (some t) ∧
        ¬(-32768 ≤ (t : Int) - b.site ∧ (t : Int) - b.site ≤ 32767) ∧
        e = .branchTooFar b.site t := by
  unfold resolve at h
  cases hl : labels[b.label.id]?.join with
  | none =>
    rw [hl] at h
    cases h
    refine .inl ⟨fun t ht => ?_, rfl⟩
    rw [ht] at hl
    cases hl
  | some t =>
    simp only [hl] at h
    split_ifs at h with hnear
    cases h
    exact .inr ⟨t, Option.join_eq_some_iff.1 hl, hnear, rfl⟩

/-- Offsets are filled in when every branch is near the place of its label. -/
theorem exists_foldlM_resolve {bs : List PendingBranch} :
    ∀ {code : Array UInt8}, (∀ b ∈ bs, ∃ t : Nat, labels[b.label.id]? = some (some t) ∧
        -32768 ≤ (t : Int) - b.site ∧ (t : Int) - b.site ≤ 32767) →
      ∃ code', bs.foldlM (resolve labels) code = .ok code' := by
  induction bs with
  | nil => exact fun _ => ⟨_, rfl⟩
  | cons b bs ih =>
    intro code h
    obtain ⟨t, hlabel, hlo, hhi⟩ := h b List.mem_cons_self
    have hpatch : resolve labels code b = .ok _ := resolve_eq_ok.2 ⟨t, hlabel, hlo, hhi, rfl⟩
    obtain ⟨code', hrest⟩ := ih fun b' hb' => h b' (List.mem_cons_of_mem b hb')
    exact ⟨code', by rw [List.foldlM_cons, hpatch]; exact hrest⟩

/-- The obstacle that stops the branches is that of one of them, and those before it are filled
in. -/
theorem foldlM_resolve_eq_error {bs : List PendingBranch} {e : LimitError} :
    ∀ {code : Array UInt8}, bs.foldlM (resolve labels) code = .error e →
      ∃ done b rest, bs = done ++ b :: rest ∧
        (∀ b' ∈ done, ∃ t : Nat, labels[b'.label.id]? = some (some t) ∧
          -32768 ≤ (t : Int) - b'.site ∧ (t : Int) - b'.site ≤ 32767) ∧
        ∃ code', resolve labels code' b = .error e := by
  induction bs with
  | nil => exact nofun
  | cons b bs ih =>
    intro code h
    rw [List.foldlM_cons] at h
    cases hb : resolve labels code b with
    | error e' =>
      rw [hb] at h
      cases h
      exact ⟨[], b, bs, rfl, nofun, code, hb⟩
    | ok code₁ =>
      rw [hb] at h
      obtain ⟨t, hlabel, hlo, hhi, -⟩ := resolve_eq_ok.1 hb
      obtain ⟨done, b', rest, rfl, hdone, hstop⟩ := ih h
      refine ⟨b :: done, b', rest, rfl, fun b'' hb'' => ?_, hstop⟩
      rcases List.mem_cons.1 hb'' with rfl | hmem
      · exact ⟨t, hlabel, hlo, hhi⟩
      · exact hdone b'' hmem

/-- A finished body, or the obstacle that the branches meet. -/
theorem finish_eq_map (h : a.code.size ≤ wordMax) (maxStack maxLocals : UInt16) :
    a.finish maxStack maxLocals = (a.branches.toList.foldlM (resolve a.labels) a.code).map
      fun code => { maxStack, maxLocals, code
                    lines := a.lines.toList.filter (·.startPc < UInt16.ofNat a.code.size) } := by
  unfold finish
  simp only [if_neg (Nat.not_lt.2 h), Array.foldlM_toList]
  cases a.branches.foldlM (resolve a.labels) a.code <;> rfl

end Assembly

/-! ### Finishing what was assembled -/

namespace Assembling

open Assembly Inspection

variable {ops : List Assembling} {a : Assembly}

theorem labels_of_assembled (h : Assembled .empty ops a) (l : Label) (t : Nat) :
    a.labels[l.id]? = some (some t) ↔ PerformedAt ops (.place l) t := by
  rw [h.places]
  simp [Assembly.empty]

theorem branches_of_assembled (h : Assembled .empty ops a) :
    a.branches.toList = pendingFrom 0 ops := by
  rw [h.branches]
  rfl

theorem code_of_assembled (h : Assembled .empty ops a) : a.code.toList = written ops := by
  rw [h.code]
  rfl

theorem size_of_assembled (h : Assembled .empty ops a) : a.code.size = (written ops).length := by
  rw [← code_of_assembled h, Array.length_toList]

theorem reaches_iff (h : Assembled .empty ops a) (site : Nat) (l : Label) :
    Reaches ops site l ↔ ∃ t : Nat, a.labels[l.id]? = some (some t) ∧
      -32768 ≤ (t : Int) - site ∧ (t : Int) - site ≤ 32767 := by
  simp only [labels_of_assembled h, Reaches]

/-- A body that fits is finished when every branch reaches its label. -/
theorem exists_finish (h : Assembled .empty ops a) (hfits : (written ops).length ≤ wordMax)
    (hreach : ∀ o site l, PerformedAt ops (.branch o l) site → Reaches ops site l)
    (maxStack maxLocals : UInt16) : ∃ body, a.finish maxStack maxLocals = .ok body := by
  obtain ⟨code, hcode⟩ : ∃ code, a.branches.toList.foldlM (resolve a.labels) a.code
      = .ok code := by
    refine exists_foldlM_resolve fun b hb => ?_
    rw [branches_of_assembled h] at hb
    obtain ⟨o, m, hm, hsite⟩ := mem_pendingFrom.1 hb
    rw [← reaches_iff h, hsite, Nat.zero_add]
    exact hreach o m b.label hm
  rw [finish_eq_map (by rwa [size_of_assembled h]), hcode]
  exact ⟨_, rfl⟩

/-- A body that fits and is not finished is stopped by the first branch out of reach. -/
theorem finish_eq_error (h : Assembled .empty ops a) (hfits : (written ops).length ≤ wordMax)
    {maxStack maxLocals : UInt16} {e : LimitError}
    (hstop : a.finish maxStack maxLocals = .error e) :
    ∃ before o l after, ops = before ++ .branch o l :: after ∧
      (∀ o' site l', PerformedAt before (.branch o' l') site → Reaches ops site l') ∧
      ¬Reaches ops (written before).length l ∧
      ((∀ t, ¬PerformedAt ops (.place l) t) ∧ e = .labelUnplaced l.id ∨
        ∃ t, PerformedAt ops (.place l) t ∧ e = .branchTooFar (written before).length t) := by
  have hfold : (pendingFrom 0 ops).foldlM (resolve a.labels) a.code = .error e := by
    rw [finish_eq_map (by rwa [size_of_assembled h]), branches_of_assembled h] at hstop
    cases hf : (pendingFrom 0 ops).foldlM (resolve a.labels) a.code with
    | error e' =>
      rw [hf] at hstop
      cases hstop
      rfl
    | ok code =>
      rw [hf] at hstop
      cases hstop
  obtain ⟨done, b, rest, hsplit, hdone, code, hb⟩ := foldlM_resolve_eq_error hfold
  obtain ⟨before, o, after, hops, rfl, hsite⟩ := exists_split_of_pendingFrom hsplit
  rw [Nat.zero_add] at hsite
  refine ⟨before, o, b.label, after, hops, fun o' site l' hbranch => ?_, ?_, ?_⟩
  · rw [reaches_iff h]
    exact hdone ⟨site, l'⟩ (mem_pendingFrom.2 ⟨o', site, hbranch, (Nat.zero_add site).symm⟩)
  · rw [reaches_iff h, ← hsite]
    rintro ⟨t, ht, hlo, hhi⟩
    rcases resolve_eq_error hb with ⟨hnone, -⟩ | ⟨t', ht', hfar, -⟩
    · exact hnone t ht
    · rw [ht, Option.some.injEq, Option.some.injEq] at ht'
      exact hfar (ht' ▸ ⟨hlo, hhi⟩)
  · simp only [← labels_of_assembled h, ← hsite]
    rcases resolve_eq_error hb with ⟨hnone, he⟩ | ⟨t, ht, -, he⟩
    · exact .inl ⟨hnone, he⟩
    · exact .inr ⟨t, ht, he⟩

/-- **The finished code**, byte by byte: a branch is followed by the way to its label, and all
other bytes are those that were written. -/
theorem code_of_finish (h : Assembled .empty ops a) {maxStack maxLocals : UInt16}
    {body : MethodBody} (hfinish : a.finish maxStack maxLocals = .ok body) :
    body.code.size = (written ops).length ∧
      (∀ o site l, PerformedAt ops (.branch o l) site → ∃ t, PerformedAt ops (.place l) t ∧
        -32768 ≤ (t : Int) - site ∧ (t : Int) - site ≤ 32767 ∧
        ∀ k c, (word16 (offsetWord (t - site)))[k]? = some c →
          body.code[site + 1 + k]? = some c) ∧
      ∀ k, (∀ o site l, PerformedAt ops (.branch o l) site → k ≠ site + 1 ∧ k ≠ site + 2) →
        body.code[k]? = (written ops)[k]? := by
  obtain ⟨-, hfold, -⟩ := finish_eq_ok hfinish
  rw [branches_of_assembled h] at hfold
  have hresolves := resolves_of_foldlM pairwise_pendingFrom hfold
  refine ⟨hresolves.size.trans (size_of_assembled h), fun o site l hbranch => ?_, fun k hk => ?_⟩
  · have hmem : ⟨site, l⟩ ∈ pendingFrom 0 ops :=
      mem_pendingFrom.2 ⟨o, site, hbranch, (Nat.zero_add site).symm⟩
    have hfits := (site_mem_pendingFrom hmem).2
    rw [Nat.zero_add, ← size_of_assembled h] at hfits
    obtain ⟨t, hlabel, hlo, hhi, hbytes⟩ := hresolves.offsets _ hmem hfits
    exact ⟨t, (labels_of_assembled h l t).1 hlabel, hlo, hhi, hbytes⟩
  · rw [hresolves.others k fun b hb => ?_, ← code_of_assembled h, Array.getElem?_toList]
    obtain ⟨o, m, hm, hsite⟩ := mem_pendingFrom.1 hb
    rw [hsite, Nat.zero_add]
    exact hk o m b.label hm

/-- The branch stands in the finished code with the way to its label. -/
theorem at?_of_finish (h : Assembled .empty ops a) {maxStack maxLocals : UInt16}
    {body : MethodBody} (hfinish : a.finish maxStack maxLocals = .ok body) {o : Opcode}
    {site t : Nat} {l : Label} (hbranch : PerformedAt ops (.branch o l) site)
    (hplace : PerformedAt ops (.place l) t) (hsize : o.operandSize = 2) :
    Instruction.at? body.code site = some (.linked o (offsetWord (t - site)) hsize) ∧
      -32768 ≤ (t : Int) - site ∧ (t : Int) - site ≤ 32767 := by
  obtain ⟨-, hoperands, hothers⟩ := code_of_finish h hfinish
  obtain ⟨t', hplace', hlo, hhi, hbytes⟩ := hoperands o site l hbranch
  -- A label has one place.
  obtain rfl : t = t' := by
    have hboth := ((labels_of_assembled h l t).2 hplace).symm.trans
      ((labels_of_assembled h l t').2 hplace')
    simpa using hboth
  refine ⟨Instruction.at?_eq_some_iff_getElem?.2 fun k c hc => ?_, hlo, hhi⟩
  rcases k with _ | k
  · -- The code byte itself is not part of any operand.
    obtain ⟨before, after, hops, rfl⟩ := hbranch
    obtain rfl : o.byte = c := by simpa [Instruction.bytes, Instruction.linked] using hc
    rw [Nat.add_zero, hothers _ fun o' site' l' hbranch' => ?_, hops]
    · simp [written, bytes]
    · have hmem : ⟨site', l'⟩ ∈ pendingFrom 0 ops :=
        mem_pendingFrom.2 ⟨o', site', hbranch', (Nat.zero_add site').symm⟩
      rw [hops, pendingFrom_append, List.mem_append, pendingFrom, List.mem_append, mem_pending]
        at hmem
      rcases hmem with hmem | ⟨hsite, -⟩ | hmem
      · have := (site_mem_pendingFrom hmem).2
        dsimp only at this
        omega
      · dsimp only at hsite
        omega
      · have := (site_mem_pendingFrom hmem).1
        dsimp only at this
        omega
  · have hword : (word16 (offsetWord (t - site)))[k]? = some c := by
      simpa [Instruction.bytes, Instruction.linked] using hc
    rw [show site + (k + 1) = site + 1 + k by omega]
    exact hbytes k c hword

end Assembling

open Assembling Inspection

/-- **Branches are filled in exactly.** After any operations that go through, the body is finished
if and only if the code fits and every branch reaches the place of its label; code that is too long
is reported first, else the first branch that does not reach its label; and in the finished code
the operand of a branch is the way to its label, which is where inspection takes it to go, while
all other bytes are the ones that were written. -/
theorem finish_fills_in_branches {ops : List Assembling} {a : Assembly}
    (hrun : ops.foldlM Assembling.apply .empty = .ok a) (maxStack maxLocals : UInt16) :
    ((∃ body, a.finish maxStack maxLocals = .ok body) ↔
      (written ops).length ≤ 65535 ∧
        ∀ o site l, PerformedAt ops (.branch o l) site → Reaches ops site l) ∧
    (65535 < (written ops).length →
      a.finish maxStack maxLocals = .error (.codeTooLong (written ops).length)) ∧
    (∀ e, (written ops).length ≤ 65535 → a.finish maxStack maxLocals = .error e →
      ∃ before o l after, ops = before ++ .branch o l :: after ∧
        (∀ o' site l', PerformedAt before (.branch o' l') site → Reaches ops site l') ∧
        ¬Reaches ops (written before).length l ∧
        ((∀ t, ¬PerformedAt ops (.place l) t) ∧ e = .labelUnplaced l.id ∨
          ∃ t, PerformedAt ops (.place l) t ∧ e = .branchTooFar (written before).length t)) ∧
    ∀ body, a.finish maxStack maxLocals = .ok body →
      body.code.size = (written ops).length ∧
      (∀ o site l t, PerformedAt ops (.branch o l) site → PerformedAt ops (.place l) t →
        (∃ w : UInt16, w.toInt16.toInt = t - site ∧
          (body.code.toList.drop (site + 1)).take 2 = word16 w) ∧
        branchTarget body.code o site = pure (t : Int)) ∧
      ∀ k, (∀ o site l, PerformedAt ops (.branch o l) site → k ≠ site + 1 ∧ k ≠ site + 2) →
        body.code[k]? = (written ops)[k]? := by
  have h := assembled_of_foldlM hrun
  have hsize := size_of_assembled h
  refine ⟨⟨?_, fun hreach => exists_finish h hreach.1 hreach.2 maxStack maxLocals⟩, fun hlong => ?_,
    fun e hfits hstop => finish_eq_error h hfits hstop, fun body hfinish => ?_⟩
  · rintro ⟨body, hfinish⟩
    refine ⟨hsize ▸ (Assembly.finish_eq_ok hfinish).1, fun o site l hbranch => ?_⟩
    obtain ⟨t, hplace, hlo, hhi, -⟩ := (code_of_finish h hfinish).2.1 o site l hbranch
    exact ⟨t, hplace, hlo, hhi⟩
  · unfold Assembly.finish
    rw [hsize]
    exact if_pos hlong
  · obtain ⟨hlength, -, hothers⟩ := code_of_finish h hfinish
    refine ⟨hlength, fun o site l t hbranch hplace => ?_, hothers⟩
    have hform : o.isShortBranch = true := by
      obtain ⟨before, after, hops, -⟩ := hbranch
      exact h.forms o l (hops ▸ by simp)
    have htwo := Emitter.operandSize_of_isShortBranch hform
    obtain ⟨hat, hlo, hhi⟩ := at?_of_finish h hfinish hbranch hplace htwo
    refine ⟨⟨Assembly.offsetWord (t - site), ?_, ?_⟩, ?_⟩
    · exact (BitVec.toInt_eq_toNat_bmod _).trans (Instruction.bmod_offsetWord hlo hhi)
    · obtain ⟨rest, hdrop⟩ := Instruction.at?_eq_some_iff.1 hat
      rw [← List.drop_drop, hdrop]
      rfl
    · have hbranches : o.isBranch = true := by
        rw [Opcode.isShortBranch, Bool.and_eq_true] at hform
        exact hform.1
      rw [← Instruction.target_linked_offsetWord hform htwo hlo hhi]
      exact branchTarget_of_at? hat hbranches

/-- A loop: the branch leads back to the label before it. -/
theorem branchTarget_of_loop :
    ∃ a body, [.label, .op .nop, .place ⟨0⟩, .op .nop, .branch .goto ⟨0⟩].foldlM
        Assembling.apply .empty = .ok a ∧
      a.finish 0 1 = .ok body ∧ branchTarget body.code .goto 2 = pure 1 := by
  refine ⟨_, _, rfl, rfl, ?_⟩
  exact (((finish_fills_in_branches rfl 0 1).2.2.2 _ rfl).2.1 .goto 2 ⟨0⟩ 1
    ⟨[.label, .op .nop, .place ⟨0⟩, .op .nop], [], rfl, rfl⟩
    ⟨[.label, .op .nop], [.op .nop, .branch .goto ⟨0⟩], rfl, rfl⟩).2

end ClassForge
