import ClassForge.Body.Assembly
import ClassForge.Proofs.Emission.Action

/-!
# Filling in branch offsets

When a body is finished, the offset of every branch is written behind its code byte.

* `Assembly.resolves_of_foldlM` — **PROVED**: only the operands of the branches change, and each of
  them holds the way to the place of its label;
* `Instruction.target_linked_offsetWord` — **PROVED**: the operand leads to that place.
-/

namespace ClassForge

namespace Instruction

/-- The instruction at an offset, byte by byte. -/
theorem at?_eq_some_iff_getElem? {code : Array UInt8} {pc : Nat} {i : Instruction} :
    at? code pc = some i ↔ ∀ k b, i.bytes[k]? = some b → code[pc + k]? = some b := by
  rw [at?_eq_some_iff]
  constructor
  · rintro ⟨after, hdrop⟩ k b hb
    rw [← Array.getElem?_toList, ← List.getElem?_drop, hdrop,
      List.getElem?_append_left (List.getElem?_eq_some_iff.1 hb).1]
    exact hb
  · intro h
    obtain ⟨after, hafter⟩ : i.bytes <+: code.toList.drop pc := by
      rw [List.prefix_iff_getElem?]
      intro k hk
      rw [List.getElem?_drop, Array.getElem?_toList]
      exact h k _ (List.getElem?_eq_getElem hk)
    exact ⟨after, hafter.symm⟩

/-- An offset within reach is the signed value of its word. -/
theorem bmod_offsetWord {delta : Int} (hlo : -32768 ≤ delta) (hhi : delta ≤ 32767) :
    Int.bmod (Assembly.offsetWord delta).toNat 65536 = delta := by
  have hnat : ((Assembly.offsetWord delta).toNat : Int) = delta % 65536 := by
    unfold Assembly.offsetWord
    rw [UInt16.toNat_ofNat']
    omega
  rw [hnat, Int.bmod_def]
  omega

/-- **A branch with the way to a place leads there.** -/
theorem target_linked_offsetWord {op : Opcode} (hop : op.isShortBranch = true)
    (hsize : op.operandSize = 2) {pc target : Nat} (hlo : -32768 ≤ (target : Int) - pc)
    (hhi : (target : Int) - pc ≤ 32767) :
    (linked op (Assembly.offsetWord (target - pc)) hsize).target pc = target := by
  have hshort : op ≠ .gotoW := by
    rintro rfl
    cases hop
  have hword := word_linked op (Assembly.offsetWord (target - pc)) hsize
  unfold Instruction.target
  rw [if_neg (show (linked op _ hsize).op ≠ .gotoW from hshort), hword, bmod_offsetWord hlo hhi]
  omega

end Instruction

namespace Assembly

theorem size_patchWord (code : Array UInt8) (pos : Nat) (w : UInt16) :
    (patchWord code pos w).size = code.size := by
  simp [patchWord]

theorem getElem?_patchWord_of_ne (code : Array UInt8) {pos k : Nat} (w : UInt16) (h : k ≠ pos)
    (h' : k ≠ pos + 1) : (patchWord code pos w)[k]? = code[k]? := by
  unfold patchWord
  rw [Array.getElem?_setIfInBounds_ne h'.symm, Array.getElem?_setIfInBounds_ne h.symm]

/-- The word stands where it was put. -/
theorem getElem?_patchWord {code : Array UInt8} {pos : Nat} (w : UInt16)
    (h : pos + 1 < code.size) {k : Nat} {b : UInt8} (hb : (word16 w)[k]? = some b) :
    (patchWord code pos w)[pos + k]? = some b := by
  have hbytes : word16 w = [UInt8.ofNat (w.toNat / 256), UInt8.ofNat w.toNat] := by
    simp [word16, beBytes]
  rw [hbytes] at hb
  unfold patchWord
  rcases k with _ | _ | k
  · cases hb
    rw [Array.getElem?_setIfInBounds_ne (by omega), Array.getElem?_setIfInBounds,
      if_pos (by omega), if_pos (by omega)]
  · cases hb
    rw [Array.getElem?_setIfInBounds, if_pos rfl, Array.size_setIfInBounds, if_pos h]
  · cases hb

theorem resolve_eq_ok {labels : Array (Option Nat)} {code code' : Array UInt8}
    {b : PendingBranch} :
    resolve labels code b = .ok code' ↔
      ∃ target : Nat, labels[b.label.id]? = some (some target) ∧
        -32768 ≤ (target : Int) - b.site ∧ (target : Int) - b.site ≤ 32767 ∧
        code' = patchWord code (b.site + 1) (offsetWord (target - b.site)) := by
  unfold resolve
  cases hl : labels[b.label.id]? with
  | none => simp
  | some place? =>
    cases place? with
    | none => simp
    | some target =>
      simp only [Option.join_some, Option.some.injEq, exists_eq_left']
      by_cases hnear : -32768 ≤ (target : Int) - b.site ∧ (target : Int) - b.site ≤ 32767
      · rw [if_pos hnear, Except.ok.injEq]
        exact ⟨fun h => ⟨hnear.1, hnear.2, h.symm⟩, fun h => h.2.2.symm⟩
      · rw [if_neg hnear]
        exact ⟨nofun, fun h => absurd ⟨h.1, h.2.1⟩ hnear⟩

/-- What filling in the offsets of some branches does to the code. -/
structure Resolves (labels : Array (Option Nat)) (bs : List PendingBranch)
    (code code' : Array UInt8) : Prop where
  size : code'.size = code.size
  others : ∀ k, (∀ b ∈ bs, k ≠ b.site + 1 ∧ k ≠ b.site + 2) → code'[k]? = code[k]?
  offsets : ∀ b ∈ bs, b.site + 3 ≤ code.size →
    ∃ target : Nat, labels[b.label.id]? = some (some target) ∧
      -32768 ≤ (target : Int) - b.site ∧ (target : Int) - b.site ≤ 32767 ∧
      ∀ k c, (word16 (offsetWord (target - b.site)))[k]? = some c →
        code'[b.site + 1 + k]? = some c

/-- **Filling in offsets is exact**, for branches that do not overlap. -/
theorem resolves_of_foldlM {labels : Array (Option Nat)} {bs : List PendingBranch}
    (hsites : bs.Pairwise fun b b' => b.site + 3 ≤ b'.site) :
    ∀ {code code' : Array UInt8}, bs.foldlM (resolve labels) code = .ok code' →
      Resolves labels bs code code' := by
  induction bs with
  | nil =>
    intro code code' h
    cases h
    exact ⟨rfl, fun _ _ => rfl, nofun⟩
  | cons b bs ih =>
    intro code code' h
    obtain ⟨hb, hbs⟩ := List.pairwise_cons.1 hsites
    rw [List.foldlM_cons] at h
    obtain ⟨code₁, hpatch, hrest⟩ := Except.bind_eq_ok.1 h
    obtain ⟨target, hlabel, hlo, hhi, rfl⟩ := resolve_eq_ok.1 hpatch
    have hr := ih hbs hrest
    refine ⟨hr.size.trans (size_patchWord _ _ _), fun k hk => ?_, fun b' hb' hfits => ?_⟩
    · obtain ⟨h₁, h₂⟩ := hk b List.mem_cons_self
      rw [hr.others k fun b' hb' => hk b' (List.mem_cons_of_mem b hb'),
        getElem?_patchWord_of_ne _ _ h₁ h₂]
    · rcases List.mem_cons.1 hb' with rfl | hmem
      · refine ⟨target, hlabel, hlo, hhi, fun k c hc => ?_⟩
        have hk : k < 2 := (List.getElem?_eq_some_iff.1 hc).1
        -- The branches that follow leave these two bytes alone.
        rw [hr.others _ fun b'' hb'' => by have := hb b'' hb''; omega]
        exact getElem?_patchWord _ (by omega) hc
      · exact hr.offsets b' hmem (by rw [size_patchWord]; exact hfits)

/-- **A finished body**: no instruction is beyond a word, the offsets are filled in, and line
entries past the end are dropped. -/
theorem finish_eq_ok {a : Assembly} {maxStack maxLocals : UInt16} {body : MethodBody}
    (h : a.finish maxStack maxLocals = .ok body) :
    a.code.size ≤ wordMax ∧ a.branches.toList.foldlM (resolve a.labels) a.code = .ok body.code ∧
      body = { maxStack, maxLocals, code := body.code,
               lines := a.lines.toList.filter (·.startPc < UInt16.ofNat a.code.size) } := by
  unfold finish at h
  by_cases hsize : a.code.size > wordMax
  · simp only [hsize, if_true] at h
    cases h
  · simp only [hsize, if_false] at h
    obtain ⟨code, hcode, hbody⟩ := Except.bind_eq_ok.1 h
    cases hbody
    rw [Array.foldlM_toList]
    exact ⟨Nat.le_of_not_gt hsize, hcode, rfl⟩

end Assembly

end ClassForge
